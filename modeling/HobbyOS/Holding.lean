import Mathlib

/-!
# Objects held in common

Some objects consist of pages, each at a place of its own. Several holders may hold the same
object: then all of them map the same pages, at the same places. A holder may map other pages, too,
at places outside of the objects it holds.

`Fair` says that the pages of an object belong to it alone: whoever maps one of them does so
at its place, and holds the object. It is kept

* when a holder lets go of an object (`Fair.drop`), whose pages are not mapped any more if there
  is no other holder (`Fair.eq_of_sole`), and belong to an object as before otherwise
  (`Fair.drop_pages`);
* when a holder gets an object, made of fresh pages (`Fair.add`), or held by another holder
  already (`Fair.share`);
* when the pages outside of the objects change (`Fair.outside`).
-/

namespace HobbyOS

variable {α β ν π : Type*}

/-- Which objects the holders hold, and which pages they map. -/
@[ext] structure Holding (α β ν π : Type*) where
  holds : α → β → Prop
  maps : α → ν → π → Prop

namespace Holding

variable (has : β → ν → Prop) (h : Holding α β ν π)

/-- The holders of an object. -/
def holders (b : β) : Set α := {a | h.holds a b}

/-- The pages of the objects which are held. -/
def pages : Set π := {p | ∃ a b x, h.holds a b ∧ has b x ∧ h.maps a x p}

/-- The place is not one of an object the holder holds. -/
def Outside (a : α) (x : ν) : Prop := ∀ b, h.holds a b → ¬ has b x

/-- The objects of a holder are disjoint, its pages are mapped, and are the same for
    all holders of an object, and nobody else's. -/
structure Fair : Prop where
  disjoint : ∀ {a b b' x}, h.holds a b → h.holds a b' → has b x → has b' x → b' = b
  mapped : ∀ {a b x}, h.holds a b → has b x → ∃ p, h.maps a x p
  same : ∀ {a a' b x p p'}, h.holds a b → h.holds a' b → has b x → h.maps a x p → h.maps a' x p' →
    p' = p
  apart : ∀ {a a' b x x' p}, h.holds a b → has b x → h.maps a x p → h.maps a' x' p →
    x' = x ∧ h.holds a' b

/-- A holder lets go of an object, and unmaps its pages. -/
def drop (a : α) (b : β) : Holding α β ν π where
  holds a' b' := h.holds a' b' ∧ ¬ (a' = a ∧ b' = b)
  maps a' x p := h.maps a' x p ∧ ¬ (a' = a ∧ has b x)

/-- A holder gets an object, and maps the page `f x` at every place `x` of it. -/
def add (a : α) (b : β) (f : ν → π) : Holding α β ν π where
  holds a' b' := h.holds a' b' ∨ (a' = a ∧ b' = b)
  maps a' x p := h.maps a' x p ∨ (a' = a ∧ has b x ∧ f x = p)

variable {has h} {a a' c : α} {b b' : β} {x x' : ν} {p : π} {f : ν → π}

/-- A page mapped outside of the objects is none of theirs. -/
theorem Fair.notMem_pages (hf : h.Fair has) (hm : h.maps a x p) (ho : h.Outside has a x) :
    p ∉ h.pages has := by
  rintro ⟨a', b, x', hab, hx, hm'⟩
  obtain ⟨rfl, hab'⟩ := hf.apart hab hx hm' hm
  exact ho b hab' hx

/-- The pages of an object with one holder are mapped once. -/
theorem Fair.eq_of_sole (hf : h.Fair has) (hab : h.holds a b) (hsole : h.holders b = {a})
    (hx : has b x) (hm : h.maps a x p) (hm' : h.maps a' x' p) : a' = a ∧ x' = x := by
  obtain ⟨rfl, ha'⟩ := hf.apart hab hx hm hm'
  have hmem : a' ∈ h.holders b := ha'
  rw [hsole] at hmem
  exact ⟨hmem, rfl⟩

/-! ## Letting go -/

theorem Fair.drop (hf : h.Fair has) (hab : h.holds a b) : (h.drop has a b).Fair has where
  disjoint h1 h2 := hf.disjoint h1.1 h2.1
  mapped := by
    intro a' b' x h1 hx
    obtain ⟨p, hp⟩ := hf.mapped h1.1 hx
    refine ⟨p, hp, ?_⟩
    rintro ⟨rfl, hx'⟩
    exact h1.2 ⟨rfl, hf.disjoint hab h1.1 hx' hx⟩
  same h1 h2 hx hm hm' := hf.same h1.1 h2.1 hx hm.1 hm'.1
  apart := by
    intro a1 a2 b' x x' p h1 hx hm hm'
    obtain ⟨rfl, h2⟩ := hf.apart h1.1 hx hm.1 hm'.1
    refine ⟨rfl, h2, ?_⟩
    rintro ⟨rfl, rfl⟩
    exact hm'.2 ⟨rfl, hx⟩

/-- The pages belong to an object as before, but for those of the object if this was the last
    holder. -/
theorem Fair.drop_pages (hf : h.Fair has) (hab : h.holds a b) (hp : p ∈ h.pages has) :
    p ∈ (h.drop has a b).pages has ∨ (h.holders b = {a} ∧ ∃ x, has b x ∧ h.maps a x p) := by
  obtain ⟨a', b', x, hab', hx, hm⟩ := hp
  by_cases he : a' = a ∧ b' = b
  · obtain ⟨rfl, rfl⟩ := he
    by_cases hother : ∃ c, h.holds c b' ∧ c ≠ a'
    · -- Another holder maps the same page at this place.
      obtain ⟨c, hc, hne⟩ := hother
      obtain ⟨p', hp'⟩ := hf.mapped hc hx
      obtain rfl := hf.same hab hc hx hm hp'
      exact .inl ⟨c, b', x, ⟨hc, fun e => hne e.1⟩, hx, hp', fun e => hne e.1⟩
    · push Not at hother
      exact .inr ⟨Set.eq_singleton_iff_unique_mem.2 ⟨hab, hother⟩, x, hx, hm⟩
  · refine .inl ⟨a', b', x, ⟨hab', he⟩, hx, hm, ?_⟩
    rintro ⟨rfl, hx'⟩
    exact he ⟨rfl, hf.disjoint hab hab' hx' hx⟩

theorem drop_holders_self : (h.drop has a b).holders b = h.holders b \ {a} := by
  ext c
  exact and_congr_right fun _ => not_congr (and_iff_left rfl)

theorem drop_holders_of_ne (hne : b' ≠ b) : (h.drop has a b).holders b' = h.holders b' := by
  ext c
  exact and_iff_left fun e => hne e.2

/-! ## Gaining holders -/

section Add

variable {f : ν → π} (hfree : ∀ x p, has b x → ¬ h.maps a x p)
  (hout : ∀ x, has b x → h.Outside has a x)

include hfree hout

variable {b' : β}

/-- A page of an object after `add` is one of an object before, or one of the new object. -/
theorem of_add (h1 : (h.add has a b f).holds a' b') (hx : has b' x)
    (hm : (h.add has a b f).maps a' x p) :
    (h.holds a' b' ∧ h.maps a' x p) ∨ (b' = b ∧ f x = p) := by
  rcases h1 with h1 | ⟨rfl, rfl⟩
  · rcases hm with hm | ⟨rfl, hx', -⟩
    · exact .inl ⟨h1, hm⟩
    · exact absurd hx (hout x hx' b' h1)
  · rcases hm with hm | ⟨-, -, hp⟩
    · exact absurd hm (hfree x p hx)
    · exact .inr ⟨rfl, hp⟩

omit hfree in
theorem Fair.add_disjoint (hf : h.Fair has) {b1 b2 : β} (h1 : (h.add has a b f).holds a' b1)
    (h2 : (h.add has a b f).holds a' b2) (hx1 : has b1 x) (hx2 : has b2 x) : b2 = b1 := by
  rcases h1 with h1 | ⟨rfl, rfl⟩
  · rcases h2 with h2 | ⟨rfl, rfl⟩
    · exact hf.disjoint h1 h2 hx1 hx2
    · exact absurd hx1 (hout x hx2 b1 h1)
  · rcases h2 with h2 | ⟨-, rfl⟩
    · exact absurd hx2 (hout x hx1 b2 h2)
    · rfl

omit hfree hout in
theorem Fair.add_mapped (hf : h.Fair has) (h1 : (h.add has a b f).holds a' b') (hx : has b' x) :
    ∃ p, (h.add has a b f).maps a' x p := by
  rcases h1 with h1 | ⟨rfl, rfl⟩
  · obtain ⟨p, hp⟩ := hf.mapped h1 hx
    exact ⟨p, .inl hp⟩
  · exact ⟨f x, .inr ⟨rfl, hx, rfl⟩⟩

/-- The object is made of pages nobody maps. -/
theorem Fair.add (hf : h.Fair has) (hnew : ∀ a', ¬ h.holds a' b)
    (hfresh : ∀ x a' x', has b x → ¬ h.maps a' x' (f x))
    (hinj : ∀ x x', has b x → has b x' → f x' = f x → x' = x) : (h.add has a b f).Fair has where
  disjoint := hf.add_disjoint hout
  mapped := hf.add_mapped
  same := by
    intro a1 a2 b' x p p' h1 h2 hx hm hm'
    rcases of_add hfree hout h1 hx hm with ⟨h1', hm1⟩ | ⟨rfl, rfl⟩
    · rcases of_add hfree hout h2 hx hm' with ⟨h2', hm2⟩ | ⟨rfl, -⟩
      · exact hf.same h1' h2' hx hm1 hm2
      · exact absurd h1' (hnew _)
    · rcases of_add hfree hout h2 hx hm' with ⟨h2', -⟩ | ⟨-, rfl⟩
      · exact absurd h2' (hnew _)
      · rfl
  apart := by
    intro a1 a2 b' x x' p h1 hx hm hm'
    rcases of_add hfree hout h1 hx hm with ⟨h1', hm1⟩ | ⟨rfl, rfl⟩
    · rcases hm' with hm' | ⟨-, hx', rfl⟩
      · exact (hf.apart h1' hx hm1 hm').imp id .inl
      · exact absurd hm1 (hfresh x' _ _ hx')
    · rcases hm' with hm' | ⟨rfl, hx', hp⟩
      · exact absurd hm' (hfresh x _ _ hx)
      · exact ⟨hinj x x' hx hx' hp, .inr ⟨rfl, rfl⟩⟩

/-- The object is held by another holder, and made of the pages this one maps. -/
theorem Fair.share (hf : h.Fair has) (hcb : h.holds c b) (hc : ∀ x, has b x → h.maps c x (f x)) :
    (h.add has a b f).Fair has := by
  -- Every page of an object is mapped by a holder of it before.
  have hold : ∀ {a' b' x p}, (h.add has a b f).holds a' b' → has b' x →
      (h.add has a b f).maps a' x p → ∃ a1, h.holds a1 b' ∧ h.maps a1 x p := by
    intro a' b' x p h1 hx hm
    rcases of_add hfree hout h1 hx hm with h1' | ⟨rfl, rfl⟩
    · exact ⟨a', h1'⟩
    · exact ⟨c, hcb, hc x hx⟩
  refine ⟨hf.add_disjoint hout, hf.add_mapped, ?_, ?_⟩
  · intro a1 a2 b' x p p' h1 h2 hx hm hm'
    obtain ⟨_, h1', hm1⟩ := hold h1 hx hm
    obtain ⟨_, h2', hm2⟩ := hold h2 hx hm'
    exact hf.same h1' h2' hx hm1 hm2
  · intro a1 a2 b' x x' p h1 hx hm hm'
    obtain ⟨_, h1', hm1⟩ := hold h1 hx hm
    rcases hm' with hm' | ⟨rfl, hx', rfl⟩
    · exact (hf.apart h1' hx hm1 hm').imp id .inl
    · obtain ⟨rfl, hcb'⟩ := hf.apart h1' hx hm1 (hc x' hx')
      exact ⟨rfl, .inr ⟨rfl, hf.disjoint hcb hcb' hx' hx⟩⟩

end Add

theorem add_pages (hp : p ∈ h.pages has) : p ∈ (h.add has a b f).pages has := by
  obtain ⟨a', b', x, hab', hx, hm⟩ := hp
  exact ⟨a', b', x, .inl hab', hx, .inl hm⟩

theorem add_holders_self : (h.add has a b f).holders b = insert a (h.holders b) := by
  ext a'
  exact ⟨fun h' => h'.elim .inr fun e => .inl e.1, fun h' => h'.elim (fun e => .inr ⟨e, rfl⟩) .inl⟩

theorem add_holders_of_ne (hne : b' ≠ b) : (h.add has a b f).holders b' = h.holders b' := by
  ext a'
  exact or_iff_left fun e => hne e.2

/-! ## Outside of the objects -/

/-- Other pages are mapped, or none, outside of the objects. -/
theorem Fair.outside (hf : h.Fair has) {h' : Holding α β ν π} (hholds : h'.holds = h.holds)
    (hkeep : ∀ {a b x p}, h.holds a b → has b x → h.maps a x p → h'.maps a x p)
    (hnew : ∀ {a x p}, h'.maps a x p → h.maps a x p ∨ (h.Outside has a x ∧ p ∉ h.pages has)) :
    h'.Fair has where
  disjoint := by
    rw [hholds]
    exact hf.disjoint
  mapped := by
    rw [hholds]
    intro a b x hab hx
    obtain ⟨p, hp⟩ := hf.mapped hab hx
    exact ⟨p, hkeep hab hx hp⟩
  same := by
    rw [hholds]
    intro a a' b x p p' hab hab' hx hm hm'
    rcases hnew hm with hm | ⟨ho, -⟩
    · rcases hnew hm' with hm' | ⟨ho, -⟩
      · exact hf.same hab hab' hx hm hm'
      · exact absurd hx (ho b hab')
    · exact absurd hx (ho b hab)
  apart := by
    rw [hholds]
    intro a a' b x x' p hab hx hm hm'
    rcases hnew hm with hm | ⟨ho, -⟩
    · rcases hnew hm' with hm' | ⟨-, hp⟩
      · exact hf.apart hab hx hm hm'
      · exact absurd ⟨a, b, x, hab, hx, hm⟩ hp
    · exact absurd hx (ho b hab)

end Holding

end HobbyOS
