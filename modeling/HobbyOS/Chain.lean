import Mathlib

/-!
# Linked chains

Intrusive lists: every node holds the link to the next one, and a distinguished
value ends the list (a null pointer, `-1`). The links are a function `next`,
and the nodes met by following them are a list of nodes:

* `Seg next a l c`: from `a`, the links run through the nodes `l`, in order, and
  arrive at `c`;
* `Chain next nil a l`: they end the list, `nil` being no node.

A chain is finite, so it visits no node twice (`Chain.nodup`), and its nodes are
determined by where it starts (`Chain.unique`). Writing the link of a node which
is not on a segment leaves the segment as it is (`Seg.update`), so that the edits
of a list (pushing, popping, splicing a node out) are told apart from its frame.
-/

namespace HobbyOS

open Function List

variable {α : Type*} {next next' : α → α} {nil a b c x : α} {l l1 l2 : List α}

/-- From `a`, the links run through the nodes of the list and arrive at `c`. -/
def Seg (next : α → α) : α → List α → α → Prop
  | a, [], c => a = c
  | a, x :: l, c => a = x ∧ Seg next (next x) l c

/-- From `a`, the links run through the nodes `l` and end at `nil`. -/
def Chain (next : α → α) (nil a : α) (l : List α) : Prop :=
  Seg next a l nil ∧ nil ∉ l

@[simp] theorem seg_nil : Seg next a [] c ↔ a = c := Iff.rfl

@[simp] theorem seg_cons : Seg next a (x :: l) c ↔ a = x ∧ Seg next (next x) l c := Iff.rfl

/-- A segment through a concatenation: both parts, and where they meet. -/
theorem seg_append : Seg next a (l1 ++ l2) c ↔ ∃ b, Seg next a l1 b ∧ Seg next b l2 c := by
  induction l1 generalizing a with
  | nil => simp
  | cons x l1 ih =>
    simp only [cons_append, seg_cons, ih]
    exact ⟨fun ⟨ha, b, h1, h2⟩ => ⟨b, ⟨ha, h1⟩, h2⟩, fun ⟨b, ⟨ha, h1⟩, h2⟩ => ⟨ha, b, h1, h2⟩⟩

/-- A segment with a last node: it arrives there, and follows its link. -/
theorem seg_concat : Seg next a (l ++ [x]) c ↔ Seg next a l x ∧ next x = c := by
  simp only [seg_append, seg_cons, seg_nil]
  constructor
  · rintro ⟨_, h, rfl, hc⟩
    exact ⟨h, hc⟩
  · rintro ⟨h, hc⟩
    exact ⟨x, h, rfl, hc⟩

/-- A segment reads the links of its own nodes only. -/
theorem Seg.congr (h : Seg next a l c) (hn : ∀ x ∈ l, next' x = next x) : Seg next' a l c := by
  induction l generalizing a with
  | nil => exact h
  | cons x l ih =>
    refine ⟨h.1, ?_⟩
    rw [hn x (.head _)]
    exact ih h.2 fun y hy => hn y (.tail _ hy)

/-- Writing the link of a node off the segment keeps it. -/
theorem Seg.update [DecidableEq α] {v : α} (h : Seg next a l c) (hx : x ∉ l) :
    Seg (Function.update next x v) a l c :=
  h.congr fun _ hy => update_of_ne (ne_of_mem_of_not_mem hy hx) _ _

/-- Writing the link of the last node redirects the segment. -/
theorem Seg.redirect [DecidableEq α] (h : Seg next a (l ++ [x]) b) (hx : x ∉ l) :
    Seg (Function.update next x c) a (l ++ [x]) c := by
  rw [seg_concat] at h ⊢
  exact ⟨h.1.update hx, update_self _ _ _⟩

/-- The nodes left when one is spliced out. -/
theorem mem_splice_out (h : (l1 ++ x :: l2).Nodup) {y : α} :
    y ∈ l1 ++ l2 ↔ y ∈ l1 ++ x :: l2 ∧ y ≠ x := by
  have hx := (nodup_cons.1 (nodup_middle.1 h)).1
  constructor
  · intro hy
    refine ⟨?_, ne_of_mem_of_not_mem hy hx⟩
    rw [mem_append] at hy ⊢
    exact hy.imp id (mem_cons_of_mem _)
  · rintro ⟨hy, hne⟩
    simpa [hne] using hy

namespace Chain

@[simp] theorem nil_iff : Chain next nil a [] ↔ a = nil := by simp [Chain]

theorem cons_iff : Chain next nil a (x :: l) ↔ a = x ∧ x ≠ nil ∧ Chain next nil (next x) l := by
  simp only [Chain, seg_cons, mem_cons, not_or]
  exact ⟨fun ⟨⟨ha, hs⟩, hx, hl⟩ => ⟨ha, fun e => hx e.symm, hs, hl⟩,
    fun ⟨ha, hx, hs, hl⟩ => ⟨⟨ha, hs⟩, fun e => hx e.symm, hl⟩⟩

theorem eq_nil (h : Chain next nil nil l) : l = [] := by
  cases l with
  | nil => rfl
  | cons x l =>
    obtain ⟨e, hx, -⟩ := cons_iff.1 h
    exact absurd e.symm hx

theorem exists_cons (h : Chain next nil a l) (ha : a ≠ nil) :
    ∃ l', l = a :: l' ∧ Chain next nil (next a) l' := by
  cases l with
  | nil => exact absurd (nil_iff.1 h) ha
  | cons x l =>
    obtain ⟨rfl, -, h'⟩ := cons_iff.1 h
    exact ⟨l, rfl, h'⟩

/-- The nodes of a chain are determined by where it starts. -/
theorem unique (h1 : Chain next nil a l1) (h2 : Chain next nil a l2) : l1 = l2 := by
  induction l1 generalizing a l2 with
  | nil =>
    rw [nil_iff] at h1
    subst h1
    exact h2.eq_nil.symm
  | cons x l1 ih =>
    obtain ⟨rfl, hx, h⟩ := cons_iff.1 h1
    obtain ⟨l', rfl, h'⟩ := h2.exists_cons hx
    rw [ih h h']

/-- A chain visits no node twice: it would run in a circle. -/
theorem nodup (h : Chain next nil a l) : l.Nodup := by
  induction l generalizing a with
  | nil => exact nodup_nil
  | cons x l ih =>
    obtain ⟨rfl, hx, h'⟩ := cons_iff.1 h
    refine nodup_cons.2 ⟨fun hm => ?_, ih h'⟩
    -- From the second visit on, the chain would be as long as the whole.
    obtain ⟨s, t, rfl⟩ := append_of_mem hm
    obtain ⟨b, -, hb⟩ := seg_append.1 h'.1
    obtain rfl : b = a := hb.1
    have ht : Chain next nil b (b :: t) := ⟨hb, fun hn => h'.2 (mem_append_right s hn)⟩
    have := congrArg List.length (h.unique ht)
    simp only [length_cons, length_append] at this
    omega

theorem congr (h : Chain next nil a l) (hn : ∀ x ∈ l, next' x = next x) : Chain next' nil a l :=
  ⟨h.1.congr hn, h.2⟩

variable [DecidableEq α] {v : α}

/-- Writing the link of a node off the chain keeps it. -/
theorem update (h : Chain next nil a l) (hx : x ∉ l) : Chain (Function.update next x v) nil a l :=
  ⟨h.1.update hx, h.2⟩

/-- Pushing a node: its link is the old start. -/
theorem push (h : Chain next nil a l) (hx : x ∉ l) (hn : x ≠ nil) :
    Chain (Function.update next x a) nil x (x :: l) := by
  refine cons_iff.2 ⟨rfl, hn, ?_⟩
  rw [update_self]
  exact h.update hx

variable (h : Chain next nil a (l1 ++ x :: l2))

include h

/-- Linking the node `x` of a chain to the chain from `b` replaces what
    followed `x`. -/
theorem splice (hb : Chain next nil b l) (hx : x ∉ l) :
    Chain (Function.update next x b) nil a (l1 ++ x :: l) := by
  have hnd : x ∉ l1 := fun hm => by
    have := nodup_append.1 h.nodup
    exact this.2.2 x hm x mem_cons_self rfl
  have hseg : Seg next a (l1 ++ [x]) (next x) := by
    obtain ⟨y, h1, h2⟩ := seg_append.1 h.1
    obtain ⟨rfl, -⟩ := h2
    exact seg_concat.2 ⟨h1, rfl⟩
  refine ⟨?_, ?_⟩
  · rw [show l1 ++ x :: l = (l1 ++ [x]) ++ l by simp]
    exact seg_append.2 ⟨b, hseg.redirect hnd, hb.1.update hx⟩
  · intro hm
    rcases mem_append.1 hm with hm | hm
    · exact h.2 (mem_append_left _ hm)
    · rcases mem_cons.1 hm with rfl | hm
      · exact h.2 (mem_append_right _ (.head _))
      · exact hb.2 hm

/-- Splicing the node `x` out: it is the first one, or the link of the one
    before it is redirected. -/
theorem remove : (a = x ∧ l1 = [] ∧ Chain next nil (next x) l2) ∨
      a ≠ x ∧ ∃ l y, l1 = l ++ [y] ∧ Chain (Function.update next y (next x)) nil a (l1 ++ l2) := by
  have hnd := nodup_append.1 h.nodup
  have hx : Chain next nil (next x) l2 := by
    obtain ⟨b, -, rfl, h2⟩ := seg_append.1 h.1
    exact ⟨h2, fun hm => h.2 (mem_append_right _ (.tail _ hm))⟩
  rcases eq_nil_or_concat l1 with rfl | ⟨l, y, rfl⟩
  · exact .inl ⟨h.1.1, rfl, hx⟩
  rw [concat_eq_append] at h hnd ⊢
  refine .inr ⟨?_, l, y, rfl, ?_⟩
  · -- The chain starts in `l ++ [y]`, and meets `x` once.
    rintro rfl
    obtain ⟨b, t, he⟩ := exists_cons_of_ne_nil (append_ne_nil_of_right_ne_nil l
      (cons_ne_nil y []))
    rw [he, cons_append] at h
    obtain rfl := h.1.1
    exact hnd.2.2 a (he ▸ (.head _)) a mem_cons_self rfl
  · rw [append_assoc] at h ⊢
    refine h.splice hx fun hy => ?_
    exact hnd.2.2 y (by simp) y (.tail _ hy) rfl

/-- Moving the node `x` from one chain to the front of another. -/
theorem move {m : List α} (hb : Chain next nil b m) (hd : (l1 ++ x :: l2).Disjoint m) :
    (a = x ∧ Chain (Function.update next x b) nil (next x) (l1 ++ l2) ∧
      Chain (Function.update next x b) nil x (x :: m)) ∨
    a ≠ x ∧ ∃ l y, l1 = l ++ [y] ∧
      Chain (Function.update (Function.update next y (next x)) x b) nil a (l1 ++ l2) ∧
      Chain (Function.update (Function.update next y (next x)) x b) nil x (x :: m) := by
  have hnil : x ≠ nil := fun e => h.2 (e ▸ by simp)
  have hx : x ∉ l1 ++ l2 := (nodup_cons.1 (nodup_middle.1 h.nodup)).1
  have hxm : x ∉ m := hd (by simp)
  rcases h.remove with ⟨e, rfl, h2⟩ | ⟨hne, l, y, rfl, h2⟩
  · exact .inl ⟨e, h2.update hx, hb.push hxm hnil⟩
  · exact .inr ⟨hne, l, y, rfl, h2.update hx, (hb.update (hd (by simp))).push hxm hnil⟩

end Chain

end HobbyOS
