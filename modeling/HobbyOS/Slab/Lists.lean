import HobbyOS.Slab.Slots

/-!
# The lists of a cache

`m_partial`, `m_full` and `m_empty` are chains which share no slab and together
hold all of them (`Links`), sorted by the number of free slots (`Lists`). Both
parts of `alloc` and both loops of `free` move at most one slab to the front of
another list.

One move is not what it seems. `alloc` takes the first slab of `m_empty` for its
new `m_partial` and does not end the list there: the slab is still linked to the
next one in `m_empty`. The lists are apart again only if there is no next one, so
the invariant is kept by the allocations which find a slab in `m_partial` or at
most one in `m_empty` (`Settled`).
-/

namespace HobbyOS.MemCache

open Function List

variable {c c' : MemCache} {out : Set ℕ} {a i obj page x : ℕ} {P F E l1 l2 l : List ℕ}

/-- The slabs of the three lists. -/
structure Links (c : MemCache) (P F E : List ℕ) : Prop where
  partialChain : Chain c.next 0 c.partialHead P
  fullChain : Chain c.next 0 c.fullHead F
  emptyChain : Chain c.next 0 c.emptyHead E
  perm : (P ++ F ++ E).Perm c.slabs
  nodup : (P ++ F ++ E).Nodup

namespace Links

variable (h : Links c P F E)

include h

theorem mem_slabs : a ∈ c.slabs ↔ a ∈ P ∨ a ∈ F ∨ a ∈ E := by
  rw [← h.perm.mem_iff, append_assoc, mem_append, mem_append]

theorem disjoint : P.Disjoint F ∧ P.Disjoint E ∧ F.Disjoint E := by
  have h1 := nodup_append'.1 h.nodup
  have h2 := nodup_append'.1 h1.1
  exact ⟨h2.2.2, fun a ha => h1.2.2 (mem_append_left _ ha),
    fun a ha => h1.2.2 (mem_append_right _ ha)⟩

theorem partial_length_le : P.length ≤ c.slabs.length := by
  have := h.perm.length_eq
  simp only [length_append] at this
  omega

theorem full_length_le : F.length ≤ c.slabs.length := by
  have := h.perm.length_eq
  simp only [length_append] at this
  omega

/-- The lists depend on the links and on where they start. -/
theorem congr (hn : c'.next = c.next) (hp : c'.partialHead = c.partialHead)
    (hf : c'.fullHead = c.fullHead) (he : c'.emptyHead = c.emptyHead) (hs : c'.slabs = c.slabs) :
    Links c' P F E := by
  refine ⟨?_, ?_, ?_, ?_, h.nodup⟩
  · rw [hn, hp]
    exact h.partialChain
  · rw [hn, hf]
    exact h.fullChain
  · rw [hn, he]
    exact h.emptyChain
  · rw [hs]
    exact h.perm

end Links

@[simp] theorem setNext_next : (c.setNext a x).next = update c.next a x := by
  funext b
  by_cases hb : b = a
  · subst hb
    simp [next, setNext, setSlab]
  · simp [next, setNext, setSlab, hb]

/-- Changing a header without its link. -/
theorem setSlab_next {s : Slab} (hs : s.next = c.next a) : (c.setSlab a s).next = c.next := by
  funext b
  by_cases hb : b = a
  · subst hb
    simpa [next, setSlab] using hs
  · simp [next, setSlab, hb]

@[simp] theorem popSlot_next : (c.popSlot a).next = c.next := setSlab_next rfl

@[simp] theorem pushSlot_next : (c.pushSlot a i).next = c.next := setSlab_next rfl

/-! ## Moving slabs -/

/-- Two caches which differ in their links, and where the lists start, only. -/
structure Relinked (c c' : MemCache) : Prop where
  objSize_eq : c'.objSize = c.objSize
  slabSize_eq : c'.slabSize = c.slabSize
  mem_eq : c'.mem = c.mem
  slabs_eq : c'.slabs = c.slabs
  slab_eq : ∀ b, ∃ n, c'.slab b = { c.slab b with next := n }

namespace Relinked

theorem trans {c'' : MemCache} (h : Relinked c c') (h' : Relinked c' c'') : Relinked c c'' := by
  refine ⟨h'.1.trans h.1, h'.2.trans h.2, h'.3.trans h.3, h'.4.trans h.4, fun b => ?_⟩
  obtain ⟨n, hn⟩ := h.slab_eq b
  obtain ⟨n', hn'⟩ := h'.slab_eq b
  exact ⟨n', by rw [hn', hn]⟩

theorem setNext (c : MemCache) (a x : ℕ) : Relinked c (c.setNext a x) := by
  refine ⟨rfl, rfl, rfl, rfl, fun b => ?_⟩
  by_cases hb : b = a
  · exact ⟨x, by rw [hb]; exact update_self _ _ _⟩
  · exact ⟨_, update_of_ne hb _ _⟩

/-- Changing where the lists start. -/
theorem setHeads (c : MemCache) (f e p : ℕ) :
    Relinked c { c with fullHead := f, emptyHead := e, partialHead := p } :=
  ⟨rfl, rfl, rfl, rfl, fun _ => ⟨_, rfl⟩⟩

theorem unlinkPartial (c : MemCache) (it prev : ℕ) : Relinked c (c.unlinkPartial it prev) := by
  rw [MemCache.unlinkPartial]
  split_ifs
  · exact setHeads c _ _ _
  · exact setNext c _ _

theorem unlinkFull (c : MemCache) (it prev : ℕ) : Relinked c (c.unlinkFull it prev) := by
  rw [MemCache.unlinkFull]
  split_ifs
  · exact setHeads c _ _ _
  · exact setNext c _ _

end Relinked

/-- The slab `it` unlinked from the list that starts at `head`, the slab before it being `prev`:
    the new start of the list, and the links. -/
def unlinked (next : ℕ → ℕ) (head it prev : ℕ) : ℕ × (ℕ → ℕ) :=
  if it = head then (next it, next) else (head, Function.update next prev (next it))

theorem unlinkPartial_eq (c : MemCache) (it prev : ℕ) :
    (c.unlinkPartial it prev).next = (unlinked c.next c.partialHead it prev).2 ∧
      (c.unlinkPartial it prev).partialHead = (unlinked c.next c.partialHead it prev).1 ∧
      (c.unlinkPartial it prev).fullHead = c.fullHead ∧
      (c.unlinkPartial it prev).emptyHead = c.emptyHead := by
  rw [unlinkPartial, unlinked]
  split_ifs
  · exact ⟨rfl, rfl, rfl, rfl⟩
  · exact ⟨setNext_next, rfl, rfl, rfl⟩

theorem unlinkFull_eq (c : MemCache) (it prev : ℕ) :
    (c.unlinkFull it prev).next = (unlinked c.next c.fullHead it prev).2 ∧
      (c.unlinkFull it prev).fullHead = (unlinked c.next c.fullHead it prev).1 ∧
      (c.unlinkFull it prev).partialHead = c.partialHead ∧
      (c.unlinkFull it prev).emptyHead = c.emptyHead := by
  rw [unlinkFull, unlinked]
  split_ifs
  · exact ⟨rfl, rfl, rfl, rfl⟩
  · exact ⟨setNext_next, rfl, rfl, rfl⟩

/-- The last of the slabs passed, if any. -/
def lastOr (prev : ℕ) (l : List ℕ) : ℕ := l.getLast?.getD prev

/-- Moving a slab to the front of another list leaves three chains. -/
theorem chain_unlinked {next : ℕ → ℕ} {h1 h2 h3 : ℕ} {m : List ℕ}
    (hX : Chain next 0 h1 (l1 ++ a :: l2)) (hY : Chain next 0 h2 l) (hZ : Chain next 0 h3 m)
    (hXY : (l1 ++ a :: l2).Disjoint l) (hXZ : (l1 ++ a :: l2).Disjoint m) :
    let u := unlinked next h1 a (lastOr 0 l1)
    let next' := update u.2 a h2
    Chain next' 0 u.1 (l1 ++ l2) ∧ Chain next' 0 a (a :: l) ∧ Chain next' 0 h3 m := by
  rcases hX.move hY hXY with ⟨rfl, hX', hY'⟩ | ⟨hne, l', y, rfl, hX', hY'⟩
  · simp only [unlinked]
    exact ⟨hX', hY', hZ.update (hXZ (by simp))⟩
  · have hlast : lastOr 0 (l' ++ [y]) = y := by simp [lastOr]
    simp only [unlinked, if_neg hne.symm, hlast]
    exact ⟨hX', hY', (hZ.update (hXZ (by simp))).update (hXZ (by simp))⟩

namespace Links

/-- The same slabs are in other lists. -/
theorem relink {P' F' E' : List ℕ} (h : Links c P F E) (hP : Chain c'.next 0 c'.partialHead P')
    (hF : Chain c'.next 0 c'.fullHead F') (hE : Chain c'.next 0 c'.emptyHead E')
    (hs : c'.slabs = c.slabs) (hp : (P' ++ F' ++ E').Perm (P ++ F ++ E)) : Links c' P' F' E' :=
  ⟨hP, hF, hE, hs ▸ hp.trans h.perm, hp.nodup_iff.2 h.nodup⟩

section

variable (h : Links c (l1 ++ a :: l2) F E) (hs : c'.slabs = c.slabs)
  (hp : c'.partialHead = (unlinked c.next c.partialHead a (lastOr 0 l1)).1)

include h hs hp

/-- The first slab of `m_partial`, or a later one, moved to `m_full`. -/
theorem partialToFull
    (hn : c'.next = update (unlinked c.next c.partialHead a (lastOr 0 l1)).2 a c.fullHead)
    (hf : c'.fullHead = a) (he : c'.emptyHead = c.emptyHead) : Links c' (l1 ++ l2) (a :: F) E := by
  obtain ⟨h1, h2, h3⟩ := chain_unlinked h.partialChain h.fullChain h.emptyChain h.disjoint.1
    h.disjoint.2.1
  exact h.relink (by rwa [hn, hp]) (by rwa [hn, hf]) (by rwa [hn, he]) hs (by grind)

/-- A slab of `m_partial` moved to `m_empty`. -/
theorem partialToEmpty
    (hn : c'.next = update (unlinked c.next c.partialHead a (lastOr 0 l1)).2 a c.emptyHead)
    (hf : c'.fullHead = c.fullHead) (he : c'.emptyHead = a) : Links c' (l1 ++ l2) F (a :: E) := by
  obtain ⟨h1, h2, h3⟩ := chain_unlinked h.partialChain h.emptyChain h.fullChain h.disjoint.2.1
    h.disjoint.1
  exact h.relink (by rwa [hn, hp]) (by rwa [hn, hf]) (by rwa [hn, he]) hs (by grind)

end

/-- A slab of `m_full` moved to `m_partial`. -/
theorem fullToPartial (h : Links c P (l1 ++ a :: l2) E)
    (hn : c'.next = update (unlinked c.next c.fullHead a (lastOr 0 l1)).2 a c.partialHead)
    (hp : c'.partialHead = a) (hf : c'.fullHead = (unlinked c.next c.fullHead a (lastOr 0 l1)).1)
    (he : c'.emptyHead = c.emptyHead) (hs : c'.slabs = c.slabs) :
    Links c' (a :: P) (l1 ++ l2) E := by
  obtain ⟨h1, h2, h3⟩ := chain_unlinked h.fullChain h.partialChain h.emptyChain h.disjoint.1.symm
    h.disjoint.2.2
  exact h.relink (by rwa [hn, hp]) (by rwa [hn, hf]) (by rwa [hn, he]) hs (by grind)

end Links

/-- The walk along a list stops at the first slab containing the object. -/
theorem findLoop_spec (obj prev : ℕ) {it fuel : ℕ} (h : Chain c.next 0 it l)
    (hf : l.length < fuel) :
    (c.findLoop obj fuel it prev = some none ∧ ∀ a ∈ l, c.contains a obj = false) ∨
    ∃ l1 a l2, l = l1 ++ a :: l2 ∧ c.contains a obj = true ∧
      c.findLoop obj fuel it prev = some (some (a, lastOr prev l1)) := by
  induction fuel generalizing it prev l with
  | zero => exact absurd hf (Nat.not_lt_zero _)
  | succ fuel ih =>
    cases l with
    | nil =>
      rw [Chain.nil_iff.1 h]
      exact .inl ⟨by simp [findLoop], by simp⟩
    | cons a l =>
      obtain ⟨rfl, hne, h'⟩ := Chain.cons_iff.1 h
      rw [length_cons, Nat.succ_lt_succ_iff] at hf
      by_cases hc : c.contains it obj = true
      · exact .inr ⟨[], it, l, rfl, hc, by simp [findLoop, hne, hc, lastOr]⟩
      rcases ih it h' hf with ⟨he, hl⟩ | ⟨l1, a, l2, rfl, ha, he⟩
      · refine .inl ⟨by simpa [findLoop, hne, hc] using he, fun b hb => ?_⟩
        rcases mem_cons.1 hb with rfl | hb
        · simpa using hc
        · exact hl b hb
      · refine .inr ⟨it :: l1, a, l2, rfl, ha, ?_⟩
        rw [findLoop, if_neg hne, if_neg hc, he]
        simp [lastOr, List.getLast?_cons]

/-! ## The invariant -/

/-- The lists of a cache whose objects `out` are handed out. The slabs in
    `m_partial` have a free slot; that some slot of each is handed out is `Used`. -/
structure Lists (c : MemCache) (out : Set ℕ) (P F E : List ℕ) : Prop where
  sized : Sized c
  links : Links c P F E
  ne_full : ∀ a ∈ P, (c.slab a).freeSlots ≠ 0
  full : ∀ a ∈ F, (c.slab a).freeSlots = 0
  empty : ∀ a ∈ E, (c.slab a).freeSlots = c.slotCount
  slots : ∀ a ∈ c.slabs, ∃ fs, Slots c out a fs
  mem_out : ∀ p ∈ out, ∃ a ∈ c.slabs, ∃ i < c.slotCount, p = c.slotAddr a i

/-- Some slot of each of the slabs is handed out. -/
def Used (c : MemCache) (P : List ℕ) : Prop := ∀ a ∈ P, (c.slab a).freeSlots < c.slotCount

/-- The page of a slab created next: one that `Buddy::alloc` returns. -/
structure Fresh (c : MemCache) (page : ℕ) : Prop where
  ne_zero : page ≠ 0
  aligned : page % pageSize = 0
  notMem : page ∉ c.slabs

/-- There is a slab in `m_partial`, or at most one in `m_empty`. -/
def Settled (c : MemCache) : Prop := c.partialHead = 0 → c.emptyHead ≠ 0 → c.next c.emptyHead = 0

instance (c : MemCache) : Decidable (Settled c) := by unfold Settled; infer_instance

namespace Lists

variable {b : ℕ} {out' : Set ℕ}

/-- A slab contains exactly its own slots. -/
theorem contains_iff (h : Lists c out P F E) (ha : a ∈ c.slabs) (hb : b ∈ c.slabs)
    (hi : i < c.slotCount) : c.contains b (c.slotAddr a i) = true ↔ b = a := by
  obtain ⟨fs, hfs⟩ := h.slots a ha
  obtain ⟨gs, hgs⟩ := h.slots b hb
  have hm := hfs.slot_mem hi
  have h4 := h.sized.four_le
  have hal := hgs.aligned
  have hupper : (b + sizeofSlab + pageSize) / pageSize * pageSize = b + pageSize := by
    simp only [pageSize, sizeofSlab] at *
    omega
  simp only [contains, h.sized.slabSize_eq, hgs.start_eq, hupper, decide_eq_true_eq]
  constructor
  · rintro ⟨h1, h2⟩
    exact page_inj hgs.aligned hfs.aligned (by omega) h2 (by omega) (by omega)
  · rintro rfl
    refine ⟨?_, by omega⟩
    rw [slotAddr, hgs.start_eq]
    omega

variable (h : Lists c out P F E) (ho : c'.objSize = c.objSize)
  (hm : ∀ x, x < a ∨ a + pageSize ≤ x → c'.mem x = c.mem x)
  (hout : ∀ x, x < a ∨ a + pageSize ≤ x → (x ∈ out' ↔ x ∈ out))

include h ho hm hout

/-- Changing the slab `a` and its page leaves the other slabs. -/
theorem slots_of_ne (ha : a % pageSize = 0) (hb : b ∈ c.slabs) (hne : b ≠ a)
    (hs : ∃ n, c'.slab b = { c.slab b with next := n }) : ∃ fs, Slots c' out' b fs := by
  obtain ⟨fs, hfs⟩ := h.slots b hb
  have hoff : ∀ x, b ≤ x → x < b + pageSize → x < a ∨ a + pageSize ≤ x := by
    intro x h1 h2
    by_contra hx
    rw [not_or, not_lt, not_le] at hx
    exact hne (page_inj hfs.aligned ha h1 h2 hx.1 hx.2)
  exact ⟨fs, hfs.frame h.sized ho hs (fun x h1 h2 => hm x (hoff x h1 h2))
    fun x h1 h2 => hout x (hoff x h1 h2)⟩

/-- Changing the slab `a` and its page, and moving it, keeps the invariant if it
    holds of `a`. -/
theorem change {P' F' E' : List ℕ} (ha : a ∈ c.slabs) (hl : Links c' P' F' E')
    (hz : c'.slabSize = c.slabSize) (hss : c'.slabs = c.slabs)
    (hslab : ∀ b ≠ a, ∃ n, c'.slab b = { c.slab b with next := n }) (hslots : ∃ fs, Slots c' out' a fs)
    (hnew : ∀ p ∈ out', p ∈ out ∨ ∃ i < c.slotCount, p = c.slotAddr a i)
    (hu : ∀ b ∈ P, b ≠ a → (c.slab b).freeSlots < c.slotCount)
    (hP : ∀ b ∈ P', b ∈ P ∧ b ≠ a ∨
      b = a ∧ (c'.slab a).freeSlots ≠ 0 ∧ (c'.slab a).freeSlots < c.slotCount)
    (hF : ∀ b ∈ F', b ∈ F ∧ b ≠ a ∨ b = a ∧ (c'.slab a).freeSlots = 0)
    (hE : ∀ b ∈ E', b ∈ E ∧ b ≠ a ∨ b = a ∧ (c'.slab a).freeSlots = c.slotCount) :
    Lists c' out' P' F' E' ∧ Used c' P' := by
  have hcount : c'.slotCount = c.slotCount := by rw [slotCount, ho, slotCount]
  have hfree : ∀ b ≠ a, (c'.slab b).freeSlots = (c.slab b).freeSlots := fun b hb => by
    obtain ⟨n, hn⟩ := hslab b hb
    rw [hn]
  obtain ⟨fs, hfs⟩ := hslots
  obtain ⟨gs, hgs⟩ := h.slots a ha
  have haddr : ∀ b i, c'.slotAddr b i = c.slotAddr b i := fun b i => by
    by_cases hb : b = a
    · rw [hb, slotAddr, slotAddr, hfs.start_eq, hgs.start_eq, ho]
    · obtain ⟨n, hn⟩ := hslab b hb
      rw [slotAddr, slotAddr, hn, ho]
  refine ⟨⟨h.sized.congr ho hz, hl, fun b hb => ?_, fun b hb => ?_, fun b hb => ?_, fun b hb => ?_,
    fun p hp => ?_⟩, fun b hb => ?_⟩
  · rcases hP b hb with ⟨hb, hne⟩ | ⟨rfl, hb, -⟩
    · rw [hfree b hne]
      exact h.ne_full b hb
    · exact hb
  · rcases hF b hb with ⟨hb, hne⟩ | ⟨rfl, hb⟩
    · rw [hfree b hne]
      exact h.full b hb
    · exact hb
  · rw [hcount]
    rcases hE b hb with ⟨hb, hne⟩ | ⟨rfl, hb⟩
    · rw [hfree b hne]
      exact h.empty b hb
    · exact hb
  · rw [hss] at hb
    by_cases hne : b = a
    · exact hne ▸ ⟨fs, hfs⟩
    · exact h.slots_of_ne ho hm hout hgs.aligned hb hne (hslab b hne)
  · rw [hss, hcount]
    rcases hnew p hp with hp | ⟨i, hi, rfl⟩
    · obtain ⟨b, hb, i, hi, rfl⟩ := h.mem_out p hp
      exact ⟨b, hb, i, hi, (haddr b i).symm⟩
    · exact ⟨a, ha, i, hi, (haddr a i).symm⟩
  · rw [hcount]
    rcases hP b hb with ⟨hb, hne⟩ | ⟨rfl, -, hb⟩
    · rw [hfree b hne]
      exact hu b hb hne
    · exact hb

end Lists

end HobbyOS.MemCache
