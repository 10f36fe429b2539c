import HobbyOS.Buddy.Coalesced
import HobbyOS.Buddy.Pages

/-!
# The count of free bytes

`Buddy::alloc` takes the size asked for off `m_freeSpace`, and `Buddy::free` adds the size it is
given; the blocks, however, are of the size rounded up to a power of two of pages. So `m_freeSpace`
is the size of the pages on the free lists (`Accounted`) as long as every size is a power of two of
pages (`Whole`), as those of the slab caches are, and the first call with another size which goes
through makes it wrong, for good or until another one makes up for it
(`reachable_accounted_iff`). The loader asks for as many pages as a segment has.
-/

namespace HobbyOS.Buddy

open Finset

variable {N i size ptr : ℕ} {b b' : Buddy} {A : Set ℤ} {L L' : ℕ → List ℤ} {x : ℤ}
  {s s' : Buddy × Set ℤ}

/-- `MemoryAllocator::kallocPages`. -/
def kallocPages (b : Buddy) (count : ℕ) : Option ℕ × Buddy := b.alloc (count * pageSize)

/-- `MemoryAllocator::kallocPage`. -/
def kallocPage (b : Buddy) : Option ℕ × Buddy := b.alloc pageSize

/-- `MemoryAllocator::freePages`. -/
def freePages (b : Buddy) : ℕ := b.freeSpace / pageSize

/-- The number of pages on the free lists. -/
def listedPages (b : Buddy) : ℕ := ∑ i ∈ Finset.range buddySize, (b.freeList i).length * 2 ^ i

/-- `m_freeSpace` is the size of the pages on the free lists. -/
def Accounted (b : Buddy) : Prop := b.freeSpace = pageSize * b.listedPages

/-- A power of two of pages. -/
def Whole (size : ℕ) : Prop := ∃ k, size = pageSize * 2 ^ k

/-! ## Counting pages -/

theorem ncard_dyadic (i : ℕ) (x : ℤ) : (dyadic i x).ncard = 2 ^ i := by
  rw [dyadic, ← coe_Ico, Set.ncard_coe_finset, Int.card_Ico, add_sub_cancel_left]
  exact Int.toNat_pow_of_nonneg (by norm_num) i

theorem finite_dyadic (i : ℕ) (x : ℤ) : (dyadic i x).Finite := Set.finite_Ico _ _

/-- The blocks of the lists, as a finite set. -/
def blocks (L : ℕ → List ℤ) : Finset (ℕ × ℤ) :=
  (Finset.range buddySize).biUnion fun i => (L i).toFinset.image (Prod.mk i)

theorem coe_blocks (L : ℕ → List ℤ) : (blocks L : Set (ℕ × ℤ)) = listed L := by
  ext ⟨j, y⟩
  simp [blocks, listed, and_comm]

section

variable (h : FreeLists N b A L) (hN : N ≤ 2 ^ 15)

include h hN

/-- The pages on the free lists are the ones which are not handed out. -/
theorem FreeLists.listedPages_eq : b.listedPages = (Set.Ico 0 (N : ℤ) \ A).ncard := by
  have hdisj : (Finset.range buddySize : Set ℕ).PairwiseDisjoint
      fun i => (L i).toFinset.image (Prod.mk i) := by
    intro i _ j _ hij
    refine disjoint_left.2 fun q hi hj => hij ?_
    obtain ⟨x, -, rfl⟩ := mem_image.1 hi
    obtain ⟨y, -, hy⟩ := mem_image.1 hj
    exact (congrArg Prod.fst hy).symm
  have hcard : (Set.Ico 0 (N : ℤ) \ A).ncard = ∑ q ∈ blocks L, 2 ^ q.1 := by
    rw [← h.tiles.cover, ← coe_blocks, Set.Finite.ncard_biUnion (finite_toSet _)
      (fun t _ => finite_dyadic t.1 t.2) (by rw [coe_blocks]; exact h.tiles.disjoint),
      finsum_mem_coe_finset]
    exact sum_congr rfl fun q _ => ncard_dyadic q.1 q.2
  rw [hcard, blocks, sum_biUnion hdisj, listedPages]
  refine sum_congr rfl fun i hi => ?_
  have hi' := mem_range.1 hi
  rw [sum_image fun _ _ _ _ he => (Prod.mk.inj he).2]
  dsimp only
  rw [sum_const, smul_eq_mul, List.toFinset_card_of_nodup (h.linked i hi').nodup,
    h.freeList_eq hN hi']

/-- Taking a block off the lists. -/
theorem FreeLists.listedPages_take (h' : FreeLists N b' (A ∪ dyadic i x) L')
    (hx : dyadic i x ⊆ Set.Ico 0 (N : ℤ) \ A) : b.listedPages = b'.listedPages + 2 ^ i := by
  rw [h.listedPages_eq hN, h'.listedPages_eq hN, ← Set.sdiff_sdiff, ← ncard_dyadic i x]
  exact (Set.ncard_sdiff_add_ncard_of_subset hx ((Set.finite_Ico _ _).subset Set.sdiff_subset)).symm

/-- Putting a block back. -/
theorem FreeLists.listedPages_give (h' : FreeLists N b' (A \ dyadic i x) L') (hx : dyadic i x ⊆ A) :
    b'.listedPages = b.listedPages + 2 ^ i := by
  have hA : FreeLists N b (A \ dyadic i x ∪ dyadic i x) L := by rwa [Set.sdiff_union_of_subset hx]
  exact h'.listedPages_take hN hA fun p hp => ⟨h.handedOut (hx hp), fun hp' => hp'.2 hp⟩

theorem FreeLists.listedPages_le : b.listedPages ≤ 2 ^ 15 := by
  refine le_trans ?_ hN
  rw [h.listedPages_eq hN]
  refine (Set.ncard_le_ncard Set.sdiff_subset (Set.finite_Ico _ _)).trans ?_
  rw [← coe_Ico, Set.ncard_coe_finset, Int.card_Ico]
  simp

/-! ## Sizes -/

omit h hN in
/-- The block `alloc` takes is of the size asked for exactly if that is whole. -/
theorem eq_allocOrder_iff (h : allocOrder size < buddySize) :
    size = pageSize * 2 ^ allocOrder size ↔ Whole size := by
  refine ⟨fun he => ⟨_, he⟩, ?_⟩
  rintro ⟨k, rfl⟩
  have hle := le_allocOrder h
  have hk : k ≤ allocOrder (pageSize * 2 ^ k) :=
    (Nat.pow_le_pow_iff_right (by norm_num)).1 (Nat.le_of_mul_le_mul_left hle (by norm_num [pageSize]))
  simp only [buddySize] at h
  have hsize : pageSize * 2 ^ k ≤ 2 ^ 27 := by
    have := Nat.pow_le_pow_right (by norm_num : 0 < 2) (show k ≤ 15 by omega)
    norm_num [pageSize] at this ⊢
    omega
  have hleast : IsLeast {i | pageSize * 2 ^ k ≤ pageSize * 2 ^ i} k := by
    refine ⟨le_refl (pageSize * 2 ^ k), fun j hj => ?_⟩
    exact (Nat.pow_le_pow_iff_right (by norm_num)).1
      (Nat.le_of_mul_le_mul_left hj (by norm_num [pageSize]))
  rw [allocOrder_eq hsize hleast]

omit h hN in
theorem getOrderLoop_spec (n fuel order : ℕ) :
    (∀ k, order ≤ k → k < getOrderLoop n fuel order → intShl k < n) ∧
    (getOrderLoop n fuel order = order + fuel ∨ n ≤ intShl (getOrderLoop n fuel order)) := by
  induction fuel generalizing order with
  | zero => exact ⟨fun k h1 h2 => absurd h1 (not_le.2 h2), .inl rfl⟩
  | succ fuel ih =>
    rw [getOrderLoop]
    split_ifs with h
    · obtain ⟨h1, h2⟩ := ih (order + 1)
      refine ⟨fun k hk hk' => ?_, h2.imp_left (by omega)⟩
      rcases hk.eq_or_lt with rfl | hk
      exacts [h, h1 k hk hk']
    · exact ⟨fun k h1 h2 => absurd h1 (not_le.2 h2), .inr (not_lt.1 h)⟩

omit h hN in
/-- The block `free` puts back is of the size given exactly if that is whole. -/
theorem eq_getOrder_iff (h : getOrder size < buddySize) (hsize : size < 2 ^ 64) :
    size = pageSize * 2 ^ getOrder size ↔ Whole size := by
  refine ⟨fun he => ⟨_, he⟩, ?_⟩
  rintro ⟨k, rfl⟩
  obtain ⟨hleast, hle⟩ := getOrderLoop_spec ((pageSize * 2 ^ k + pageSize - 1) % 2 ^ 64 / pageSize)
    32 0
  have hn : (pageSize * 2 ^ k + pageSize - 1) % 2 ^ 64 / pageSize = 2 ^ k := by
    simp only [pageSize] at hsize ⊢
    omega
  simp only [buddySize] at h
  rw [getOrder, hn] at h ⊢
  rw [hn] at hleast hle
  generalize getOrderLoop (2 ^ k) 32 0 = order at *
  have hle' : 2 ^ k ≤ 2 ^ order := by
    simpa [intShl, show order < 31 by omega] using hle.resolve_left (by omega)
  have hk : k ≤ order := (Nat.pow_le_pow_iff_right (by norm_num)).1 hle'
  rcases hk.eq_or_lt with rfl | hlt
  · rfl
  · have := hleast k (Nat.zero_le k) hlt
    rw [intShl, if_pos (by omega)] at this
    exact absurd this (lt_irrefl _)

/-! ## Calls -/

/-- A call of the allocator with a size which is `ok`, or a write into a page by its holder. -/
inductive Call (ok : ℕ → Prop) : Buddy × Set ℤ → Buddy × Set ℤ → Prop
  | alloc {b b' : Buddy} {A : Set ℤ} {size ptr : ℕ} : ok size → b.alloc size = (some ptr, b') →
      Call ok (b, A) (b', A ∪ dyadic (allocOrder size) (b.ptrToBlock ptr))
  | allocNull {b b' : Buddy} {A : Set ℤ} {size : ℕ} : b.alloc size = (none, b') →
      Call ok (b, A) (b', A)
  | free {b b' : Buddy} {A : Set ℤ} {ptr size : ℕ} : ok size → size < 2 ^ 64 →
      Releasable b A ptr size → b.free ptr size = some b' →
      Call ok (b, A) (b', A \ dyadic (getOrder size) (b.ptrToBlock ptr))
  | write {b : Buddy} {A : Set ℤ} {page value : ℤ} : page ∈ A →
      Call ok (b, A) (b.putAtBlock page value, A)

omit h hN in
theorem Call.step {ok : ℕ → Prop} (h : Call ok s s') : Step s s' := by
  cases h with
  | alloc _ ha => exact .alloc ha
  | allocNull ha => exact .allocNull ha
  | free _ _ hr hf => exact .free hr hf
  | write hp => exact .write hp

/-- After an allocation, the count is right exactly if the size was whole. -/
theorem FreeLists.accounted_alloc (hb : Accounted b) (ha : b.alloc size = (some ptr, b')) :
    Accounted b' ↔ Whole size := by
  rcases h.alloc size with hn | ⟨b1, L1, x, hx, -, h0, hle, -, hd, h1, -, hspace⟩
  · rw [hn] at ha
    cases ha
  rw [ha] at hx
  cases hx
  have horder := order_lt hN h0 hle
  have hsize := le_allocOrder horder
  have hlisted := h.listedPages_take hN h1 fun p hp =>
    ⟨Set.mem_Ico.2 ⟨h0.trans hp.1, hp.2.trans_le hle⟩, Set.disjoint_left.1 hd hp⟩
  have hbound := h.listedPages_le hN
  rw [← eq_allocOrder_iff horder, Accounted, hspace, hb, hlisted]
  rw [hlisted] at hbound
  generalize 2 ^ allocOrder size = m at *
  simp only [pageSize] at hsize ⊢
  norm_num at hbound ⊢
  omega

/-- After a release, the count is right exactly if the size was whole. -/
theorem FreeLists.accounted_free (hb : Accounted b) (hsize : size < 2 ^ 64)
    (hr : Releasable b A ptr size) (hf : b.free ptr size = some b') :
    Accounted b' ↔ Whole size := by
  obtain ⟨x, rfl, ha, hx⟩ := hr
  obtain ⟨b1, L1, hb1, -, h1, -, hspace⟩ := h.free hN hx ha
  obtain rfl := Option.some.inj (hf.symm.trans hb1)
  obtain ⟨h0, hle⟩ := h.bounds hx
  have hlisted := h.listedPages_give hN h1 hx
  have hbound := h1.listedPages_le hN
  rw [← eq_getOrder_iff (order_lt hN h0 hle) hsize, Accounted, hspace, hb, hlisted]
  rw [hlisted] at hbound
  generalize 2 ^ getOrder size = m at *
  simp only [pageSize] at hsize ⊢
  norm_num at hbound hsize ⊢
  omega

/-- The blocks of the next pages, taken one at a time. -/
def kallocPageTimes : ℕ → Buddy → Option Buddy
  | 0, b => some b
  | n + 1, b => match b.kallocPage with
    | (some _, b) => kallocPageTimes n b
    | (none, _) => none

/-- Pages are handed out, one by one, as long as there are some on the free lists. -/
theorem FreeLists.kallocPageTimes {n : ℕ} (hn : n ≤ b.listedPages) :
    (Buddy.kallocPageTimes n b).isSome := by
  induction n generalizing b A L with
  | zero => rfl
  | succ n ih =>
    rcases h.alloc pageSize with hnone | ⟨b', L', x, hx, -, h0, hle, -, hd, h', -⟩
    · -- Every list is empty, then.
      have hempty : b.listedPages = 0 := sum_eq_zero fun i hi => by
        have hi' := mem_range.1 hi
        have hbuddy := buddy_of_alloc_none (congrArg Prod.fst hnone)
          (allocOrder_pageSize ▸ Nat.zero_le i) hi'
        have hlinked := h.linked i hi'
        rw [hbuddy] at hlinked
        rw [h.freeList_eq hN hi', hlinked.eq_nil, List.length_nil, Nat.zero_mul]
      omega
    · have hlisted := h.listedPages_take hN h' fun p hp =>
        ⟨Set.mem_Ico.2 ⟨h0.trans hp.1, hp.2.trans_le hle⟩, Set.disjoint_left.1 hd hp⟩
      rw [allocOrder_pageSize, pow_zero] at hlisted
      rw [Buddy.kallocPageTimes, kallocPage, hx]
      exact ih h' (by omega)

end

/-- A call with a whole size keeps the count right. -/
theorem FreeLists.accounted_call (h : FreeLists N s.1 s.2 L) (hN : N ≤ 2 ^ 15)
    (hacc : Accounted s.1) (hst : Call Whole s s') : Accounted s'.1 := by
  cases hst with
  | alloc hok ha => exact (h.accounted_alloc hN hacc ha).2 hok
  | allocNull ha =>
    rename_i b b' A size
    rcases h.alloc size with hn | ⟨b1, L1, x, hx, -⟩
    · rw [ha] at hn
      cases hn
      exact hacc
    · rw [ha] at hx
      cases hx
  | free hok hsize hr hf => exact (h.accounted_free hN hacc hsize hr hf).2 hok
  | write hp =>
    rename_i b A page value
    rwa [Accounted, (h.write hp).listedPages_eq hN, ← h.listedPages_eq hN]

/-- In every run with whole sizes, the free lists are as they should be and `m_freeSpace` is right. -/
theorem exists_accounted (b0 : Buddy) (startAddr : ℕ) (hN : N ≤ 2 ^ 15)
    (hs : Relation.ReflTransGen (Call Whole) (b0.init startAddr N, ∅) s) :
    ∃ L, FreeLists N s.1 s.2 L ∧ Accounted s.1 := by
  induction hs with
  | refl =>
    obtain ⟨L, h, -, -, hspace⟩ := init_freeLists b0 startAddr hN
    refine ⟨L, h, ?_⟩
    rw [Accounted, hspace, h.listedPages_eq hN, Set.sdiff_empty, ← coe_Ico,
      Set.ncard_coe_finset, Int.card_Ico, mul_comm]
    simp
  | tail _ hst ih =>
    obtain ⟨L, h, hacc⟩ := ih
    obtain ⟨L', h', -⟩ := h.step hN hst.step
    exact ⟨L', h', h.accounted_call hN hacc hst⟩

/-- In every run with whole sizes, `m_freeSpace` is the size of the pages on the free lists, so that
    as many pages as `freePages` says can be taken. The next call which goes through keeps that up
    exactly if its size is whole as well. -/
theorem reachable_accounted_iff (b0 : Buddy) (startAddr : ℕ) (hN : N ≤ 2 ^ 15) {s : Buddy × Set ℤ}
    (hs : Relation.ReflTransGen (Call Whole) (b0.init startAddr N, ∅) s) :
    Accounted s.1 ∧ (Buddy.kallocPageTimes s.1.freePages s.1).isSome ∧
    (∀ size ptr b', s.1.alloc size = (some ptr, b') → (Accounted b' ↔ Whole size)) ∧
    ∀ ptr size b', size < 2 ^ 64 → Releasable s.1 s.2 ptr size → s.1.free ptr size = some b' →
      (Accounted b' ↔ Whole size) := by
  obtain ⟨L, h, hacc⟩ := exists_accounted b0 startAddr hN hs
  refine ⟨hacc, h.kallocPageTimes hN ?_, fun _ _ _ ha => h.accounted_alloc hN hacc ha,
    fun _ _ _ hsize hr hf => h.accounted_free hN hacc hsize hr hf⟩
  rw [freePages, hacc, Nat.mul_div_cancel_left _ (by norm_num [pageSize])]

/-- Two pages taken of a heap of four. -/
theorem reachable_accounted_iff_two : Accounted ((zeros.init 0 4).kallocPages 2).2 ∧
    ((zeros.init 0 4).kallocPages 2).2.freePages = 2 := by
  have halloc : ((zeros.init 0 4).alloc 8192).1 = some 8192 := by decide +kernel
  have hwhole : Whole 8192 := ⟨1, rfl⟩
  exact ⟨(reachable_accounted_iff zeros 0 (by norm_num)
    (.single (.alloc hwhole (Prod.ext halloc rfl)))).1, by decide +kernel⟩

/-- Three pages are asked for and four are taken: one is counted as free, and there is none. -/
theorem kallocPages_three : ¬ Accounted ((zeros.init 0 4).kallocPages 3).2 ∧
    ((zeros.init 0 4).kallocPages 3).1 = some 0 ∧ ((zeros.init 0 4).kallocPages 3).2.freePages = 1 ∧
    ((zeros.init 0 4).kallocPages 3).2.kallocPage.1 = none := by
  unfold Accounted
  decide +kernel

end HobbyOS.Buddy
