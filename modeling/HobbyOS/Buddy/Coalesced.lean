import HobbyOS.Buddy.Run

/-!
# Coalescing

In every run, no free list of the buddy allocator holds two buddies (`reachable_coalesced`): a
release puts one block into a list, which is merged with its buddy if that is free, and so on for
the block they make; and an allocation leaves lists which are sparse. The consequences:

* a free aligned run of pages lies inside of a block on one of the lists (`Layout.covered`), so that
  an allocation fails only if there is none (`reachable_alloc_none_iff`);
* the blocks on the lists are the maximal free ones, hence the lists are determined by the pages
  which are handed out (`FreeLists.eq_of_coalesced`).
-/

namespace HobbyOS.Buddy

open Nat Set

variable {N i j e : ℕ} {b b' : Buddy} {A : Set ℤ} {L L' : ℕ → List ℤ} {x y : ℤ} {l : List ℤ}

/-! ## The lists of a state -/

/-- The blocks from `block` on, at most so many, as `Buddy::print` shows them. -/
def walk (b : Buddy) : ℕ → ℤ → List ℤ
  | 0, _ => []
  | fuel + 1, block => if block = -1 then [] else block :: b.walk fuel (b.getAtBlock block)

/-- The free list of order `i`. -/
def freeList (b : Buddy) (i : ℕ) : List ℤ := b.walk walkFuel (b.buddy i)

theorem walk_chain {fuel : ℕ} (hc : Chain b.word (-1) x l) (hf : l.length < fuel) :
    b.walk fuel x = l := by
  induction l generalizing fuel x with
  | nil =>
    obtain _ | fuel := fuel
    · exact absurd hf (Nat.not_lt_zero _)
    · rw [walk, if_pos (Chain.nil_iff.1 hc)]
  | cons a l ih =>
    obtain _ | fuel := fuel
    · exact absurd hf (Nat.not_lt_zero _)
    · obtain ⟨rfl, hne, hc'⟩ := Chain.cons_iff.1 hc
      rw [walk, if_neg hne, getAtBlock, ih hc' (lt_of_succ_lt_succ hf)]

theorem FreeLists.freeList_eq (h : FreeLists N b A L) (hN : N ≤ 2 ^ 15) (hi : i < buddySize) :
    b.freeList i = L i :=
  walk_chain (h.linked i hi) (h.length_lt hN hi)

/-! ## Maximal blocks -/

/-- A free aligned run of pages lies inside of a block on one of the lists. -/
theorem Layout.covered (h : Layout N A L) (hc : Coalesced L) (hi : i < buddySize)
    (hx : (2 : ℤ) ^ i ∣ x) (hfree : dyadic i x ⊆ Set.Ico 0 (N : ℤ) \ A) :
    ∃ j y, i ≤ j ∧ j < buddySize ∧ y ∈ L j ∧ dyadic i x ⊆ dyadic j y := by
  induction i generalizing x with
  | zero =>
    obtain ⟨⟨j, y⟩, ⟨hj, hy⟩, hxy⟩ := h.tiles.exists_mem (hfree (self_mem_dyadic 0 x))
    exact ⟨j, y, Nat.zero_le j, hj, hy,
      dyadic_subset (Nat.zero_le j) hx (h.aligned j hj y hy) (self_mem_dyadic 0 x) hxy⟩
  | succ i ih =>
    have hi' : i < buddySize := lt_of_succ_lt hi
    have hdvd : (2 : ℤ) ^ i ∣ x := (pow_dvd_pow 2 (le_succ i)).trans hx
    have hfree' := hfree
    rw [dyadic_succ, union_subset_iff] at hfree'
    obtain ⟨j, y, hij, hj, hy, hsub⟩ := ih hi' hdvd hfree'.1
    obtain ⟨k, z, hik, hk, hz, hsub'⟩ := ih hi' (hdvd.add (dvd_refl _)) hfree'.2
    -- A block which covers more than one half covers the run.
    have hlarge {j : ℕ} {y p : ℤ} (hj : j < buddySize) (hy : y ∈ L j) (hlt : i < j)
        (hp : p ∈ dyadic (i + 1) x) (hp' : p ∈ dyadic j y) :
        ∃ j y, i + 1 ≤ j ∧ j < buddySize ∧ y ∈ L j ∧ dyadic (i + 1) x ⊆ dyadic j y :=
      ⟨j, y, hlt, hj, hy, dyadic_subset hlt hx (h.aligned j hj y hy) hp hp'⟩
    have hmem : x ∈ dyadic (i + 1) x ∧ x + 2 ^ i ∈ dyadic (i + 1) x := by
      rw [dyadic_succ]
      exact ⟨.inl (self_mem_dyadic i x), .inr (self_mem_dyadic i _)⟩
    rcases hij.lt_or_eq with hlt | rfl
    · exact hlarge hj hy hlt hmem.1 (hsub (self_mem_dyadic i x))
    rcases hik.lt_or_eq with hlt | rfl
    · exact hlarge hk hz hlt hmem.2 (hsub' (self_mem_dyadic i _))
    -- Otherwise both halves are listed, and they are buddies.
    have hxy : x = y := dyadic_inj (dyadic_subset le_rfl (h.aligned i hi' y hy) hdvd
      (hsub (self_mem_dyadic i x)) (self_mem_dyadic i x)) hsub
    have hxz : x + 2 ^ i = z := dyadic_inj (dyadic_subset le_rfl (h.aligned i hi' z hz)
      (hdvd.add (dvd_refl _)) (hsub' (self_mem_dyadic i _)) (self_mem_dyadic i _)) hsub'
    subst hxy hxz
    exact absurd ⟨by ring, Int.emod_eq_zero_of_dvd hx⟩ (hc i hi' x hy _ hz)

/-- A block which is listed is listed wherever the same pages are handed out. -/
theorem Layout.mem_of_coalesced (h : Layout N A L) (hc : Coalesced L) (h' : Layout N A L')
    (hc' : Coalesced L') (hi : i < buddySize) (hx : x ∈ L i) : x ∈ L' i := by
  have hsub {L : ℕ → List ℤ} {i : ℕ} {x : ℤ} (h : Layout N A L) (hi : i < buddySize)
      (hx : x ∈ L i) : dyadic i x ⊆ Set.Ico 0 (N : ℤ) \ A := h.tiles.subset (t := (i, x)) ⟨hi, hx⟩
  obtain ⟨j, y, hij, hj, hy, hxy⟩ := h'.covered hc' hi (h.aligned i hi x hx) (hsub h hi hx)
  obtain ⟨k, z, hjk, hk, hz, hyz⟩ := h.covered hc hj (h'.aligned j hj y hy) (hsub h' hj hy)
  -- The block covers itself, through the one which covers it.
  have hik : (i, x) = (k, z) := by
    by_contra hne
    exact disjoint_left.1 (h.tiles.disjoint (show (i, x) ∈ listed L from ⟨hi, hx⟩)
      (show (k, z) ∈ listed L from ⟨hk, hz⟩) hne) (self_mem_dyadic i x)
      (hyz (hxy (self_mem_dyadic i x)))
  obtain ⟨rfl, rfl⟩ := Prod.mk.inj hik
  obtain rfl : i = j := le_antisymm hij hjk
  obtain rfl : x = y := dyadic_inj hyz hxy
  exact hy

/-- The pages handed out determine the free lists. -/
theorem FreeLists.eq_of_coalesced (h : FreeLists N b A L) (hc : Coalesced L)
    (h' : FreeLists N b' A L') (hc' : Coalesced L') (hi : i < buddySize) : L i = L' i :=
  ((List.perm_ext_iff_of_nodup (h.linked i hi).nodup (h'.linked i hi).nodup).2 fun _ =>
    ⟨h.mem_of_coalesced hc h'.toLayout hc' hi,
      h'.mem_of_coalesced hc' h.toLayout hc hi⟩).eq_of_pairwise
    (fun _ _ _ _ hab hba => absurd hab (lt_asymm hba)) (h.ascending i hi) (h'.ascending i hi)

/-! ## Runs -/

/-- Lists of at most one block hold no buddies. -/
theorem coalesced_of_length (h : ∀ j, (L j).length ≤ 1) : Coalesced L :=
  Coalesced.sparse (L := fun _ => []) (fun _ _ _ hs => absurd hs List.not_mem_nil)
    fun j => .inr (h j)

/-- In every run, the free lists are as they should be and hold no buddies. -/
theorem exists_coalesced (b0 : Buddy) (startAddr : ℕ) (hN : N ≤ 2 ^ 15) {s : Buddy × Set ℤ}
    (hs : Relation.ReflTransGen Step (b0.init startAddr N, ∅) s) :
    ∃ L, FreeLists N s.1 s.2 L ∧ Coalesced L := by
  induction hs with
  | refl =>
    obtain ⟨L, h, hlen, -⟩ := init_freeLists b0 startAddr hN
    exact ⟨L, h, coalesced_of_length hlen⟩
  | tail _ hst ih =>
    obtain ⟨L, h, hc⟩ := ih
    obtain ⟨L', h', hc'⟩ := h.step hN hst
    exact ⟨L', h', hc' hc⟩

/-- In every run, no free list holds both halves of an aligned block. So once every page has been
    released, the free lists are the ones `init` made. -/
theorem reachable_coalesced (b0 : Buddy) (startAddr : ℕ) (hN : N ≤ 2 ^ 15) {s : Buddy × Set ℤ}
    (hs : Relation.ReflTransGen Step (b0.init startAddr N, ∅) s) :
    (∀ i < buddySize, ∀ x, (2 : ℤ) ^ (i + 1) ∣ x →
      ¬ (x ∈ s.1.freeList i ∧ x + 2 ^ i ∈ s.1.freeList i)) ∧
    (s.2 = ∅ → ∀ i < buddySize, s.1.freeList i = (b0.init startAddr N).freeList i) := by
  obtain ⟨L, h, hc⟩ := exists_coalesced b0 startAddr hN hs
  refine ⟨fun i hi x hx => ?_, fun hempty i hi => ?_⟩
  · rintro ⟨hl, hr⟩
    rw [h.freeList_eq hN hi] at hl hr
    exact hc i hi x hl _ hr ⟨by ring, Int.emod_eq_zero_of_dvd hx⟩
  · obtain ⟨L0, h₀, hc0⟩ := exists_coalesced b0 startAddr hN .refl
    rw [hempty] at h
    rw [h.freeList_eq hN hi, h₀.freeList_eq hN hi]
    exact h.eq_of_coalesced hc h₀ hc0 hi

/-- A page of a heap of four taken and released. -/
theorem reachable_coalesced_page : ∃ b', ((zeros.init 0 4).alloc 4096).2.free 12288 4096 = some b' ∧
    ∀ i < buddySize, b'.freeList i = (zeros.init 0 4).freeList i := by
  have halloc : ((zeros.init 0 4).alloc 4096).1 = some 12288 := by decide +kernel
  have hfree : (((zeros.init 0 4).alloc 4096).2.free 12288 4096).isSome := by decide +kernel
  obtain ⟨b', hb'⟩ := Option.isSome_iff_exists.1 hfree
  have h1 : (zeros.init 0 4).ptrToBlock 12288 = 3 := by decide +kernel
  have h2 : ((zeros.init 0 4).alloc 4096).2.ptrToBlock 12288 = 3 := by decide +kernel
  have ho : allocOrder 4096 = getOrder 4096 := by decide
  have hA : dyadic (allocOrder 4096) ((zeros.init 0 4).ptrToBlock 12288) =
      dyadic (getOrder 4096) (((zeros.init 0 4).alloc 4096).2.ptrToBlock 12288) := by rw [ho, h1, h2]
  have hrel : Releasable ((zeros.init 0 4).alloc 4096).2
      (∅ ∪ dyadic (allocOrder 4096) ((zeros.init 0 4).ptrToBlock 12288)) 12288 4096 :=
    ⟨3, by decide +kernel, by decide, by rw [hA, h2]; exact subset_union_right⟩
  have halloc' : (zeros.init 0 4).alloc 4096 = (some 12288, ((zeros.init 0 4).alloc 4096).2) :=
    Prod.ext halloc rfl
  have hrun : Relation.ReflTransGen Step (zeros.init 0 4, ∅) (b', _) :=
    .tail (.single (.alloc halloc')) (.free hrel hb')
  refine ⟨b', hb', (reachable_coalesced zeros 0 (by norm_num) hrun).2 ?_⟩
  rw [empty_union, hA, Set.sdiff_self]

/-! ## Allocation -/

theorem orderLoop_least (size fuel i : ℕ) :
    ∀ k, i ≤ k → k < orderLoop size fuel i → intShl (startPow + k) < size := by
  induction fuel generalizing i with
  | zero => exact fun k h1 h2 => absurd h1 (not_le.2 h2)
  | succ fuel ih =>
    intro k h1 h2
    rw [orderLoop] at h2
    split_ifs at h2 with h
    · rcases h1.eq_or_lt with rfl | h1
      · exact h
      · exact ih (i + 1) k h1 h2
    · exact absurd h1 (not_le.2 h2)

/-- The order `alloc` looks for is the least which covers the size. -/
theorem allocOrder_eq {size : ℕ} (hsize : size ≤ 2 ^ 27)
    (hi : IsLeast {i | size ≤ pageSize * 2 ^ i} i) : allocOrder size = i := by
  have h15 : i ≤ 15 := hi.2 (by simpa [pageSize] using hsize)
  have hshl {k : ℕ} (hk : k ≤ 15) : intShl (startPow + k) = pageSize * 2 ^ k := by
    rw [intShl, if_pos (by simp only [startPow]; omega), pow_add]
    rfl
  refine le_antisymm (not_lt.1 fun hlt => ?_) (hi.2 (le_allocOrder (not_le.1 fun hge => ?_)))
  · have := orderLoop_least size 20 0 i (Nat.zero_le i) hlt
    rw [hshl h15] at this
    exact absurd hi.1 (not_le.2 this)
  · have := orderLoop_least size 20 0 15 (Nat.zero_le 15) hge
    rw [hshl le_rfl] at this
    exact absurd hsize (not_le.2 (by simpa [pageSize] using this))

/-- Where `alloc` finds nothing, the lists of the orders it looks at are empty. -/
theorem buddy_of_alloc_none {size : ℕ} (h : (b.alloc size).1 = none) (hj : allocOrder size ≤ j)
    (hj' : j < buddySize) : b.buddy j = -1 := by
  obtain ⟨hempty, -⟩ := b.diffLoop_spec (allocOrder size) (buddySize + 1) 0
  rw [alloc] at h
  split_ifs at h with hd
  obtain ⟨k, rfl⟩ := Nat.exists_eq_add_of_le hj
  exact (hempty k (Nat.zero_le k) (by omega)).1

/-- In every run, `alloc` fails if and only if no aligned run of pages of the order asked for is
    free, and then it changes nothing. -/
theorem reachable_alloc_none_iff (b0 : Buddy) (startAddr : ℕ) (hN : N ≤ 2 ^ 15) {s : Buddy × Set ℤ}
    (hs : Relation.ReflTransGen Step (b0.init startAddr N, ∅) s) {size : ℕ} (hsize : size ≤ 2 ^ 27)
    (hi : IsLeast {i | size ≤ pageSize * 2 ^ i} i) : ((s.1.alloc size).1 = none ↔
      ¬ ∃ x : ℤ, 2 ^ i ∣ x ∧ dyadic i x ⊆ Set.Ico 0 (N : ℤ) \ s.2) ∧
    ((s.1.alloc size).1 = none → (s.1.alloc size).2 = s.1) := by
  obtain ⟨L, h, hc⟩ := exists_coalesced b0 startAddr hN hs
  obtain rfl := allocOrder_eq hsize hi
  have hlt : allocOrder size < buddySize :=
    lt_succ_of_le (hi.2 (show size ≤ pageSize * 2 ^ 15 by simpa [pageSize] using hsize))
  refine ⟨⟨fun hnone => ?_, fun hfree => ?_⟩, fun hnone => ?_⟩
  · rintro ⟨x, hx, hsub⟩
    obtain ⟨j, y, hij, hj, hy, -⟩ := h.covered hc hlt hx hsub
    have hlinked := h.linked j hj
    rw [buddy_of_alloc_none hnone hij hj] at hlinked
    rw [hlinked.eq_nil] at hy
    exact List.not_mem_nil hy
  · rcases h.alloc size with hn | ⟨b', L', x, -, -, h0, hN', hx, hd, -⟩
    · rw [hn]
    · exact absurd ⟨x, hx, fun p hp => ⟨mem_Ico.2 ⟨h0.trans hp.1, hp.2.trans_le hN'⟩,
        disjoint_left.1 hd hp⟩⟩ hfree
  · rcases h.alloc size with hn | ⟨b', L', x, hx, -⟩
    · rw [hn]
    · rw [hx] at hnone
      cases hnone

/-- With a page of four handed out, there is no room for four. -/
theorem reachable_alloc_none_iff_four : (((zeros.init 0 4).alloc 4096).2.alloc 16384).1 = none ∧
    ¬ ∃ x : ℤ, 2 ^ 2 ∣ x ∧ dyadic 2 x ⊆ Set.Ico 0 ((4 : ℕ) : ℤ) \
      (∅ ∪ dyadic (allocOrder 4096) ((zeros.init 0 4).ptrToBlock 12288)) := by
  have halloc : ((zeros.init 0 4).alloc 4096).1 = some 12288 := by decide +kernel
  have hnone : (((zeros.init 0 4).alloc 4096).2.alloc 16384).1 = none := by decide +kernel
  have hleast : IsLeast {i | 16384 ≤ pageSize * 2 ^ i} 2 :=
    ⟨by norm_num [pageSize], fun i hi => not_lt.1 fun hlt => by
      interval_cases i <;> norm_num [pageSize] at hi⟩
  exact ⟨hnone, (reachable_alloc_none_iff zeros 0 (by norm_num)
    (.single (.alloc (Prod.ext halloc rfl))) (by norm_num) hleast).1.1 hnone⟩

end HobbyOS.Buddy
