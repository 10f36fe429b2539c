import HobbyOS.Buddy.FreeLists

/-!
# Runs of the buddy allocator

From `init`, the allocator is called over and over, and the holders of pages
write into them. Whatever they do, as long as they release aligned blocks of
pages they hold (a whole allocation or a part of one), the free lists stay
ascending and tile exactly the pages which are not handed out
(`reachable_freeLists`).
-/

namespace HobbyOS.Buddy

open Function List Nat Option

variable {N i j e diff size : ℕ} {b b' : Buddy} {A : Set ℤ} {L : ℕ → List ℤ} {x y : ℤ}
  {l : List ℤ}

/-- The free lists do not depend on the count of free bytes. -/
theorem FreeLists.withFreeSpace (h : FreeLists N b A L) (n : ℕ) :
    FreeLists N { b with freeSpace := n } A L :=
  ⟨h.toLayout, h.linked, h.ascending⟩

/-! ## Popping and pushing -/

theorem Linked.pop (h : Linked b L) (hi : i < buddySize) (hL : L i = x :: l) :
    Linked (b.setHead i (b.getAtBlock (b.buddy i))) (update L i l) := by
  obtain ⟨hx, -, hc⟩ := Chain.cons_iff.1 (hL ▸ h i hi)
  intro j hj
  by_cases hji : j = i
  · subst hji
    simpa [setHead, getAtBlock, hx] using hc
  · simpa [setHead, hji] using h j hj

theorem Linked.push (h : Linked b L) (hx : ∀ j < buddySize, x ∉ L j) (hx' : x ≠ -1) :
    Linked ((b.putAtBlock x (b.buddy i)).setHead i x) (update L i (x :: L i)) := by
  intro j hj
  by_cases hji : j = i
  · subst hji
    simpa [setHead, putAtBlock] using (h j hj).push (hx j hj) hx'
  · simpa [setHead, putAtBlock, hji] using (h j hj).update (hx j hj)

/-- Pushing a block of pages handed out. -/
theorem Layout.push (h : Layout N A L) (hb : Linked b L) (hi : i < buddySize)
    (hx : dyadic i x ⊆ A) (ha : (2 : ℤ) ^ i ∣ x) :
    Layout N (A \ dyadic i x) (update L i (x :: L i)) ∧
      Linked ((b.putAtBlock x (b.buddy i)).setHead i x) (update L i (x :: L i)) := by
  refine ⟨h.lay hi hx ha (by simp), hb.push (fun j hj => ?_) ?_⟩
  · exact h.not_mem (hx (self_mem_dyadic i x)) hj
  · have := (h.bounds hx).1
    omega

/-! ## Allocation -/

/-- A list with blocks of another one only, or with at most one block. -/
def Sparse (l0 l : List ℤ) : Prop := l ⊆ l0 ∨ l.length ≤ 1

/-- Lists which are sparse hold no buddies if the others do not. -/
theorem Coalesced.sparse {L' : ℕ → List ℤ} (h : Coalesced L) (hs : ∀ j, Sparse (L j) (L' j)) :
    Coalesced L' := by
  intro i hi s hsi t hti hst
  rcases hs i with hsub | hlen
  · exact h i hi s (hsub hsi) t (hsub hti) hst
  have hpow : (0 : ℤ) < 2 ^ i := by positivity
  have := hst.1
  obtain ⟨a, ha⟩ | hnil : (∃ a, L' i = [a]) ∨ L' i = [] := by
    cases hl : L' i with
    | nil => exact .inr rfl
    | cons a l =>
      rw [hl, length_cons] at hlen
      exact .inl ⟨a, by rw [eq_nil_of_length_eq_zero (by omega : l.length = 0)]⟩
  · rw [ha, mem_singleton] at hsi hti
    omega
  · rw [hnil] at hsi
    exact not_mem_nil hsi

/-- The states between the splits of `alloc`: the list of order `i` has a block
    on top of an ascending list, the other lists are ascending. -/
structure Splitting (N : ℕ) (b : Buddy) (A : Set ℤ) (L : ℕ → List ℤ) (i : ℕ) : Prop extends
    Layout N A L where
  linked : Linked b L
  ascending : ∀ j < buddySize, j ≠ i → (L j).Pairwise (· < ·)
  tail : (L i).tail.Pairwise (· < ·)
  ne_nil : L i ≠ []
  lt : i < buddySize

theorem FreeLists.splitting (h : FreeLists N b A L) (hi : i < buddySize) (hL : L i ≠ []) :
    Splitting N b A L i where
  toLayout := h.toLayout
  linked := h.linked
  ascending j hj _ := h.ascending j hj
  tail := (h.ascending i hi).sublist (tail_sublist _)
  ne_nil := hL
  lt := hi

/-- Taking the block on top leaves the free lists as they should be. -/
theorem Splitting.pop (h : Splitting N b A L i) : ∃ x l, L i = x :: l ∧ b.buddy i = x ∧
    FreeLists N (b.setHead i (b.getAtBlock (b.buddy i))) (A ∪ dyadic i x)
      (update L i l) := by
  obtain ⟨x, l, hL⟩ := exists_cons_of_ne_nil h.ne_nil
  have hc := hL ▸ h.linked i h.lt
  have hx := (nodup_cons.1 hc.nodup).1
  refine ⟨x, l, hL, (Chain.cons_iff.1 hc).1, ⟨?_, h.linked.pop h.lt hL, fun j hj => ?_⟩⟩
  · refine h.take h.lt (by simp [hL]) fun y => ?_
    have := mem_splice_out (y := y) (show ([] ++ x :: l).Nodup from hc.nodup)
    simpa [hL] using this
  · by_cases hji : j = i
    · subst hji
      simpa [hL] using h.tail
    · rw [update_of_ne hji]
      exact h.ascending j hj hji

/-- A block inside of the heap is of one of the orders. -/
theorem order_lt (hN : N ≤ 2 ^ 15) (h0 : 0 ≤ x) (hle : x + 2 ^ i ≤ N) : i < buddySize := by
  by_contra hge
  have : (2 : ℤ) ^ buddySize ≤ 2 ^ i := pow_le_pow_right₀ (by norm_num) (not_lt.1 hge)
  norm_num [buddySize] at this hN
  omega

theorem two_pow_div_pageSize (i : ℕ) : ((2 ^ (startPow + i) / pageSize : ℕ) : ℤ) = 2 ^ i := by
  rw [pow_add, show pageSize = 2 ^ startPow from rfl, Nat.mul_div_cancel_left _ (by positivity)]
  simp

/-- One round of the splits: the halves of the block on top become the list
    below, which was empty. -/
theorem Splitting.step (h : Splitting N b A L (i + 1)) (hL : L i = []) :
    ∃ L', Splitting N (b.splitStep i) A L' i ∧ (L' i).tail.length ≤ 1 ∧
      L' (i + 1) = (L (i + 1)).tail ∧ ∀ j, j ≠ i → j ≠ i + 1 → L' j = L j := by
  have hi : i < buddySize := (lt_succ_self i).trans h.lt
  obtain ⟨_, l, hx, rfl, h₁⟩ := h.pop
  have hdvd : (2 : ℤ) ^ i ∣ b.buddy (i + 1) :=
    (pow_dvd_pow 2 (le_succ i)).trans (h.aligned (i + 1) h.lt _ (by simp [hx]))
  rw [dyadic_succ] at h₁
  obtain ⟨h2, hb2⟩ := h₁.push h₁.linked hi
    (Set.subset_union_left.trans Set.subset_union_right) hdvd
  obtain ⟨h3, hb3⟩ := h2.push hb2 hi
    (fun p hp => ⟨.inr (.inr hp), fun hp' =>
      Set.disjoint_left.1 (disjoint_dyadic_half i _) hp' hp⟩) (hdvd.add (dvd_refl _))
  rw [Set.sdiff_sdiff, Set.union_sdiff_right, ← dyadic_succ, sdiff_eq_left.2] at h3
  · simp only [splitStep, two_pow_div_pageSize]
    refine ⟨_, ⟨h3, hb3, fun j hj hji => ?_, ?_, ?_, hi⟩, ?_, ?_, fun j hji hji' => ?_⟩
    · simpa [hji] using h₁.ascending j hj
    · simp [hL]
    · simp
    · simp [hL]
    · simp [hx]
    · simp [hji, hji']
  · exact Set.disjoint_left.2 fun p hp hp' =>
      (h.tiles.subset (t := (i + 1, _)) ⟨h.lt, by simp [hx]⟩ hp').2 hp

/-- The splits of `alloc`, down to the order asked for; the lists they leave are sparse. -/
theorem Splitting.split {L0 : ℕ → List ℤ} (h : Splitting N b A L (e + diff))
    (hL : ∀ k < diff, L (e + k) = []) (htop : Sparse (L0 (e + diff)) (L (e + diff)).tail)
    (hs : ∀ j, j ≠ e + diff → Sparse (L0 j) (L j)) :
    ∃ L', Splitting N (Buddy.split e diff b) A L' e ∧ Sparse (L0 e) (L' e).tail ∧
      ∀ j, j ≠ e → Sparse (L0 j) (L' j) := by
  induction diff generalizing b L with
  | zero => exact ⟨L, h, htop, hs⟩
  | succ diff ih =>
    obtain ⟨L', h', hlen, htail, hL'⟩ :=
      Splitting.step (i := e + diff) h (hL diff (lt_succ_self diff))
    refine ih h' (fun k hk => ?_) (.inr hlen) fun j hj => ?_
    · rw [hL' _ (by omega) (by omega)]
      exact hL k (hk.trans (lt_succ_self diff))
    · by_cases hj' : j = e + diff + 1
      · rwa [hj', htail]
      · rw [hL' j hj hj']
        exact hs j hj'

@[simp] theorem splitStep_startAddr : (b.splitStep i).startAddr = b.startAddr := rfl

@[simp] theorem splitStep_freeSpace : (b.splitStep i).freeSpace = b.freeSpace := rfl

@[simp] theorem split_freeSpace : (split e diff b).freeSpace = b.freeSpace := by
  induction diff generalizing b with
  | zero => rfl
  | succ diff ih => rw [split, ih, splitStep_freeSpace]

@[simp] theorem split_startAddr : (split e diff b).startAddr = b.startAddr := by
  induction diff generalizing b with
  | zero => rfl
  | succ diff ih => rw [split, ih, splitStep_startAddr]

/-- The order `alloc` ends up with: the ones before it have no free block. -/
theorem diffLoop_spec (b : Buddy) (e fuel d : ℕ) :
    (∀ k, d ≤ k → k < b.diffLoop e fuel d → b.buddy (e + k) = -1 ∧ e + k < buddySize) ∧
    (b.diffLoop e fuel d = d + fuel ∨ buddySize ≤ e + b.diffLoop e fuel d ∨
      b.buddy (e + b.diffLoop e fuel d) ≠ -1) := by
  induction fuel generalizing d with
  | zero => exact ⟨fun k h₁ h2 => absurd h₁ (not_le.2 h2), .inl rfl⟩
  | succ fuel ih =>
    rw [diffLoop]
    split_ifs with hd
    · obtain ⟨h2, h3⟩ := ih (d + 1)
      refine ⟨fun k hk hk' => ?_, h3.imp (by omega) id⟩
      rcases hk.eq_or_lt with rfl | hk
      exacts [hd, h2 k hk hk']
    · refine ⟨fun k h₁ h2 => absurd h₁ (not_le.2 h2), .inr ?_⟩
      by_cases hb : b.buddy (e + d) = -1
      · exact .inl (not_lt.1 fun h => hd ⟨hb, h⟩)
      · exact .inr hb

@[simp] theorem ptrToBlock_blockToPtr (hx : 0 ≤ x) : b.ptrToBlock (b.blockToPtr x) = x := by
  simp [ptrToBlock, blockToPtr, pageSize, hx]

/-- `alloc` hands out a block which was free, or changes nothing. -/
theorem FreeLists.alloc (h : FreeLists N b A L) (size : ℕ) : b.alloc size = (none, b) ∨
    ∃ b' L' x, b.alloc size = (some (b.blockToPtr x), b') ∧ b'.startAddr = b.startAddr ∧
      0 ≤ x ∧ x + 2 ^ allocOrder size ≤ N ∧ (2 : ℤ) ^ allocOrder size ∣ x ∧
      Disjoint (dyadic (allocOrder size) x) A ∧
      FreeLists N b' (A ∪ dyadic (allocOrder size) x) L' ∧ (Coalesced L → Coalesced L') ∧
      b'.freeSpace = (b.freeSpace + 2 ^ 64 - size % 2 ^ 64) % 2 ^ 64 := by
  obtain ⟨hempty, hstop⟩ := b.diffLoop_spec (allocOrder size) (buddySize + 1) 0
  rw [Buddy.alloc]
  generalize b.diffLoop (allocOrder size) (buddySize + 1) 0 = d at *
  generalize allocOrder size = e at *
  by_cases hd : e + d ≥ buddySize
  · exact .inl (if_pos hd)
  right
  have hd' : e + d < buddySize := not_le.1 hd
  have hne : L (e + d) ≠ [] := fun hnil => by
    have hb := h.linked (e + d) hd'
    rw [hnil, Chain.nil_iff] at hb
    rcases hstop with hd | hd | hd
    · have := (hempty buddySize (Nat.zero_le _) (by omega)).2
      omega
    · omega
    · exact hd hb
  have hnil : ∀ k < d, L (e + k) = [] := fun k hk => by
    obtain ⟨hb, hlt⟩ := hempty k (Nat.zero_le k) hk
    exact (hb ▸ h.linked (e + k) hlt).eq_nil
  have htop : Sparse (L (e + d)) (L (e + d)).tail := .inl (tail_subset _)
  obtain ⟨L1, h₁, htail, hsparse⟩ := (h.splitting hd' hne).split hnil htop
    fun _ _ => .inl (List.Subset.refl _)
  obtain ⟨_, l, hx, rfl, h2⟩ := h₁.pop
  have hmem : (Buddy.split e d b).buddy e ∈ L1 e := by simp [hx]
  obtain ⟨h0, hN⟩ := h₁.inside e h₁.lt _ hmem
  refine ⟨_, _, (Buddy.split e d b).buddy e, ?_, ?_, h0, hN, h₁.aligned e h₁.lt _ hmem, ?_,
    h2.withFreeSpace (((Buddy.split e d b).freeSpace + 2 ^ 64 - size % 2 ^ 64) % 2 ^ 64),
    fun hc => hc.sparse fun j => ?_, by rw [split_freeSpace]⟩
  · simp [hd, blockToPtr]
  · exact split_startAddr
  · exact Set.disjoint_left.2 fun p hp => (h₁.tiles.subset (t := (e, _)) ⟨h₁.lt, hmem⟩ hp).2
  · by_cases hje : j = e
    · subst hje
      rwa [hx, tail_cons, ← update_self j l L1] at htail
    · rw [update_of_ne hje]
      exact hsparse j hje

/-! ## Release -/

theorem putBlock_freeSpace (h : b.putBlock e x = some b') : b'.freeSpace = b.freeSpace := by
  rw [putBlock] at h
  split_ifs at h with he
  · rw [Option.some.inj h]
  · obtain ⟨⟨curr, prev⟩, -, rfl⟩ := map_eq_some_iff.1 h
    dsimp only
    split_ifs <;> rfl

theorem unlink_freeSpace (first fourth : ℤ) : (b.unlink e first fourth).freeSpace = b.freeSpace := by
  rw [unlink]
  split_ifs <;> rfl

/-- The merges leave the count of free bytes as it is. -/
theorem mergeFrom_freeSpace {k : ℕ} (h : mergeFrom k e b = some b') :
    b'.freeSpace = b.freeSpace := by
  induction k generalizing e b with
  | zero => rw [Option.some.inj h]
  | succ k ih =>
    rw [mergeFrom] at h
    split_ifs at h with he
    · rw [Option.some.inj h]
    obtain ⟨window, -, h⟩ := bind_eq_some_iff.1 h
    rcases window with _ | ⟨first, second, fourth⟩
    · rw [Option.some.inj h]
    · obtain ⟨b1, hb1, h⟩ := bind_eq_some_iff.1 h
      rw [ih h, unlink_freeSpace, putBlock_freeSpace hb1]

/-- `free` takes back a block of pages handed out. -/
theorem FreeLists.free (h : FreeLists N b A L) (hN : N ≤ 2 ^ 15)
    (hx : dyadic (getOrder size) x ⊆ A) (ha : (2 : ℤ) ^ getOrder size ∣ x) :
    ∃ b' L', b.free (b.blockToPtr x) size = some b' ∧ b'.startAddr = b.startAddr ∧
      FreeLists N b' (A \ dyadic (getOrder size) x) L' ∧ (Coalesced L → Coalesced L') ∧
      b'.freeSpace = (b.freeSpace + size) % 2 ^ 64 := by
  obtain ⟨h0, h1⟩ := h.bounds hx
  have he : getOrder size < buddySize := order_lt hN h0 h1
  obtain ⟨b1, l, hb1, h₁, hl, ha1⟩ := h.putBlock hN he hx ha
  obtain ⟨b2, L2, hb2, h2, hc2, ha2⟩ := h₁.mergeFrom hN (buddySize + 1 - getOrder size)
    (e := getOrder size) (x := x)
  refine ⟨_, L2, ?_, ?_, h2.withFreeSpace ((b2.freeSpace + size) % 2 ^ 64),
    fun hc => hc2 (hc.insert hl) (by omega), ?_⟩
  · simp [Buddy.free, Buddy.merge, h0, hb1, hb2]
  · exact ha2.trans ha1
  · rw [mergeFrom_freeSpace hb2, putBlock_freeSpace hb1]

/-! ## Initialisation -/

/-- No block is listed and every page is handed out. -/
theorem freeLists_nil (hb : ∀ i < buddySize, b.buddy i = -1) :
    FreeLists N b (Set.Ico 0 (N : ℤ)) fun _ => [] where
  aligned _ _ _ h := absurd h not_mem_nil
  inside _ _ _ h := absurd h not_mem_nil
  tiles := by
    rw [Set.sdiff_self]
    exact ⟨by simp [listed], by simp [listed]⟩
  handedOut := subset_rfl
  linked i hi := Chain.nil_iff.2 (hb i hi)
  ascending _ _ := List.Pairwise.nil

/-- The loop of `init`: the pages from `block` on are left, fewer than a block of
    order `k`, and blocks of order `k - 1` are tried. -/
theorem initLoop_spec (fuel k blockNum : ℕ) {block : ℤ}
    (h : FreeLists N b (Set.Ico block (N : ℤ)) L) (hk : k ≤ buddySize)
    (hsum : block + blockNum = N) (hlt : blockNum < 2 ^ k) (hdvd : ∀ m < k, (2 : ℤ) ^ m ∣ block)
    (hlow : ∀ j, j + 1 < k → L j = []) (htop : ∀ m, k = m + 1 → L m = [] ∨ blockNum < 2 ^ m)
    (hfuel : blockNum + k < fuel) (hlen : ∀ j, (L j).length ≤ 1) :
    ∃ L', FreeLists N (initLoop fuel blockNum (k - 1) block b) ∅ L' ∧ (∀ j, (L' j).length ≤ 1) ∧
      (initLoop fuel blockNum (k - 1) block b).startAddr = b.startAddr ∧
      (initLoop fuel blockNum (k - 1) block b).freeSpace = b.freeSpace := by
  induction fuel generalizing k blockNum block b L with
  | zero => exact absurd hfuel (Nat.not_lt_zero _)
  | succ fuel ih =>
    obtain rfl | hpos := blockNum.eq_zero_or_pos
    · obtain rfl : block = N := by simpa using hsum
      refine ⟨L, ?_, hlen, by simp [initLoop], by simp [initLoop]⟩
      simpa [initLoop] using h
    obtain _ | m := k
    · simp only [pow_zero] at hlt
      omega
    have hi : ((m + 1 : ℕ) : ℤ) - 1 = m := by push_cast; ring
    rw [initLoop, if_pos ⟨hpos, by omega⟩]
    simp only [hi, Int.toNat_natCast]
    by_cases hge : blockNum ≥ 2 ^ m
    · -- A block of order `m` fits: it is the first one of its list.
      have hLm : L m = [] := (htop m rfl).resolve_right (not_lt.2 hge)
      have hbm : b.buddy m = -1 := Chain.nil_iff.1 (hLm ▸ h.linked m hk)
      have hm : ((2 ^ m : ℕ) : ℤ) = 2 ^ m := by simp
      have hsub : dyadic m block ⊆ Set.Ico block (N : ℤ) := fun p hp => by
        rw [mem_dyadic] at hp
        exact Set.mem_Ico.2 ⟨hp.1, by omega⟩
      obtain ⟨h₁, hb1⟩ := h.push h.linked hk hsub (hdvd m (lt_succ_self m))
      have hA : Set.Ico block (N : ℤ) \ dyadic m block = Set.Ico (block + 2 ^ m) (N : ℤ) := by
        ext p
        have : (0 : ℤ) < 2 ^ m := by positivity
        simp only [Set.mem_sdiff, Set.mem_Ico, mem_dyadic]
        omega
      rw [hA, hLm] at h₁
      rw [hLm, hbm] at hb1
      have h' : FreeLists N ((b.setHead m block).putAtBlock block (-1))
          (Set.Ico (block + 2 ^ m) (N : ℤ)) (update L m [block]) :=
        ⟨h₁, hb1, h.ascending.update (pairwise_singleton _ _)⟩
      rw [if_pos hge, if_pos hbm, hm, ← hi]
      refine ih _ _ h' hk (by omega) (by omega) (fun j hj => ?_) (fun j hj => ?_) (fun j hj => ?_)
        (by have := Nat.two_pow_pos m; omega) fun j => ?_
      · exact (hdvd j hj).add (pow_dvd_pow 2 (le_of_lt_succ hj))
      · rw [update_of_ne (by omega)]
        exact hlow j hj
      · obtain rfl : m = j := by omega
        exact .inr (by omega)
      · by_cases hj : j = m
        · rw [hj, update_self, length_singleton]
        · rw [update_of_ne hj]
          exact hlen j
    · rw [if_neg hge]
      refine ih _ _ h (le_of_succ_le hk) hsum (not_le.1 hge) (fun j hj => hdvd j (by omega))
        (fun j hj => hlow j (by omega)) (fun j hj => .inl (hlow j (by omega))) (by omega) hlen

/-- After `init`, every page is free, in at most one block of every order. -/
theorem init_freeLists (b0 : Buddy) (startAddr : ℕ) (hN : N ≤ 2 ^ 15) :
    ∃ L, FreeLists N (b0.init startAddr N) ∅ L ∧ (∀ j, (L j).length ≤ 1) ∧
      (b0.init startAddr N).startAddr = startAddr ∧
      (b0.init startAddr N).freeSpace = N * pageSize := by
  exact initLoop_spec (N + buddySize + 1) buddySize N
    (freeLists_nil (N := N) (b := { b0 with
      startAddr := startAddr
      buddy := fun i => if i < buddySize then -1 else b0.buddy i
      freeSpace := N * pageSize }) fun i hi => if_pos hi) le_rfl (by simp)
    (hN.trans_lt (by norm_num [buddySize])) (by simp) (by simp) (by simp) (by omega)
    fun _ => Nat.zero_le _

/-! ## Runs -/

/-- A block may be released: it is aligned, and its pages are handed out. -/
def Releasable (b : Buddy) (A : Set ℤ) (ptr size : ℕ) : Prop :=
  ∃ x, ptr = b.blockToPtr x ∧ (2 : ℤ) ^ getOrder size ∣ x ∧ dyadic (getOrder size) x ⊆ A

/-- A step of a run, from the allocator and the pages handed out: a call of
    `alloc` or `free`, or a write to the first `int` of a page by its holder. -/
inductive Step : Buddy × Set ℤ → Buddy × Set ℤ → Prop
  | alloc {b b' : Buddy} {A : Set ℤ} {size ptr : ℕ} : b.alloc size = (some ptr, b') →
      Step (b, A) (b', A ∪ dyadic (allocOrder size) (b.ptrToBlock ptr))
  | allocNull {b b' : Buddy} {A : Set ℤ} {size : ℕ} : b.alloc size = (none, b') →
      Step (b, A) (b', A)
  | free {b b' : Buddy} {A : Set ℤ} {ptr size : ℕ} : Releasable b A ptr size →
      b.free ptr size = some b' → Step (b, A) (b', A \ dyadic (getOrder size) (b.ptrToBlock ptr))
  | write {b : Buddy} {A : Set ℤ} {page value : ℤ} : page ∈ A →
      Step (b, A) (b.putAtBlock page value, A)

/-- Writing into a page handed out does not touch the free lists. -/
theorem FreeLists.write (h : FreeLists N b A L) (hx : x ∈ A) : FreeLists N (b.putAtBlock x y) A L :=
  ⟨h.toLayout, fun i hi => (h.linked i hi).update (h.not_mem hx hi), h.ascending⟩

theorem FreeLists.step {s s' : Buddy × Set ℤ} (h : FreeLists N s.1 s.2 L) (hN : N ≤ 2 ^ 15)
    (hs : Step s s') : ∃ L', FreeLists N s'.1 s'.2 L' ∧ (Coalesced L → Coalesced L') := by
  cases hs with
  | alloc ha =>
    rename_i b b' A size ptr
    rcases h.alloc size with hn | ⟨b1, L1, x, hx, -, h0, -, -, -, h₁, hc, -⟩
    · rw [hn] at ha
      cases ha
    · rw [ha] at hx
      cases hx
      exact ⟨L1, by simpa [h0] using h₁, hc⟩
  | allocNull ha =>
    rename_i b b' A size
    rcases h.alloc size with hn | ⟨b1, L1, x, hx, -⟩
    · rw [ha] at hn
      cases hn
      exact ⟨L, h, id⟩
    · rw [ha] at hx
      cases hx
  | free hr hf =>
    obtain ⟨x, rfl, ha, hx⟩ := hr
    obtain ⟨b1, L1, hb1, -, h₁, hc, -⟩ := h.free hN hx ha
    obtain rfl := Option.some.inj (hf.symm.trans hb1)
    exact ⟨L1, by simpa [(h.bounds hx).1] using h₁, hc⟩
  | write hp => exact ⟨L, h.write hp, id⟩

theorem orderLoop_spec (size fuel i : ℕ) : orderLoop size fuel i = i + fuel ∨
    size ≤ intShl (startPow + orderLoop size fuel i) := by
  induction fuel generalizing i with
  | zero => exact .inl rfl
  | succ fuel ih =>
    rw [orderLoop]
    split_ifs with h
    · exact (ih (i + 1)).imp (fun e => by omega) id
    · exact .inr (not_lt.1 h)

/-- The block `alloc` hands out covers the size asked for. -/
theorem le_allocOrder (h : allocOrder size < buddySize) :
    size ≤ pageSize * 2 ^ allocOrder size := by
  simp only [buddySize] at h
  rcases orderLoop_spec size 20 0 with hi | hi
  · exact absurd h (by rw [allocOrder, hi]; norm_num)
  · rwa [← allocOrder, intShl, if_pos (by simp only [startPow]; omega), pow_add] at hi

/-- In every run, the free lists are strictly ascending, hold aligned blocks
    inside of the heap, and tile exactly the pages which are not handed out. So
    a release goes through, and a block handed out covers the size asked for and
    overlaps no page handed out before. -/
theorem reachable_freeLists (b0 : Buddy) (startAddr : ℕ) (hN : N ≤ 2 ^ 15) {s : Buddy × Set ℤ}
    (hs : Relation.ReflTransGen Step (b0.init startAddr N, ∅) s) : (∃ L, FreeLists N s.1 s.2 L) ∧
      (∀ ptr size, Releasable s.1 s.2 ptr size → ∃ b', s.1.free ptr size = some b') ∧
      ∀ size ptr b', s.1.alloc size = (some ptr, b') → size ≤ pageSize * 2 ^ allocOrder size ∧
        Disjoint (dyadic (allocOrder size) (s.1.ptrToBlock ptr)) s.2 := by
  have hL : ∃ L, FreeLists N s.1 s.2 L := by
    induction hs with
    | refl => exact (init_freeLists b0 startAddr hN).imp fun _ h => h.1
    | tail _ hst ih =>
      obtain ⟨L, h⟩ := ih
      exact (h.step hN hst).imp fun _ h => h.1
  obtain ⟨L, h⟩ := hL
  refine ⟨⟨L, h⟩, fun ptr size ⟨x, hp, ha, hx⟩ => ?_, fun size ptr b' ha => ?_⟩
  · obtain ⟨b', -, hb', -⟩ := h.free hN hx ha
    exact ⟨b', hp ▸ hb'⟩
  · rcases h.alloc size with hn | ⟨b1, L1, x, hx, -, h0, hle, -, hd, -⟩
    · rw [hn] at ha
      cases ha
    · rw [ha] at hx
      cases hx
      exact ⟨le_allocOrder (order_lt hN h0 hle), by simpa [h0] using hd⟩

/-- A memory full of zeros. -/
def zeros : Buddy := ⟨0, fun _ => 0, fun _ => 0, 0⟩

/-- Two pages handed out of a heap of four. -/
theorem freeLists_of_two_pages : ((zeros.init 0 4).alloc 8192).1 = some 8192 ∧
    ∃ L, FreeLists 4 ((zeros.init 0 4).alloc 8192).2
      (∅ ∪ dyadic (allocOrder 8192) ((zeros.init 0 4).ptrToBlock 8192)) L := by
  have h : ((zeros.init 0 4).alloc 8192).1 = some 8192 := by decide +kernel
  exact ⟨h, (reachable_freeLists zeros 0 (by norm_num) (.single (.alloc (Prod.ext h rfl)))).1⟩

end HobbyOS.Buddy
