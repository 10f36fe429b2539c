import HobbyOS.Buddy
import HobbyOS.Chain
import HobbyOS.Tiling

/-!
# The free lists of the buddy allocator

What the free lists of a heap of `N` pages hold, `A` being the pages handed out:

* `Linked`: following the links from `buddy i` runs through the blocks `L i`;
* `Layout`: every block of order `i` is aligned to `2 ^ i` pages and inside the
  heap, and the blocks of all orders tile the pages which are not handed out;
* `Ascending`: every list is strictly ascending;
* `Coalesced`: no list holds two buddies.

A block is laid (`Layout.lay`) or taken (`Layout.take`) without regard to the
links, and the links are followed without regard to the layout
(`putBlock_linked`, `mergeLoop_spec`); the two meet in `FreeLists.merge`, where
two buddies are taken and the block they make is laid, and in `FreeLists.split`.
-/

namespace HobbyOS.Buddy

open Function List Set

variable {N i j e fuel : ℕ} {b b' : Buddy} {A : Set ℤ} {L : ℕ → List ℤ} {x y q s t first : ℤ}
  {l R l1 l2 : List ℤ}

/-- The blocks of the lists `L`, with their orders. -/
def listed (L : ℕ → List ℤ) : Set (ℕ × ℤ) := {q | q.1 < buddySize ∧ q.2 ∈ L q.1}

/-- The pages of a block. -/
def area (q : ℕ × ℤ) : Set ℤ := dyadic q.1 q.2

/-- The links of the state run through the blocks `L`. -/
def Linked (b : Buddy) (L : ℕ → List ℤ) : Prop :=
  ∀ i < buddySize, Chain b.word (-1) (b.buddy i) (L i)

/-- Every list is strictly ascending. -/
def Ascending (L : ℕ → List ℤ) : Prop := ∀ i < buddySize, (L i).Pairwise (· < ·)

/-- The blocks `L` are where blocks may be, and tile the pages outside of `A`. -/
structure Layout (N : ℕ) (A : Set ℤ) (L : ℕ → List ℤ) : Prop where
  aligned : ∀ i < buddySize, ∀ x ∈ L i, (2 : ℤ) ^ i ∣ x
  inside : ∀ i < buddySize, ∀ x ∈ L i, 0 ≤ x ∧ x + 2 ^ i ≤ N
  tiles : Tiles area (listed L) (Set.Ico 0 (N : ℤ) \ A)
  handedOut : A ⊆ Set.Ico 0 (N : ℤ)

/-- The free lists are as they should be, the pages `A` being handed out. -/
structure FreeLists (N : ℕ) (b : Buddy) (A : Set ℤ) (L : ℕ → List ℤ) : Prop extends
    Layout N A L where
  linked : Linked b L
  ascending : Ascending L

/-! ## Laying and taking blocks -/

theorem mem_lay (hl : ∀ y, y ∈ l ↔ y = x ∨ y ∈ L i) :
    y ∈ update L i l j ↔ j = i ∧ y = x ∨ y ∈ L j := by
  by_cases hj : j = i
  · subst hj
    simp [hl]
  · simp [hj]

theorem mem_take (hl : ∀ y, y ∈ l ↔ y ∈ L i ∧ y ≠ x) :
    y ∈ update L i l j ↔ y ∈ L j ∧ ¬ (j = i ∧ y = x) := by
  by_cases hj : j = i
  · subst hj
    simp [hl]
  · simp [hj]

theorem listed_lay (hi : i < buddySize) (hl : ∀ y, y ∈ l ↔ y = x ∨ y ∈ L i) :
    listed (update L i l) = insert (i, x) (listed L) := by
  ext ⟨j, y⟩
  simp only [listed, Set.mem_insert_iff, Prod.mk.injEq, mem_ofPred_eq, mem_lay hl]
  grind

theorem listed_take (hl : ∀ y, y ∈ l ↔ y ∈ L i ∧ y ≠ x) :
    listed (update L i l) = listed L \ {(i, x)} := by
  ext ⟨j, y⟩
  simp [listed, mem_take hl, and_assoc]

namespace Layout

variable (h : Layout N A L)

include h

/-- A page handed out is on no list. -/
theorem not_mem (hx : x ∈ A) (hi : i < buddySize) : x ∉ L i := fun hm =>
  (h.tiles.subset (t := (i, x)) ⟨hi, hm⟩ (self_mem_dyadic i x)).2 hx

/-- A page is on the list of one order only. -/
theorem eq_of_mem (hi : i < buddySize) (hj : j < buddySize) (hx : x ∈ L i) (hy : x ∈ L j) :
    i = j := by
  by_contra hne
  have hi' : (i, x) ∈ listed L := ⟨hi, hx⟩
  have hj' : (j, x) ∈ listed L := ⟨hj, hy⟩
  have hd := h.tiles.disjoint hi' hj' (by simpa using hne)
  exact Set.disjoint_left.1 hd (self_mem_dyadic i x) (self_mem_dyadic j x)

/-- A list has no more blocks than the heap has pages. -/
theorem length_le (hi : i < buddySize) (hnd : (L i).Nodup) : (L i).length ≤ N := by
  have hsub : (L i).toFinset ⊆ Finset.Ico (0 : ℤ) N := by
    intro x hx
    obtain ⟨h0, h1⟩ := h.inside i hi x (List.mem_toFinset.1 hx)
    have : (0 : ℤ) < 2 ^ i := by positivity
    exact Finset.mem_Ico.2 ⟨h0, by omega⟩
  have := Finset.card_le_card hsub
  rw [toFinset_card_of_nodup hnd, Int.card_Ico] at this
  omega

theorem bounds (hx : dyadic i x ⊆ A) : 0 ≤ x ∧ x + 2 ^ i ≤ N := by
  have : (0 : ℤ) < 2 ^ i := by positivity
  have h₀ := h.handedOut (hx (self_mem_dyadic i x))
  have h₁ := h.handedOut (hx (mem_dyadic.2 ⟨by omega, by omega⟩ : x + 2 ^ i - 1 ∈ dyadic i x))
  rw [mem_Ico] at h₀ h₁
  omega

/-- Laying a block of pages handed out. -/
theorem lay (hi : i < buddySize) (hx : dyadic i x ⊆ A) (ha : (2 : ℤ) ^ i ∣ x)
    (hl : ∀ y, y ∈ l ↔ y = x ∨ y ∈ L i) : Layout N (A \ dyadic i x) (update L i l) where
  aligned j hj y hy := by
    rcases (mem_lay hl).1 hy with ⟨rfl, rfl⟩ | hy
    exacts [ha, h.aligned j hj y hy]
  inside j hj y hy := by
    rcases (mem_lay hl).1 hy with ⟨rfl, rfl⟩ | hy
    exacts [h.bounds hx, h.inside j hj y hy]
  tiles := by
    have hd : Disjoint (area (i, x)) (Set.Ico 0 (N : ℤ) \ A) :=
      Set.disjoint_left.2 fun p hp hp' => hp'.2 (hx hp)
    have ht := h.tiles.insert hd
    rw [← listed_lay hi hl] at ht
    convert ht using 1
    ext p
    by_cases hp : p ∈ dyadic i x
    · have := h.handedOut (hx hp)
      simp [area, hp, mem_Ico.1 this]
    · simp [area, hp]
  handedOut := sdiff_subset.trans h.handedOut

/-- Taking a block: its pages are handed out. -/
theorem take (hi : i < buddySize) (hx : x ∈ L i) (hl : ∀ y, y ∈ l ↔ y ∈ L i ∧ y ≠ x) :
    Layout N (A ∪ dyadic i x) (update L i l) where
  aligned j hj y hy := h.aligned j hj y ((mem_take hl).1 hy).1
  inside j hj y hy := h.inside j hj y ((mem_take hl).1 hy).1
  tiles := by
    have ht := h.tiles.erase (t := (i, x)) ⟨hi, hx⟩
    rw [← listed_take hl] at ht
    convert ht using 1
    rw [Set.sdiff_sdiff]
    rfl
  handedOut := by
    refine union_subset h.handedOut fun p hp => ?_
    obtain ⟨h0, h1⟩ := h.inside i hi x hx
    rw [mem_dyadic] at hp
    exact mem_Ico.2 ⟨by omega, by omega⟩

end Layout

/-! ## Following the links -/

/-- The walk of `putBlock` stops between the smaller blocks and the others. -/
theorem putLoop_spec {curr p : ℤ} (hc : Chain b.word (-1) curr l) (hf : l.length < fuel) :
    ∃ l1 l2 curr', l = l1 ++ l2 ∧ (∀ y ∈ l1, y < x) ∧
      (∀ y ∈ l2.head?, x ≤ y) ∧ Chain b.word (-1) curr' l2 ∧
      b.putLoop x fuel curr p = some (curr', l1.getLast?.getD p) := by
  induction l generalizing fuel curr p with
  | nil =>
    obtain _ | fuel := fuel
    · simp at hf
    rw [Chain.nil_iff] at hc
    exact ⟨[], [], curr, rfl, by simp, by simp, by simp [hc], by simp [putLoop, hc]⟩
  | cons a l ih =>
    obtain _ | fuel := fuel
    · simp at hf
    obtain ⟨rfl, hne, hc'⟩ := Chain.cons_iff.1 hc
    by_cases hlt : curr < x
    · obtain ⟨l1, l2, curr', rfl, h₁, h2, hc'', e⟩ :=
        ih (p := curr) hc' (Nat.lt_of_succ_lt_succ hf)
      refine ⟨curr :: l1, l2, curr', rfl, ?_, h2, hc'', ?_⟩
      · simpa [hlt] using h₁
      · rw [putLoop, if_pos ⟨hlt, hne⟩]
        simpa [getAtBlock, List.getLast?_cons] using e
    · refine ⟨[], curr :: l, curr, rfl, by simp, by simpa using hlt, hc, ?_⟩
      simp [putLoop, hlt]

/-- Inserting a block between the smaller blocks and the others keeps a list
    strictly ascending. -/
theorem ascending_insert (hs : (l1 ++ l2).Pairwise (· < ·)) (hx : x ∉ l1 ++ l2)
    (h₁ : ∀ y ∈ l1, y < x) (h2 : ∀ y ∈ l2.head?, x ≤ y) : (l1 ++ x :: l2).Pairwise (· < ·) := by
  obtain ⟨hs1, hs2, hs12⟩ := pairwise_append.1 hs
  have hlt : ∀ y ∈ l2, x < y := by
    cases l2 with
    | nil => simp
    | cons a l2 =>
      have ha : x < a := lt_of_le_of_ne (h2 a rfl) fun e => hx (by simp [e])
      intro y hy
      rcases mem_cons.1 hy with rfl | hy
      exacts [ha, ha.trans ((pairwise_cons.1 hs2).1 y hy)]
  refine pairwise_append.2 ⟨hs1, pairwise_cons.2 ⟨hlt, hs2⟩, fun a ha y hy => ?_⟩
  rcases mem_cons.1 hy with rfl | hy
  exacts [h₁ a ha, hs12 a ha y hy]

/-- `putBlock` inserts a block between the smaller blocks and the others. It
    writes the list of its order and the links of its blocks only. -/
theorem putBlock_linked (he : e < buddySize) (hc : Chain b.word (-1) (b.buddy e) l)
    (hs : l.Pairwise (· < ·)) (hx : x ∉ l) (hx' : x ≠ -1) (hf : l.length < walkFuel) :
    ∃ b' l', b.putBlock e x = some b' ∧ (∀ y, y ∈ l' ↔ y = x ∨ y ∈ l) ∧ l'.Pairwise (· < ·) ∧
      Chain b'.word (-1) (b'.buddy e) l' ∧ (∀ j ≠ e, b'.buddy j = b.buddy j) ∧
      (∀ y, y ≠ x → y ∉ l → b'.word y = b.word y) ∧ b'.startAddr = b.startAddr := by
  obtain ⟨l1, l2, curr, rfl, h₁, h2, hc', hl⟩ := putLoop_spec (x := x) (p := -1) hc hf
  have hx2 : x ∉ l2 := fun hm => hx (mem_append_right _ hm)
  refine Exists.imp (fun b' => ?_) (?_ : ∃ b', b.putBlock e x = some b' ∧
    Chain b'.word (-1) (b'.buddy e) (l1 ++ x :: l2) ∧ (∀ j ≠ e, b'.buddy j = b.buddy j) ∧
    (∀ y, y ≠ x → y ∉ l1 ++ l2 → b'.word y = b.word y) ∧ b'.startAddr = b.startAddr)
  · rintro ⟨hb, hb'⟩
    exact ⟨_, hb, fun y => by simp [or_left_comm], ascending_insert hs hx h₁ h2, hb'⟩
  rw [putBlock, if_neg (by omega), hl]
  rcases eq_nil_or_concat l1 with rfl | ⟨l0, p, rfl⟩
  · refine ⟨_, rfl, ?_, fun j hj => ?_, fun y hy _ => ?_, rfl⟩
    · simpa [putAtBlock, setHead] using hc'.push hx2 hx'
    · simp [putAtBlock, setHead, hj]
    · simp [putAtBlock, setHead, hy]
  have hp : p ≠ -1 := fun hp => hc.2 (by simp [hp])
  have hpx : p ≠ x := ne_of_mem_of_not_mem (by simp) hx
  refine ⟨_, rfl, ?_, fun j hj => ?_, fun y hy hy' => ?_, ?_⟩
  · -- Link the new block to what follows, then the block before to it.
    have hpush := hc'.push hx2 hx'
    have hold := hc.update (v := curr) hx
    rw [concat_eq_append, append_assoc] at hold
    have hp2 : p ∉ x :: l2 := by
      have := (nodup_append.1 hc.nodup).2.2 p (by simp)
      simp only [mem_cons, not_or]
      exact ⟨hpx, fun hm => this p hm rfl⟩
    have hs := hold.splice hpush hp2
    rw [update_comm hpx.symm] at hs
    simpa [putAtBlock, hp] using hs
  · simp [putAtBlock, hp]
  · have hyp : y ≠ p := fun e => hy' (by simp [e])
    simp [putAtBlock, hp, hy, hyp]
  · simp [putAtBlock, hp]

/-- Two blocks of order `e` which make a block of order `e + 1`. -/
def Buddies (e : ℕ) (s t : ℤ) : Prop := t - s = 2 ^ e ∧ s % 2 ^ (e + 1) = 0

/-- No list holds two buddies. -/
def Coalesced (L : ℕ → List ℤ) : Prop :=
  ∀ i < buddySize, ∀ s ∈ L i, ∀ t ∈ L i, ¬ Buddies i s t

/-- If two buddies are listed, they are of order `e` and one of them is `x`. -/
def CoalescedBut (e : ℕ) (x : ℤ) (L : ℕ → List ℤ) : Prop :=
  ∀ i < buddySize, ∀ s ∈ L i, ∀ t ∈ L i, Buddies i s t → i = e ∧ (s = x ∨ t = x)

/-- The window holds no buddies, and neither do the blocks walked past. -/
theorem isChain_window (hR : -1 ∉ R) (hR' : R.tail.IsChain fun t s => ¬ Buddies e s t)
    (hcond : ¬ (R.getD 1 (-1) ≠ -1 ∧ R.getD 0 (-1) ≠ -1 ∧
      R.getD 0 (-1) - R.getD 1 (-1) = 2 ^ e ∧ R.getD 1 (-1) % 2 ^ (e + 1) = 0)) :
    R.IsChain fun t s => ¬ Buddies e s t := by
  cases R with
  | nil => exact .nil
  | cons t R =>
    cases R with
    | nil => exact .singleton _
    | cons s R =>
      simp only [mem_cons, not_or] at hR
      exact isChain_cons_cons.2
        ⟨fun hst => hcond ⟨Ne.symm hR.2.1, Ne.symm hR.1, hst⟩, hR'⟩

/-- Neighbours in an ascending list of aligned blocks are all that can be buddies. -/
theorem not_buddies_of_isChain (hs : l.Pairwise (· < ·)) (ha : ∀ y ∈ l, (2 : ℤ) ^ e ∣ y)
    (hl : l.reverse.IsChain fun t s => ¬ Buddies e s t) : ∀ s ∈ l, ∀ t ∈ l, ¬ Buddies e s t := by
  intro s hsl t htl hst
  have hpow : (0 : ℤ) < 2 ^ e := by positivity
  have hlt : s < t := by have := hst.1; omega
  obtain ⟨l1, l2, rfl⟩ := append_of_mem hsl
  obtain ⟨-, hs2, hs12⟩ := pairwise_append.1 hs
  rw [pairwise_cons] at hs2
  have ht2 : t ∈ l2 := by
    rcases mem_append.1 htl with ht | ht
    · exact absurd (hs12 t ht s (.head _)) (by omega)
    · exact (mem_cons.1 ht).resolve_left hlt.ne'
  obtain ⟨u, l3, rfl⟩ := exists_cons_of_ne_nil (ne_nil_of_mem ht2)
  -- What follows `s` in the list is `t`: there is no aligned block between the two.
  have hut : u = t := by
    rcases mem_cons.1 ht2 with rfl | ht3
    · rfl
    have hsu := hs2.1 u (.head _)
    have hut := (pairwise_cons.1 hs2.2).1 t ht3
    obtain ⟨m, hm⟩ := dvd_sub (ha u (by simp)) (ha s (by simp))
    have h0 : 0 < m := (mul_pos_iff_of_pos_left hpow).1 (by omega)
    have h1 : (2 : ℤ) ^ e * 1 ≤ 2 ^ e * m := mul_le_mul_of_nonneg_left h0 hpow.le
    have := hst.1
    omega
  subst hut
  rw [isChain_reverse] at hl
  exact (isChain_cons_cons.1 (isChain_append.1 hl).2.1).1 hst

/-- The walk of `merge` finds two neighbours which are buddies, or there are none. The
    window holds the last blocks of `R`, the blocks walked past, latest first. -/
theorem mergeLoop_spec (hc : Chain b.word (-1) q l) (hf : l.length < fuel) (hR : -1 ∉ R)
    (hR' : R.tail.IsChain fun t s => ¬ Buddies e s t) :
    (b.mergeLoop e fuel (R.getD 2 (-1)) (R.getD 1 (-1)) (R.getD 0 (-1)) q = some none ∧
      (l.reverse ++ R).IsChain fun t s => ¬ Buddies e s t) ∨
      ∃ l1 s t l2 q', R.reverse ++ l = l1 ++ s :: t :: l2 ∧ Buddies e s t ∧
        Chain b.word (-1) q' l2 ∧
        b.mergeLoop e fuel (R.getD 2 (-1)) (R.getD 1 (-1)) (R.getD 0 (-1)) q =
          some (some (l1.getLast?.getD (-1), s, q')) := by
  induction fuel generalizing l q R with
  | zero => exact absurd hf (Nat.not_lt_zero _)
  | succ fuel ih =>
    by_cases hcond : R.getD 1 (-1) ≠ -1 ∧ R.getD 0 (-1) ≠ -1 ∧
        R.getD 0 (-1) - R.getD 1 (-1) = 2 ^ e ∧ R.getD 1 (-1) % 2 ^ (e + 1) = 0
    · rw [mergeLoop, if_pos hcond]
      match R, hcond with
      | t :: s :: R, ⟨_, _, hst⟩ =>
        refine .inr ⟨R.reverse, s, t, l, q, by simp, hst, hc, ?_⟩
        simp [List.head?_eq_getElem?]
    have hchain := isChain_window hR hR' hcond
    rw [mergeLoop, if_neg hcond]
    cases l with
    | nil =>
      rw [Chain.nil_iff] at hc
      exact .inl ⟨if_pos hc, hchain⟩
    | cons a l =>
      obtain ⟨rfl, hne, hc'⟩ := Chain.cons_iff.1 hc
      rw [if_neg hne]
      have := ih (R := q :: R) hc' (Nat.lt_of_succ_lt_succ hf) (by simpa [hne.symm] using hR) hchain
      simpa [getAtBlock] using this

/-! ## Inserting a block -/

/-- Changes of the list of one order and of the links of its blocks, or of
    pages handed out, leave the other lists as they are. -/
theorem Linked.frame (h : Linked b L) (hj : j < buddySize) (hb : b'.buddy j = b.buddy j)
    (hw : ∀ y ∈ L j, b'.word y = b.word y) : Chain b'.word (-1) (b'.buddy j) (L j) := by
  rw [hb]
  exact (h j hj).congr hw

theorem Ascending.update (h : Ascending L) (hl : l.Pairwise (· < ·)) :
    Ascending (update L i l) := by
  intro j hj
  by_cases hji : j = i
  · subst hji
    rwa [update_self]
  · rw [update_of_ne hji]
    exact h j hj

namespace FreeLists

theorem length_lt (h : FreeLists N b A L) (hN : N ≤ 2 ^ 15) (hi : i < buddySize) :
    (L i).length < walkFuel := by
  have := h.length_le hi (h.linked i hi).nodup
  simp only [walkFuel]
  omega

/-- `putBlock` lays a block of pages handed out. -/
theorem putBlock (h : FreeLists N b A L) (hN : N ≤ 2 ^ 15) (he : e < buddySize)
    (hx : dyadic e x ⊆ A) (ha : (2 : ℤ) ^ e ∣ x) : ∃ b' l, b.putBlock e x = some b' ∧
      FreeLists N b' (A \ dyadic e x) (update L e l) ∧
      (∀ y, y ∈ l ↔ y = x ∨ y ∈ L e) ∧ b'.startAddr = b.startAddr := by
  have hxA : x ∈ A := hx (self_mem_dyadic e x)
  have hxe : x ∉ L e := h.not_mem hxA he
  have hx0 : x ≠ -1 := by have := (h.bounds hx).1; omega
  obtain ⟨b', l, hb', hmem, hs, hc, hbuddy, hword, haddr⟩ :=
    putBlock_linked he (h.linked e he) (h.ascending e he) hxe hx0 (h.length_lt hN he)
  refine ⟨b', l, hb', ⟨h.lay he hx ha hmem, fun j hj => ?_, h.ascending.update hs⟩, hmem, haddr⟩
  · by_cases hje : j = e
    · subst hje
      rwa [update_self]
    · rw [update_of_ne hje]
      refine h.linked.frame hj (hbuddy j hje) fun y hy => hword y ?_ fun hy' => ?_
      · exact ne_of_mem_of_not_mem hy (h.not_mem hxA hj)
      · exact hje (h.eq_of_mem hj he hy hy')

end FreeLists

/-! ## Merging buddies -/

/-- Two buddies make a block of the next order. -/
theorem Layout.merge (h : Layout N A L) (he : e + 1 < buddySize) (hL : L e = l1 ++ s :: t :: l2)
    (hnd : (L e).Nodup) (hst : Buddies e s t) (hl : ∀ y, y ∈ l ↔ y = s ∨ y ∈ L (e + 1)) :
    Layout N A (update (update L e (l1 ++ l2)) (e + 1) l) := by
  have he' : e < buddySize := by omega
  obtain rfl : t = s + 2 ^ e := by have := hst.1; omega
  rw [hL] at hnd
  have hs := h.take (l := l1 ++ (s + 2 ^ e) :: l2) he' (x := s) (by simp [hL]) fun y => by
    rw [hL, mem_splice_out hnd]
  have hnd' : (l1 ++ (s + 2 ^ e) :: l2).Nodup := (nodup_cons.1 (nodup_middle.1 hnd)).2
  have ht := hs.take (l := l1 ++ l2) he' (x := s + 2 ^ e) (by simp) fun y => by
    rw [update_self, mem_splice_out hnd']
  rw [update_idem] at ht
  have hu := ht.lay (x := s) (l := l) he ?_ (Int.dvd_of_emod_eq_zero hst.2) ?_
  · -- The pages of the buddies are those of the block they make.
    convert hu using 1
    rw [union_assoc, ← dyadic_succ, union_sdiff_right, eq_comm, sdiff_eq_left, dyadic_succ]
    refine disjoint_union_right.2 ⟨?_, ?_⟩
    · exact Set.disjoint_left.2 fun p hp hp' =>
        (h.tiles.subset (t := (e, s)) ⟨he', by simp [hL]⟩ hp').2 hp
    · exact Set.disjoint_left.2 fun p hp hp' =>
        (h.tiles.subset (t := (e, s + 2 ^ e)) ⟨he', by simp [hL]⟩ hp').2 hp
  · rw [dyadic_succ, union_assoc]
    exact subset_union_right
  · intro y
    rw [hl, update_of_ne (by omega)]

/-- Unlinking two neighbours: what came before them is linked to what follows. -/
theorem unlink_linked (hc : Chain b.word (-1) (b.buddy e) (l1 ++ s :: t :: l2))
    (hq : Chain b.word (-1) q l2) : Chain (b.unlink e (l1.getLast?.getD (-1)) q).word (-1)
      ((b.unlink e (l1.getLast?.getD (-1)) q).buddy e) (l1 ++ l2) := by
  rcases eq_nil_or_concat l1 with rfl | ⟨l0, p, rfl⟩
  · simpa [unlink, setHead] using hq
  have hp : p ≠ -1 := fun hp => hc.2 (by simp [hp])
  rw [concat_eq_append, append_assoc] at hc
  have hp2 : p ∉ l2 := by
    have := (nodup_append.1 hc.nodup).2.1
    simp only [singleton_append, nodup_cons, mem_cons, not_or] at this
    exact this.1.2.2
  simpa [unlink, putAtBlock, hp] using hc.splice hq hp2

theorem unlink_buddy (hj : j ≠ e) : (b.unlink e first q).buddy j = b.buddy j := by
  unfold unlink
  split <;> simp [setHead, putAtBlock, hj]

theorem unlink_buddy_congr (h : b'.buddy e = b.buddy e) :
    (b'.unlink e first q).buddy e = (b.unlink e first q).buddy e := by
  unfold unlink
  split <;> simp [setHead, putAtBlock, h]

theorem unlink_word_congr (h : b'.word y = b.word y) :
    (b'.unlink e first q).word y = (b.unlink e first q).word y := by
  unfold unlink
  split <;> simp [setHead, putAtBlock, update_apply, h]

/-- Unlinking writes the link of the block before, if there is one. -/
theorem unlink_word_of_not_mem (hy : y ∉ l1) :
    (b.unlink e (l1.getLast?.getD (-1)) q).word y = b.word y := by
  unfold unlink
  split
  · rfl
  rename_i hne
  refine update_of_ne (fun hy' => hy ?_) _ _
  rcases eq_nil_or_concat l1 with rfl | ⟨l0, p, rfl⟩
  · simp at hne
  · simp [hy']

@[simp] theorem unlink_startAddr : (b.unlink e first q).startAddr = b.startAddr := by
  unfold unlink
  split <;> rfl

namespace FreeLists

/-- One round of `merge`: two buddies leave their list and the block they make
    is inserted into the next one. -/
theorem mergeStep {l1 l2 : List ℤ} {s t q : ℤ} (h : FreeLists N b A L) (hN : N ≤ 2 ^ 15)
    (he : e < buddySize) (hL : L e = l1 ++ s :: t :: l2) (hst : Buddies e s t)
    (hq : Chain b.word (-1) q l2) : ∃ b' m, b.putBlock (e + 1) s = some b' ∧
      FreeLists N (b'.unlink e (l1.getLast?.getD (-1)) q) A
        (update (update L e (l1 ++ l2)) (e + 1) m) ∧
      (∀ y, y ∈ m ↔ y = s ∨ y ∈ L (e + 1)) ∧ b'.startAddr = b.startAddr := by
  have hs : s ∈ L e := by simp [hL]
  have hs0 := h.inside e he s hs
  have ht0 := h.inside e he t (by simp [hL])
  have hpow : (0 : ℤ) < 2 ^ e := by positivity
  -- The heap is too small for two buddies of the largest order.
  have he' : e + 1 < buddySize := by
    by_contra hge
    obtain rfl : e = 15 := by simp only [buddySize] at he hge; omega
    have := hst.1
    norm_num at *
    omega
  have hne : e ≠ e + 1 := by omega
  have hse : s ∉ L (e + 1) := fun hm => hne (h.eq_of_mem he he' hs hm)
  obtain ⟨b', m, hb', hmem, hm, hc, hbuddy, hword, haddr⟩ := putBlock_linked he'
    (h.linked (e + 1) he') (h.ascending _ he') hse (by omega) (h.length_lt hN he')
  have hce := hL ▸ h.linked e he
  have hl1 : ∀ y ∈ l1, y ∈ L e ∧ y ≠ s := fun y hy =>
    ⟨by simp [hL, hy], fun e => (nodup_append.1 hce.nodup).2.2 y hy s (by simp) e⟩
  have hl2 : ∀ y ∈ l2, y ∈ L e ∧ y ≠ s := fun y hy => by
    have := (nodup_append.1 hce.nodup).2.1
    simp only [nodup_cons, mem_cons, not_or] at this
    exact ⟨by simp [hL, hy], ne_of_mem_of_not_mem hy this.1.2⟩
  refine ⟨b', _, hb', ⟨h.merge he' hL (h.linked e he).nodup hst hmem, fun j hj => ?_, ?_⟩, hmem,
    haddr⟩
  · by_cases hj1 : j = e + 1
    · -- The next order: as `putBlock` left it.
      subst hj1
      rw [update_self, unlink_buddy hne.symm]
      refine hc.congr fun y hy => unlink_word_of_not_mem fun hy' => ?_
      rcases (hmem y).1 hy with rfl | hy
      · exact (hl1 y hy').2 rfl
      · exact hne (h.eq_of_mem he he' (hl1 y hy').1 hy)
    rw [update_of_ne hj1]
    by_cases hj2 : j = e
    · -- The order of the buddies: `putBlock` did not write the links left.
      subst hj2
      rw [update_self, unlink_buddy_congr (hbuddy j hj1)]
      refine (unlink_linked hce hq).congr fun y hy => unlink_word_congr ?_
      obtain ⟨hyL, hys⟩ := (mem_append.1 hy).elim (hl1 y) (hl2 y)
      exact hword y hys fun hy' => hne (h.eq_of_mem he he' hyL hy')
    · rw [update_of_ne hj2]
      refine h.linked.frame hj ((unlink_buddy hj2).trans (hbuddy j hj1)) fun y hy => ?_
      rw [unlink_word_of_not_mem fun hy' => hj2 (h.eq_of_mem hj he hy (hl1 y hy').1)]
      refine hword y (fun e => ?_) fun hy' => hj1 (h.eq_of_mem hj he' hy hy')
      exact hj2 (h.eq_of_mem hj he hy (e ▸ hs))
  · refine Ascending.update (h.ascending.update ?_) hm
    refine (hL ▸ h.ascending e he).sublist (List.Sublist.append_left ?_ l1)
    exact (sublist_cons_self _ _).trans (sublist_cons_self _ _)

end FreeLists

/-! ## Coalescing -/

/-- A new block is the only one which may have a buddy. -/
theorem Coalesced.insert (h : Coalesced L) (hl : ∀ y, y ∈ l ↔ y = x ∨ y ∈ L e) :
    CoalescedBut e x (update L e l) := by
  intro i hi s hs t ht hst
  rcases (mem_lay hl).1 hs with ⟨rfl, rfl⟩ | hs
  · exact ⟨rfl, .inl rfl⟩
  · rcases (mem_lay hl).1 ht with ⟨rfl, rfl⟩ | ht
    · exact ⟨rfl, .inr rfl⟩
    · exact absurd hst (h i hi s hs t ht)

/-- Without the two buddies, there are none of their order. -/
theorem CoalescedBut.remove (h : CoalescedBut e x L) (he : e < buddySize)
    (hL : L e = l1 ++ s :: t :: l2) (hnd : (L e).Nodup) (hst : Buddies e s t) :
    Coalesced (update L e (l1 ++ l2)) := by
  have hx : x ∉ l1 ++ l2 := by
    obtain ⟨-, hx⟩ := h e he s (by simp [hL]) t (by simp [hL]) hst
    rw [hL] at hnd
    have hs := nodup_cons.1 (nodup_middle.1 hnd)
    have ht := nodup_cons.1 (nodup_middle.1 hs.2)
    rcases hx with rfl | rfl
    · exact fun hx => hs.1 (by simp only [mem_append, mem_cons] at hx ⊢; tauto)
    · exact ht.1
  intro i hi u hu v hv huv
  by_cases hie : i = e
  · subst hie
    rw [update_self] at hu hv
    have hsub : ∀ y ∈ l1 ++ l2, y ∈ L i := fun y hy => by
      rw [hL]
      simp only [mem_append, mem_cons] at hy ⊢
      tauto
    rcases (h i hi u (hsub u hu) v (hsub v hv) huv).2 with rfl | rfl
    · exact hx hu
    · exact hx hv
  · rw [update_of_ne hie] at hu hv
    exact hie (h i hi u hu v hv huv).1

/-- `merge` keeps the free lists as they should be. If only the block just inserted may have a
    buddy, no block has one afterwards. -/
theorem FreeLists.mergeFrom (hN : N ≤ 2 ^ 15) (k : ℕ) : ∀ {e : ℕ} {b : Buddy} {L : ℕ → List ℤ} {x : ℤ},
    FreeLists N b A L → ∃ b' L', Buddy.mergeFrom k e b = some b' ∧ FreeLists N b' A L' ∧
      (CoalescedBut e x L → buddySize < k + e → Coalesced L') ∧ b'.startAddr = b.startAddr := by
  induction k with
  | zero =>
    intro e b L x h
    refine ⟨b, L, rfl, h, fun hc hk i hi s hs t ht hst => ?_, rfl⟩
    have := (hc i hi s hs t ht hst).1
    omega
  | succ k ih =>
    intro e b L x h
    by_cases he : e ≥ buddySize
    · refine ⟨b, L, by rw [Buddy.mergeFrom, if_pos he], h, fun hc hk i hi s hs t ht hst => ?_, rfl⟩
      have := (hc i hi s hs t ht hst).1
      omega
    rw [not_le] at he
    rw [Buddy.mergeFrom, if_neg (not_le.2 he)]
    rcases mergeLoop_spec (e := e) (R := []) (h.linked e he) (h.length_lt hN he) (by simp) .nil with
      ⟨hl, hn⟩ | ⟨l1, s, t, l2, q, hL, hst, hq, hl⟩
    · refine ⟨b, L, by simpa using congrArg (· >>= _) hl, h, fun hc _ i hi s hs t ht hst => ?_, rfl⟩
      obtain ⟨rfl, -⟩ := hc i hi s hs t ht hst
      rw [append_nil] at hn
      exact not_buddies_of_isChain (h.ascending i he) (h.aligned i he) hn s hs t ht hst
    obtain ⟨b1, m, hb1, h₁, hm, ha1⟩ := h.mergeStep hN he hL hst hq
    obtain ⟨b2, L2, hb2, h2, hc2, ha2⟩ := ih (e := e + 1) (x := s) h₁
    refine ⟨b2, L2, ?_, h2, fun hc hk => hc2 ?_ (by omega), ha2.trans (by rw [unlink_startAddr, ha1])⟩
    · simp only [getD_nil] at hl
      simp [hl, hb1, hb2]
    · refine (hc.remove he hL (h.linked e he).nodup hst).insert fun y => ?_
      rw [hm, update_of_ne (Nat.succ_ne_self e)]

end HobbyOS.Buddy
