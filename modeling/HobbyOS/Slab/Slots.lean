import HobbyOS.Chain
import HobbyOS.Slab

/-!
# The slots of a slab

The free slots of a slab `a` form a chain of indices, through the slots
themselves, and the others are the ones handed out (`Slots`). A slot is taken from
the start of the chain (`Slots.getSlot`) and given back to it (`Slots.freeSlot`);
a new slab has all its slots on the chain (`slots_create`). All of this happens
in the page of the slab: two slabs do not get in each other's way (`Slots.frame`).

The objects are assumed to have four bytes at least, so that a link fits into its
slot, and a slab to have two slots at least (`Sized`).
-/

namespace HobbyOS.MemCache

open Function List Nat

/-- The number of slots of a slab. -/
def slotCount (c : MemCache) : ℕ := (pageSize - sizeofSlab) / c.objSize

/-- The sizes of a cache: a link fits into a slot, and a slab occupies a page and
    has at least two slots. -/
structure Sized (c : MemCache) : Prop where
  four_le : 4 ≤ c.objSize
  slabSize_eq : c.slabSize = pageSize
  two_le : 2 ≤ c.slotCount

/-- The slab `a`, whose free slots are `fs`, and whose other slots are those in
    `out`. -/
structure Slots (c : MemCache) (out : Set ℕ) (a : ℕ) (fs : List ℕ) : Prop where
  ne_zero : a ≠ 0
  aligned : a % pageSize = 0
  start_eq : (c.slab a).start = a + sizeofSlab
  maxSlots_eq : (c.slab a).maxSlots = c.slotCount
  chain : Chain (c.link a) freeEnd (c.slab a).free fs
  length_eq : fs.length = (c.slab a).freeSlots
  lt : ∀ i ∈ fs, i < c.slotCount
  mem_out : ∀ i < c.slotCount, c.slotAddr a i ∈ out ↔ i ∉ fs

variable {c c' : MemCache} {out out' : Set ℕ} {a i j x page : ℕ} {fs : List ℕ}

namespace Sized

theorem congr (hc : Sized c) (ho : c'.objSize = c.objSize) (hs : c'.slabSize = c.slabSize) :
    Sized c' := by
  refine ⟨ho ▸ hc.four_le, hs ▸ hc.slabSize_eq, ?_⟩
  rw [slotCount, ho]
  exact hc.two_le

theorem objSize_lt (hc : Sized c) : c.objSize < objSizeThreshold := by
  have h : 2 * c.objSize ≤ pageSize - sizeofSlab :=
    (Nat.le_div_iff_mul_le (by have := hc.four_le; omega)).1 hc.two_le
  simp only [pageSize, sizeofSlab, objSizeThreshold] at *
  omega

/-- There are far fewer slots than indices. -/
theorem slotCount_lt (hc : Sized c) : c.slotCount < 2 ^ 11 := by
  refine lt_of_le_of_lt (div_le_div_left hc.four_le (by norm_num)) ?_
  norm_num [pageSize, sizeofSlab]

/-- The slots lie one after the other. -/
theorem slot_le (hc : Sized c) (hij : i < j) : c.slotAddr a i + 4 ≤ c.slotAddr a j := by
  have h := Nat.mul_le_mul_right c.objSize hij
  rw [succ_mul] at h
  have := hc.four_le
  simp only [slotAddr]
  omega

theorem slotAddr_inj (hc : Sized c) : c.slotAddr a i = c.slotAddr a j ↔ i = j := by
  refine ⟨fun h => ?_, fun h => h ▸ rfl⟩
  rcases lt_trichotomy i j with hij | hij | hij
  · have := hc.slot_le (a := a) hij
    omega
  · exact hij
  · have := hc.slot_le (a := a) hij
    omega

/-- Every slot lies in the page of its slab, after the header. -/
theorem slot_mem (hs : (c.slab a).start = a + sizeofSlab) (hi : i < c.slotCount) :
    a < c.slotAddr a i ∧ c.slotAddr a i + c.objSize ≤ a + pageSize := by
  have h : (i + 1) * c.objSize ≤ pageSize - sizeofSlab :=
    (Nat.mul_le_mul_right _ hi).trans (div_mul_le_self _ _)
  rw [succ_mul] at h
  simp only [slotAddr, hs, pageSize, sizeofSlab] at *
  omega

end Sized

/-- The cache after the first free slot of the slab `a` is taken. -/
def popSlot (c : MemCache) (a : ℕ) : MemCache :=
  c.setSlab a { c.slab a with
    free := c.link a (c.slab a).free, freeSlots := (c.slab a).freeSlots - 1 }

/-- The cache after the slot `i` of the slab `a` is given back. -/
def pushSlot (c : MemCache) (a i : ℕ) : MemCache :=
  { c.setSlab a { c.slab a with free := i, freeSlots := (c.slab a).freeSlots + 1 } with
    mem := storeLE c.mem (c.slotAddr a i) 4 (c.slab a).free }

theorem popSlot_slab : (c.popSlot a).slab a = { c.slab a with
    free := c.link a (c.slab a).free, freeSlots := (c.slab a).freeSlots - 1 } :=
  update_self _ _ _

theorem pushSlot_slab : (c.pushSlot a i).slab a =
    { c.slab a with free := i, freeSlots := (c.slab a).freeSlots + 1 } :=
  update_self _ _ _

theorem popSlot_slotAddr : (c.popSlot a).slotAddr a j = c.slotAddr a j := by
  rw [slotAddr, popSlot_slab]
  rfl

theorem popSlot_link : (c.popSlot a).link a = c.link a :=
  funext fun _ => by rw [link, popSlot_slotAddr]; rfl

theorem pushSlot_slotAddr : (c.pushSlot a i).slotAddr a j = c.slotAddr a j := by
  rw [slotAddr, pushSlot_slab]
  rfl

/-- Distinct slabs occupy distinct pages. -/
theorem page_inj {b : ℕ} (ha : a % pageSize = 0) (hb : b % pageSize = 0) (hax : a ≤ x)
    (hxa : x < a + pageSize) (hbx : b ≤ x) (hxb : x < b + pageSize) : a = b := by
  simp only [pageSize] at *
  omega

namespace Slots

theorem slot_mem (h : Slots c out a fs) (hi : i < c.slotCount) :
    a < c.slotAddr a i ∧ c.slotAddr a i + c.objSize ≤ a + pageSize :=
  Sized.slot_mem h.start_eq hi

/-- The slots of a slab depend on its header, except for the link to the next
    slab, and on its page. -/
theorem frame (h : Slots c out a fs) (hc : Sized c) (ho : c'.objSize = c.objSize)
    (hs : ∃ n, c'.slab a = { c.slab a with next := n })
    (hm : ∀ x, a ≤ x → x < a + pageSize → c'.mem x = c.mem x)
    (hout : ∀ x, a ≤ x → x < a + pageSize → (x ∈ out' ↔ x ∈ out)) : Slots c' out' a fs := by
  obtain ⟨n, hs⟩ := hs
  have hcount : c'.slotCount = c.slotCount := by rw [slotCount, ho, slotCount]
  have haddr : ∀ i, c'.slotAddr a i = c.slotAddr a i := fun i => by simp only [slotAddr, hs, ho]
  refine ⟨h.ne_zero, h.aligned, by rw [hs]; exact h.start_eq, by rw [hs, hcount]; exact h.maxSlots_eq,
    ?_, by rw [hs]; exact h.length_eq, fun i hi => hcount ▸ h.lt i hi, fun i hi => ?_⟩
  · have hf : (c'.slab a).free = (c.slab a).free := by rw [hs]
    rw [hf]
    refine h.chain.congr fun i hi => ?_
    have := h.slot_mem (h.lt i hi)
    have := hc.four_le
    simp only [link, haddr]
    exact loadLE_congr fun x _ _ => hm x (by omega) (by omega)
  · rw [hcount] at hi
    have := h.slot_mem hi
    have := hc.four_le
    rw [haddr, hout _ (by omega) (by omega)]
    exact h.mem_out i hi

/-- The free slots are less than all of them, when some slot is handed out. -/
theorem length_lt (h : Slots c out a fs) (hi : i < c.slotCount) (hmem : i ∉ fs) :
    fs.length < c.slotCount := by
  have hsub : (i :: fs) ⊆ List.range c.slotCount := fun j hj => by
    rcases mem_cons.1 hj with rfl | hj
    · exact mem_range.2 hi
    · exact mem_range.2 (h.lt j hj)
  have := ((nodup_cons.2 ⟨hmem, h.chain.nodup⟩).subperm hsub).length_le
  simpa using this

/-- Taking the first free slot. -/
theorem getSlot (h : Slots c out a fs) (hc : Sized c) (hf : (c.slab a).freeSlots ≠ 0) :
    c.getSlot a = (some (c.slotAddr a (c.slab a).free), c.popSlot a) ∧
      (c.slab a).free < c.slotCount ∧ c.slotAddr a (c.slab a).free ∉ out ∧
      ∃ fs', Slots (c.popSlot a) (insert (c.slotAddr a (c.slab a).free) out) a fs' := by
  have hnil : (c.slab a).free ≠ freeEnd := by
    intro e
    have hfs := (e ▸ h.chain).eq_nil
    exact hf (by rw [← h.length_eq, hfs, length_nil])
  obtain ⟨fs', rfl, hch⟩ := h.chain.exists_cons hnil
  have hi := h.lt _ (.head _)
  have hi' := (nodup_cons.1 h.chain.nodup).1
  have hlen := h.length_eq
  rw [length_cons] at hlen
  refine ⟨by simp [MemCache.getSlot, hf, popSlot], hi, (h.mem_out _ hi).not.2 (by simp), fs',
    h.ne_zero, h.aligned, ?_, ?_, ?_, ?_, fun j hj => h.lt j (.tail _ hj),
    fun j hj => ?_⟩
  · rw [popSlot_slab]
    exact h.start_eq
  · rw [popSlot_slab]
    exact h.maxSlots_eq
  · rwa [popSlot_slab, popSlot_link]
  · rw [popSlot_slab]
    exact Nat.eq_sub_of_add_eq hlen
  · rw [popSlot_slotAddr, Set.mem_insert_iff, hc.slotAddr_inj, h.mem_out j hj, mem_cons, not_or]
    by_cases hji : j = (c.slab a).free
    · simp [hji, hi']
    · simp [hji]

/-- Giving a slot back. -/
theorem freeSlot (h : Slots c out a fs) (hc : Sized c) (hi : i < c.slotCount)
    (hout : c.slotAddr a i ∈ out) : c.freeSlot a (c.slotAddr a i) = some (c.pushSlot a i) ∧
      Slots (c.pushSlot a i) (out \ {c.slotAddr a i}) a (i :: fs) := by
  have hmem := (h.mem_out i hi).1 hout
  have hlt := h.length_lt hi hmem
  have hcount := hc.slotCount_lt
  have hne : (c.slab a).freeSlots ≠ (c.slab a).maxSlots := by
    rw [← h.length_eq, h.maxSlots_eq]
    omega
  have hidx : (c.slotAddr a i - (c.slab a).start) / c.objSize % 2 ^ 32 = i := by
    rw [slotAddr, Nat.add_sub_cancel_left, Nat.mul_div_cancel _ (by have := hc.four_le; omega),
      mod_eq_of_lt (by omega)]
  refine ⟨?_, h.ne_zero, h.aligned, ?_, ?_, ?_, ?_, ?_, fun j hj => ?_⟩
  · simp only [MemCache.freeSlot, if_neg hne, hidx, pushSlot]
  · rw [pushSlot_slab]
    exact h.start_eq
  · rw [pushSlot_slab]
    exact h.maxSlots_eq
  · -- The new first slot links to the old one, and the other links are untouched.
    have hfree : (c.slab a).free < 256 ^ 4 := by
      cases fs with
      | nil =>
        rw [Chain.nil_iff.1 h.chain]
        norm_num [freeEnd]
      | cons j fs =>
        obtain ⟨e, -⟩ := Chain.cons_iff.1 h.chain
        have := h.lt j (.head _)
        norm_num at hcount ⊢
        omega
    rw [pushSlot_slab]
    refine Chain.cons_iff.2 ⟨rfl, ?_, ?_⟩
    · norm_num [freeEnd] at hcount ⊢
      omega
    · rw [link, pushSlot_slotAddr, pushSlot, loadLE_storeLE, mod_eq_of_lt hfree]
      refine h.chain.congr fun j hj => ?_
      rw [link, ← pushSlot, pushSlot_slotAddr]
      refine loadLE_storeLE_of_disjoint ?_
      rcases lt_or_gt_of_ne (ne_of_mem_of_not_mem hj hmem) with h' | h'
      · exact .inl (hc.slot_le h')
      · exact .inr (hc.slot_le h')
  · rw [pushSlot_slab, length_cons, h.length_eq]
  · intro j hj
    rcases mem_cons.1 hj with rfl | hj
    · exact hi
    · exact h.lt j hj
  · rw [pushSlot_slotAddr, Set.mem_sdiff, Set.mem_singleton_iff, hc.slotAddr_inj, h.mem_out j hj,
      mem_cons, not_or, and_comm]

end Slots

/-! ## New slabs -/

/-- The loop links every slot it has passed to the next one, and leaves the
    words before alone. -/
theorem loadLE_linkLoop {start objSize n mem} (ho : 4 ≤ objSize) (hn : i + n < 2 ^ 32) :
    (∀ j, i ≤ j → j < i + n →
      loadLE (linkLoop start objSize n i mem) (start + j * objSize) 4 = j + 1) ∧
    ∀ x, x + 4 ≤ start + i * objSize →
      loadLE (linkLoop start objSize n i mem) x 4 = loadLE mem x 4 := by
  induction n generalizing i mem with
  | zero => exact ⟨fun j h h' => absurd h' (by omega), fun x _ => rfl⟩
  | succ n ih =>
    have hstep : start + (i + 1) * objSize = start + i * objSize + objSize := by ring
    obtain ⟨ih1, ih2⟩ := @ih (i + 1) (storeLE mem (start + i * objSize) 4 (i + 1))
      (by omega)
    rw [linkLoop]
    refine ⟨fun j h h' => ?_, fun x hx => ?_⟩
    · rcases h.eq_or_lt with rfl | h
      · rw [ih2 _ (by omega), loadLE_storeLE, mod_eq_of_lt (by norm_num at hn ⊢; omega)]
      · exact ih1 j h (by omega)
    · rw [ih2 x (by omega), loadLE_storeLE_of_disjoint (.inl hx)]

/-- The slots of a new slab are linked in order. -/
theorem loadLE_linkSlots {start objSize n mem} (ho : 4 ≤ objSize) (hn : 0 < n) (hn' : n < 2 ^ 32)
    (hj : j < n) : loadLE (linkSlots start objSize n mem) (start + j * objSize) 4 =
      if j + 1 = n then freeEnd else j + 1 := by
  have hlast : (n + 2 ^ 32 - 1) % 2 ^ 32 = n - 1 := by omega
  simp only [linkSlots, hlast]
  split_ifs with h
  · rw [show n - 1 = j by omega, loadLE_storeLE]
    norm_num [freeEnd]
  · have : (j + 1) * objSize ≤ (n - 1) * objSize := Nat.mul_le_mul_right _ (by omega)
    rw [succ_mul] at this
    rw [loadLE_storeLE_of_disjoint (by omega)]
    exact (loadLE_linkLoop ho (by omega)).1 j (by omega) (by omega)

/-- Linking the slots of a new slab writes to them only. -/
theorem linkSlots_of_notMem {start objSize n mem} (ho : 4 ≤ objSize) (hn : 0 < n) (hn' : n < 2 ^ 32)
    (hx : x < start ∨ start + n * objSize ≤ x) : linkSlots start objSize n mem x = mem x := by
  have hlast : (n + 2 ^ 32 - 1) % 2 ^ 32 = n - 1 := by omega
  have hloop : ∀ k i mem, i + k ≤ n → linkLoop start objSize k i mem x = mem x := by
    intro k
    induction k with
    | zero => exact fun _ _ _ => rfl
    | succ k ih =>
      intro i mem hi
      have : (i + 1) * objSize ≤ n * objSize := Nat.mul_le_mul_right _ (by omega)
      rw [succ_mul] at this
      rw [linkLoop, ih _ _ (by omega), storeLE_of_notMem (by omega)]
  have : (n - 1 + 1) * objSize ≤ n * objSize := Nat.mul_le_mul_right _ (by omega)
  rw [succ_mul] at this
  simp only [linkSlots, hlast]
  rw [storeLE_of_notMem (by omega), hloop _ _ _ (by omega)]

/-- The indices from `i` on, when every slot links to the next one. -/
theorem chain_range' {next : ℕ → ℕ} {n : ℕ} (hn : i + n ≤ freeEnd)
    (h : ∀ j, i ≤ j → j < i + n → next j = if j + 1 = i + n then freeEnd else j + 1) :
    Chain next freeEnd (if n = 0 then freeEnd else i) (List.range' i n) := by
  induction n generalizing i with
  | zero => simp
  | succ n ih =>
    rw [range'_succ, if_neg (by omega)]
    refine Chain.cons_iff.2 ⟨rfl, by omega, ?_⟩
    have := ih (i := i + 1) (by omega) fun j hj hj' => by
      rw [h j (by omega) (by omega), show i + (n + 1) = i + 1 + n by omega]
    rw [h i le_rfl (by omega)]
    rcases Nat.eq_zero_or_pos n with rfl | hn'
    · simp
    · rw [if_neg (by omega)] at this ⊢
      exact this

/-- The slab created in a page, none of which is handed out. -/
def newSlab (c : MemCache) (page : ℕ) : MemCache :=
  c.createAt page (page + sizeofSlab) (c.slabSize - sizeofSlab)

theorem Sized.create (hc : Sized c) (page header : ℕ) :
    c.create page header = (page, c.newSlab page) := by
  rw [MemCache.create, if_pos hc.objSize_lt, newSlab]

theorem Sized.count_eq (hc : Sized c) :
    (c.slabSize - sizeofSlab) / c.objSize % 2 ^ 32 = c.slotCount := by
  have hlt := hc.slotCount_lt
  rw [hc.slabSize_eq, ← slotCount, mod_eq_of_lt (by omega)]

theorem slots_newSlab (hc : Sized c) (hp : page ≠ 0) (ha : page % pageSize = 0)
    (hout : ∀ x ∈ out, page ≤ x → ¬ x < page + pageSize) :
    Slots (c.newSlab page) out page (List.range c.slotCount) := by
  have hlt := hc.slotCount_lt
  have htwo := hc.two_le
  have hslab : (c.newSlab page).slab page =
      { next := 0, free := 0, freeSlots := c.slotCount, maxSlots := c.slotCount,
        start := page + sizeofSlab } := by
    simp only [newSlab, createAt, setSlab, update_self, hc.count_eq]
  have haddr : ∀ j, (c.newSlab page).slotAddr page j = page + sizeofSlab + j * c.objSize :=
    fun j => by rw [slotAddr, hslab]; rfl
  refine ⟨hp, ha, by rw [hslab], by rw [hslab]; rfl, ?_, by rw [hslab, length_range],
    fun j hj => mem_range.1 hj, fun j hj => ?_⟩
  · rw [hslab, range_eq_range']
    have : Chain ((c.newSlab page).link page) freeEnd _ (List.range' 0 c.slotCount) := chain_range'
      (by norm_num [freeEnd] at hlt ⊢; omega) fun j _ hj => by
        rw [link, haddr, Nat.zero_add]
        simp only [newSlab, createAt, hc.count_eq]
        exact loadLE_linkSlots hc.four_le (by omega) (by omega) (by omega)
    rwa [if_neg (by omega)] at this
  · have hj' : j < c.slotCount := hj
    have := Sized.slot_mem (c := c.newSlab page) (a := page) (by rw [hslab]) hj
    have ho : (c.newSlab page).objSize = c.objSize := rfl
    have := hc.four_le
    rw [mem_range]
    exact iff_of_false (fun hm => hout _ hm (by omega) (by omega)) (by omega)

/-- Creating a slab writes to its page only. -/
theorem newSlab_mem (hc : Sized c) (hx : x < page ∨ page + pageSize ≤ x) :
    (c.newSlab page).mem x = c.mem x := by
  have hlt := hc.slotCount_lt
  have htwo := hc.two_le
  have hle : c.slotCount * c.objSize ≤ pageSize - sizeofSlab := div_mul_le_self _ _
  simp only [newSlab, createAt, hc.count_eq]
  refine linkSlots_of_notMem hc.four_le (by omega) (by omega) ?_
  simp only [pageSize, sizeofSlab] at *
  omega

end HobbyOS.MemCache
