import HobbyOS.Process.Init
import HobbyOS.Vm.Walk

/-!
# The reach of `mprotect`

`Mmap::protect` takes any range of addresses, and looks at no region. For every page of the range it
finds an entry for, it writes the page and the new flags to that entry. Since the entry refers to the
same page as before, all walks lead where they did, and the memory afterwards is known: the words
which are hit have the new flags, and all others are the same (`protect_mem`).

So `mprotect` changes the entry of a page which is none of the process unless all pages of the range
which are mapped are its own (`protect_inside_iff`). The page of `signal_trampoline`, which all
processes share with the kernel, can be made writable (`protect_trampoline`).
-/

namespace HobbyOS

open Nat Option

/-- The flags in an entry. -/
def Flags.bits (f : Flags) : ℕ :=
  f.v.toNat + f.r.toNat * 2 + f.w.toNat * 4 + f.x.toNat * 8 + f.u.toNat * 16 + f.g.toNat * 32 +
    f.a.toNat * 64 + f.d.toNat * 128 + f.cow.toNat * 256

/-- The flags which are not permissions, and not set by the hardware: `PAGE_V`, `PAGE_U`, `PAGE_G`
    and `PAGE_COW`. -/
def kindMask : ℕ := 0x131

theorem bits_protToPte (prot : Access) : (protToPte prot).bits < 2 ^ 10 ∧
    (protToPte prot).bits % 2 = 1 ∧ (protToPte prot).bits &&& kindMask = 0x11 := by
  obtain ⟨r, w, x⟩ := prot
  revert r w x
  decide

variable {flags : ℕ}

section

variable (w : ℕ) (h : flags < 2 ^ 10)

include w h

/-- An entry which refers to the same page as another one. -/
theorem makePte_pte2pa : makePte (pte2pa w) flags = w / 2 ^ 10 % 2 ^ 52 * 2 ^ 10 + flags := by
  have hpa : pte2pa w = w / 2 ^ 10 % 2 ^ 52 * 2 ^ 12 := by
    rw [pte2pa, shiftLeft_eq, shiftRight_eq_div_pow]
    omega
  have hlt : (pte2pa w >>> 12) <<< 10 < 2 ^ 64 := by
    rw [hpa, shiftLeft_eq, shiftRight_eq_div_pow]
    omega
  rw [makePte, mod_eq_of_lt hlt, ← shiftLeft_add_eq_or_of_lt h, hpa, shiftLeft_eq,
    shiftRight_eq_div_pow]
  omega

theorem pte2pa_makePte_pte2pa : pte2pa (makePte (pte2pa w) flags) = pte2pa w := by
  rw [makePte_pte2pa w h, pte2pa, pte2pa, shiftLeft_eq, shiftLeft_eq,
    shiftRight_eq_div_pow, shiftRight_eq_div_pow]
  omega

theorem pteValid_makePte_pte2pa (hv : flags % 2 = 1) :
    pteValid (makePte (pte2pa w) flags) = true := by
  rw [pteValid_iff, makePte_pte2pa w h]
  omega

theorem makePte_and_kindMask : makePte (pte2pa w) flags &&& kindMask = flags &&& kindMask := by
  have hmask : kindMask = (2 ^ 10 - 1) &&& kindMask := by decide
  rw [hmask, ← Nat.and_assoc, ← Nat.and_assoc, and_two_pow_sub_one_eq_mod,
    and_two_pow_sub_one_eq_mod, makePte_pte2pa w h]
  congr 1
  omega

end

namespace Radix

variable {T I W : Type*} {child : W → Option T} {mem mem' : T → I → W}

/-- Cells which refer to the same tables. -/
theorem reach_congr (h : ∀ t i, child (mem' t i) = child (mem t i)) (t : T) (p : List I) :
    reach child mem' t p = reach child mem t p := by
  induction p generalizing t with
  | nil => rfl
  | cons i p ih => simp only [reach, h, ih]

/-- A path leads where it did if no cell on it is written. -/
theorem reach_set_of_ne [DecidableEq T] [DecidableEq I] {root t : T} {i : I} {w : W} {p : List I}
    (h : ∀ q j r u, p = q ++ j :: r → reach child mem root q = some u → ¬ (u = t ∧ j = i)) :
    reach child (set mem t i w) root p = reach child mem root p := by
  induction p using List.reverseRecOn with
  | nil => rfl
  | append_singleton p j ih =>
    have ih' := ih fun q j' r u hp => h q j' (r ++ [j]) u (by rw [hp, List.append_assoc]; rfl)
    rw [reach_concat, reach_concat, ih']
    cases hu : reach child mem root p with
    | none => rfl
    | some u => exact congrArg child (set_of_ne (h p j [] u rfl hu))

end Radix

namespace Ram

section Protect

variable {σ : Type*} (P : Pool σ ℕ) (root : ℕ)

/-- The body of the loop of `Mmap::protect`. -/
def protectStep (pteFlags addr i : ℕ) (s : Ram σ) : Option (Ram σ) :=
  let va := addr + i * pageSize
  let pa := s.translate P root va
  if pa = 0 then some s
  -- What `PMT::mapPage` returns is not looked at.
  else (mapPage P root va pa pteFlags (unmapPage P root va s).2).map Prod.snd

/-- The number of rounds of the loop; the end of the range may wrap around. -/
def protectRounds (addr length : ℕ) : ℕ :=
  pageCount addr ((addr + pageRoundUp length / pageSize * pageSize) % 2 ^ 64)

/-- `Mmap::protect`. -/
def protect (addr length : ℕ) (prot : Access) (s : Ram σ) : Option (ℕ × Ram σ) :=
  if addr % pageSize ≠ 0 then some (mmapFailed, s)
  else if length = 0 then some (mmapFailed, s)
  else (forRangeM (protectStep P root (protToPte prot).bits addr) (protectRounds addr length) s).map
    fun s => (0, s)

end Protect

variable {σ : Type*} {P : Pool σ ℕ} {root addr length va i k t : ℕ} {prot : Access} {s s' : Ram σ}
  {m : Mmap} {segTable : SegmentTable}

/-- The word `j` of the table `t` is the entry of the page. -/
def IsEntry (root : ℕ) (s : Ram σ) (va t j : ℕ) : Prop :=
  Radix.reach pte2table s.mem root (indices va) = some t ∧ j = pageNum va 0

/-- The word is the entry of a page which is mapped. -/
def Met (root : ℕ) (s : Ram σ) (va t j : ℕ) : Prop :=
  IsEntry root s va t j ∧ pteValid (s.mem t j) = true ∧ pte2pa (s.mem t j) ≠ 0

/-- The words in question have new flags, and the others are the same. -/
structure Rewritten (hit : ℕ → ℕ → Prop) (pteFlags : ℕ) (s s' : Ram σ) : Prop where
  new : ∀ t j, hit t j → s'.mem t j = makePte (pte2pa (s.mem t j)) pteFlags
  other : ∀ t j, ¬ hit t j → s'.mem t j = s.mem t j

/-- The walk to a page does not pass the entry of this page. -/
def Straight (root : ℕ) (s : Ram σ) (va : ℕ) : Prop :=
  ∀ t, Radix.reach pte2table s.mem root (indices va) = some t → ∀ q j r u,
    indices va = q ++ j :: r → Radix.reach pte2table s.mem root q = some u →
      ¬ (u = t ∧ j = pageNum va 0)

/-- This is so in a tree. -/
theorem Planted.straight {live : σ → Set ℕ → Prop} (h : s.Planted live root) (hva : va < 2 ^ 38) :
    Straight root s va := by
  obtain ⟨used, -, htree⟩ := h
  rintro t ht q j r u hq hu ⟨rfl, -⟩
  have hmem : q ∈ userPaths := ⟨va, hva, j :: r, hq.symm⟩
  obtain rfl := htree.inj _ hmem _ (indices_mem hva) u hu ht
  have := congrArg List.length hq
  simp at this

/-! ## One page -/

/-- `PMT::walk` allocates nothing where all tables are there. -/
theorem walk_of_reach {is : List ℕ} {table : ℕ}
    (h : Radix.reach pte2table s.mem table is = some t) : walk P true is table s = (some t, s) := by
  induction is generalizing table with
  | nil =>
    cases h
    rfl
  | cons i is ih =>
    obtain ⟨u, hu, h⟩ := bind_eq_some_iff.1 h
    rw [pte2table] at hu
    split_ifs at hu with hv
    cases hu
    rw [walk, if_pos hv, ih h]

theorem and_4095_of_aligned (h : va % pageSize = 0) : va &&& 4095 = 0 := by
  rwa [show 4095 = 2 ^ 12 - 1 from rfl, and_two_pow_sub_one_eq_mod]

/-- `PMT::translate` for the first byte of a page. -/
theorem translate_of_reach (ht : Radix.reach pte2table s.mem root (indices va) = some t)
    (hva : va &&& 4095 = 0) : s.translate P root va =
      if pteValid (s.mem t (pageNum va 0)) then pte2pa (s.mem t (pageNum va 0)) else 0 := by
  rw [translate, entry_eq, Radix.cell, ht, map_some, filter_some, hva]
  by_cases hv : pteValid (s.mem t (pageNum va 0)) = true
  · rw [if_pos hv, if_pos hv]
    exact mod_eq_of_lt (mod_lt _ (show 0 < 2 ^ 64 by decide))
  · rw [if_neg hv, if_neg hv]

/-- What the body of the loop does: nothing, or it writes to the entry of the page. -/
theorem protectStep_rewritten (hal : addr % pageSize = 0)
    (hs : Straight root s (addr + i * pageSize)) :
    ∃ s', protectStep P root pteFlags addr i s = some s' ∧
      Rewritten (Met root s (addr + i * pageSize)) pteFlags s s' := by
  have hva : (addr + i * pageSize) &&& 4095 = 0 :=
    and_4095_of_aligned (by rwa [add_mul_mod_self_right])
  rw [protectStep]
  generalize addr + i * pageSize = va at *
  cases ht : Radix.reach pte2table s.mem root (indices va) with
  | none =>
    -- There are no tables for the page.
    refine ⟨s, ?_, fun t j hmet => ?_, fun _ _ _ => rfl⟩
    · have htrans : s.translate P root va = 0 := by
        rw [translate, entry_eq, Radix.cell, ht]
        rfl
      exact if_pos htrans
    · have := hmet.1.1
      rw [ht] at this
      cases this
  | some t =>
    have hmet : ∀ u j, Met root s va u j → u = t ∧ j = pageNum va 0 := by
      rintro u j ⟨⟨hu, hj⟩, -⟩
      exact ⟨Option.some.inj (hu.symm.trans ht), hj⟩
    rw [translate_of_reach ht hva]
    by_cases hv : pteValid (s.mem t (pageNum va 0)) = true
    · rw [if_pos hv]
      by_cases hzero : pte2pa (s.mem t (pageNum va 0)) = 0
      · refine ⟨s, if_pos hzero, fun u j hm => ?_, fun _ _ _ => rfl⟩
        obtain ⟨rfl, rfl⟩ := hmet u j hm
        exact absurd hzero hm.2.2
      -- The walk after `PMT::unmapPage` ends where the one before it did.
      have hunmap : (unmapPage P root va s).2 =
          { s with mem := Radix.set s.mem t (pageNum va 0) 0 } := by
        rw [unmapPage, walk_find, ht]
        dsimp only
        rw [if_pos hv]
      have hwalk : walk P true (indices va) root
          { s with mem := Radix.set s.mem t (pageNum va 0) 0 } =
          (some t, { s with mem := Radix.set s.mem t (pageNum va 0) 0 }) := by
        refine walk_of_reach ?_
        rw [Radix.reach_set_of_ne (hs t ht), ht]
      have hclear : ¬ pteValid (Radix.set s.mem t (pageNum va 0) 0 t (pageNum va 0)) = true := by
        rw [Radix.set_self]
        decide
      rw [if_neg hzero, hunmap, mapPage, hwalk]
      dsimp only
      rw [if_neg hclear]
      refine ⟨_, rfl, fun u j hm => ?_, fun u j hm => ?_⟩
      · obtain ⟨rfl, rfl⟩ := hmet u j hm
        exact Radix.set_self
      · have hne : ¬ (u = t ∧ j = pageNum va 0) := by
          rintro ⟨rfl, rfl⟩
          exact hm ⟨⟨ht, rfl⟩, hv, hzero⟩
        dsimp only
        rw [Radix.set_of_ne hne, Radix.set_of_ne hne]
    · rw [if_neg hv]
      refine ⟨s, if_pos rfl, fun u j hm => ?_, fun _ _ _ => rfl⟩
      obtain ⟨rfl, rfl⟩ := hmet u j hm
      exact absurd hm.2.1 hv

/-! ## The range -/

variable {pteFlags : ℕ} {hit : ℕ → ℕ → Prop}

section Rewritten

variable (h : Rewritten hit pteFlags s s') (hlt : pteFlags < 2 ^ 10) (hv : pteFlags % 2 = 1)
  (hhit : ∀ t j, hit t j → pteValid (s.mem t j) = true)

include h hlt hv hhit

/-- The entries refer to the same pages as before. -/
theorem Rewritten.pte (t j : ℕ) : pteValid (s'.mem t j) = pteValid (s.mem t j) ∧
    pte2pa (s'.mem t j) = pte2pa (s.mem t j) := by
  by_cases hc : hit t j
  · rw [h.new t j hc, pteValid_makePte_pte2pa _ hlt hv, hhit t j hc, pte2pa_makePte_pte2pa _ hlt]
    exact ⟨rfl, rfl⟩
  · rw [h.other t j hc]
    exact ⟨rfl, rfl⟩

/-- All walks lead where they did. -/
theorem Rewritten.reach (t : ℕ) (is : List ℕ) :
    Radix.reach pte2table s'.mem t is = Radix.reach pte2table s.mem t is := by
  refine Radix.reach_congr (fun t j => ?_) t is
  rw [pte2table, pte2table, (h.pte hlt hv hhit t j).1, (h.pte hlt hv hhit t j).2]

theorem Rewritten.met_iff (va t j : ℕ) : Met root s' va t j ↔ Met root s va t j := by
  rw [Met, Met, IsEntry, IsEntry, h.reach hlt hv hhit, (h.pte hlt hv hhit t j).1,
    (h.pte hlt hv hhit t j).2]

theorem Rewritten.straight (hs : Straight root s va) : Straight root s' va := by
  intro t ht q j r u hq hu
  rw [h.reach hlt hv hhit] at ht hu
  exact hs t ht q j r u hq hu

/-- One more page. -/
theorem Rewritten.succ {s'' : Ram σ} (h' : Rewritten (Met root s' va) pteFlags s' s'') :
    Rewritten (fun t j => hit t j ∨ Met root s va t j) pteFlags s s'' := by
  refine ⟨fun t j hc => ?_, fun t j hc => ?_⟩
  · by_cases hm : Met root s va t j
    · rw [h'.new t j ((h.met_iff hlt hv hhit va t j).2 hm), (h.pte hlt hv hhit t j).2]
    · rw [h'.other t j ((h.met_iff hlt hv hhit va t j).not.2 hm), h.new t j (hc.resolve_right hm)]
  · rw [not_or] at hc
    rw [h'.other t j ((h.met_iff hlt hv hhit va t j).not.2 hc.2), h.other t j hc.1]

end Rewritten

/-- The word is the entry of a page in the range which is mapped. -/
def Hit (root addr k : ℕ) (s : Ram σ) (t j : ℕ) : Prop := ∃ i < k, Met root s (addr + i * pageSize) t j

/-- `Mmap::protect` returns, and the words which are hit have the new flags. -/
theorem protect_mem (hal : addr % pageSize = 0) (hlen : length ≠ 0)
    (hs : ∀ i < protectRounds addr length, Straight root s (addr + i * pageSize)) :
    ∃ s', protect P root addr length prot s = some (0, s') ∧
      Rewritten (Hit root addr (protectRounds addr length) s) (protToPte prot).bits s s' := by
  obtain ⟨hlt, hv, -⟩ := bits_protToPte prot
  have hvalid : ∀ i t j, Hit root addr i s t j → pteValid (s.mem t j) = true := by
    rintro i t j ⟨_, -, hm⟩
    exact hm.2.1
  obtain ⟨s', hloop, h⟩ := forRangeM_induct (m := Option)
    (f := protectStep P root (protToPte prot).bits addr) (n := protectRounds addr length)
    (P := fun i s' => Rewritten (Hit root addr i s) (protToPte prot).bits s s') (s := s)
    ⟨by rintro t j ⟨i, hi, -⟩; exact absurd hi (Nat.not_lt_zero i), fun _ _ _ => rfl⟩
    fun i s' hi h => by
      obtain ⟨s'', hstep, h'⟩ := protectStep_rewritten (P := P) hal
        (h.straight hlt hv (hvalid i) (hs i hi))
      refine ⟨s'', hstep, ?_⟩
      have hsucc := h.succ hlt hv (hvalid i) h'
      have hiff : ∀ t j, Hit root addr (i + 1) s t j ↔
          Hit root addr i s t j ∨ Met root s (addr + i * pageSize) t j := by
        intro t j
        simp only [Hit, Nat.lt_succ_iff_lt_or_eq, or_and_right, exists_or, exists_eq_left]
      exact ⟨fun t j hc => hsucc.new t j ((hiff t j).1 hc),
        fun t j hc => hsucc.other t j ((hiff t j).not.1 hc)⟩
  refine ⟨s', ?_, h⟩
  rw [protect, if_neg (not_not.2 hal), if_neg hlen, hloop]
  rfl

/-! ## The pages of the process -/

/-- The page is in a region. -/
def InRegion (m : Mmap) (va : ℕ) : Prop := ∃ r ∈ m.regions, r.vaStart ≤ va ∧ va < r.vaEnd

/-- The page is in a region, or has bytes of a segment. -/
def Own (m : Mmap) (segTable : SegmentTable) (va : ℕ) : Prop :=
  va % pageSize = 0 ∧ va < userTop ∧ (InRegion m va ∨
    ∃ d ∈ segTable.descs, ∃ a, va ≤ a ∧ a < va + pageSize ∧ d.contains a = true)

/-- The word is the entry of a page of the process. -/
def OwnEntry (m : Mmap) (segTable : SegmentTable) (root : ℕ) (s : Ram σ) (t j : ℕ) : Prop :=
  ∃ va, Own m segTable va ∧ IsEntry root s va t j

/-- What is asked of `mprotect`: the words it changes are entries of pages of the process, and an entry
    of a region in the range refers to the same page as before, and has changed in the permissions
    only. -/
structure Inside (m : Mmap) (segTable : SegmentTable) (root addr k : ℕ) (s s' : Ram σ) : Prop where
  own : ∀ t j, s'.mem t j ≠ s.mem t j → OwnEntry m segTable root s t j
  region : ∀ i < k, InRegion m (addr + i * pageSize) → ∀ t j,
    IsEntry root s (addr + i * pageSize) t j → pteValid (s'.mem t j) = pteValid (s.mem t j) ∧
      pte2pa (s'.mem t j) = pte2pa (s.mem t j) ∧ s'.mem t j &&& kindMask = s.mem t j &&& kindMask

/-- `mprotect` stays inside of the memory of the process iff the entries it meets in the range are
    those of pages of the process, unless they have these flags anyway, and those of regions have
    neither `PAGE_COW` nor `PAGE_G`. -/
theorem protect_inside_iff (hal : addr % pageSize = 0) (hlen : length ≠ 0)
    (hs : ∀ i < protectRounds addr length, Straight root s (addr + i * pageSize)) :
    ∃ s', protect P root addr length prot s = some (0, s') ∧
      (Inside m segTable root addr (protectRounds addr length) s s' ↔
        ∀ i < protectRounds addr length, ∀ t j, Met root s (addr + i * pageSize) t j →
          (s.mem t j ≠ makePte (pte2pa (s.mem t j)) (protToPte prot).bits →
            OwnEntry m segTable root s t j) ∧
          (InRegion m (addr + i * pageSize) → s.mem t j &&& kindMask = 0x11)) := by
  obtain ⟨hlt, hv, hkind⟩ := bits_protToPte prot
  obtain ⟨s', hprotect, h⟩ : ∃ s', protect P root addr length prot s = some (0, s') ∧ _ :=
    protect_mem hal hlen hs
  have hvalid : ∀ t j, Hit root addr (protectRounds addr length) s t j →
      pteValid (s.mem t j) = true := by
    rintro t j ⟨_, -, hm⟩
    exact hm.2.1
  refine ⟨s', hprotect, fun hin i hi t j hm => ⟨fun hne => ?_, fun hreg => ?_⟩,
    fun hc => ⟨fun t j hne => ?_, fun i hi hreg t j he => ?_⟩⟩
  · refine hin.own t j ?_
    rw [h.new t j ⟨i, hi, hm⟩]
    exact hne.symm
  · have hregion := (hin.region i hi hreg t j hm.1).2.2
    rw [h.new t j ⟨i, hi, hm⟩, makePte_and_kindMask _ hlt, hkind] at hregion
    exact hregion.symm
  · by_cases hhit : Hit root addr (protectRounds addr length) s t j
    · obtain ⟨i, hi, hm⟩ := id hhit
      rw [h.new t j hhit] at hne
      exact (hc i hi t j hm).1 hne.symm
    · exact absurd (h.other t j hhit) hne
  · refine ⟨(h.pte hlt hv hvalid t j).1, (h.pte hlt hv hvalid t j).2, ?_⟩
    by_cases hhit : Hit root addr (protectRounds addr length) s t j
    · obtain ⟨_, _, hm⟩ := id hhit
      rw [h.new t j hhit, makePte_and_kindMask _ hlt, hkind]
      exact ((hc i hi t j ⟨he, hm.2⟩).2 hreg).symm
    · rw [h.other t j hhit]

/-- The page of `signal_trampoline` is mapped, and a page of a region. -/
def armed : Ram ℕ × PageMap :=
  lastState (guarded (step upwards 0) Proper) (⟨1, fun _ _ => 0⟩, fun _ => none)
    [.map trampolineAddr 0x80000000 trampolineFlags.bits, .map mmapBase 0x80001000 Flags.user.bits]

/-- A region of one page. -/
def onePage : Mmap :=
  { Mmap.new with regions := [⟨mmapBase, mmapBase + pageSize, .readWrite, false, none⟩] }

/-- A heap without pages. -/
def noHeap : SegmentTable := SegmentTable.empty.setHeap .readWrite heapStart heapStart

theorem armed_straight (hva : va < 2 ^ 38) : Straight 0 armed.1 va := by
  have hblank : Blank Below 0 (⟨1, fun _ _ => 0⟩ : Ram ℕ) :=
    ⟨⟨{0}, fun pa hpa => by rw [hpa]; decide, rfl⟩, fun _ _ => show pteValid 0 = false by decide⟩
  have hrun : Reaches (step upwards 0) Proper (⟨1, fun _ _ => 0⟩, fun _ => none) armed :=
    .lastState _ _
  have h : Refines upwards Below 0 armed.1 armed.2 :=
    hrun.inv (I := fun s => Refines upwards Below 0 s.1 s.2)
      (fun _ _ _ _ hI hok hs => (step_refines hI upwards_lawful upwards_pages hok hs).1)
      hblank.refines
  exact h.planted.straight hva

/-- The page of the region is made read-only. -/
theorem protect_inside_iff_page : ∃ s',
    protect upwards 0 mmapBase pageSize ⟨true, false, false⟩ armed.1 = some (0, s') ∧
      Inside onePage noHeap 0 mmapBase 1 armed.1 s' := by
  have hrounds : protectRounds mmapBase pageSize = 1 := by decide
  obtain ⟨s', hprotect, hin⟩ : ∃ s', protect upwards 0 mmapBase pageSize ⟨true, false, false⟩ armed.1 =
      some (0, s') ∧ (Inside onePage noHeap 0 mmapBase (protectRounds mmapBase pageSize) armed.1 s' ↔ _) :=
    protect_inside_iff (by decide) (by decide) fun i hi => armed_straight <| by
      rw [hrounds, lt_one_iff] at hi
      rw [hi]
      decide
  rw [hrounds] at hin
  refine ⟨s', hprotect, hin.2 fun i hi t j hm => ?_⟩
  obtain rfl := lt_one_iff.1 hi
  rw [Nat.zero_mul, Nat.add_zero] at hm ⊢
  refine ⟨fun _ => ⟨mmapBase, ⟨by decide, by decide, .inl ⟨_, List.mem_singleton_self _, by decide⟩⟩,
    hm.1⟩, fun _ => ?_⟩
  -- The entry is the first word of the fourth page.
  obtain ⟨⟨ht, rfl⟩, -⟩ := hm
  have hreach : Radix.reach pte2table armed.1.mem 0 (indices mmapBase) = some 0x4000 := by
    decide +kernel
  obtain rfl := Option.some.inj (ht.symm.trans hreach)
  decide +kernel

/-- The page of `signal_trampoline` is made writable. -/
theorem protect_trampoline : ¬ Own onePage noHeap trampolineAddr ∧ ∃ s',
    protect upwards 0 trampolineAddr pageSize .readWrite armed.1 = some (0, s') ∧
    entry upwards 0 armed.1 trampolineAddr = some (makePte 0x80000000 trampolineFlags.bits) ∧
    entry upwards 0 s' trampolineAddr = some (makePte 0x80000000 Flags.user.bits) := by
  refine ⟨?_, by decide +kernel⟩
  rintro ⟨-, -, ⟨r, hr, hle, -⟩ | ⟨d, hd, a, hle, hlt, hc⟩⟩
  · obtain rfl := List.mem_singleton.1 hr
    exact absurd hle (by decide)
  · obtain rfl : d = ⟨.readWrite, heapStart, heapStart⟩ := by
      simpa [noHeap, SegmentTable.descs, SegmentTable.setHeap, SegmentTable.empty] using hd
    simp only [SegmentDesc.contains, Bool.and_eq_true, decide_eq_true_eq] at hc
    omega

end Ram

end HobbyOS
