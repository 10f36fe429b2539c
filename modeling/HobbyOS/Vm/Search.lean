import HobbyOS.Vm.Regions

/-!
# The search for addresses

`Mmap::allocVA` takes the address a process hints at, if there is room (`Takes`), and looks for room
downwards from `m_nextHint` otherwise, page by page, so that it finds the highest gap below
(`allocFrom_none_iff`). It leaves `m_nextHint` at the address it has found, and nothing ever raises
it again: not `Mmap::unmap`, and not `Mmap::map` if it fails for want of memory afterwards. The
addresses above are not looked at any more (`reachable_search_iff`).
-/

namespace HobbyOS

open Nat Option

namespace Mmap

variable {m : Mmap} {rs : List MmapRegion} {len va hint pages : ℕ}

/-- There is room for `len` bytes at an address, between the regions. -/
def Gap (rs : List MmapRegion) (len va : ℕ) : Prop :=
  mmapBase ≤ va ∧ va + len ≤ mmapTop ∧ ∀ r ∈ rs, r.Apart va (va + len)

/-- `Mmap::allocVA` takes the hint. -/
def Takes (m : Mmap) (hint len : ℕ) : Prop :=
  hint ≠ 0 ∧ hint % pageSize = 0 ∧ mmapBase ≤ hint ∧ (hint + len) % 2 ^ 64 ≤ mmapTop ∧
    isFree hint len m.regions = true

/-- `Mmap::isFree` finds every region in the way. -/
theorem isFree_of_apart (hlen : va + len < 2 ^ 64) (h : ∀ r ∈ rs, r.Apart va (va + len)) :
    isFree va len rs = true := by
  induction rs with
  | nil => rfl
  | cons r rs ih =>
    rw [isFree, mod_eq_of_lt hlen]
    split
    · rfl
    next hstop =>
      rw [if_neg (not_lt.2 ((h r (.head _)).resolve_left hstop))]
      exact ih fun c hc => h c (.tail r hc)

/-- Since the regions are made of pages, a gap begins with a page. -/
theorem Laid.gap_aligned (h : Laid rs) (hg : Gap rs len va) :
    Gap rs len (va / pageSize * pageSize) := by
  obtain ⟨hbase, htop, hap⟩ := hg
  have hle := div_mul_le_self va pageSize
  refine ⟨?_, by omega, fun r hr => ?_⟩
  · simp only [mmapBase, pageSize] at *
    omega
  · have hend := (h.ok r hr).end_aligned
    rcases hap r hr with hlt | hlt
    · exact .inl (by omega)
    · refine .inr ?_
      simp only [pageSize] at *
      omega

/-- The loop of `Mmap::allocVA` looks at every page downwards. -/
theorem allocFrom_none_iff {candidate : ℕ} : allocFrom rs len candidate = none ↔
    ∀ va, mmapBase ≤ va → va ≤ candidate → va % pageSize = candidate % pageSize →
      isFree va len rs = false := by
  fun_induction allocFrom rs len candidate with
  | case1 candidate hbase =>
    exact ⟨fun _ va h1 h2 _ => absurd (hbase.trans_le (h1.trans h2)) (lt_irrefl _), fun _ => rfl⟩
  | case2 candidate hbase hfree =>
    refine ⟨fun h => (by cases h), fun h => ?_⟩
    rw [h candidate (not_lt.1 hbase) le_rfl rfl] at hfree
    cases hfree
  | case3 candidate hbase _ hpage =>
    simp only [mmapBase, pageSize] at hbase hpage
    omega
  | case4 candidate _ hfree hpage ih =>
    rw [ih]
    have hmod : (candidate - pageSize) % pageSize = candidate % pageSize :=
      (mod_eq_sub_mod (not_lt.1 hpage)).symm
    refine ⟨fun h va h1 h2 h3 => ?_, fun h va h1 h2 h3 => h va h1 (by omega) (h3.trans hmod)⟩
    rcases h2.eq_or_lt with rfl | hlt
    · exact Bool.not_eq_true _ ▸ hfree
    · refine h va h1 ?_ (h3.trans hmod.symm)
      simp only [pageSize] at *
      omega

/-- Where there is room somewhere, `Mmap::allocVA` fails iff there is none at the hint, and none
    below `m_nextHint`. -/
theorem Valid.allocVA_none_iff (h : m.Valid) (hlen : pages * pageSize ≤ mmapTop - mmapBase) :
    m.allocVA hint pages false = none ↔ ¬ Takes m hint (pages * pageSize) ∧
      ¬ ∃ va, Gap m.regions (pages * pageSize) va ∧ va + pages * pageSize ≤ m.nextHint := by
  have hnext := h.nextHint_le
  rw [Mmap.allocVA]
  generalize pages * pageSize = len at *
  have hbound : len + mmapBase < 2 ^ 64 := by
    simp only [mmapBase, mmapTop] at *
    omega
  have htakes : (decide (hint ≠ 0) && decide (hint % pageSize = 0) && decide (mmapBase ≤ hint) &&
      decide ((hint + len) % 2 ^ 64 ≤ mmapTop) && isFree hint len m.regions) = true ↔
      Takes m hint len := by
    simp only [Bool.and_eq_true, decide_eq_true_eq, Takes, and_assoc]
  rw [if_neg (by decide), mod_eq_of_lt hbound]
  split
  next ht => exact ⟨fun h => (by cases h), fun h => absurd (htakes.1 ht) h.1⟩
  next ht =>
    rw [htakes] at ht
    rw [and_iff_right ht]
    split
    next hlt =>
      refine ⟨fun _ => ?_, fun _ => rfl⟩
      rintro ⟨va, hg, hle⟩
      have := hg.1
      omega
    next hge =>
      rw [map_eq_none_iff, allocFrom_none_iff, sub64, if_pos (by omega)]
      refine ⟨fun hall => ?_, fun hno va h1 h2 _ => ?_⟩
      · rintro ⟨va, hg, hle⟩
        have hal := h.laid.gap_aligned hg
        have hfree := isFree_of_apart
          (hal.2.1.trans_lt (show mmapTop < 2 ^ 64 by decide)) hal.2.2
        rw [hall _ hal.1 (Nat.mul_le_mul_right _ (Nat.div_le_div_right (by omega)))
          (by simp only [mul_mod_left])] at hfree
        cases hfree
      · by_contra hfree
        have hle : va + len ≤ m.nextHint := by
          have := div_mul_le_self (m.nextHint - len) pageSize
          omega
        have hap := isFree_apart h.laid (hle.trans_lt (hnext.trans_lt (by decide)))
          (Bool.not_eq_false _ ▸ hfree)
        exact hno ⟨va, ⟨h1, hle.trans hnext, hap⟩, hle⟩

end Mmap

namespace Regions

open Mmap

variable {σ : Type*} {P : Pool σ ℕ} {ms : ℕ → Option Mmap}

/-- In every state reached by calls whose ranges do not wrap around, the search for addresses is
    complete iff there is no room at all, or else some at the hint or below `m_nextHint`. -/
theorem reachable_search_iff (h : Reaches (step P) (fun _ e => InRange e) (fun _ => none) ms)
    (pid : ℕ) (m : Mmap) (hm : ms pid = some m) (hint length : ℕ) :
    (m.allocVA hint (pageRoundUp length / pageSize) false = none →
      ¬ ∃ va, Gap m.regions (pageRoundUp length) va) ↔
    ((∃ va, Gap m.regions (pageRoundUp length) va) → Takes m hint (pageRoundUp length) ∨
      ∃ va, Gap m.regions (pageRoundUp length) va ∧ va + pageRoundUp length ≤ m.nextHint) := by
  have hv : m.Valid := h.inv (I := AllValid) (fun _ _ _ _ hI he hs => step_allValid hI he hs)
    (fun _ _ ha => by cases ha) pid m hm
  by_cases hgap : ∃ va, Gap m.regions (pageRoundUp length) va
  · obtain ⟨va, hbase, htop, -⟩ := id hgap
    have hlen : pageRoundUp length / pageSize * pageSize ≤ mmapTop - mmapBase := by
      rw [pageRoundUp_div]
      omega
    have hiff : m.allocVA hint _ false = none ↔ _ := hv.allocVA_none_iff hlen
    rw [pageRoundUp_div] at hiff
    rw [hiff]
    refine ⟨fun hcomplete _ => ?_, fun hroom hfails => absurd (hroom hgap) (not_or.2 hfails)⟩
    by_contra hfails
    exact hcomplete (not_or.1 hfails) hgap
  · simp only [hgap, not_false_eq_true, implies_true, false_implies]

/-- A page is mapped, and unmapped again. -/
def lowered : ℕ → Option Mmap :=
  lastState (guarded (step .counting) fun _ e => InRange e) (fun _ => none)
    [.create 0, .map 0 ⟨0, pageSize, .readWrite, ⟨false, true, false, true⟩, -1, none⟩ blank,
      .unmap 0 (mmapTop - pageSize) pageSize blank]

theorem lowered_eq : (lowered 0).map (fun m => (m.regions, m.nextHint)) =
    some ([], mmapTop - pageSize) := by decide +kernel

/-- There is still room for another page. -/
theorem reachable_search_iff_page : ∃ m, lowered 0 = some m ∧
    (m.allocVA 0 (pageRoundUp pageSize / pageSize) false = none →
      ¬ ∃ va, Gap m.regions (pageRoundUp pageSize) va) := by
  obtain ⟨m, hm, he⟩ := map_eq_some_iff.1 lowered_eq
  obtain ⟨hregions, hnext⟩ := Prod.mk.inj he
  refine ⟨m, hm, (reachable_search_iff (.lastState _ _) 0 m hm 0 pageSize).2 fun _ => .inr
    ⟨mmapBase, ⟨le_rfl, by decide, ?_⟩, ?_⟩⟩
  · rw [hregions]
    exact fun _ hr => absurd hr List.not_mem_nil
  · rw [hnext]
    decide

/-- All of the addresses are free, but a region of that size does not fit below `m_nextHint`. -/
theorem allocVA_fails : ∃ m, lowered 0 = some m ∧
    m.allocVA 0 (pageRoundUp (mmapTop - mmapBase) / pageSize) false = none ∧
    Gap m.regions (pageRoundUp (mmapTop - mmapBase)) mmapBase := by
  obtain ⟨m, hm, he⟩ := map_eq_some_iff.1 lowered_eq
  obtain ⟨hregions, hnext⟩ := Prod.mk.inj he
  refine ⟨m, hm, ?_, le_rfl, by decide, ?_⟩
  · rw [allocVA, hnext, if_neg (by decide), if_neg (by simp), if_pos (by decide)]
  · rw [hregions]
    exact fun _ hr => absurd hr List.not_mem_nil

end Regions

end HobbyOS
