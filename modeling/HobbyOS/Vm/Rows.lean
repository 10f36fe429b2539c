import HobbyOS.Process.Ranges
import HobbyOS.Vm.Contents

/-!
# Rows of pages

`PMT::mapPages` maps pages which follow each other to those of a block. What it does is said once
(`mapPages_row`): either all of them are mapped (`Row`), or the first ones, since the allocator
refused a page for a table, or it panics at a page which is mapped already.
-/

namespace HobbyOS

variable {σ : Type*} {P : Pool σ ℕ} {flags : Flags} {va page count i : ℕ} {pmt pmt' pmt'' : PMT}
  {n : Vpn} {s : Phys σ × PMT}

/-- The first `i` pages from `va` on are mapped to those from `page` on, and were not mapped. -/
def Row (va page : ℕ) (flags : Flags) (i : ℕ) (pmt pmt' : PMT) : Prop :=
  Filled (fun k p => p = page + k) flags (pageAt va) i pmt pmt'

/-- A page of the row is mapped already, or comes twice. -/
def Occupied (va count : ℕ) (pmt : PMT) : Prop :=
  ∃ k < count, (pmt.lookup (pageAt va k)).isSome ∨ ∃ j < k, pageAt va j = pageAt va k

namespace Row

variable (h : Row va page flags i pmt pmt')

include h

theorem inside {k : ℕ} (hk : k < i) : pmt.lookup (pageAt va k) = none ∧
    pmt'.lookup (pageAt va k) = some ⟨page + k, flags⟩ := by
  obtain ⟨hnone, p, rfl, hp⟩ := Filled.inside h k hk
  exact ⟨hnone, hp⟩

/-- An entry is one which was there, or one of the row. -/
theorem cases (n : Vpn) : pmt'.lookup n = pmt.lookup n ∨
    ∃ k < i, n = pageAt va k ∧ pmt.lookup n = none ∧ pmt'.lookup n = some ⟨page + k, flags⟩ := by
  by_cases hn : ∃ k < i, n = pageAt va k
  · obtain ⟨k, hk, rfl⟩ := hn
    exact .inr ⟨k, hk, rfl, h.inside hk⟩
  · push Not at hn
    exact .inl (h.outside n hn)

/-- The pages of a row are different ones. -/
theorem injective {j k : ℕ} (hj : j < i) (hk : k < i) (he : pageAt va j = pageAt va k) : j = k := by
  have hj' := (h.inside hj).2
  rw [he, (h.inside hk).2] at hj'
  exact (Nat.add_left_cancel (congrArg Pte.page (Option.some.inj hj'))).symm

end Row

/-- Mapping a page, in any state. -/
theorem mapPage_cases (hv : flags.v) (s : Phys σ × PMT) : (PMT.mapPage n P page flags s).Holds
    (fun t => s.2.lookup n = none ∧
      (∀ n', t.2.lookup n' = if n' = n then some ⟨page, flags⟩ else s.2.lookup n') ∧
      (.refused ∈ s.1.log → .refused ∈ t.1.log))
    (fun t => s.2.lookup n = none ∧ (∀ n', t.2.lookup n' = s.2.lookup n') ∧ .refused ∈ t.1.log)
    (s.2.lookup n).isSome := by
  cases hn : s.2.lookup n with
  | some pte =>
    rw [show s = (s.1, s.2) from rfl, mapPage_of_lookup hn]
    rfl
  | none =>
    have h := (PMT.mapPage_lookup (P := P) n page hv s).and (mapPage_free hv hn)
    refine (h.imp (fun t ht => ?_) fun t ht => ⟨rfl, ht.2⟩).mono_panic fun hf => hf.2.elim
    exact ⟨rfl, ht.1.2, ht.2.2⟩

/-- `PMT::mapPages`. -/
theorem mapPages_row (hv : flags.v) (s : Phys σ × PMT) :
    (PMT.mapPages P va page count flags s).Holds
      (fun t => Row va page flags count s.2 t.2 ∧ (.refused ∈ s.1.log → .refused ∈ t.1.log))
      (fun t => (∃ i < count, Row va page flags i s.2 t.2 ∧ t.2.lookup (pageAt va i) = none) ∧
        .refused ∈ t.1.log)
      (Occupied va count s.2) := by
  refine tryRange_induct (P := fun i (t : Phys σ × PMT) =>
    Row va page flags i s.2 t.2 ∧ (.refused ∈ s.1.log → .refused ∈ t.1.log)) ⟨filled_zero, id⟩
    fun i t hi ht => ?_
  obtain ⟨hrow, hlog⟩ := ht
  refine ((mapPage_cases hv t).imp (fun u hu => ?_) fun u hu => ?_).mono_panic fun hsome => ?_
  · exact ⟨hrow.succ rfl hu.1 hu.2.1, fun hr => hu.2.2 (hlog hr)⟩
  · exact ⟨⟨i, hi, hrow.congr hu.2.1, (hu.2.1 _).trans hu.1⟩, hu.2.2⟩
  · -- What is mapped there was mapped before the loop, or in an earlier round.
    refine ⟨i, hi, ?_⟩
    rcases hrow.cases (pageAt va i) with he | ⟨k, hk, he, -⟩
    · rw [he] at hsome
      exact .inl hsome
    · exact .inr ⟨k, hk, he.symm⟩

/-- Mapping a row at a page which is mapped already panics, or does not get there. -/
theorem mapPages_ignore (hv : flags.v) (s : Phys σ × PMT) :
    (PMT.mapPages P va page count flags s).ignore.Holds
      (fun t => (∃ i ≤ count, Row va page flags i s.2 t.2 ∧
          (i < count → .refused ∈ t.1.log ∧ t.2.lookup (pageAt va i) = none)) ∧
        (.refused ∈ s.1.log → .refused ∈ t.1.log))
      (fun _ => False) (Occupied va count s.2) := by
  refine Outcome.Holds.ignore ((mapPages_row hv s).imp (fun t ht => ?_) fun t ht => ?_)
  · exact ⟨⟨count, le_rfl, ht.1, fun h => absurd h (lt_irrefl _)⟩, ht.2⟩
  · obtain ⟨⟨i, hi, hrow, hnone⟩, hlog⟩ := ht
    exact ⟨⟨i, hi.le, hrow, fun _ => ⟨hlog, hnone⟩⟩, fun _ => hlog⟩

/-- A pool which always has a page refuses none. -/
theorem kallocPage_unlimited (hP : ∀ s, (P.take s).1.isSome) (ph : Phys σ) (hph : .refused ∉ ph.log) :
    .refused ∉ (kallocPage P ph).2.log := by
  obtain ⟨page, hpage⟩ := Option.isSome_iff_exists.1 (hP ph.pool)
  rw [kallocPage, show P.take ph.pool = (some page, (P.take ph.pool).2) from Prod.ext hpage rfl]
  exact List.not_mem_cons_of_ne_of_not_mem (by simp) hph

end HobbyOS
