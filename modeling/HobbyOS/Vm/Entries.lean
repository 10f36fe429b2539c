import HobbyOS.Vm.Tables
import HobbyOS.Vm.Mmap

/-!
# Ranges of entries

The loops of the kernel which map or unmap the pages of a range go through the pages
`f 0`, `f 1` and so on. What they have done to a table after some rounds:

* `Filled`: there were no entries for these pages, and there are some now;
* `Cleared`: there are no entries for these pages.

The entries for other pages stay.
-/

namespace HobbyOS

variable {σ : Type*} {Q : ℕ → ℕ → Prop} {flags : Flags} {f : ℕ → Vpn} {i page : ℕ}
  {pmt pmt' pmt'' : PMT} {n : Vpn}

/-- The pages before the round `i` are mapped, each to a physical page in `Q`. -/
structure Filled (Q : ℕ → ℕ → Prop) (flags : Flags) (f : ℕ → Vpn) (i : ℕ) (pmt pmt' : PMT) : Prop where
  inside : ∀ j < i, pmt.lookup (f j) = none ∧
    ∃ page, Q j page ∧ pmt'.lookup (f j) = some ⟨page, flags⟩
  outside : ∀ n, (∀ j < i, n ≠ f j) → pmt'.lookup n = pmt.lookup n

/-- The pages before the round `i` are not mapped. -/
structure Cleared (f : ℕ → Vpn) (i : ℕ) (pmt pmt' : PMT) : Prop where
  inside : ∀ j < i, pmt'.lookup (f j) = none
  outside : ∀ n, (∀ j < i, n ≠ f j) → pmt'.lookup n = pmt.lookup n

theorem filled_zero : Filled Q flags f 0 pmt pmt := ⟨by simp, fun _ _ => rfl⟩

theorem cleared_zero : Cleared f 0 pmt pmt := ⟨by simp, fun _ _ => rfl⟩

theorem Filled.congr (h : Filled Q flags f i pmt pmt') (hl : ∀ n, pmt''.lookup n = pmt'.lookup n) :
    Filled Q flags f i pmt pmt'' :=
  ⟨fun j hj => by rw [hl]; exact h.inside j hj, fun n hn => (hl n).trans (h.outside n hn)⟩

/-- One more page is mapped. -/
theorem Filled.succ (h : Filled Q flags f i pmt pmt') (hQ : Q i page)
    (hnone : pmt'.lookup (f i) = none)
    (hl : ∀ n, pmt''.lookup n = if n = f i then some ⟨page, flags⟩ else pmt'.lookup n) :
    Filled Q flags f (i + 1) pmt pmt'' := by
  -- The page is none of those before, since these are mapped.
  have hne : ∀ j < i, f j ≠ f i := by
    intro j hj he
    obtain ⟨-, page', -, hp⟩ := h.inside j hj
    rw [he, hnone] at hp
    cases hp
  refine ⟨fun j hj => ?_, fun n hn => ?_⟩
  · rw [hl]
    rcases Nat.lt_succ_iff_lt_or_eq.1 hj with hj | rfl
    · rw [if_neg (hne j hj)]
      exact h.inside j hj
    · rw [if_pos rfl, ← h.outside _ fun j' hj' => (hne j' hj').symm]
      exact ⟨hnone, page, hQ, rfl⟩
  · rw [hl, if_neg (hn i (Nat.lt_succ_self i))]
    exact h.outside n fun j hj => hn j (Nat.lt_succ_of_lt hj)

/-- An entry is one which was there, or a new one. -/
theorem Filled.of_lookup {pte : Pte} (h : Filled Q flags f i pmt pmt')
    (hpte : pmt'.lookup n = some pte) :
    pmt.lookup n = some pte ∨ (pmt.lookup n = none ∧ pte.flags = flags) := by
  by_cases hn : ∃ j < i, n = f j
  · obtain ⟨j, hj, rfl⟩ := hn
    obtain ⟨hnone, page, -, hp⟩ := h.inside j hj
    rw [hp] at hpte
    cases hpte
    exact .inr ⟨hnone, rfl⟩
  · push Not at hn
    exact .inl (h.outside n hn ▸ hpte)

/-- Entries which were there stay. -/
theorem Filled.keeps {pte : Pte} (h : Filled Q flags f i pmt pmt') (hpte : pmt.lookup n = some pte) :
    pmt'.lookup n = some pte := by
  rw [← hpte]
  refine h.outside n ?_
  rintro j hj rfl
  rw [(h.inside j hj).1] at hpte
  cases hpte

/-- One more page is unmapped. -/
theorem Cleared.succ (h : Cleared f i pmt pmt') (hl : ∀ n, pmt''.lookup n =
    if n = f i then none else pmt'.lookup n) : Cleared f (i + 1) pmt pmt'' := by
  refine ⟨fun j hj => ?_, fun n hn => ?_⟩
  · rw [hl]
    split_ifs with he
    · rfl
    · rcases Nat.lt_succ_iff_lt_or_eq.1 hj with hj | rfl
      · exact h.inside j hj
      · exact absurd rfl he
  · rw [hl, if_neg (hn i (Nat.lt_succ_self i))]
    exact h.outside n fun j hj => hn j (Nat.lt_succ_of_lt hj)

/-- An entry is as it was, or gone. -/
theorem Cleared.cases (h : Cleared f i pmt pmt') (n : Vpn) :
    pmt'.lookup n = pmt.lookup n ∨ pmt'.lookup n = none := by
  by_cases hn : ∃ j < i, n = f j
  · obtain ⟨j, hj, rfl⟩ := hn
    exact .inr (h.inside j hj)
  · push Not at hn
    exact .inl (h.outside n hn)

end HobbyOS
