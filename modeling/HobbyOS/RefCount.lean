import Mathlib

/-!
# Counted references

Objects are referred to from the slots of tables. The references are a multiset
`M` of objects, and a counter `cnt` is kept for every object:

* `Covers cnt S M`: no object has more references than its counter says, but for
  the objects `S`, whose references are not counted here. So an object whose
  counter is at most `1` has no reference but the one at hand (`Covers.notMem`),
  and may be given up with it;
* `Tight cnt M`: no counter says more than there are, but for the `1` of an
  object without references. So nothing is kept longer than needed.

The references from a table with `n` slots are the sum of those from its slots
(`held`), which are changed one at a time (`held_update`).
-/

namespace HobbyOS

open Finset Function Multiset

variable {α β : Type*} [DecidableEq α] {cnt : α → ℕ} {M N : Multiset α} {a b : α}

/-- Every object, but for those in `S`, has at most as many references as are counted. -/
def Covers (cnt : α → ℕ) (S : Set α) (M : Multiset α) : Prop := ∀ a ∉ S, M.count a ≤ cnt a

/-- Every object has as many references as are counted, if it has any. -/
def Tight (cnt : α → ℕ) (M : Multiset α) : Prop := ∀ a, cnt a ≤ max 1 (M.count a)

namespace Covers

variable {S : Set α}

theorem mono (h : Covers cnt S M) (hN : N ≤ M) : Covers cnt S N := fun a ha =>
  (count_le_of_le a hN).trans (h a ha)

/-- An object counted once has no second reference. -/
theorem notMem (h : Covers cnt S (a ::ₘ M)) (haS : a ∉ S) (ha : cnt a ≤ 1) : a ∉ M := by
  have := h a haS
  rw [count_cons_self] at this
  exact count_eq_zero.1 (by omega)

/-- The first reference to an object, counted in advance. -/
theorem fresh (h : Covers cnt S M) (ha : a ∉ M) (hpos : 1 ≤ cnt a) : Covers cnt S (a ::ₘ M) := by
  intro b hbS
  by_cases hb : b = a
  · rwa [hb, count_cons_self, count_eq_zero.2 ha]
  · rw [count_cons_of_ne hb]
    exact h b hbS

/-- One more reference which is not counted here. -/
theorem uncounted (h : Covers cnt S M) (ha : a ∈ S) : Covers cnt S (a ::ₘ M) := by
  intro b hbS
  have hb : b ≠ a := by
    rintro rfl
    exact hbS ha
  rw [count_cons_of_ne hb]
  exact h b hbS

/-- One more reference is counted. -/
theorem acquire (h : Covers cnt S M) : Covers (update cnt a (cnt a + 1)) S (a ::ₘ M) := by
  intro b hbS
  by_cases hb : b = a
  · subst hb
    rw [count_cons_self, update_self]
    exact Nat.succ_le_succ (h b hbS)
  · rw [count_cons_of_ne hb, update_of_ne hb]
    exact h b hbS

/-- One reference less is counted, at least `n`. -/
theorem release {n : ℕ} (h : Covers cnt S (a ::ₘ M)) (hn : cnt a ≤ n + 1) :
    Covers (update cnt a n) S M := by
  intro b hbS
  have := h b hbS
  by_cases hb : b = a
  · subst hb
    rw [count_cons_self] at this
    rw [update_self]
    omega
  · rw [count_cons_of_ne hb] at this
    rwa [update_of_ne hb]

end Covers

namespace Tight

theorem fresh (h : Tight cnt M) : Tight cnt (a ::ₘ M) := fun b =>
  (h b).trans (max_le_max_left 1 (count_le_count_cons b a M))

theorem acquire (h : Tight cnt M) (ha : a ∈ M) : Tight (update cnt a (cnt a + 1)) (a ::ₘ M) := by
  intro b
  by_cases hb : b = a
  · have hpos := one_le_count_iff_mem.2 ha
    have := h a
    rw [max_eq_right hpos] at this
    rw [hb, count_cons_self, update_self]
    omega
  · rw [count_cons_of_ne hb, update_of_ne hb]
    exact h b

theorem release {n : ℕ} (h : Tight cnt (a ::ₘ M)) (hn : n ≤ max 1 (cnt a - 1)) :
    Tight (update cnt a n) M := by
  intro b
  by_cases hb : b = a
  · have := h a
    rw [count_cons_self] at this
    rw [hb, update_self]
    omega
  · have := h b
    rw [count_cons_of_ne hb] at this
    rwa [update_of_ne hb]

end Tight

/-! ## The references from a table -/

section Held

variable {γ : Type*} {f : ℕ → γ} {g : γ → Multiset β} {m n i j : ℕ} {x : γ} {y : β}

/-- The references from a table, `g x` being those from a slot holding `x`. -/
def held (g : γ → Multiset β) (n : ℕ) (f : ℕ → γ) : Multiset β := ∑ i ∈ Finset.range n, g (f i)

/-- The references from the slots `m` to `n - 1`. -/
def heldFrom (g : γ → Multiset β) (m n : ℕ) (f : ℕ → γ) : Multiset β :=
  ∑ i ∈ Finset.Ico m n, g (f i)

theorem heldFrom_zero : heldFrom g 0 n f = held g n f := by
  rw [heldFrom, held, range_eq_Ico]

theorem heldFrom_self : heldFrom g n n f = 0 := by simp [heldFrom]

/-- The slot at which a loop is, and those to come. -/
theorem heldFrom_eq (h : m < n) : heldFrom g m n f = g (f m) + heldFrom g (m + 1) n f :=
  sum_eq_sum_Ico_succ_bot h _

theorem held_congr {δ : Type*} {f' : ℕ → δ} {g' : δ → Multiset β}
    (h : ∀ i < n, g (f i) = g' (f' i)) : held g n f = held g' n f' :=
  sum_congr rfl fun i hi => h i (Finset.mem_range.1 hi)

theorem held_zero (h : ∀ i < n, g (f i) = 0) : held g n f = 0 :=
  Finset.sum_eq_zero fun i hi => h i (Finset.mem_range.1 hi)

/-- A table with one slot changed holds what the slot does, and a rest. -/
theorem held_update (g : γ → Multiset β) (f : ℕ → γ) (hi : i < n) :
    ∃ R, held g n f = g (f i) + R ∧ ∀ x, held g n (update f i x) = g x + R := by
  have key : ∀ x, held g n (update f i x) = g x + ∑ j ∈ (Finset.range n).erase i, g (f j) := by
    intro x
    rw [held, ← add_sum_erase _ _ (Finset.mem_range.2 hi), update_self]
    refine congrArg (g x + ·) (sum_congr rfl fun j hj => ?_)
    rw [update_of_ne (ne_of_mem_erase hj)]
  refine ⟨_, ?_, key⟩
  rw [← key (f i), update_eq_self]

theorem mem_held : y ∈ held g n f ↔ ∃ i < n, y ∈ g (f i) := by
  simp [held, mem_sum]

end Held

end HobbyOS
