import Mathlib

/-!
# Counting loops

The loops `for (i = 0; i < n; i++)` of a program, as functions on the state they
work on:

* `forRange f n s`: the body `f` runs for every `i < n`;
* `forRangeM f n s`: the body may stop the program;
* `tryRange f n s`: the body may also return early from the function the loop is
  in, with failure, or panic (`Outcome`).

A loop is proved about by an invariant of the counter and the state
(`forRange_induct`, `forRangeM_induct`, `tryRange_induct`).
-/

namespace HobbyOS

universe u v

variable {α : Type u} {s t : α} {n k : ℕ} {P : ℕ → α → Prop} {g : α → α}

/-- `for (i = 0; i < n; i++) s = f(i, s);` -/
def forRange (f : ℕ → α → α) : ℕ → α → α
  | 0, s => s
  | n + 1, s => f n (forRange f n s)

/-- The rule for a loop: what holds before it, and is kept by its body as the
    counter moves on, holds after it. -/
theorem forRange_induct {f : ℕ → α → α} (h0 : P 0 s)
    (hf : ∀ i s, i < n → P i s → P (i + 1) (f i s)) : P n (forRange f n s) := by
  induction n with
  | zero => exact h0
  | succ n ih => exact hf n _ (Nat.lt_succ_self n) (ih fun i s hi => hf i s (by omega))

/-- `for (i = 0; i < n; i++) s = f(i, s);`, in a monad. -/
def forRangeM {m : Type u → Type v} [Monad m] (f : ℕ → α → m α) : ℕ → α → m α
  | 0, s => pure s
  | n + 1, s => forRangeM f n s >>= f n

/-- The rule for a loop whose body does not stop the program where the invariant holds. -/
theorem forRangeM_induct {m : Type u → Type v} [Monad m] [LawfulMonad m] {f : ℕ → α → m α}
    (h0 : P 0 s) (hf : ∀ i s, i < n → P i s → ∃ s', f i s = pure s' ∧ P (i + 1) s') :
    ∃ s', forRangeM f n s = pure s' ∧ P n s' := by
  induction n with
  | zero => exact ⟨s, rfl, h0⟩
  | succ n ih =>
    obtain ⟨s1, h1, hs1⟩ := ih fun i s hi => hf i s (by omega)
    obtain ⟨s2, h2, hs2⟩ := hf n s1 (Nat.lt_succ_self n) hs1
    exact ⟨s2, by rw [forRangeM, h1, pure_bind, h2], hs2⟩

/-- How a function ends: it succeeds, it fails, leaving the state it has got to
    behind, or the system panics. -/
inductive Outcome (α : Type*)
  | ok (s : α)
  | fail (s : α)
  | panic

namespace Outcome

/-- The state after success has the property `P`, and after failure `Q`; the system
    may panic if `R`. -/
def Holds (P Q : α → Prop) (R : Prop) : Outcome α → Prop
  | ok s => P s
  | fail s => Q s
  | panic => R

variable {o : Outcome α} {P P' Q Q' : α → Prop} {R R' : Prop} {f : α → Outcome α}

theorem Holds.imp (h : o.Holds P Q R) (hP : ∀ s, P s → P' s) (hQ : ∀ s, Q s → Q' s) :
    o.Holds P' Q' R := by
  cases o with
  | ok s => exact hP s h
  | fail s => exact hQ s h
  | panic => exact h

theorem Holds.mono_panic (h : o.Holds P Q R) (hR : R → R') : o.Holds P Q R' := by
  cases o with
  | ok s => exact h
  | fail s => exact h
  | panic => exact hR h

theorem Holds.and (h : o.Holds P Q R) (h' : o.Holds P' Q' R') :
    o.Holds (fun s => P s ∧ P' s) (fun s => Q s ∧ Q' s) (R ∧ R') := by
  cases o with
  | ok | fail | panic => exact ⟨h, h'⟩

theorem Holds.of_ok (h : o.Holds P Q R) (ho : o = .ok s) : P s := by
  rwa [ho] at h

/-- Going on after success. -/
def andThen (o : Outcome α) (f : α → Outcome α) : Outcome α :=
  match o with
  | ok s => f s
  | fail s => fail s
  | panic => panic

@[simp] theorem ok_andThen : (ok s).andThen f = f s := rfl

theorem Holds.andThen (h : o.Holds P Q R) (hf : ∀ s, P s → (f s).Holds P' Q R) :
    (o.andThen f).Holds P' Q R := by
  cases o with
  | ok s => exact hf s h
  | fail s => exact h
  | panic => exact h

/-- Calling a function without looking at what it returns. -/
def ignore : Outcome α → Outcome α
  | fail s => ok s
  | o => o

@[simp] theorem ignore_ok : (ok s).ignore = ok s := rfl

theorem Holds.ignore (h : o.Holds P P R) : o.ignore.Holds P Q R := by
  cases o with
  | ok s => exact h
  | fail s => exact h
  | panic => exact h

/-- Two outcomes of the same kind, with related states. -/
def Rel (r : α → α → Prop) : Outcome α → Outcome α → Prop
  | ok s, ok t => r s t
  | fail s, fail t => r s t
  | panic, panic => True
  | _, _ => False

/-- Going on from related states. -/
theorem Rel.andThen {o' : Outcome α} {r : α → α → Prop} {f' : α → Outcome α} (h : o.Rel r o')
    (hf : ∀ s t, r s t → (f s).Rel r (f' t)) : (o.andThen f).Rel r (o'.andThen f') := by
  cases o with
  | ok s =>
    cases o' with
    | ok t => exact hf s t h
    | fail | panic => exact absurd h not_false
  | fail | panic =>
    cases o' with
    | ok t => exact absurd h not_false
    | fail t => exact h
    | panic => exact h

/-- The same outcome, with the state changed by `g`. -/
def map (g : α → α) : Outcome α → Outcome α
  | ok s => ok (g s)
  | fail s => fail (g s)
  | panic => panic

end Outcome

variable {f : ℕ → α → Outcome α}

/-- `for (i = 0; i < n; i++)`, returning from within the loop on failure. -/
def tryRange (f : ℕ → α → Outcome α) : ℕ → α → Outcome α
  | 0, s => .ok s
  | n + 1, s => (tryRange f n s).andThen (f n)

/-- The rule for a loop which may return. -/
theorem tryRange_induct {Q : α → Prop} {R : Prop} (h0 : P 0 s)
    (hf : ∀ i s, i < n → P i s → (f i s).Holds (P (i + 1)) Q R) :
    (tryRange f n s).Holds (P n) Q R := by
  induction n with
  | zero => exact h0
  | succ n ih =>
    exact (ih fun i s hi => hf i s (by omega)).andThen fun s hs => hf n s (Nat.lt_succ_self n) hs

/-- The rule for a loop which has not returned. -/
theorem tryRange_ok_induct (h0 : P 0 s) (hf : ∀ i s t, i < n → P i s → f i s = .ok t → P (i + 1) t)
    (h : tryRange f n s = .ok t) : P n t := by
  refine (tryRange_induct (P := P) (Q := fun _ => True) (R := True) h0 fun i s hi hs => ?_).of_ok h
  cases ho : f i s with
  | ok t => exact hf i s t hi hs ho
  | fail t => trivial
  | panic => trivial

/-- What every round requires of a part which no earlier round changes held at the start. -/
theorem tryRange_parts {β : Type*} (part : α → ℕ → β) {Q : ℕ → β → Prop}
    (hpart : ∀ i j s t, i < j → f i s = .ok t → part t j = part s j)
    (hQ : ∀ i s t, f i s = .ok t → Q i (part s i)) (h : tryRange f n s = .ok t) :
    ∀ i < n, Q i (part s i) := by
  refine (tryRange_ok_induct (P := fun i u =>
    (∀ j, i ≤ j → part u j = part s j) ∧ ∀ j < i, Q j (part s j)) ⟨fun _ _ => rfl, nofun⟩ ?_ h).2
  intro i u v _ hu hv
  refine ⟨fun j hj => (hpart i j u v hj hv).trans (hu.1 j (by omega)), fun j hj => ?_⟩
  rcases Nat.lt_succ_iff_lt_or_eq.1 hj with hlt | rfl
  · exact hu.2 j hlt
  · rw [← hu.1 j le_rfl]
    exact hQ j u v hv

/-- A loop which stops does so however many rounds were left. -/
theorem tryRange_stop {o : Outcome α} (ho : ∀ f, o.andThen f = o) (hk : k ≤ n)
    (h : tryRange f k s = o) : tryRange f n s = o := by
  induction n with
  | zero =>
    obtain rfl := Nat.le_zero.1 hk
    exact h
  | succ n ih =>
    rcases hk.eq_or_lt with rfl | hlt
    · exact h
    · rw [tryRange, ih (Nat.le_of_lt_succ hlt), ho]

/-- A loop which gets to its end gets through every round. -/
theorem exists_tryRange_ok (hk : k ≤ n) (h : tryRange f n s = .ok t) :
    ∃ u, tryRange f k s = .ok u := by
  cases hr : tryRange f k s with
  | ok u => exact ⟨u, rfl⟩
  | fail | panic => cases h.symm.trans (tryRange_stop (fun _ => rfl) hk hr)

end HobbyOS
