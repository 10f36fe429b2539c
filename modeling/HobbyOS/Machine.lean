import Mathlib

/-!
# Machines

A machine reads a sequence of inputs, changing its state and giving an output for
each of them, or gets stuck. What is known of a single step gives, by induction,
what is known of whole runs:

* `runs_inv`: an invariant holds in every state reached;
* `runs_sim`: a machine related to another one step by step gives the same outputs,
  as long as it does not get into a bad state.

`Reaches` and `Allowed` are about runs whose inputs may be restricted by the state they are
read in.
-/

namespace HobbyOS

variable {α β ι ω : Type*}

/-- A run of a machine: the last state, and the outputs. -/
def runs (step : α → ι → Option (α × ω)) : α → List ι → Option (α × List ω)
  | s, [] => some (s, [])
  | s, e :: es =>
    match step s e with
    | none => none
    | some (s', o) => (runs step s' es).map fun r => (r.1, o :: r.2)

variable {step : α → ι → Option (α × ω)} {s s' : α} {e : ι} {es : List ι} {os : List ω}
  {I : α → Prop} {step' : β → ι → Option (β × ω)} {R : α → β → Prop} {t : β} {ok : α → ι → Prop}

theorem runs_cons {o : ω} (h : step s e = some (s', o)) :
    runs step s (e :: es) = (runs step s' es).map fun r => (r.1, o :: r.2) := by
  rw [runs, h]

theorem exists_of_runs_cons (h : runs step s (e :: es) = some (s', os)) :
    ∃ s1 o os', step s e = some (s1, o) ∧ runs step s1 es = some (s', os') ∧ os = o :: os' := by
  rw [runs] at h
  split at h
  · cases h
  next s1 o hs =>
    obtain ⟨⟨s2, os'⟩, hr, ⟨⟩⟩ := Option.map_eq_some_iff.1 h
    exact ⟨s1, o, os', hs, hr, rfl⟩

theorem runs_append {os' : List ω} {es' : List ι} {s1 s2 : α} (h : runs step s es = some (s1, os))
    (h' : runs step s1 es' = some (s2, os')) : runs step s (es ++ es') = some (s2, os ++ os') := by
  induction es generalizing s os with
  | nil =>
    cases h
    exact h'
  | cons e es ih =>
    obtain ⟨s', o, os1, hs', hr, rfl⟩ := exists_of_runs_cons h
    rw [List.cons_append, runs_cons hs', ih hr]
    rfl

/-- What the steps on the inputs `ok` keep holds after a run on such inputs. -/
theorem runs_inv {ok : ι → Prop} (hstep : ∀ s e s' o, I s → ok e → step s e = some (s', o) → I s')
    (hs : I s) (hes : ∀ e ∈ es, ok e) (h : runs step s es = some (s', os)) : I s' := by
  induction es generalizing s os with
  | nil =>
    cases h
    exact hs
  | cons e es ih =>
    obtain ⟨s1, o, os', hs1, hr, -⟩ := exists_of_runs_cons h
    rw [List.forall_mem_cons] at hes
    exact ih (hstep s e s1 o hs hes.1 hs1) hes.2 hr

/-- Machines which are related by `R`, and whose steps keep them so unless the first one gets
    into a bad state, give the same outputs unless it does. -/
theorem runs_sim {bad : α → Prop} {ok : ι → Prop}
    (hstep : ∀ s e s' o, I s → ok e → step s e = some (s', o) → I s' ∧ (bad s → bad s'))
    (hsim : ∀ s t e s' o, I s → R s t → ok e → step s e = some (s', o) → ¬ bad s' →
      ∃ t', step' t e = some (t', o) ∧ R s' t') (hs : I s) (ht : R s t) (hes : ∀ e ∈ es, ok e)
    (h : runs step s es = some (s', os)) (hbad : ¬ bad s') :
    ∃ t', runs step' t es = some (t', os) ∧ R s' t' := by
  induction es generalizing s t os with
  | nil =>
    cases h
    exact ⟨t, rfl, ht⟩
  | cons e es ih =>
    obtain ⟨s1, o, os', hs1, hr, rfl⟩ := exists_of_runs_cons h
    rw [List.forall_mem_cons] at hes
    have hI := (hstep s e s1 o hs hes.1 hs1).1
    have hbad1 : ¬ bad s1 := fun hb => hbad
      (runs_inv (I := fun s => I s ∧ bad s)
        (fun s e s' o hs he h => (hstep s e s' o hs.1 he h).imp id fun hk => hk hs.2)
        ⟨hI, hb⟩ hes.2 hr).2
    obtain ⟨t1, ht1, hR⟩ := hsim s t e s1 o hs ht hes.1 hs1 hbad1
    obtain ⟨t', ht', hR'⟩ := ih hI hR hes.2 hr
    exact ⟨t', by rw [runs_cons ht1, ht']; rfl, hR'⟩

/-- A state is reached from another one on inputs which are allowed where they are read. -/
def Reaches (step : α → ι → Option (α × ω)) (ok : α → ι → Prop) : α → α → Prop :=
  Relation.ReflTransGen fun s s' => ∃ e o, ok s e ∧ step s e = some (s', o)

/-- What the allowed steps keep holds in every state reached. -/
theorem Reaches.inv (h : Reaches step ok s s')
    (hstep : ∀ s e s' o, I s → ok s e → step s e = some (s', o) → I s') (hs : I s) : I s' := by
  induction h with
  | refl => exact hs
  | tail _ hst ih =>
    obtain ⟨e, o, he, hst⟩ := hst
    exact hstep _ e _ o ih he hst

/-- The machine which is stuck on inputs which are not allowed. -/
def guarded (step : α → ι → Option (α × ω)) (ok : α → ι → Prop) [∀ s e, Decidable (ok s e)] (s : α)
    (e : ι) : Option (α × ω) :=
  if ok s e then step s e else none

theorem Reaches.of_runs [∀ s e, Decidable (ok s e)]
    (h : runs (guarded step ok) s es = some (s', os)) : Reaches step ok s s' := by
  induction es generalizing s os with
  | nil =>
    cases h
    exact .refl
  | cons e es ih =>
    obtain ⟨s1, o, os', hs1, hr, -⟩ := exists_of_runs_cons h
    unfold guarded at hs1
    split at hs1
    next he => exact .head ⟨e, o, he, hs1⟩ (ih hr)
    · cases hs1

/-- All inputs are allowed where they are read. -/
def Allowed (step : α → ι → Option (α × ω)) (ok : α → ι → Prop) : α → List ι → Prop
  | _, [] => True
  | s, e :: es => ok s e ∧ ∀ s' o, step s e = some (s', o) → Allowed step ok s' es

/-- The inputs are allowed if the machine which is stuck on others runs on them. -/
theorem Allowed.of_isSome [∀ s e, Decidable (ok s e)]
    (h : (HobbyOS.runs (guarded step ok) s es).isSome) : Allowed step ok s es := by
  induction es generalizing s with
  | nil => trivial
  | cons e es ih =>
    obtain ⟨⟨s1, os⟩, hr⟩ := Option.isSome_iff_exists.1 h
    obtain ⟨s', o, os', hs', hr', -⟩ := exists_of_runs_cons hr
    unfold guarded at hs'
    split at hs'
    next he =>
      refine ⟨he, fun s'' o' hs'' => ?_⟩
      rw [hs'] at hs''
      cases hs''
      exact ih (by rw [hr']; rfl)
    · cases hs'

/-- A machine which makes every allowed step, and gives the output of another one to which it
    stays related, makes every run whose inputs are allowed, with the same outputs. -/
theorem Allowed.runs (hes : Allowed step ok s es) (hsim : ∀ s t e, R s t → ok s e →
      ∃ s' t' o, step s e = some (s', o) ∧ step' t e = some (t', o) ∧ R s' t') (ht : R s t) :
    ∃ s' t' os, runs step s es = some (s', os) ∧ runs step' t es = some (t', os) ∧ R s' t' := by
  induction es generalizing s t with
  | nil => exact ⟨s, t, [], rfl, rfl, ht⟩
  | cons e es ih =>
    obtain ⟨s1, t1, o, hs, ht', hR⟩ := hsim s t e ht hes.1
    obtain ⟨s', t', os, hs', ht'', hR'⟩ := ih (hes.2 s1 o hs) hR
    exact ⟨s', t', o :: os, by rw [runs_cons hs, hs']; rfl, by rw [runs_cons ht', ht'']; rfl, hR'⟩

/-- The state in which a run ends, or the one it begins in if there is none. -/
def lastState (step : α → ι → Option (α × ω)) (s : α) (es : List ι) : α :=
  ((runs step s es).map Prod.fst).getD s

/-- The state in which a run ends whose inputs are allowed. -/
theorem Reaches.of_allowed (h : Allowed step ok s es) : Reaches step ok s (lastState step s es) := by
  unfold HobbyOS.lastState
  cases hr : HobbyOS.runs step s es with
  | none => exact .refl
  | some r =>
    obtain ⟨s', os⟩ := r
    induction es generalizing s os with
    | nil =>
      cases hr
      exact .refl
    | cons e es ih =>
      obtain ⟨s1, o, os', hs1, hr', -⟩ := exists_of_runs_cons hr
      exact .head ⟨e, o, h.1, hs1⟩ (ih (h.2 s1 o hs1) os' hr')

theorem Reaches.lastState [∀ s e, Decidable (ok s e)] (s : α) (es : List ι) :
    Reaches step ok s (lastState (guarded step ok) s es) := by
  unfold HobbyOS.lastState
  cases h : runs (guarded step ok) s es with
  | none => exact .refl
  | some r => exact .of_runs h

/-! ### What is returned can be decided by a run -/

section Decidable

variable {γ : Type*} {p : α → Prop} {q : α → β → Prop} [DecidablePred p] [∀ a b, Decidable (q a b)]
  [DecidableEq γ] (c : γ)

instance decidableReturns : (o : Option α) → Decidable (∃ a, o = some a ∧ p a)
  | none => isFalse nofun
  | some a => decidable_of_iff (p a) (by simp)

instance decidableReturnsPair (o : Option (α × β)) : Decidable (∃ a b, o = some (a, b) ∧ q a b) :=
  decidable_of_iff (∃ r, o = some r ∧ q r.1 r.2) (by simp)

instance decidableReturnsFst (o : Option (γ × α)) : Decidable (∃ a, o = some (c, a) ∧ p a) :=
  decidable_of_iff (∃ r, o = some r ∧ c = r.1 ∧ p r.2) (by simp)

instance decidableReturnsSnd (o : Option (α × γ)) : Decidable (∃ a, o = some (a, c) ∧ p a) :=
  decidable_of_iff (∃ r, o = some r ∧ c = r.2 ∧ p r.1) (by simp)

instance decidableReturnsTriple (o : Option (γ × α × β)) :
    Decidable (∃ a b, o = some (c, a, b) ∧ q a b) :=
  decidable_of_iff (∃ r, o = some r ∧ c = r.1 ∧ q r.2.1 r.2.2) (by simp)

end Decidable

end HobbyOS
