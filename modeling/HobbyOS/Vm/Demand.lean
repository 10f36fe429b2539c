import HobbyOS.Vm.Entries

/-!
# The tables for a range of pages

Mapping the pages of a range takes pages for the tables which are missing. How many these are can be
told from the table before (`PMT.missing`): `PMT::mapPage` allocates the tables on its way, and those
for one page are there for the next one (`mapPage_demand`).
-/

namespace HobbyOS

open Finset Nat

variable {σ : Type*} {P : Pool σ ℕ} {pmt pmt' : PMT} {n : Vpn} {flags : Flags} {page k : ℕ}
  {s t : Phys σ × PMT} {f : ℕ → Vpn}

namespace PMT

/-- There is a table of level 1 for the pages. -/
def hasMid (pmt : PMT) (i : ℕ) : Bool := (pmt.entries i).isSome

/-- There is a table of level 0 for the pages. -/
def hasLeaf (pmt : PMT) (i j : ℕ) : Bool := ((pmt.entries i).bind (·.entries j)).isSome

/-- The number of tables missing for a page. -/
def missingAt (pmt : PMT) (n : Vpn) : ℕ :=
  (if pmt.hasMid n.l2 then 0 else 1) + if pmt.hasLeaf n.l2 n.l1 then 0 else 1

/-- The number of tables missing for the pages `f 0`, ..., `f (k - 1)`. -/
def missing (pmt : PMT) (f : ℕ → Vpn) (k : ℕ) : ℕ :=
  (((Finset.range k).image fun i => (f i).l2).filter fun i => ¬ pmt.hasMid i).card +
    (((Finset.range k).image fun i => ((f i).l2, (f i).l1)).filter fun q =>
      ¬ pmt.hasLeaf q.1 q.2).card

/-- The tables of `pmt` and those for the page `n` are there. -/
structure Reached (pmt pmt' : PMT) (n : Vpn) : Prop where
  mid : ∀ i, pmt'.hasMid i = (pmt.hasMid i || i == n.l2)
  leaf : ∀ i j, pmt'.hasLeaf i j = (pmt.hasLeaf i j || (i, j) == (n.l2, n.l1))

theorem missingAt_eq_zero : pmt.missingAt n = 0 ↔ (pmt.slot n).isSome = true := by
  rw [missingAt, hasMid, hasLeaf, slot]
  rcases pmt.entries n.l2 with _ | m
  · simp
  · rcases hl : m.entries n.l1 with _ | l <;> simp [hl]

theorem AddsTable.missingAt (h : AddsTable P n s t) : s.2.missingAt n = t.2.missingAt n + 1 := by
  cases h with
  | mid hp hm => simp [PMT.missingAt, hasMid, hasLeaf, PMT.set, hm, Mid.new]
  | leaf hp hm hl => simp [PMT.missingAt, hasMid, hasLeaf, PMT.set, Mid.set, hm, hl]

theorem AddsTable.reached (h : AddsTable P n s t) (ht : Reached t.2 pmt' n) : Reached s.2 pmt' n := by
  refine ⟨fun i => (ht.mid i).trans ?_, fun i j => (ht.leaf i j).trans ?_⟩
  · cases h with
    | mid hp hm | leaf hp hm => by_cases hi : i = n.l2 <;> simp [hasMid, PMT.set, hi]
  · cases h with
    | mid hp hm => by_cases hi : i = n.l2 <;> simp [hasLeaf, PMT.set, hi, hm, Mid.new]
    | leaf hp hm hl =>
      by_cases hi : i = n.l2
      · by_cases hj : j = n.l1 <;> simp [hasLeaf, PMT.set, Mid.set, hi, hj, hm]
      · simp [hasLeaf, PMT.set, hi]

/-- Nothing is missing for an entry which is there. -/
theorem reached_self (h : pmt.missingAt n = 0) : Reached pmt pmt n := by
  obtain ⟨hm, hl⟩ : pmt.hasMid n.l2 = true ∧ pmt.hasLeaf n.l2 n.l1 = true := by
    simpa [missingAt] using h
  refine ⟨fun i => ?_, fun i j => ?_⟩
  · by_cases hi : i = n.l2 <;> simp [hi, hm]
  · by_cases hij : (i, j) = (n.l2, n.l1)
    · obtain ⟨rfl, rfl⟩ := Prod.mk.inj hij
      simp [hl]
    · simp [hij]

theorem setSlot_reached (pte : Pte) (h : Reached pmt pmt' n) : Reached pmt (pmt'.setSlot n pte) n := by
  rw [setSlot]
  split
  · exact h
  next m hm =>
    split
    · exact h
    next l hl =>
      refine ⟨fun i => ?_, fun i j => ?_⟩
      · rw [← h.mid i]
        by_cases hi : i = n.l2
        · simp [hasMid, PMT.set, hi, hm]
        · simp [hasMid, PMT.set, hi]
      · rw [← h.leaf i j]
        by_cases hi : i = n.l2
        · by_cases hj : j = n.l1 <;> simp [hasLeaf, PMT.set, Mid.set, hi, hj, hm, hl]
        · simp [hasLeaf, PMT.set, hi]

/-- `PMT::mapPage` takes a page for every table which is missing, and fails iff there are not that
    many. -/
theorem mapPage_demand : (mapPage n P page flags s).Holds
    (fun t => P.takes (s.2.missingAt n) s.1.pool = some t.1.pool ∧ Reached s.2 t.2 n ∧
      Drawn s.1.log t.1.log)
    (fun t => P.takes (s.2.missingAt n) s.1.pool = none ∧ Drawn s.1.log t.1.log) True := by
  have hwalk : (walk n P s).Holds
      (fun t => P.takes (s.2.missingAt n) s.1.pool = some t.1.pool ∧ Reached s.2 t.2 n ∧
        Drawn s.1.log t.1.log)
      (fun t => P.takes (s.2.missingAt n) s.1.pool = none ∧ Drawn s.1.log t.1.log) False := by
    refine (walk_induct (I := fun t => P.takes (s.2.missingAt n) s.1.pool =
        P.takes (t.2.missingAt n) t.1.pool ∧ (∀ pmt', Reached t.2 pmt' n → Reached s.2 pmt' n) ∧
        Drawn s.1.log t.1.log) ⟨rfl, fun _ h => h, Drawn.refl _⟩ (fun t ph ht hslot hp => ?_)
      fun t u ht hadd => ?_).imp (fun t ⟨ht, pte, hpte⟩ => ?_) fun _ ht => ht
    · obtain ⟨pool, htake, rfl⟩ := Owned.kallocPage_none hp
      obtain ⟨k, hk⟩ := exists_eq_succ_of_ne_zero fun h0 => by
        rw [missingAt_eq_zero, hslot] at h0
        cases h0
      rw [ht.1, hk, Pool.takes, htake]
      exact ⟨rfl, ht.2.2.cons (by simp)⟩
    · obtain ⟨page, hp⟩ := hadd.take
      obtain ⟨pool, htake, hu⟩ := Owned.kallocPage_some hp
      refine ⟨?_, fun pmt' h => ht.2.1 pmt' (hadd.reached h), ?_⟩
      · rw [ht.1, hadd.missingAt, Pool.takes, htake, hu]
      · rw [hu]
        exact ht.2.2.cons (by simp)
    · have h0 : t.2.missingAt n = 0 := missingAt_eq_zero.2 (by rw [hpte]; rfl)
      rw [ht.1, h0]
      exact ⟨rfl, ht.2.1 _ (reached_self h0), ht.2.2⟩
  refine (hwalk.mono_panic fun _ => trivial).andThen fun t ht => ?_
  split
  · trivial
  · exact ⟨ht.1, setSlot_reached _ ht.2.1, ht.2.2⟩

/-! ## Ranges -/

/-- The tables of `pmt` and those for the pages before the round `k` are there. -/
structure ReachedAll (pmt pmt' : PMT) (f : ℕ → Vpn) (k : ℕ) : Prop where
  mid : ∀ i, pmt'.hasMid i = true ↔ pmt.hasMid i = true ∨ ∃ j < k, (f j).l2 = i
  leaf : ∀ i j, pmt'.hasLeaf i j = true ↔
    pmt.hasLeaf i j = true ∨ ∃ l < k, (f l).l2 = i ∧ (f l).l1 = j

theorem reachedAll_zero : ReachedAll pmt pmt f 0 := ⟨by simp, by simp⟩

theorem ReachedAll.succ {pmt'' : PMT} (h : ReachedAll pmt pmt' f k) (h' : Reached pmt' pmt'' (f k)) :
    ReachedAll pmt pmt'' f (k + 1) := by
  refine ⟨fun i => ?_, fun i j => ?_⟩
  · rw [h'.mid, Bool.or_eq_true, h.mid, beq_iff_eq, or_assoc]
    refine or_congr_right ⟨?_, ?_⟩
    · rintro (⟨j, hj, he⟩ | rfl)
      · exact ⟨j, lt_succ_of_lt hj, he⟩
      · exact ⟨k, lt_succ_self k, rfl⟩
    · rintro ⟨j, hj, he⟩
      rcases Nat.lt_succ_iff_lt_or_eq.1 hj with hj | rfl
      · exact .inl ⟨j, hj, he⟩
      · exact .inr he.symm
  · rw [h'.leaf, Bool.or_eq_true, h.leaf, beq_iff_eq, or_assoc]
    refine or_congr_right ⟨?_, ?_⟩
    · rintro (⟨l, hl, he⟩ | he)
      · exact ⟨l, lt_succ_of_lt hl, he⟩
      · exact ⟨k, lt_succ_self k, (Prod.mk.inj he).1.symm, (Prod.mk.inj he).2.symm⟩
    · rintro ⟨l, hl, he⟩
      rcases Nat.lt_succ_iff_lt_or_eq.1 hl with hl | rfl
      · exact .inl ⟨l, hl, he⟩
      · exact .inr (Prod.ext he.1.symm he.2.symm)

/-- Counting the values of `g` without `p`: the next one counts unless it has `p` or was met. -/
theorem card_missing_succ {ι : Type*} [DecidableEq ι] (p q : ι → Bool) (g : ℕ → ι)
    (h : q (g k) = true ↔ p (g k) = true ∨ ∃ j < k, g j = g k) :
    (((Finset.range (k + 1)).image g).filter fun i => ¬ p i).card =
      (((Finset.range k).image g).filter fun i => ¬ p i).card + if q (g k) then 0 else 1 := by
  rw [range_add_one, image_insert, filter_insert]
  by_cases hp : p (g k) = true
  · rw [if_neg (by simp [hp]), if_pos (h.2 (.inl hp)), Nat.add_zero]
  rw [if_pos (by simp [hp]), card_insert_eq_ite]
  by_cases hex : ∃ j < k, g j = g k
  · rw [if_pos (h.2 (.inr hex)), if_pos, Nat.add_zero]
    simpa [hp] using hex
  · rw [if_neg fun hq => (h.1 hq).elim hp hex, if_neg]
    simpa [hp] using hex

/-- What is missing for one page more. -/
theorem ReachedAll.missing_succ (h : ReachedAll pmt pmt' f k) :
    pmt.missing f (k + 1) = pmt.missing f k + pmt'.missingAt (f k) := by
  have hmid := card_missing_succ pmt.hasMid pmt'.hasMid (fun i => (f i).l2) (h.mid (f k).l2)
  have hleaf := card_missing_succ (fun q => pmt.hasLeaf q.1 q.2) (fun q => pmt'.hasLeaf q.1 q.2)
    (fun i => ((f i).l2, (f i).l1)) (k := k) (by simpa only [Prod.mk.injEq] using h.leaf _ _)
  rw [missing, hmid, hleaf, missing, missingAt]
  exact Nat.add_add_add_comm _ _ _ _

end PMT

end HobbyOS
