import HobbyOS.Vm.Tables

/-!
# Forks and faults

What `copyPMT` does, seen from the entries for the pages: those which are copied
are marked in the source (`inParent`), and the same in the destination (`inChild`);
where it fails, some entries of the source may be marked. Every page copied gains a
reference (`copyPMT_owned`).
-/

namespace HobbyOS

open Function Multiset Option

variable {σ : Type*} {P : Pool σ ℕ} {live : σ → Set ℕ → Prop} {A0 S A D : Set ℕ}
  {l₀ : List (Transfer ℕ)} {e : Prop} {ph : Phys σ} {M T : Multiset ℕ} {pmt : PMT} {n n' : Vpn}
  {skip : ℕ → Bool} {i j k page : ℕ} {l : Leaf} {m : Mid} {pte : Pte}

open VM

@[simp] theorem cowFlags_v (f : Flags) : (cowFlags f).v = f.v := by
  rw [cowFlags]
  split_ifs <;> rfl

@[simp] theorem cowPte_v : (cowPte pte).flags.v = pte.flags.v := cowFlags_v _

@[simp] theorem cowPte_page : (cowPte pte).page = pte.page := rfl

/-- A shared page is not writable. -/
@[simp] theorem cowPte_w : (cowPte pte).flags.w = false := by
  simp only [cowPte, cowFlags]
  split_ifs with h
  · rfl
  · simpa using h

theorem cowPte_refs : (cowPte pte).refs = pte.refs := by simp [Pte.refs]

/-! ## References -/

/-- The reference the copy of an entry adds. -/
def copiedRefs (skip : ℕ → Bool) (i j : ℕ) (l : Leaf) (k : ℕ) : Multiset ℕ :=
  if copied skip i j l k then {(l.entries k).page} else 0

theorem cowLeaf_refs : (cowLeaf skip i j l).refs = l.refs := by
  refine held_congr fun k _ => ?_
  dsimp only [cowLeaf]
  split_ifs
  · exact cowPte_refs
  · rfl

theorem childLeaf_refs : (childLeaf skip i j l page).refs = held (copiedRefs skip i j l) pmtSize id := by
  refine held_congr fun k _ => ?_
  dsimp only [childLeaf, copiedRefs, id]
  split_ifs with h
  · rw [cowPte_refs, Pte.refs, if_pos (by simpa using (Bool.and_eq_true_iff.1 h).1)]
  · rfl

/-- The pages of a table of level 0 are counted once more. -/
theorem shareLeaf_owned (h : Owned live A0 S l₀ e ph A D (l.refs + M) T) (skip : ℕ → Bool)
    (i j page : ℕ) : Owned live A0 S l₀ e (shareLeaf skip i j l ph) A D
      (l.refs + ((childLeaf skip i j l page).refs + M)) T := by
  rw [childLeaf_refs]
  refine forRange_induct (P := fun k (ph : Phys σ) => Owned live A0 S l₀ e ph A D
    (l.refs + (held (copiedRefs skip i j l) k id + M)) T) ?_ fun k ph hk hph => ?_
  · simpa [held] using h
  have hsucc : held (copiedRefs skip i j l) (k + 1) id =
      copiedRefs skip i j l k + held (copiedRefs skip i j l) k id := by
    rw [held, Finset.sum_range_succ, add_comm]
    rfl
  rw [hsucc, copiedRefs]
  split_ifs with hc
  · rw [singleton_add, cons_add, add_cons]
    refine hph.share (mem_add.2 (.inl ?_))
    rw [Leaf.refs, mem_held]
    refine ⟨k, hk, ?_⟩
    rw [Pte.refs, if_pos (Bool.and_eq_true_iff.1 hc).1]
    exact mem_singleton_self _
  · rwa [zero_add]

theorem childLeaf_refs_eq_zero (h : hasEntry skip i j l = false) :
    (childLeaf skip i j l page).refs = 0 := by
  rw [childLeaf_refs]
  refine held_zero fun k hk => if_neg ?_
  simp only [hasEntry, List.any_eq_false, List.mem_range] at h
  exact h k hk

/-- The copy of a table of level 1 is owned, as far as it has got; the slots from `j`
    on are still empty. -/
structure MidOwned (live : σ → Set ℕ → Prop) (A0 S : Set ℕ) (l₀ : List (Transfer ℕ)) (e : Prop)
    (M T : Multiset ℕ) (j : ℕ) (s : MidCopy σ) : Prop where
  rest : ∀ j', j ≤ j' → s.dst.entries j' = none
  empty : s.hasEntry = false → s.dst.refs = 0 ∧ s.dst.tables = {s.dst.page}
  owns : Owns live A0 S l₀ e s.ph (s.src.refs + (s.dst.refs + M))
    (s.src.tables + (s.dst.tables + T))

variable {s : MidCopy σ} {src : PMT} {flags : Flags}

theorem copyMidStep_owned (skip : ℕ → Bool) (i : ℕ) (hP : P.Lawful live) (hj : j < pmtSize)
    (h : MidOwned live A0 S l₀ e M T j s) :
    (copyMidStep P skip i j s).Holds (MidOwned live A0 S l₀ e M T (j + 1))
      (fun s => Owns live A0 S l₀ False s.ph (s.src.refs + M) (s.src.tables + T)) False := by
  obtain ⟨hnone, hempty, A, D, h⟩ := h
  have hnone' : ∀ j', j + 1 ≤ j' → s.dst.entries j' = none := fun j' hj' => hnone j' (by omega)
  rw [copyMidStep]
  split
  · exact ⟨hnone', hempty, h.owns⟩
  next l hl =>
    split
    next ph' hp =>
      -- Out of memory: the table of level 1 is freed, and what it refers to is lost.
      have h' : Owned live A0 S l₀ False s.ph A D (s.src.refs + M)
          (s.dst.page ::ₘ (s.src.tables + T)) := by
        refine h.weaken ?_ ?_
        · exact add_le_add_right (Multiset.le_add_left _ _) _
        · rw [← add_cons, show s.dst.tables = s.dst.page ::ₘ _ from rfl, cons_add]
          exact add_le_add_right (cons_le_cons _ (Multiset.le_add_left _ _)) _
      exact ((h'.takeNone hP hp).giveTable hP).owns
    next p ph' hp =>
      obtain ⟨R, h1, h1'⟩ := s.src.refs_set hj
      obtain ⟨U, h2, h2'⟩ := s.src.tables_set hj
      rw [hl, elim_some] at h1 h2
      have hsrc : (s.src.set j (cowLeaf skip i j l)).refs = s.src.refs := by
        rw [h1', h1, cowLeaf_refs]
      have hsrc' : (s.src.set j (cowLeaf skip i j l)).tables = s.src.tables := by
        rw [h2', h2]
        rfl
      have hown := h.takeTable hP hp
      rw [h1, add_assoc] at hown
      have hshare := shareLeaf_owned hown skip i j p
      split_ifs with hc
      · obtain ⟨R', h3, h3'⟩ := s.dst.refs_set hj
        obtain ⟨U', h4, h4'⟩ := s.dst.tables_set hj
        rw [hnone j le_rfl, elim_none, zero_add] at h3 h4
        refine ⟨fun j' hj' => ?_, fun hf => absurd hf (by simp), ?_⟩
        · exact (update_of_ne (by omega) _ _).trans (hnone' j' hj')
        · rw [hsrc, hsrc', h3', h4', ← h3, ← h4, h1, Leaf.tables]
          convert hshare.owns using 1
          · abel
          · simp only [childLeaf, ← singleton_add]
            abel
      · rw [Bool.not_eq_true] at hc
        rw [childLeaf_refs_eq_zero hc, zero_add, ← add_assoc, ← h1] at hshare
        refine ⟨hnone', hempty, ?_⟩
        rw [hsrc, hsrc']
        exact (hshare.giveTable hP).owns

/-- The copy of an address space is owned, as far as it has got. -/
structure CopyOwned (live : σ → Set ℕ → Prop) (A0 S : Set ℕ) (l₀ : List (Transfer ℕ)) (e : Prop)
    (M T : Multiset ℕ) (i : ℕ) (s : Copy σ) : Prop where
  rest : ∀ i', i ≤ i' → s.dst.entries i' = none
  owns : Owns live A0 S l₀ e s.ph (s.src.refs + (s.dst.refs + M))
    (s.src.tables + (s.dst.tables + T))

theorem copyStep_owned {s : Copy σ} (hP : P.Lawful live) (hi : i < userThreshold)
    (h : CopyOwned live A0 S l₀ e M T i s) :
    (copyStep P skip i s).Holds (CopyOwned live A0 S l₀ e M T (i + 1))
      (fun s => Owns live A0 S l₀ False s.ph (s.src.refs + (s.dst.refs + M))
        (s.src.tables + (s.dst.tables + T))) False := by
  obtain ⟨hnone, A, D, h⟩ := h
  have hnone' : ∀ i', i + 1 ≤ i' → s.dst.entries i' = none := fun i' hi' => hnone i' (by omega)
  rw [copyStep]
  split
  · exact ⟨hnone', h.owns⟩
  next m hm =>
    split
    next ph' hp => exact ((h.takeNone hP hp).weaken le_rfl le_rfl).owns
    next p ph' hp =>
      obtain ⟨R, h1, h1'⟩ := s.src.refs_set hi
      obtain ⟨U, h2, h2'⟩ := s.src.tables_set hi
      rw [hm, elim_some] at h1 h2
      have hown := h.takeTable hP hp
      -- The loop on the table of level 1, the rest of both tables being as it is.
      have hmid : MidOwned live A0 S l₀ e (R + (s.dst.refs + M)) (U + (s.dst.tables + T)) 0
          ⟨ph', m, .new p, false⟩ := by
        refine ⟨fun _ _ => rfl, fun _ => ⟨Mid.refs_new, Mid.tables_new⟩, ?_⟩
        rw [h1, h2, add_assoc, add_assoc] at hown
        rw [Mid.refs_new, Mid.tables_new, zero_add, singleton_add, add_cons]
        exact hown.owns
      have hloop := tryRange_induct hmid fun j s hj hs => copyMidStep_owned skip i hP hj hs
      split
      next heq =>
        rwa [heq] at hloop
      next t heq =>
        rw [heq] at hloop
        dsimp only [Outcome.Holds] at hloop ⊢
        rwa [h1', h2', add_assoc, add_assoc]
      next t heq =>
        rw [heq] at hloop
        obtain ⟨-, hempty, A', D', ht⟩ := hloop
        split_ifs with hc
        · obtain ⟨R', h3, h3'⟩ := s.dst.refs_set hi
          obtain ⟨U', h4, h4'⟩ := s.dst.tables_set hi
          rw [hnone i le_rfl, elim_none, zero_add] at h3 h4
          refine ⟨fun i' hi' => ?_, ?_⟩
          · exact (update_of_ne (by omega) _ _).trans (hnone' i' hi')
          · rw [h1', h2', h3', h4', ← h3, ← h4]
            convert ht.owns using 1
            · abel
            · abel
        · rw [Bool.not_eq_true] at hc
          obtain ⟨hr, ht'⟩ := hempty hc
          rw [hr, ht', zero_add, singleton_add, add_cons] at ht
          refine ⟨hnone', ?_⟩
          rw [h1', h2', add_assoc, add_assoc]
          exact (ht.giveTable hP).owns

/-- `copyPMT` gives the references of the new table to it. -/
theorem copyPMT_owned (hP : P.Lawful live)
    (h : Owned live A0 S l₀ e ph A D (src.refs + M) (src.tables + (page ::ₘ T))) (skip : ℕ → Bool) :
    (copyPMT P skip ⟨ph, src, .new page⟩).Holds
      (fun s => Owns live A0 S l₀ e s.ph (s.src.refs + (s.dst.refs + M))
        (s.src.tables + (s.dst.tables + T)))
      (fun s => Owns live A0 S l₀ False s.ph (s.src.refs + (s.dst.refs + M))
        (s.src.tables + (s.dst.tables + T))) False := by
  have h₀ : CopyOwned live A0 S l₀ e M T 0 ⟨ph, src, .new page⟩ := by
    refine ⟨fun _ _ => rfl, ?_⟩
    rw [PMT.refs_new, PMT.tables_new, zero_add, singleton_add]
    exact h.owns
  exact (tryRange_induct h₀ fun i s hi hs => copyStep_owned hP hi hs).imp (fun s hs => hs.2)
    fun s hs => hs

/-! ## Entries -/

/-- The valid entry of a slot. -/
def Leaf.lookup (l : Leaf) (k : ℕ) : Option Pte :=
  if (l.entries k).flags.v then some (l.entries k) else none

def Mid.lookup (m : Mid) (j k : ℕ) : Option Pte := (m.entries j).bind fun l => l.lookup k

theorem PMT.lookup_eq : pmt.lookup n = (pmt.entries n.l2).bind fun m => m.lookup n.l1 n.l0 := by
  simp only [PMT.lookup, PMT.slot, Mid.lookup, Leaf.lookup]
  cases pmt.entries n.l2 with
  | none => rfl
  | some m =>
    cases hl : m.entries n.l1 with
    | none => simp [hl]
    | some l =>
      simp only [bind_some, hl, map_some]
      rfl

theorem Mid.lookup_set {j' : ℕ} :
    (m.set j l).lookup j' k = if j' = j then l.lookup k else m.lookup j' k := by
  simp only [Mid.lookup, Mid.set, update_apply]
  split_ifs <;> rfl

theorem PMT.lookup_set :
    (pmt.set i m).lookup n = if n.l2 = i then m.lookup n.l1 n.l0 else pmt.lookup n := by
  simp only [PMT.lookup_eq, PMT.set, update_apply]
  split_ifs <;> rfl

/-- The entry for a page after it is copied. -/
def inParent (skip : ℕ → Bool) (n : Vpn) (o : Option Pte) : Option Pte :=
  o.map fun pte => if skip n.addr then pte else cowPte pte

/-- The entry for a page in the copy. -/
def inChild (skip : ℕ → Bool) (n : Vpn) (o : Option Pte) : Option Pte :=
  o.bind fun pte => if skip n.addr then none else some (cowPte pte)

theorem cowLeaf_lookup : (cowLeaf skip i j l).lookup k = inParent skip ⟨i, j, k⟩ (l.lookup k) := by
  simp only [Leaf.lookup, cowLeaf, copied, inParent]
  by_cases hv : (l.entries k).flags.v
  · by_cases hs : skip (Vpn.addr ⟨i, j, k⟩)
    · simp [hv, hs]
    · simp [hv, hs]
  · simp [hv]

theorem childLeaf_lookup :
    (childLeaf skip i j l page).lookup k = inChild skip ⟨i, j, k⟩ (l.lookup k) := by
  simp only [Leaf.lookup, childLeaf, copied, inChild]
  by_cases hv : (l.entries k).flags.v
  · by_cases hs : skip (Vpn.addr ⟨i, j, k⟩)
    · simp [hv, hs, Pte.zero, Flags.none]
    · simp [hv, hs]
  · simp [hv, Pte.zero, Flags.none]

theorem inChild_eq_none (h : hasEntry skip i j l = false) (hk : k < pmtSize) :
    inChild skip ⟨i, j, k⟩ (l.lookup k) = none := by
  simp only [hasEntry, List.any_eq_false, List.mem_range] at h
  have := h k hk
  simp only [Leaf.lookup, inChild]
  by_cases hv : (l.entries k).flags.v
  · simpa [copied, hv] using this
  · simp [hv]

theorem shareLeaf_mem : (shareLeaf skip i j l ph).mem = ph.mem :=
  forRange_induct (P := fun _ (ph' : Phys σ) => ph'.mem = ph.mem) rfl fun k ph' _ h => by
    split_ifs <;> exact h

/-- The entries of the source, some of which are marked. -/
def SomeMarked (f f' : Option Pte) : Prop := f' = f ∨ f' = f.map cowPte

theorem someMarked_inParent (o : Option Pte) : SomeMarked o (inParent skip n o) := by
  rw [inParent]
  by_cases hs : skip n.addr
  · exact .inl (by simp [hs])
  · exact .inr (by simp [hs])

/-- One more index. -/
theorem ite_lt_succ {α : Type*} {a b : α} :
    (if j < k + 1 then a else b) = if j = k then a else if j < k then a else b := by
  split_ifs <;> first | rfl | omega

/-- The entries of a table of level 1 before the index `j` are copied. -/
structure MidCopied (skip : ℕ → Bool) (i : ℕ) (ph : Phys σ) (m : Mid) (j : ℕ) (s : MidCopy σ) :
    Prop where
  src : ∀ j' k, k < pmtSize → s.src.lookup j' k =
    if j' < j then inParent skip ⟨i, j', k⟩ (m.lookup j' k) else m.lookup j' k
  dst : ∀ j' k, k < pmtSize → s.dst.lookup j' k =
    if j' < j then inChild skip ⟨i, j', k⟩ (m.lookup j' k) else none
  same : ∀ j', j ≤ j' → s.src.entries j' = m.entries j'
  empty : s.hasEntry = false → ∀ j' k, k < pmtSize → s.dst.lookup j' k = none
  mem : s.ph.mem = ph.mem

theorem copyMidStep_copied (h : MidCopied skip i ph m j s) :
    (copyMidStep P skip i j s).Holds (MidCopied skip i ph m (j + 1))
      (fun s => (∀ j' k, k < pmtSize → SomeMarked (m.lookup j' k) (s.src.lookup j' k)) ∧
        s.ph.mem = ph.mem ∧ .refused ∈ s.ph.log) False := by
  have hsame' : ∀ j', j + 1 ≤ j' → s.src.entries j' = m.entries j' :=
    fun j' hj' => h.same j' (by omega)
  rw [copyMidStep]
  split
  next hl =>
    -- Nothing to copy at `j`.
    have hnone : ∀ k, m.lookup j k = none := fun k => by rw [Mid.lookup, ← h.same j le_rfl, hl]; rfl
    refine ⟨fun j' k hk => ?_, fun j' k hk => ?_, hsame', h.empty, h.mem⟩
    · rw [h.src j' k hk, ite_lt_succ]
      by_cases hj : j' = j <;> simp [hj, hnone, inParent]
    · rw [h.dst j' k hk, ite_lt_succ]
      by_cases hj : j' = j <;> simp [hj, hnone, inChild]
  next l hl =>
    have hlook : ∀ k, m.lookup j k = l.lookup k := fun k => by
      rw [Mid.lookup, ← h.same j le_rfl, hl]
      rfl
    have hmem := samePages_kallocPage (P := P) s.ph
    split
    next ph' hp =>
      rw [hp] at hmem
      refine ⟨fun j' k hk => ?_, hmem.1.trans h.mem, List.mem_cons_of_mem _ (Owned.refused_mem hp)⟩
      rw [h.src j' k hk]
      split_ifs
      · exact someMarked_inParent _
      · exact .inl rfl
    next p ph' hp =>
      rw [hp] at hmem
      have hsrc : ∀ j' k, k < pmtSize → (s.src.set j (cowLeaf skip i j l)).lookup j' k =
          if j' < j + 1 then inParent skip ⟨i, j', k⟩ (m.lookup j' k) else m.lookup j' k := by
        intro j' k hk
        rw [Mid.lookup_set, h.src j' k hk, ite_lt_succ]
        by_cases hj : j' = j <;> simp [hj, hlook, cowLeaf_lookup]
      have hsame : ∀ j', j + 1 ≤ j' →
          (s.src.set j (cowLeaf skip i j l)).entries j' = m.entries j' := fun j' hj' =>
        (update_of_ne (by omega) _ _).trans (hsame' j' hj')
      split_ifs with hc
      · refine ⟨hsrc, fun j' k hk => ?_, hsame, fun hf => absurd hf (by simp), ?_⟩
        · rw [Mid.lookup_set, h.dst j' k hk, ite_lt_succ]
          by_cases hj : j' = j <;> simp [hj, hlook, childLeaf_lookup]
        · exact shareLeaf_mem.trans (hmem.1.trans h.mem)
      · rw [Bool.not_eq_true] at hc
        refine ⟨hsrc, fun j' k hk => ?_, hsame, h.empty, ?_⟩
        · rw [h.dst j' k hk, ite_lt_succ]
          by_cases hj : j' = j <;> simp [hj, hlook, inChild_eq_none hc hk]
        · exact shareLeaf_mem.trans (hmem.1.trans h.mem)

/-- The entries of a table of level 2 before the index `i` are copied, to the table in `page`. -/
structure Copied (skip : ℕ → Bool) (ph : Phys σ) (pmt : PMT) (page i : ℕ) (s : Copy σ) : Prop where
  src : ∀ n : Vpn, n.l1 < pmtSize → n.l0 < pmtSize → s.src.lookup n =
    if n.l2 < i then inParent skip n (pmt.lookup n) else pmt.lookup n
  dst : ∀ n : Vpn, n.l1 < pmtSize → n.l0 < pmtSize → s.dst.lookup n =
    if n.l2 < i then inChild skip n (pmt.lookup n) else none
  same : ∀ i', i ≤ i' → s.src.entries i' = pmt.entries i'
  mem : s.ph.mem = ph.mem
  page_eq : s.dst.page = page

/-- What is left of a copy which fails, for want of memory. -/
structure CopyFailed (ph : Phys σ) (pmt : PMT) (page : ℕ) (s : Copy σ) : Prop where
  marked : ∀ n : Vpn, n.User → SomeMarked (pmt.lookup n) (s.src.lookup n)
  mem : s.ph.mem = ph.mem
  page_eq : s.dst.page = page
  refused : .refused ∈ s.ph.log

theorem copyStep_copied {s : Copy σ} (h : Copied skip ph src page i s) :
    (copyStep P skip i s).Holds (Copied skip ph src page (i + 1)) (CopyFailed ph src page) False := by
  have hsame' : ∀ i', i + 1 ≤ i' → s.src.entries i' = src.entries i' :=
    fun i' hi' => h.same i' (by omega)
  have hfail : ∀ n : Vpn, n.User → SomeMarked (src.lookup n) (s.src.lookup n) := fun n hn => by
    rw [h.src n hn.l1_lt hn.l0_lt]
    split_ifs
    · exact someMarked_inParent _
    · exact .inl rfl
  rw [copyStep]
  split
  next hm =>
    have hnone : ∀ n : Vpn, n.l2 = i → src.lookup n = none := fun n hn => by
      rw [PMT.lookup_eq, hn, ← h.same i le_rfl, hm]
      rfl
    refine ⟨fun n h1 h₀ => ?_, fun n h1 h₀ => ?_, hsame', h.mem, h.page_eq⟩
    · rw [h.src n h1 h₀, ite_lt_succ]
      by_cases hi : n.l2 = i <;> simp [hi, hnone n, inParent]
    · rw [h.dst n h1 h₀, ite_lt_succ]
      by_cases hi : n.l2 = i <;> simp [hi, hnone n, inChild]
  next m hm =>
    have hlook : ∀ n : Vpn, n.l2 = i → src.lookup n = m.lookup n.l1 n.l0 := fun n hn => by
      rw [PMT.lookup_eq, hn, ← h.same i le_rfl, hm]
      rfl
    have hmem := samePages_kallocPage (P := P) s.ph
    split
    next ph' hp =>
      rw [hp] at hmem
      exact ⟨hfail, hmem.1.trans h.mem, h.page_eq, Owned.refused_mem hp⟩
    next p ph' hp =>
      rw [hp] at hmem
      have hmid : MidCopied skip i ph m 0 ⟨ph', m, .new p, false⟩ :=
        ⟨fun _ _ _ => rfl, fun _ _ _ => rfl, fun _ _ => rfl, fun _ _ _ _ => rfl, hmem.1.trans h.mem⟩
      have hloop := tryRange_induct (n := pmtSize) hmid
        fun j s _ hs => copyMidStep_copied (P := P) hs
      split
      next ht =>
        rwa [ht] at hloop
      next t ht =>
        rw [ht] at hloop
        refine ⟨fun n hn => ?_, hloop.2.1, h.page_eq, hloop.2.2⟩
        rw [PMT.lookup_set]
        split_ifs with hi
        · rw [hlook n hi]
          exact hloop.1 _ _ hn.l0_lt
        · exact hfail n hn
      next t ht =>
        rw [ht] at hloop
        have hsrc : ∀ n : Vpn, n.l1 < pmtSize → n.l0 < pmtSize → (s.src.set i t.src).lookup n =
            if n.l2 < i + 1 then inParent skip n (src.lookup n) else src.lookup n := by
          rintro ⟨i', j', k⟩ h1 h₀
          rw [PMT.lookup_set, h.src _ h1 h₀, ite_lt_succ]
          refine ite_congr rfl (fun hi => ?_) fun _ => rfl
          subst hi
          rw [hlook _ rfl, hloop.src _ _ h₀, if_pos h1]
        have hdst : ∀ n : Vpn, n.l2 = i → n.l1 < pmtSize → n.l0 < pmtSize →
            t.dst.lookup n.l1 n.l0 = inChild skip n (src.lookup n) := by
          rintro ⟨_, j', k⟩ rfl h1 h₀
          rw [hlook _ rfl, hloop.dst _ _ h₀, if_pos h1]
        have hsame : ∀ i', i + 1 ≤ i' → (s.src.set i t.src).entries i' = src.entries i' :=
          fun i' hi' => (update_of_ne (by omega) _ _).trans (hsame' i' hi')
        split_ifs with hc
        · refine ⟨hsrc, fun n h1 h₀ => ?_, hsame, hloop.mem, h.page_eq⟩
          rw [PMT.lookup_set, h.dst _ h1 h₀, ite_lt_succ]
          exact ite_congr rfl (fun hi => hdst n hi h1 h₀) fun _ => rfl
        · rw [Bool.not_eq_true] at hc
          refine ⟨hsrc, fun n h1 h₀ => ?_, hsame, hloop.mem, h.page_eq⟩
          rw [h.dst _ h1 h₀, ite_lt_succ]
          by_cases hi : n.l2 = i
          · simp [hi, ← hdst n hi h1 h₀, hloop.empty hc _ _ h₀]
          · simp [hi]

/-- What `copyPMT` does to the entries for the pages. -/
theorem copyPMT_lookup (ph : Phys σ) (src : PMT) (page : ℕ) (skip : ℕ → Bool) :
    (copyPMT P skip ⟨ph, src, .new page⟩).Holds
      (fun s => (∀ n : Vpn, n.User → s.src.lookup n = inParent skip n (src.lookup n)) ∧
        (∀ n : Vpn, n.User → s.dst.lookup n = inChild skip n (src.lookup n)) ∧ s.ph.mem = ph.mem)
      (CopyFailed ph src page) False := by
  have h₀ : Copied skip ph src page 0 ⟨ph, src, .new page⟩ :=
    ⟨fun _ _ _ => rfl, fun _ _ _ => rfl, fun _ _ => rfl, rfl, rfl⟩
  refine (tryRange_induct h₀ fun i s _ hs => copyStep_copied (P := P) hs).imp (fun s hs => ?_)
    fun s hs => hs
  refine ⟨fun n hn => ?_, fun n hn => ?_, hs.mem⟩
  · rw [hs.src n hn.l1_lt hn.l0_lt, if_pos hn.l2_lt]
  · rw [hs.dst n hn.l1_lt hn.l0_lt, if_pos hn.l2_lt]

/-- A copy which succeeded: the references it took are owned, and the entries for the
    pages marked. -/
structure CopyDone (live : σ → Set ℕ → Prop) (A0 S : Set ℕ) (l₀ : List (Transfer ℕ)) (e : Prop)
    (ph : Phys σ) (pmt : PMT) (skip : ℕ → Bool) (M T : Multiset ℕ) (s : Copy σ) : Prop where
  owns : Owns live A0 S l₀ e s.ph (s.src.refs + (s.dst.refs + M)) (s.src.tables + (s.dst.tables + T))
  inSrc : ∀ n : Vpn, n.User → s.src.lookup n = inParent skip n (pmt.lookup n)
  inDst : ∀ n : Vpn, n.User → s.dst.lookup n = inChild skip n (pmt.lookup n)
  mem : s.ph.mem = ph.mem

/-- A copy which failed for want of memory; the new table is yet to be freed. -/
structure CopyGivenUp (live : σ → Set ℕ → Prop) (A0 S : Set ℕ) (l₀ : List (Transfer ℕ))
    (ph : Phys σ) (pmt : PMT) (page : ℕ) (M T : Multiset ℕ) (s : Copy σ) : Prop where
  owns : Owns live A0 S l₀ False s.ph (s.src.refs + M) (s.src.tables + (page ::ₘ T))
  failed : CopyFailed ph pmt page s

theorem copyPMT_spec (hP : P.Lawful live)
    (h : Owned live A0 S l₀ e ph A D (src.refs + M) (src.tables + (page ::ₘ T))) (skip : ℕ → Bool) :
    (copyPMT P skip ⟨ph, src, .new page⟩).Holds (CopyDone live A0 S l₀ e ph src skip M T)
      (CopyGivenUp live A0 S l₀ ph src page M T) False := by
  have hand := (copyPMT_owned hP h skip).and (copyPMT_lookup (P := P) ph src page skip)
  rw [and_self] at hand
  refine hand.imp (fun s hs => ?_) fun s hs => ?_
  · obtain ⟨hown, hsrc, hdst, hmem⟩ := hs
    exact ⟨hown, hsrc, hdst, hmem⟩
  · obtain ⟨⟨A', D', hown⟩, hfail⟩ := hs
    refine ⟨(hown.weaken ?_ ?_).owns, hfail⟩
    · exact add_le_add_right (Multiset.le_add_left _ _) _
    · rw [show s.dst.tables = s.dst.page ::ₘ _ from rfl, hfail.page_eq, cons_add]
      exact add_le_add_right (cons_le_cons _ (Multiset.le_add_left _ _)) _

/-! ## Faults -/

/-- The flags of a page which is not shared any more. -/
def ownFlags (f : Flags) : Flags := { f with cow := false, w := true }

/-- An entry before and after a store: a marked one may have become one for a page of its own. -/
def MaybeOwn (o o' : Option Pte) : Prop :=
  o' = o ∨ ∃ pte page, o = some pte ∧ pte.flags.cow = true ∧ o' = some ⟨page, ownFlags pte.flags⟩

/-- After a fault at the page `n`, there is a page with the same contents, mapped nowhere
    else, and writable. -/
structure FaultHandled (live : σ → Set ℕ → Prop) (A0 S : Set ℕ) (l₀ : List (Transfer ℕ)) (e : Prop)
    (ph : Phys σ) (pmt : PMT) (n : Vpn) (pte : Pte) (M T : Multiset ℕ) (p : ℕ)
    (s : Phys σ × PMT) : Prop where
  owns : Owns live A0 S l₀ e s.1 (s.2.refs + M) (s.2.tables + T)
  lookup : ∀ n', s.2.lookup n' = if n' = n then some ⟨p, ownFlags pte.flags⟩ else pmt.lookup n'
  mem : s.1.mem = update ph.mem p (ph.mem pte.page)
  alone : p ∉ (pmt.setSlot n .zero).refs + M

theorem PMT.lookup_remapped (hpte : pmt.lookup n = some pte) (hv : flags.v) (p : ℕ) :
    ((pmt.setSlot n .zero).setSlot n ⟨p, flags⟩).lookup n' =
      if n' = n then some ⟨p, flags⟩ else pmt.lookup n' := by
  have hs := (PMT.lookup_eq_some.1 hpte).1
  have hz : (pmt.setSlot n .zero).slot n = some .zero := by rw [PMT.slot_setSlot hs, if_pos rfl]
  rw [PMT.lookup_setSlot hz hv, PMT.lookup_setSlot_zero hs]
  split_ifs <;> rfl

/-- The table after a page is remapped. -/
theorem remapped (hpte : pmt.lookup n = some pte) (hn : n.User) (hv : flags.v) (p : ℕ) :
    let pmt' := (pmt.setSlot n .zero).setSlot n ⟨p, flags⟩
    pmt'.refs = p ::ₘ (pmt.setSlot n .zero).refs ∧ pmt'.tables = pmt.tables ∧
      ∀ n', pmt'.lookup n' = if n' = n then some ⟨p, flags⟩ else pmt.lookup n' := by
  have hs := (PMT.lookup_eq_some.1 hpte).1
  have hz : (pmt.setSlot n .zero).slot n = some .zero := by rw [PMT.slot_setSlot hs, if_pos rfl]
  obtain ⟨R, h1, h2⟩ := PMT.refs_setSlot hz hn
  rw [Pte.refs_zero, zero_add] at h1
  refine ⟨?_, ?_, fun n' => PMT.lookup_remapped hpte hv p⟩
  · rw [h2, h1, Pte.refs, if_pos hv, singleton_add]
  · rw [PMT.tables_setSlot hn, PMT.tables_setSlot hn]

theorem PMT.exists_of_getFlags_cow (h : (pmt.getFlags n).cow = true) :
    ∃ pte, pmt.lookup n = some pte ∧ pte.flags.cow = true := by
  rw [PMT.getFlags] at h
  cases hpte : pmt.lookup n with
  | none => simp [hpte, Flags.none] at h
  | some pte => exact ⟨pte, rfl, by simpa [hpte] using h⟩

/-- A fault at a page which is not marked is not handled. -/
theorem handleCowFault_of_not_cow (h : (pmt.getFlags n).cow = false) :
    handleCowFault P n (ph, pmt) = .fail (ph, pmt) := by
  simp [handleCowFault, h]

theorem handleCowFault_spec (h : Owned live A0 S l₀ e ph A ∅ (pmt.refs + M) (pmt.tables + T))
    (hP : P.Lawful live) (h0 : ∀ s A, live s A → 0 ∉ A) (hn : n.User) (hpte : pmt.lookup n = some pte)
    (hcow : pte.flags.cow) (hS : pte.page ∉ S) : (handleCowFault P n (ph, pmt)).Holds
      (fun s => ∃ p, FaultHandled live A0 S l₀ e ph pmt n pte M T p s)
      (fun s => s.2 = pmt ∧ s.1.mem = ph.mem ∧ .refused ∈ s.1.log ∧
        Owns live A0 S l₀ e s.1 (pmt.refs + M) (pmt.tables + T)) False := by
  have hflags : pmt.getFlags n = pte.flags := by rw [PMT.getFlags, hpte]
  have hpage : pmt.translate n = pte.page := by rw [PMT.translate, hpte]
  have hv : (ownFlags pte.flags).v := (PMT.lookup_eq_some.1 hpte).2
  have hrefs := PMT.refs_of_lookup hpte hn
  have hne : pte.page ≠ 0 := fun e0 => h0 _ _ h.live
    (h.data 0 (mem_add.2 (.inl (e0 ▸ PMT.mem_refs hpte hn))))
  simp only [handleCowFault, hflags, hpage, hcow, Bool.not_true, Bool.false_eq_true, if_false, hne]
  change (if ph.refs.getRef pte.page ≤ 1 then _ else _ : Outcome _).Holds _ _ _
  split_ifs with hle
  · -- The only reference: the page itself becomes writable, and its entry is forgotten.
    have hg : ph.refs.getRef pte.page = 1 := le_antisymm hle ph.refs.getRef_pos
    obtain ⟨t, ht, hr⟩ := ph.refs.decRef_of_getRef_eq_one hg
    have hgr : t.getRef = ph.refs.getRef := by
      rcases ph.refs.decRef_spec pte.page with ⟨-, t', ht', hg'⟩ | ⟨hne', -⟩
      · rw [ht] at ht'
        cases ht'
        exact hg'
      · exact absurd hg hne'
    obtain ⟨h1, h2, h3⟩ := remapped hpte hn hv pte.page
    rw [remap_of_lookup hpte]
    simp only [Outcome.ok_andThen, ht]
    refine ⟨pte.page, ⟨A, ∅, ?_⟩, h3, ?_, ?_⟩
    · rw [show ({ pte.flags with cow := false, w := true } : Flags) = ownFlags pte.flags from rfl, h1,
        h2, ← hrefs]
      exact ⟨h.live, h.replays, h.kernel, h.data, h.tables, h.nodup, hgr ▸ h.covers, h.since, h.freed,
        h.all, hgr ▸ h.tight⟩
    · rw [update_eq_self]
    · have hc := h.covers
      rw [hrefs, cons_add] at hc
      exact hc.notMem hS hle
  · -- A copy takes the place of the page.
    split
    next ph' hp =>
      have hsame := samePages_kallocPage (P := P) ph
      rw [hp] at hsame
      exact ⟨rfl, hsame.1, Owned.refused_mem hp, (h.takeNone hP hp).owns⟩
    next p ph' hp =>
      have hsame := samePages_kallocPage (P := P) ph
      rw [hp] at hsame
      obtain ⟨hpA, hown⟩ := h.takeData hP hp
      obtain ⟨h1, h2, h3⟩ := remapped hpte hn hv p
      rw [remap_of_lookup hpte]
      refine ⟨p, ?_, h3, ?_, ?_⟩
      · rw [show ({ pte.flags with cow := false, w := true } : Flags) = ownFlags pte.flags from rfl,
          h1, h2]
        rw [hrefs, cons_add, cons_swap, ← cons_add] at hown
        exact (hown.setMem _).release hP hS
      · rw [release_mem]
        rw [hsame.1]
      · intro hm
        refine hpA (h.data p ?_)
        rw [hrefs, cons_add]
        exact mem_cons_of_mem hm

end HobbyOS
