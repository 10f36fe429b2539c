import HobbyOS.Vm.Fork
import HobbyOS.Vm.Mmap

/-!
# Cleaning page tables

`PMT::clean` frees the tables without entries. It tells a table from a page by the
absence of `PAGE_R`, `PAGE_W` and `PAGE_X`, on all levels; so it is sound if and only if every page
is mapped with one of these (`PMT.cleansTables_iff`). It changes no entry for a page, and gives the
pages of tables up only: what is kept when a table is freed, is kept (`PMT.clean_spec`).
-/

namespace HobbyOS

open Function Multiset

variable {σ : Type*} {P : Pool σ ℕ} {ph : Phys σ} {M T : Multiset ℕ} {pmt : PMT} {i j k : ℕ} {l : Leaf}
  {m : Mid} {I : Phys σ → Multiset ℕ → Multiset ℕ → Prop}

/-- The entry is not taken for one which refers to a table. -/
def Pte.Plain (pte : Pte) : Prop := pte.flags.r ∨ pte.flags.w ∨ pte.flags.x

/-- Every page is mapped with one of `PAGE_R`, `PAGE_W`, `PAGE_X`. -/
def PMT.Plain (pmt : PMT) : Prop := ∀ n pte, n.User → pmt.lookup n = some pte → pte.Plain

def Mid.Plain (m : Mid) : Prop :=
  ∀ j k pte, j < pmtSize → k < pmtSize → m.lookup j k = some pte → pte.Plain

theorem Leaf.plain_iff :
    l.plain = true ↔ ∀ k pte, k < pmtSize → l.lookup k = some pte → pte.Plain := by
  simp only [Leaf.plain, List.all_eq_true, List.mem_range, Bool.or_eq_true, Bool.not_eq_true',
    or_assoc]
  refine forall_congr' fun k => ⟨fun h pte hk hpte => ?_, fun h hk => ?_⟩
  · rw [Leaf.lookup] at hpte
    split_ifs at hpte with hv
    cases hpte
    exact (h hk).resolve_left (by simp [hv])
  · cases hv : (l.entries k).flags.v with
    | false => exact .inl rfl
    | true => exact .inr (h _ hk (if_pos hv))

theorem Leaf.entries_of_empty (h : l.empty = true) (hk : k < pmtSize) : l.entries k = .zero := by
  rw [Leaf.empty, List.all_eq_true] at h
  simpa using h k (List.mem_range.2 hk)

theorem Leaf.refs_of_empty (h : l.empty = true) : l.refs = 0 :=
  held_zero fun k hk => by rw [Leaf.entries_of_empty h hk, Pte.refs_zero]

theorem Leaf.lookup_of_empty (h : l.empty = true) (hk : k < pmtSize) : l.lookup k = none := by
  rw [Leaf.lookup, Leaf.entries_of_empty h hk]
  rfl

theorem Mid.entries_of_empty (h : m.empty = true) (hj : j < pmtSize) : m.entries j = none := by
  rw [Mid.empty, List.all_eq_true] at h
  simpa using h j (List.mem_range.2 hj)

theorem Mid.refs_of_empty (h : m.empty = true) : m.refs = 0 :=
  held_zero fun j hj => by rw [Mid.entries_of_empty h hj]; rfl

theorem Mid.tables_of_empty (h : m.empty = true) : m.tables = {m.page} := by
  rw [Mid.tables, held_zero fun j hj => by rw [Mid.entries_of_empty h hj]; rfl]
  rfl

theorem Mid.lookup_of_empty (h : m.empty = true) (hj : j < pmtSize) : m.lookup j k = none := by
  rw [Mid.lookup, Mid.entries_of_empty h hj]
  rfl

/-- The entries for the pages stay, and the references and tables satisfy `I`. -/
structure MidCleaned (I : Phys σ → Multiset ℕ → Multiset ℕ → Prop) (m : Mid) (M T : Multiset ℕ)
    (s : Phys σ × Mid) : Prop where
  inv : I s.1 (s.2.refs + M) (s.2.tables + T)
  lookup : ∀ j k, j < pmtSize → k < pmtSize → s.2.lookup j k = m.lookup j k

/-- The entries for the pages stay, and the references and tables satisfy `I`. -/
structure Cleaned (I : Phys σ → Multiset ℕ → Multiset ℕ → Prop) (pmt : PMT) (M T : Multiset ℕ)
    (s : Phys σ × PMT) : Prop where
  inv : I s.1 (s.2.refs + M) (s.2.tables + T)
  lookup : ∀ n : Vpn, n.User → s.2.lookup n = pmt.lookup n

section Clean

variable (hI : ∀ ph p M T, I ph M (p ::ₘ T) → I (kfreePage P ph p) M T)

include hI

theorem Mid.cleanStep_spec {s : Phys σ × Mid} (hm : m.Plain) (hj : j < pmtSize)
    (h : MidCleaned I m M T s) :
    (Mid.cleanStep P j s).Holds (MidCleaned I m M T) (fun _ => False) False := by
  obtain ⟨h, hlook⟩ := h
  rw [Mid.cleanStep]
  split
  · exact ⟨h, hlook⟩
  next l hl =>
    have hleaf : ∀ k, k < pmtSize → l.lookup k = m.lookup j k := fun k hk => by
      rw [← hlook j k hj hk, Mid.lookup, hl]
      rfl
    rw [if_neg (by
      simpa using Leaf.plain_iff.2 fun k pte hk hpte => hm j k pte hj hk (hleaf k hk ▸ hpte))]
    split_ifs with he
    · obtain ⟨R, h1, h1'⟩ := held_update (·.elim 0 Leaf.refs) s.2.entries hj
      obtain ⟨U, h2, h2'⟩ := held_update (·.elim 0 Leaf.tables) s.2.entries hj
      rw [hl, Option.elim_some] at h1 h2
      refine ⟨?_, fun j' k hj' hk => ?_⟩
      · rw [Mid.refs, Mid.tables, h1, h2, Leaf.refs_of_empty he, Leaf.tables, singleton_add,
          cons_swap, cons_add] at h
        rw [Mid.refs, Mid.tables, h1', h2', Option.elim_none, Option.elim_none, zero_add U]
        exact hI _ _ _ _ h
      · rw [← hlook j' k hj' hk]
        simp only [Mid.lookup, update_apply]
        split_ifs with hjj
        · rw [hjj, hl]
          exact (Leaf.lookup_of_empty he hk).symm
        · rfl
    · exact ⟨h, hlook⟩

theorem PMT.cleanStep_spec {s : Phys σ × PMT} (hpmt : pmt.Plain) (hi : i < userThreshold)
    (h : Cleaned I pmt M T s) :
    (PMT.cleanStep P i s).Holds (Cleaned I pmt M T) (fun _ => False) False := by
  obtain ⟨h, hlook⟩ := h
  rw [PMT.cleanStep]
  split
  · exact ⟨h, hlook⟩
  next m hm =>
    have hmid : ∀ j k, j < pmtSize → k < pmtSize → m.lookup j k = pmt.lookup ⟨i, j, k⟩ :=
      fun j k hj hk => by
        rw [← hlook ⟨i, j, k⟩ ⟨hi, hj, hk⟩, PMT.lookup_eq, hm]
        rfl
    have hplain : m.Plain := fun j k pte hj hk hpte =>
      hpmt ⟨i, j, k⟩ pte ⟨hi, hj, hk⟩ (hmid j k hj hk ▸ hpte)
    obtain ⟨R, h1, h1'⟩ := held_update (·.elim 0 Mid.refs) s.2.entries hi
    obtain ⟨U, h2, h2'⟩ := held_update (·.elim 0 Mid.tables) s.2.entries hi
    rw [hm, Option.elim_some] at h1 h2
    -- The loop on the table of level 1, the rest of the table being as it is.
    have hstart : MidCleaned I m (R + M) (U + (s.2.page ::ₘ T)) (s.1, m) := by
      refine ⟨?_, fun _ _ _ _ => rfl⟩
      rw [PMT.refs, PMT.tables, h1, h2, cons_add, add_assoc, add_assoc] at h
      rwa [add_cons, add_cons]
    have hloop := tryRange_induct (n := pmtSize)
      (P := fun _ => MidCleaned I m (R + M) (U + (s.2.page ::ₘ T))) hstart
      fun j t hj ht => Mid.cleanStep_spec hI hplain hj ht
    have hrest : ∀ o : Option Mid, ∀ n : Vpn, n.User → n.l2 ≠ i →
        ({ s.2 with entries := update s.2.entries i o } : PMT).lookup n = pmt.lookup n := by
      intro o n hn hne
      rw [← hlook n hn, PMT.lookup_eq, PMT.lookup_eq]
      dsimp only
      rw [update_of_ne hne]
    split
    next ph m' heq =>
      rw [heq] at hloop
      obtain ⟨hm', hlook'⟩ := hloop
      split_ifs with he
      · rw [Mid.refs_of_empty he, Mid.tables_of_empty he, zero_add, singleton_add] at hm'
        refine ⟨?_, fun n hn => ?_⟩
        · rw [PMT.refs, PMT.tables, h1', h2', Option.elim_none, Option.elim_none, zero_add, zero_add,
            cons_add, ← add_cons]
          exact hI _ _ _ _ hm'
        by_cases hni : n.l2 = i
        · subst hni
          rw [PMT.lookup_eq]
          dsimp only
          rw [update_self, ← hmid n.l1 n.l0 hn.l1_lt hn.l0_lt,
            ← hlook' n.l1 n.l0 hn.l1_lt hn.l0_lt, Mid.lookup_of_empty he hn.l1_lt]
          rfl
        · exact hrest none n hn hni
      · refine ⟨?_, fun n hn => ?_⟩
        · dsimp only [PMT.set]
          rw [PMT.refs, PMT.tables, h1', h2', Option.elim_some, Option.elim_some, cons_add,
            add_assoc, add_assoc, ← add_cons, ← add_cons]
          exact hm'
        · by_cases hni : n.l2 = i
          · subst hni
            rw [PMT.lookup_set, if_pos rfl, hlook' _ _ hn.l1_lt hn.l0_lt, hmid _ _ hn.l1_lt hn.l0_lt]
          · exact hrest (some m') n hn hni
    next hne =>
      cases hr : tryRange (Mid.cleanStep P) pmtSize (s.1, m) with
      | ok t => exact absurd hr (hne t.1 t.2)
      | fail t => rwa [hr] at hloop
      | panic => rwa [hr] at hloop

/-- `PMT::clean` frees tables, and nothing else. -/
theorem PMT.clean_spec (hpmt : pmt.Plain) (h : I ph (pmt.refs + M) (pmt.tables + T)) :
    (PMT.clean P (ph, pmt)).Holds (Cleaned I pmt M T) (fun _ => False) False :=
  tryRange_induct (P := fun _ => Cleaned I pmt M T) ⟨h, fun _ _ => rfl⟩
    fun _ _ hi hs => PMT.cleanStep_spec hI hpmt hi hs

end Clean

/-! ## What is required -/

theorem Mid.plain_of_clean {s t : Phys σ × Mid} (h : tryRange (Mid.cleanStep P) pmtSize s = .ok t) :
    s.2.Plain := by
  have hparts : ∀ j < pmtSize, ∀ l, s.2.entries j = some l → l.plain = true := by
    refine tryRange_parts (fun s j => s.2.entries j)
      (Q := fun _ o => ∀ l, o = some l → l.plain = true) (fun i j s t hij hst => ?_)
      (fun j s t hst l hl => ?_) h
    · rw [Mid.cleanStep] at hst
      split at hst
      · cases hst
        rfl
      split_ifs at hst <;> cases hst
      · exact update_of_ne hij.ne' ..
      · rfl
    · rw [Mid.cleanStep, hl] at hst
      dsimp only at hst
      split_ifs at hst with hplain <;> simpa using hplain
  intro j k pte hj hk hpte
  obtain ⟨l, hl, hpte⟩ := Option.bind_eq_some_iff.1 hpte
  exact Leaf.plain_iff.1 (hparts j hj l hl) k pte hk hpte

/-- If no page is taken for a table, no page could be. -/
theorem PMT.plain_of_clean {s t : Phys σ × PMT} (h : PMT.clean P s = .ok t) : s.2.Plain := by
  have hparts : ∀ i < userThreshold, ∀ m, s.2.entries i = some m → m.Plain := by
    refine tryRange_parts (fun s i => s.2.entries i) (Q := fun _ o => ∀ m, o = some m → m.Plain)
      (fun i j s t hij hst => ?_) (fun i s t hst m hm => ?_) h
    · rw [PMT.cleanStep] at hst
      split at hst
      · cases hst
        rfl
      split at hst
      · split_ifs at hst <;> cases hst <;> exact update_of_ne hij.ne' ..
      · cases hst
    · rw [PMT.cleanStep, hm] at hst
      dsimp only at hst
      split at hst
      next hloop => exact Mid.plain_of_clean hloop
      · cases hst
  intro n pte hn hpte
  rw [PMT.lookup_eq] at hpte
  obtain ⟨m, hm, hpte⟩ := Option.bind_eq_some_iff.1 hpte
  exact hparts n.l2 hn.l2_lt m hm n.l1 n.l0 pte hn.l1_lt hn.l0_lt hpte

/-- `PMT::clean` takes no page for a table, leaves every page mapped as it is, and frees pages of
    tables only, those of the tables which are not there any more. -/
def PMT.CleansTables (P : Pool σ ℕ) (ph : Phys σ) (pmt : PMT) : Prop :=
  ∃ ph' pmt', PMT.clean P (ph, pmt) = .ok (ph', pmt') ∧
    (∀ n : Vpn, n.User → pmt'.translate n = pmt.translate n ∧ pmt'.getFlags n = pmt.getFlags n) ∧
    pmt'.refs = pmt.refs ∧
    ∃ freed : List ℕ, ph'.log = freed.map .back ++ ph.log ∧ pmt.tables = freed + pmt'.tables

/-- This is so if and only if every page is mapped with one of `PAGE_R`, `PAGE_W`, `PAGE_X`. -/
theorem PMT.cleansTables_iff : PMT.CleansTables P ph pmt ↔ pmt.Plain := by
  refine ⟨fun ⟨_, _, h, _⟩ => PMT.plain_of_clean h, fun hplain => ?_⟩
  -- The pages which are freed are gone from the tables, one by one.
  have hclean : (PMT.clean P (ph, pmt)).Holds _ _ _ := PMT.clean_spec (M := 0) (T := 0)
    (I := fun ph' M T => M = pmt.refs ∧
      ∃ freed : List ℕ, ph'.log = freed.map .back ++ ph.log ∧ pmt.tables = freed + T)
    (fun ph' p M T ⟨hM, freed, hlog, hT⟩ => ⟨hM, p :: freed, by rw [kfreePage, hlog]; rfl, by
      rw [hT, ← cons_coe, cons_add, add_cons]⟩) hplain
    ⟨add_zero _, [], rfl, by simp⟩
  cases hr : PMT.clean P (ph, pmt) with
  | ok s =>
    rw [hr] at hclean
    obtain ⟨⟨hrefs, hfreed⟩, hlook⟩ := hclean
    rw [add_zero] at hrefs hfreed
    refine ⟨s.1, s.2, hr, fun n hn => ?_, hrefs, hfreed⟩
    rw [PMT.translate, PMT.translate, PMT.getFlags, PMT.getFlags, hlook n hn]
    exact ⟨rfl, rfl⟩
  | fail | panic => rw [hr] at hclean; exact hclean.elim

/-- The second page is mapped with `PROT_NONE`. -/
theorem PMT.clean_takes_page : ∃ s,
    PMT.mapPage ⟨0, 0, 1⟩ .counting 9 (protToPte ⟨false, false, false⟩)
      (⟨1, [], .empty, fun _ _ => 0⟩, .new 0) = .ok s ∧ ¬ PMT.CleansTables .counting s.1 s.2 := by
  refine ⟨_, rfl, fun ⟨_, _, h, _⟩ => ?_⟩
  have huser : Vpn.User ⟨0, 0, 1⟩ := ⟨by decide +kernel, by decide +kernel, by decide +kernel⟩
  have hplain := PMT.plain_of_clean h _ ⟨9, protToPte ⟨false, false, false⟩⟩ huser rfl
  simp [Pte.Plain, protToPte, Flags.none] at hplain

end HobbyOS
