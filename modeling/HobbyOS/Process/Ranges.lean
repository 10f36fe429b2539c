import HobbyOS.Process.Pages
import HobbyOS.Vm.Entries
import HobbyOS.Vm.Regions

/-!
# The pages of a region

The loops of `Mmap` over the pages of a region, and what becomes of the entries and of the pages
(`HobbyOS.Vm.Owned`):

* `unmapPhysical` frees pages which are mapped nowhere else, `unmapPhysicalShared` leaves
  them to those who map them, too;
* `mapPages` maps fresh pages, unless the allocator refuses;
* `cloneShared` maps the pages of the parent. It does not look at what `PMT::mapPage` returns, but
  gets through the region in any case.
-/

namespace HobbyOS

open Function Multiset Nat

variable {σ : Type*} {P : Pool σ ℕ} {live : σ → Set ℕ → Prop} {A0 S A D : Set ℕ}
  {l₀ : List (Transfer ℕ)} {ph : Phys σ} {pmt pmt' src : PMT} {M T : Multiset ℕ} {n : Vpn}
  {r : MmapRegion} {flags : Flags} {a b i pages page : ℕ} {pte : Pte}

/-! ## Addresses -/

theorem Vpn.User.vpn_addr (h : n.User) : vpn n.addr = n := by
  obtain ⟨l2, l1, l0⟩ := n
  obtain ⟨h2, h1, h0⟩ := h
  unfold userThreshold at h2
  unfold pmtSize at h1 h0
  simp only [vpn, Vpn.addr, Vpn.mk.injEq] at *
  omega

theorem pageCount_pageRoundUp (va length : ℕ) :
    pageRoundUp length / pageSize = pageCount va (va + pageRoundUp length) := by
  rw [pageCount, Nat.add_sub_cancel_left, pageRoundUp, Nat.mul_div_cancel _ (by decide)]
  simp only [pageSize]
  omega

/-- The page is one of the region. -/
def MmapRegion.Has (r : MmapRegion) (n : Vpn) : Prop :=
  n.User ∧ r.vaStart ≤ n.addr ∧ n.addr < r.vaEnd

namespace MmapRegion.Ok

section

variable (h : r.Ok) (hi : i < pageCount r.vaStart r.vaEnd)

include h hi

theorem pageAt_lt : r.vaStart + i * pageSize < r.vaEnd := by
  obtain ⟨h₁, h₂, h3, -, -⟩ := h
  simp only [pageCount, pageSize] at *
  omega

theorem pageAt_addr : (pageAt r.vaStart i).addr = r.vaStart + i * pageSize := by
  have hlt := h.pageAt_lt hi
  have htop := h.le_top
  refine HobbyOS.vpn_addr ?_ ?_
  · simp only [mmapTop] at htop
    omega
  · rw [add_mul_mod_self_right]
    exact h.start_aligned

theorem pageAt_has : r.Has (pageAt r.vaStart i) := by
  have hlt := h.pageAt_lt hi
  refine ⟨vpn_user (hlt.trans_le (h.le_top.trans (by decide))), ?_, ?_⟩
  · rw [h.pageAt_addr hi]
    exact Nat.le_add_right ..
  · rwa [h.pageAt_addr hi]

omit h hi in
/-- The loops over the region get to all of its pages. -/
theorem exists_pageAt (h : r.Ok) (hn : r.Has n) :
    ∃ i < pageCount r.vaStart r.vaEnd, n = pageAt r.vaStart i := by
  obtain ⟨huser, hle, hlt⟩ := hn
  obtain ⟨h₁, h₂, -, -, -⟩ := h
  have hmod : n.addr % pageSize = 0 := by
    simp only [Vpn.addr, pageSize]
    omega
  refine ⟨(n.addr - r.vaStart) / pageSize, ?_, ?_⟩
  · simp only [pageCount, pageSize] at *
    omega
  · have haddr : r.vaStart + (n.addr - r.vaStart) / pageSize * pageSize = n.addr := by
      simp only [pageSize] at *
      omega
    rw [pageAt, haddr, huser.vpn_addr]

theorem pageAt_injective {j : ℕ} (hj : j < pageCount r.vaStart r.vaEnd)
    (he : pageAt r.vaStart i = pageAt r.vaStart j) : i = j := by
  have haddr := congrArg Vpn.addr he
  rw [h.pageAt_addr hi, h.pageAt_addr hj] at haddr
  simp only [pageSize] at haddr
  omega

end

/-- `Mmap::clone` computes the number of pages in another way. -/
theorem div_eq_pageCount (h : r.Ok) :
    (r.vaEnd - r.vaStart) / pageSize = pageCount r.vaStart r.vaEnd := by
  obtain ⟨h₁, h₂, h3, -, -⟩ := h
  simp only [pageCount, pageSize] at *
  omega

variable (h : r.Ok) (hc : Cleared (pageAt r.vaStart) (pageCount r.vaStart r.vaEnd) pmt pmt')

include h hc

theorem cleared_has (hn : r.Has n) : pmt'.lookup n = none := by
  obtain ⟨i, hi, rfl⟩ := h.exists_pageAt hn
  exact hc.inside i hi

theorem cleared_not_has (hn : ¬ r.Has n) : pmt'.lookup n = pmt.lookup n := by
  refine hc.outside n fun i hi he => hn ?_
  rw [he]
  exact h.pageAt_has hi

end MmapRegion.Ok

/-- The region is mapped, to the page `f n` at every page `n` of it, and was not before. -/
structure Extended (r : MmapRegion) (f : Vpn → ℕ) (flags : Flags) (pmt pmt' : PMT) : Prop where
  free : ∀ {n}, r.Has n → pmt.lookup n = none
  inside : ∀ {n}, r.Has n → pmt'.lookup n = some ⟨f n, flags⟩
  outside : ∀ {n}, ¬ r.Has n → pmt'.lookup n = pmt.lookup n

theorem MmapRegion.Ok.extended {Q : ℕ → ℕ → Prop} {f : Vpn → ℕ} (h : r.Ok)
    (hf : Filled Q flags (pageAt r.vaStart) (pageCount r.vaStart r.vaEnd) pmt pmt')
    (hpage : ∀ i < pageCount r.vaStart r.vaEnd, ∀ pte, pmt'.lookup (pageAt r.vaStart i) = some pte →
      pte.page = f (pageAt r.vaStart i)) : Extended r f flags pmt pmt' := by
  refine ⟨fun hn => ?_, fun hn => ?_, fun hn => ?_⟩
  · obtain ⟨i, hi, rfl⟩ := h.exists_pageAt hn
    exact (hf.inside i hi).1
  · obtain ⟨i, hi, rfl⟩ := h.exists_pageAt hn
    obtain ⟨-, page, -, hl⟩ := hf.inside i hi
    rw [hl, ← hpage i hi _ hl]
  · exact hf.outside _ fun i hi he => hn (he ▸ h.pageAt_has hi)

/-! ## Unmapping -/

/-- The page is mapped at `n` only. -/
def PMT.Alone (pmt : PMT) (M : Multiset ℕ) (n : Vpn) (page : ℕ) : Prop :=
  page ∉ M ∧ ∀ n' pte', n' ≠ n → n'.User → pmt.lookup n' = some pte' → pte'.page ≠ page

theorem PMT.Alone.count_le (h : pmt.Alone M n pte.page) (hn : n.User)
    (hpte : pmt.lookup n = some pte) : (pmt.refs + M).count pte.page ≤ 1 := by
  have hslot := (PMT.lookup_eq_some.1 hpte).1
  have hrest : pte.page ∉ (pmt.setSlot n .zero).refs := by
    intro hm
    obtain ⟨n', pte', hn', hl, he⟩ := PMT.exists_lookup hm
    rw [PMT.lookup_setSlot_zero hslot] at hl
    split_ifs at hl with hne
    exact h.2 n' pte' hne hn' hl he
  rw [PMT.refs_of_lookup hpte hn, Multiset.count_add, count_cons_self,
    count_eq_zero.2 hrest, count_eq_zero.2 h.1]

theorem PMT.unmapPage_refs_le (pmt : PMT) (hn : n.User) :
    (pmt.unmapPage n).2.refs ≤ pmt.refs ∧ (pmt.unmapPage n).2.tables = pmt.tables := by
  rw [PMT.unmapPage]
  cases hl : pmt.lookup n with
  | none => exact ⟨le_rfl, rfl⟩
  | some pte =>
    refine ⟨?_, PMT.tables_setSlot hn⟩
    rw [PMT.refs_of_lookup hl hn]
    exact le_cons_self _ _

/-- The pages before the round `i` are unmapped, and what is left is owned. -/
structure Unmapped (live : σ → Set ℕ → Prop) (A0 S : Set ℕ) (l₀ : List (Transfer ℕ)) (e : Prop)
    (pmt : PMT) (M T : Multiset ℕ) (f : ℕ → Vpn) (i : ℕ) (t : Phys σ × PMT) : Prop where
  owns : Owns live A0 S l₀ e t.1 (t.2.refs + M) (t.2.tables + T)
  refs_le : t.2.refs ≤ pmt.refs
  cleared : Cleared f i pmt t.2

section

variable {e : Prop} {f : ℕ → Vpn} {t : Phys σ × PMT}
  (h : Unmapped live A0 S l₀ e pmt M T f i t)

include h

theorem Unmapped.lookup (hpte : t.2.lookup n = some pte) : pmt.lookup n = some pte := by
  rcases h.cleared.cases n with he | he
  · rwa [← he]
  · rw [he] at hpte
    cases hpte

/-- A page which is mapped once is unmapped, and handed back. -/
theorem Unmapped.free (hP : P.Lawful live) (h0 : ∀ s A, live s A → 0 ∉ A) (hn : (f i).User)
    (hlook : t.2.lookup (f i) = some pte) (hc : (pmt.refs + M).count pte.page ≤ 1) :
    pte.page ≠ 0 ∧ Unmapped live A0 S l₀ e pmt M T f (i + 1)
      (kfreePage P t.1 pte.page, t.2.setSlot (f i) .zero) := by
  obtain ⟨⟨A, D, hown⟩, hle, hcl⟩ := h
  have hunmap : (t.2.unmapPage (f i)).2 = t.2.setSlot (f i) .zero := by rw [PMT.unmapPage, hlook]
  refine ⟨fun he => ?_, unmapFree_owned hown hP hn hlook ?_, ?_, hcl.succ fun n' => ?_⟩
  · exact h0 _ _ hown.live (hown.data 0 (mem_add.2 (.inl (he ▸ PMT.mem_refs hlook hn))))
  · exact (count_le_of_le _ (add_le_add_left hle _)).trans hc
  · rw [← hunmap]
    exact (PMT.unmapPage_refs_le t.2 hn).1.trans hle
  · rw [← hunmap]
    exact PMT.unmapPage_lookup

end

section

variable (h : Owned live A0 S l₀ False ph A D (pmt.refs + M) (pmt.tables + T))
  (hn : ∀ i < pageCount a b, (pageAt a i).User)

include h hn

/-- The pages are mapped by others, too, or lost. -/
theorem unmapPhysicalShared_owned : Unmapped live A0 S l₀ False pmt M T (pageAt a) (pageCount a b)
      (Mmap.unmapPhysicalShared a b (ph, pmt)) ∧
      (Mmap.unmapPhysicalShared a b (ph, pmt)).1 = ph := by
  refine forRange_induct (P := fun i t => Unmapped live A0 S l₀ False pmt M T (pageAt a) i t ∧ t.1 = ph)
    ⟨⟨h.owns, le_rfl, cleared_zero⟩, rfl⟩ fun i t hi ⟨⟨⟨A, D, hown⟩, hle, hc⟩, hph⟩ => ?_
  obtain ⟨hle', htables⟩ := PMT.unmapPage_refs_le t.2 (hn i hi)
  refine ⟨⟨?_, hle'.trans hle, hc.succ fun n' => PMT.unmapPage_lookup⟩, hph⟩
  rw [htables]
  exact (hown.weaken (add_le_add_left hle' _) le_rfl).owns

/-- The pages before the round `i` are handed back. -/
def HandedBack (ph : Phys σ) (pmt : PMT) (f : ℕ → Vpn) (i : ℕ) (t : Phys σ × PMT) : Prop :=
  ∃ l, t.1.log = l ++ ph.log ∧ ∀ j < i, ∀ pte, pmt.lookup (f j) = some pte → .back pte.page ∈ l

/-- Pages which are mapped nowhere else are handed back. -/
theorem unmapPhysical_owned (hP : P.Lawful live) (h0 : ∀ s A, live s A → 0 ∉ A)
    (halone : ∀ i < pageCount a b, ∀ pte, pmt.lookup (pageAt a i) = some pte →
      pmt.Alone M (pageAt a i) pte.page) :
    Unmapped live A0 S l₀ False pmt M T (pageAt a) (pageCount a b)
      (Mmap.unmapPhysical P a b (ph, pmt)) ∧
      HandedBack ph pmt (pageAt a) (pageCount a b) (Mmap.unmapPhysical P a b (ph, pmt)) := by
  refine forRange_induct (P := fun i t => Unmapped live A0 S l₀ False pmt M T (pageAt a) i t ∧
      HandedBack ph pmt (pageAt a) i t)
    ⟨⟨h.owns, le_rfl, cleared_zero⟩, [], rfl, by simp⟩ fun i t hi ⟨hun, l, hl, hback⟩ => ?_
  cases hlook : t.2.lookup (pageAt a i) with
  | none =>
    have hc : Cleared (pageAt a) (i + 1) pmt (t.2.unmapPage (pageAt a i)).2 :=
      hun.cleared.succ fun n' => PMT.unmapPage_lookup
    simp only [PMT.unmapPage, hlook] at hc ⊢
    refine ⟨⟨hun.owns, hun.refs_le, hc⟩, l, hl, fun j hj pte hpte => ?_⟩
    rcases Nat.lt_succ_iff_lt_or_eq.1 hj with hj | rfl
    · exact hback j hj pte hpte
    -- The page was unmapped in a round before.
    by_cases hex : ∃ j' < j, pageAt a j = pageAt a j'
    · obtain ⟨j', hj', he⟩ := hex
      exact hback j' hj' pte (he ▸ hpte)
    · push Not at hex
      rw [hun.cleared.outside _ hex, hpte] at hlook
      cases hlook
  | some pte =>
    have hpte := hun.lookup hlook
    obtain ⟨hne, hfree⟩ := hun.free hP h0 (hn i hi) hlook
      ((halone i hi pte hpte).count_le (hn i hi) hpte)
    simp only [PMT.unmapPage, hlook, if_neg hne]
    refine ⟨hfree, .back pte.page :: l, by rw [kfreePage, hl]; rfl, fun j hj pte' hpte' => ?_⟩
    rcases Nat.lt_succ_iff_lt_or_eq.1 hj with hj | rfl
    · exact List.mem_cons_of_mem _ (hback j hj pte' hpte')
    · rw [hpte] at hpte'
      cases hpte'
      exact (.head _)

end

/-! ## Mapping -/

theorem rollback_refused (h : .refused ∈ ph.log) (pmt : PMT) (a i : ℕ) :
    .refused ∈ (Mmap.rollback P a i (ph, pmt)).1.log := by
  refine forRange_induct (s := (ph, pmt)) (P := fun _ t => .refused ∈ t.1.log) h
    fun j t _ ht => ?_
  dsimp only
  split_ifs
  · exact ht
  · exact List.mem_cons_of_mem _ ht

/-- The pages before the round `i` are mapped to fresh pages. -/
structure Mapped (live : σ → Set ℕ → Prop) (A0 S : Set ℕ) (l₀ : List (Transfer ℕ)) (flags : Flags)
    (pmt : PMT) (M T : Multiset ℕ) (f : ℕ → Vpn) (i : ℕ) (t : Phys σ × PMT) : Prop where
  owned : ∃ A, Owned live A0 S l₀ False t.1 A ∅ (t.2.refs + M) (t.2.tables + T)
  filled : Filled (fun _ _ => True) flags f i pmt t.2
  alone : ∀ j < i, ∀ pte, t.2.lookup (f j) = some pte → t.2.Alone M (f j) pte.page

theorem mapPages_owned (flags : Flags) (hP : P.Lawful live)
    (h : Owned live A0 S l₀ False ph A ∅ (pmt.refs + M) (pmt.tables + T)) (hv : flags.v)
    (hn : ∀ i < pages, (pageAt a i).User) : (Mmap.mapPages P a pages flags (ph, pmt)).Holds
      (Mapped live A0 S l₀ flags pmt M T (pageAt a) pages) (fun t => .refused ∈ t.1.log) True := by
  refine tryRange_induct ⟨⟨A, h⟩, filled_zero, by simp⟩ fun i t hi ⟨⟨A, hown⟩, hfilled, halone⟩ => ?_
  rw [Mmap.mapPagesStep]
  split
  next ph' hp => exact rollback_refused (Owned.refused_mem hp) _ _ _
  next p ph' hp =>
    dsimp only
    cases hlook : t.2.lookup (pageAt a i) with
    | some pte =>
      rw [mapPage_of_lookup hlook]
      trivial
    | none =>
      obtain ⟨hpA, hown'⟩ := hown.takeData hP hp
      have hfresh : p ∉ t.2.refs + M := fun hm => hpA (hown.data p hm)
      have hmap := mapPage_spec flags (hown'.setMem (update ph'.mem p fun _ => 0)) hP (hn i hi)
        hv hlook
      cases hr : PMT.mapPage (pageAt a i) P p flags
          ({ ph' with mem := update ph'.mem p fun _ => 0 }, t.2) with
      | panic => trivial
      | fail u =>
        rw [hr] at hmap
        exact rollback_refused (.tail _ hmap.2.2.2) _ _ _
      | ok u =>
        rw [hr] at hmap
        obtain ⟨hA, hl, -⟩ := hmap
        refine ⟨hA, hfilled.succ trivial hlook hl, fun j hj pte hpte => ?_⟩
        rw [hl] at hpte
        split_ifs at hpte with he
        · -- The page is fresh.
          cases hpte
          rw [he]
          refine ⟨fun hm => hfresh (mem_add.2 (.inr hm)), fun n' pte' hne hn' hpte' => ?_⟩
          rw [hl, if_neg hne] at hpte'
          rintro rfl
          exact hfresh (mem_add.2 (.inl (PMT.mem_refs hpte' hn')))
        have hj' : j < i := by
          rcases Nat.lt_succ_iff_lt_or_eq.1 hj with hj | rfl
          · exact hj
          · exact absurd rfl he
        obtain ⟨h₁, h₂⟩ := halone j hj' pte hpte
        refine ⟨h₁, fun n' pte' hne hn' hpte' => ?_⟩
        rw [hl] at hpte'
        split_ifs at hpte'
        · cases hpte'
          rintro rfl
          exact hfresh (mem_add.2 (.inl (PMT.mem_refs hpte (hn j (hj'.trans hi)))))
        · exact h₂ n' pte' hne hn' hpte'

theorem Mapped.setMem {f : ℕ → Vpn} (h : Mapped live A0 S l₀ flags pmt M T f i (ph, pmt'))
    (mem : ℕ → ℕ → UInt8) : Mapped live A0 S l₀ flags pmt M T f i ({ ph with mem := mem }, pmt') := by
  obtain ⟨A, hown⟩ := h.owned
  exact ⟨⟨A, hown.setMem mem⟩, h.filled, h.alone⟩

/-- Reading from a file changes nothing but the contents of pages. -/
theorem fillFromFile_mem (file : Option (ℕ → ℕ → Option (List UInt8))) (pmt : PMT)
    (a pages fileLen : ℕ) (ph : Phys σ) : (Mmap.fillFromFile file pmt a pages fileLen ph).Holds
      (fun t => ∃ mem, t.1 = { ph with mem := mem }) (fun t => ∃ mem, t.1 = { ph with mem := mem })
      False := by
  cases file with
  | none => exact ⟨ph.mem, rfl⟩
  | some file =>
    refine tryRange_induct (P := fun _ (t : Phys σ × ℕ) => ∃ mem, t.1 = { ph with mem := mem })
      ⟨ph.mem, rfl⟩ fun i t _ ⟨mem, ht⟩ => ?_
    rw [Mmap.fillStep]
    dsimp only
    split_ifs
    · exact ⟨mem, ht⟩
    · exact ⟨mem, ht⟩
    · split
      · exact ⟨mem, ht⟩
      · exact ⟨_, by rw [ht]⟩

/-! ## Forks -/

/-- Walking to a page: the ledger goes on, and says so if there was no page. -/
theorem PMT.walk_log (n : Vpn) (s : Phys σ × PMT) : (walk n P s).Holds
    (fun t => .refused ∈ s.1.log → .refused ∈ t.1.log) (fun t => .refused ∈ t.1.log) False := by
  refine (walk_induct (I := fun t => .refused ∈ s.1.log → .refused ∈ t.1.log) id
    (fun _ _ _ _ hp => Owned.refused_mem hp) fun t u ht hadd => ?_).imp (fun _ ht => ht.1) fun _ ht => ht
  obtain ⟨page, hp⟩ := hadd.take
  obtain ⟨_, -, hu⟩ := Owned.kallocPage_some hp
  rw [hu]
  exact fun hr => List.mem_cons_of_mem _ (ht hr)

/-- Mapping a page where there is none, whatever the state of the memory. -/
theorem mapPage_free {s : Phys σ × PMT} (hv : flags.v) (hnone : s.2.lookup n = none) :
    (PMT.mapPage n P page flags s).Holds
      (fun t => (∀ n', n' ≠ n → t.2.lookup n' = s.2.lookup n') ∧
        (.refused ∈ s.1.log → .refused ∈ t.1.log))
      (fun t => (∀ n', t.2.lookup n' = s.2.lookup n') ∧ .refused ∈ t.1.log) False := by
  have hwalk := (PMT.walk_lookup (P := P) n s).and (PMT.walk_log (P := P) n s)
  rw [and_self] at hwalk
  refine (hwalk.imp (fun t ht => ht) fun t ht => ht).andThen fun t ⟨⟨hl, pte, hpte⟩, hlog⟩ => ?_
  rw [if_neg (by rw [hl, hnone]; simp)]
  refine ⟨fun n' hne => ?_, hlog⟩
  rw [PMT.lookup_setSlot hpte hv, if_neg hne, hl]

/-- The loop of `Mmap::clone` gets through a shared region which the child does not map yet. -/
theorem cloneShared_total (hr : r.Ok) (src : PMT) (hfree : ∀ n, r.Has n → pmt.lookup n = none)
    (ph : Phys σ) : ∃ t, Mmap.cloneShared P src r (ph, pmt) = .ok t ∧
      (∀ n, ¬ r.Has n → t.2.lookup n = pmt.lookup n) ∧ (.refused ∈ ph.log → .refused ∈ t.1.log) := by
  have hloop : (Mmap.cloneShared P src r (ph, pmt)).Holds
      (fun t => (∀ n, (∀ j < pageCount r.vaStart r.vaEnd, n ≠ pageAt r.vaStart j) →
        t.2.lookup n = pmt.lookup n) ∧ (.refused ∈ ph.log → .refused ∈ t.1.log))
      (fun _ => False) False := by
    rw [Mmap.cloneShared, hr.div_eq_pageCount]
    refine tryRange_induct (P := fun i (t : Phys σ × PMT) =>
      (∀ n, (∀ j < i, n ≠ pageAt r.vaStart j) → t.2.lookup n = pmt.lookup n) ∧
        (.refused ∈ ph.log → .refused ∈ t.1.log)) ⟨fun _ _ => rfl, id⟩ fun i t hi ⟨hl, hlog⟩ => ?_
    dsimp only
    split_ifs
    · exact ⟨fun n hn => hl n fun j hj => hn j (lt_succ_of_lt hj), hlog⟩
    have hnone : t.2.lookup (pageAt r.vaStart i) = none := by
      rw [hl _ fun j hj he => hj.ne' (hr.pageAt_injective hi (hj.trans hi) he)]
      exact hfree _ (hr.pageAt_has hi)
    refine Outcome.Holds.ignore ((mapPage_free rfl hnone).imp (fun u hu => ?_) fun u hu => ?_)
    · refine ⟨fun n hn => ?_, fun href => hu.2 (hlog href)⟩
      rw [hu.1 n (hn i (lt_succ_self i))]
      exact hl n fun j hj => hn j (lt_succ_of_lt hj)
    · refine ⟨fun n hn => ?_, fun _ => hu.2⟩
      rw [hu.1 n]
      exact hl n fun j hj => hn j (lt_succ_of_lt hj)
  cases hres : Mmap.cloneShared P src r (ph, pmt) with
  | panic | fail =>
    rw [hres] at hloop
    exact hloop.elim
  | ok t =>
    rw [hres] at hloop
    refine ⟨t, rfl, fun n hn => hloop.1 n fun j hj he => hn ?_, hloop.2⟩
    rw [he]
    exact hr.pageAt_has hj

/-- The pages before the round `i` are mapped as in the table `src`. -/
structure Cloned (live : σ → Set ℕ → Prop) (A0 S : Set ℕ) (l₀ : List (Transfer ℕ)) (src : PMT)
    (flags : Flags) (pmt : PMT) (M T : Multiset ℕ) (f : ℕ → Vpn) (i : ℕ) (t : Phys σ × PMT) :
    Prop where
  owns : Owns live A0 S l₀ False t.1 (t.2.refs + M) (t.2.tables + T)
  filled : Filled (fun _ _ => True) flags f i pmt t.2
  same : ∀ j < i, ∀ pte, t.2.lookup (f j) = some pte → pte.page = src.translate (f j)

/-- The child gets the pages of its parent, unless the allocator refuses. -/
theorem cloneShared_owned (hP : P.Lawful live) (h0 : ∀ s A, live s A → 0 ∉ A) (hr : r.Ok)
    (h : Owned live A0 S l₀ False ph A D (pmt.refs + M) (pmt.tables + T))
    (hsrc : ∀ n, r.Has n → ∃ pte, src.lookup n = some pte ∧ pte.page ∈ M ∧ pte.page ∈ S)
    (hfree : ∀ n, r.Has n → pmt.lookup n = none) :
    (Mmap.cloneShared P src r (ph, pmt)).Holds (fun t => .refused ∈ t.1.log ∨
      Cloned live A0 S l₀ src (protToPte r.prot) pmt M T (pageAt r.vaStart)
        (pageCount r.vaStart r.vaEnd) t) (fun _ => True) True := by
  rw [Mmap.cloneShared, hr.div_eq_pageCount]
  refine tryRange_induct (s := (ph, pmt)) (P := fun i t => .refused ∈ t.1.log ∨
    Cloned live A0 S l₀ src (protToPte r.prot) pmt M T (pageAt r.vaStart) i t)
    (.inr ⟨h.owns, filled_zero, by simp⟩) fun i t hi ht => ?_
  obtain ⟨pte, hpte, hM, hS⟩ := hsrc _ (hr.pageAt_has hi)
  have htr : src.translate (pageAt r.vaStart i) = pte.page := by rw [PMT.translate, hpte]
  dsimp only
  rw [htr]
  split_ifs with hzero
  · -- No page is the page `0`.
    exact absurd (hzero ▸ h.data _ (mem_add.2 (.inr hM))) (h0 _ _ h.live)
  rcases ht with hrefused | ⟨⟨A, D, hown⟩, hfilled, hsame⟩
  · cases hlook : t.2.lookup (pageAt r.vaStart i) with
    | some pte =>
      rw [mapPage_of_lookup hlook]
      trivial
    | none =>
      exact ((mapPage_free rfl hlook).imp (fun u hu => .inl (hu.2 hrefused))
        fun u hu => .inl hu.2).ignore.mono_panic False.elim
  have hnone : t.2.lookup (pageAt r.vaStart i) = none := by
    rw [hfilled.outside _ fun j hj he => hj.ne' (hr.pageAt_injective hi (hj.trans hi) he)]
    exact hfree _ (hr.pageAt_has hi)
  have hown' := hown.mapShared (mem_add.2 (.inr hM)) hS
  refine ((mapPage_spec (protToPte r.prot) hown' hP (hr.pageAt_has hi).1 rfl hnone).imp
    (fun u hu => ?_) fun u hu => .inl hu.2.2.2).ignore.mono_panic False.elim
  obtain ⟨⟨A', hA'⟩, hl, -⟩ := hu
  refine .inr ⟨hA'.owns, hfilled.succ trivial hnone hl, fun j hj pte' hpte' => ?_⟩
  rw [hl] at hpte'
  split_ifs at hpte' with he
  · cases hpte'
    rw [he, htr]
  · rcases Nat.lt_succ_iff_lt_or_eq.1 hj with hj | rfl
    · exact hsame j hj pte' hpte'
    · exact absurd rfl he

end HobbyOS
