import HobbyOS.Process.Sharing

/-!
# What `munmap` frees

`Mmap::unmap` cuts a range out of the regions it meets (`HobbyOS.Vm.Regions`). The pages, however,
are unmapped and freed by whole regions, before a region is cut: for a region which reaches beyond
the range, the pages beyond are gone, too, while the region stays.

The loops are followed by the pages they go through (`Freed`): each of them is unmapped, and the
physical page behind it is handed back. So `Mmap::unmap` is exact iff no page is mapped beyond the
range, in a region which the range meets (`unmap_exact_iff`).
-/

namespace HobbyOS

open List

variable {σ : Type*} {P : Pool σ ℕ} {n : Vpn} {r : MmapRegion} {ns ns' : List Vpn}

/-- The pages of a region, in the order the loops get to them. -/
def MmapRegion.vpns (r : MmapRegion) : List Vpn :=
  (List.range (pageCount r.vaStart r.vaEnd)).map (pageAt r.vaStart)

theorem MmapRegion.Ok.nodup_vpns (h : r.Ok) : r.vpns.Nodup :=
  nodup_range.map_on fun _ hi _ hj he =>
    h.pageAt_injective (mem_range.1 hi) (mem_range.1 hj) he

theorem MmapRegion.Ok.mem_vpns (h : r.Ok) : n ∈ r.vpns ↔ r.Has n := by
  rw [vpns, mem_map]
  constructor
  · rintro ⟨i, hi, rfl⟩
    exact h.pageAt_has (mem_range.1 hi)
  · intro hn
    obtain ⟨i, hi, rfl⟩ := h.exists_pageAt hn
    exact ⟨i, mem_range.2 hi, rfl⟩

/-! ## Pages freed one by one -/

/-- The physical pages which are mapped at some pages. -/
def PMT.targets (pmt : PMT) (ns : List Vpn) : List ℕ := (ns.map pmt.translate).filter (· ≠ 0)

/-- The pages are unmapped, and the physical pages handed back. -/
structure Freed (ns : List Vpn) (s s' : Phys σ × PMT) : Prop where
  lookup : ∀ n, s'.2.lookup n = if n ∈ ns then none else s.2.lookup n
  log : s'.1.log = (s.2.targets ns).reverse.map .back ++ s.1.log

variable {s s' s'' : Phys σ × PMT}

theorem Freed.nil : Freed [] s s := ⟨fun _ => (if_neg not_mem_nil).symm, rfl⟩

theorem PMT.targets_congr {pmt pmt' : PMT} (h : ∀ n ∈ ns, pmt'.lookup n = pmt.lookup n) :
    pmt'.targets ns = pmt.targets ns := by
  rw [targets, targets, map_congr_left fun n hn => ?_]
  rw [translate, translate, h n hn]

/-- Pages are freed after others. -/
theorem Freed.append (h : Freed ns s s') (h' : Freed ns' s' s'') (hd : ∀ n ∈ ns', n ∉ ns) :
    Freed (ns ++ ns') s s'' := by
  refine ⟨fun n => ?_, ?_⟩
  · rw [h'.lookup, h.lookup]
    by_cases hn' : n ∈ ns'
    · rw [if_pos hn', if_pos (mem_append_right ns hn')]
    · rw [if_neg hn']
      simp only [mem_append, hn', or_false]
  · have hsame : s'.2.targets ns' = s.2.targets ns' :=
      PMT.targets_congr fun n hn => by rw [h.lookup, if_neg (hd n hn)]
    rw [h'.log, h.log, hsame]
    simp [PMT.targets]

/-- The body of the loop of `Mmap::unmapPhysical`. -/
theorem freed_unmapPage (n : Vpn) (s : Phys σ × PMT) : Freed [n] s
    (if (s.2.unmapPage n).1 = 0 then s.1 else kfreePage P s.1 (s.2.unmapPage n).1,
      (s.2.unmapPage n).2) := by
  refine ⟨fun n' => ?_, ?_⟩
  · simp only [mem_singleton]
    exact PMT.unmapPage_lookup
  · have hpage : (s.2.unmapPage n).1 = s.2.translate n := by
      rw [PMT.unmapPage, PMT.translate]
      cases s.2.lookup n <;> rfl
    rw [hpage, PMT.targets]
    split_ifs with h0
    · simp [h0]
    · simp [h0, kfreePage]

theorem MmapRegion.Ok.unmapPhysical_freed (h : r.Ok) (s : Phys σ × PMT) :
    Freed r.vpns s (Mmap.unmapPhysical P r.vaStart r.vaEnd s) := by
  refine forRange_induct (P := fun i t => Freed ((List.range i).map (pageAt r.vaStart)) s t)
    .nil fun i t hi ht => ?_
  rw [range_succ, map_append]
  refine ht.append (freed_unmapPage _ t) fun n hn hn' => ?_
  obtain ⟨j, hj, rfl⟩ := mem_map.1 hn'
  have hj := mem_range.1 hj
  rw [map_singleton, mem_singleton] at hn
  exact absurd (h.pageAt_injective (hj.trans hi) hi hn) hj.ne

namespace Mmap

variable {addr stop length : ℕ} {rs : List MmapRegion} {m : Mmap} {t t' : Space σ}

/-- The pages of the regions which the range meets. -/
def metVpns (addr stop : ℕ) (rs : List MmapRegion) : List Vpn :=
  (rs.filter fun r => ¬ (stop ≤ r.vaStart ∨ r.vaEnd ≤ addr)).flatMap MmapRegion.vpns

theorem Laid.mem_metVpns (h : Laid rs) : n ∈ metVpns addr stop rs ↔
    ∃ r ∈ rs, ¬ r.Apart addr stop ∧ r.Has n := by
  simp only [metVpns, mem_flatMap, mem_filter, decide_eq_true_eq, and_assoc]
  refine exists_congr fun r => and_congr_right fun hr => and_congr_right fun _ => ?_
  exact (h.ok r hr).mem_vpns

/-- The loops get to a page once. -/
theorem Laid.nodup_metVpns (h : Laid rs) : (metVpns addr stop rs).Nodup := by
  refine nodup_flatMap.2 ⟨fun r hr => (h.ok r (mem_filter.1 hr).1).nodup_vpns, ?_⟩
  refine (h.apart.sublist filter_sublist).imp_of_mem fun {a b} ha hb hab n hna hnb => ?_
  have h₁ := (h.ok a (mem_filter.1 ha).1).mem_vpns.1 hna
  have h₂ := (h.ok b (mem_filter.1 hb).1).mem_vpns.1 hnb
  exact absurd (h₂.2.1.trans_lt h₁.2.2) (not_lt.2 hab)

/-- `Mmap::unmap` frees all the pages of every private region it meets. -/
theorem unmapFrom_freed (h : Laid rs) (hpriv : ∀ r ∈ rs, r.shared = false) (t : Space σ) :
    ∃ rs' t', unmapFrom P addr stop rs t = some (rs', t') ∧
      Freed (metVpns addr stop rs) (t.ph, t.pmt) (t'.ph, t'.pmt) := by
  induction rs generalizing t with
  | nil => exact ⟨[], t, rfl, .nil⟩
  | cons r rs ih =>
    have hpriv' : ∀ c ∈ rs, c.shared = false := fun c hc => hpriv c (.tail r hc)
    rw [unmapFrom]
    split
    next hstop =>
      -- The loop ends, and the range meets none of the regions which are left.
      refine ⟨_, t, rfl, ?_⟩
      have hnil : metVpns addr stop (r :: rs) = [] := by
        rw [metVpns, filter_eq_nil_iff.2 fun c hc => ?_, flatMap_nil]
        simp [h.beyond hstop c hc]
      rw [hnil]
      exact .nil
    next hstop =>
      split
      next haddr =>
        obtain ⟨rs', t', hu, hf⟩ := ih h.tail hpriv' t
        refine ⟨_, t', by rw [hu]; rfl, ?_⟩
        rwa [metVpns, filter_cons_of_neg (by simp [haddr])]
      next haddr =>
        have hok := h.ok r (.head _)
        set u := unmapPhysical P r.vaStart r.vaEnd (t.ph, t.pmt)
        have hdrop : dropRegion P r t = some { t with ph := u.1, pmt := u.2 } := by
          rw [dropRegion, hpriv r (.head _)]
        obtain ⟨rs', t', hu, hf⟩ := ih h.tail hpriv' { t with ph := u.1, pmt := u.2 }
        refine ⟨trim addr stop r ++ rs', t', ?_, ?_⟩
        · rw [hdrop, Option.bind_eq_bind, Option.bind_some, hu]
          rfl
        rw [metVpns, filter_cons_of_pos (by simp [haddr, hstop]), flatMap_cons]
        refine (hok.unmapPhysical_freed (t.ph, t.pmt)).append hf fun n hn hn' => ?_
        -- Regions are disjoint.
        obtain ⟨c, hc, -, hc'⟩ := h.tail.mem_metVpns.1 hn
        have hr := hok.mem_vpns.1 hn'
        obtain rfl := h.eq_of_has mem_cons_self (.tail r hc) hr hc'
        have hnot := Laid.notMem (show Laid ([] ++ _ :: rs) from h)
        exact absurd hc hnot

/-! ## Exactness -/

/-- The regions are private: no physical page is mapped at two pages of them. -/
structure Unshared (rs : List MmapRegion) (pmt : PMT) : Prop where
  priv : ∀ r ∈ rs, r.shared = false
  ne_zero : ∀ r ∈ rs, ∀ n pte, r.Has n → pmt.lookup n = some pte → pte.page ≠ 0
  once : ∀ r ∈ rs, ∀ c ∈ rs, ∀ n n' pte pte', r.Has n → c.Has n' → pmt.lookup n = some pte →
    pmt.lookup n' = some pte' → pte.page = pte'.page → n = n'

/-- The pages of the regions inside of the range are unmapped, and the physical page behind each of
    them is handed back once; those outside are mapped as they were. -/
def Exact (addr stop : ℕ) (rs : List MmapRegion) (t t' : Space σ) : Prop :=
  ∀ r ∈ rs, ∀ n, r.Has n → if addr ≤ n.addr ∧ n.addr < stop then
      t'.pmt.lookup n = none ∧ ∀ pte, t.pmt.lookup n = some pte →
        ∃ l, t'.ph.log = l ++ t.ph.log ∧ l.count (.back pte.page) = 1
    else t'.pmt.lookup n = t.pmt.lookup n

/-- A page in the range is in a region which the range meets. -/
theorem not_apart (hn : r.Has n) (hin : addr ≤ n.addr ∧ n.addr < stop) : ¬ r.Apart addr stop := by
  obtain ⟨-, h1, h2⟩ := hn
  rintro (h | h) <;> omega

/-- No physical page is handed back twice. -/
theorem Unshared.targets_count (h : Laid rs) (hu : Unshared rs t.pmt) {pte : Pte}
    (hn : n ∈ metVpns addr stop rs) (hpte : t.pmt.lookup n = some pte) :
    (t.pmt.targets (metVpns addr stop rs)).count pte.page = 1 := by
  obtain ⟨r, hr, -, hrn⟩ := h.mem_metVpns.1 hn
  have htrans {n : Vpn} {pte : Pte} (hpte : t.pmt.lookup n = some pte) :
      t.pmt.translate n = pte.page := by rw [PMT.translate, hpte]
  have hlook {n : Vpn} (h0 : t.pmt.translate n ≠ 0) : ∃ pte, t.pmt.lookup n = some pte := by
    cases hl : t.pmt.lookup n with
    | none => exact absurd (by rw [PMT.translate, hl]) h0
    | some pte => exact ⟨pte, rfl⟩
  rw [PMT.targets, filter_map]
  refine count_eq_one_of_mem ((h.nodup_metVpns.filter _).map_on ?_) ?_
  · intro n1 h₁ n2 h₂ he
    simp only [mem_filter, Function.comp_apply, decide_eq_true_eq] at h₁ h₂
    obtain ⟨r1, hr1, -, hn1⟩ := h.mem_metVpns.1 h₁.1
    obtain ⟨r2, hr2, -, hn2⟩ := h.mem_metVpns.1 h₂.1
    obtain ⟨pte1, hp1⟩ := hlook h₁.2
    obtain ⟨pte2, hp2⟩ := hlook h₂.2
    rw [htrans hp1, htrans hp2] at he
    exact hu.once r1 hr1 r2 hr2 n1 n2 pte1 pte2 hn1 hn2 hp1 hp2 he
  · refine mem_map.2 ⟨n, mem_filter.2 ⟨hn, ?_⟩, htrans hpte⟩
    simpa [htrans hpte] using hu.ne_zero r hr n pte hrn hpte

/-- `Mmap::unmap` is exact iff no page is mapped outside of the range in a region which the range
    meets. -/
theorem unmap_exact_iff (h : Laid m.regions) (hu : Unshared m.regions t.pmt)
    (haddr : addr % pageSize = 0) (hlen : 0 < length) (hfit : addr + pageRoundUp length < 2 ^ 64) :
    ∃ m' t', unmap P addr length m t = some (0, m', t') ∧
      (Exact addr (addr + pageRoundUp length) m.regions t t' ↔
        ∀ r ∈ m.regions, ¬ r.Apart addr (addr + pageRoundUp length) → ∀ n, r.Has n →
          ¬ (addr ≤ n.addr ∧ n.addr < addr + pageRoundUp length) → t.pmt.lookup n = none) := by
  obtain ⟨rs', t', hun, hf⟩ : ∃ rs' t', unmapFrom P addr (addr + pageRoundUp length) m.regions t =
      some (rs', t') ∧ Freed (metVpns addr (addr + pageRoundUp length) m.regions) (t.ph, t.pmt)
        (t'.ph, t'.pmt) := unmapFrom_freed h hu.priv t
  refine ⟨{ m with regions := rs' }, t', ?_, fun hex r hr hmet n hn hout => ?_, fun hcond r hr n hn => ?_⟩
  · rw [unmap, if_neg hlen.ne', if_neg (by simp [haddr]), Nat.mod_eq_of_lt hfit, hun]
    rfl
  · have := hex r hr n hn
    rw [if_neg hout, hf.lookup n, if_pos (h.mem_metVpns.2 ⟨r, hr, hmet, hn⟩)] at this
    exact this.symm
  split
  next hin =>
    have hmem := h.mem_metVpns.2 ⟨r, hr, not_apart hn hin, hn⟩
    refine ⟨by rw [hf.lookup n, if_pos hmem], fun pte hpte => ⟨_, hf.log, ?_⟩⟩
    rw [count_map_of_injective _ _ (fun _ _ => Transfer.back.inj), count_reverse]
    exact hu.targets_count h hmem hpte
  next hout =>
    by_cases hmet : r.Apart addr (addr + pageRoundUp length)
    · rw [hf.lookup n, if_neg fun hmem => ?_]
      obtain ⟨c, hc, hmet', hn'⟩ := h.mem_metVpns.1 hmem
      exact hmet' (h.eq_of_has hr hc hn hn' ▸ hmet)
    · rw [hf.lookup n, hcond r hr hmet n hn hout]
      split <;> rfl

/-- Two pages are mapped. -/
def pair : Mmap × Space ℕ :=
  ((Mmap.new.map .counting ⟨mmapBase, 2 * pageSize, .readWrite, ⟨false, true, true, true⟩, -1, none⟩
    Regions.blank).map Prod.snd).getD (.new, Regions.blank)

theorem pair_regions :
    pair.1.regions = [⟨mmapBase, mmapBase + 2 * pageSize, .readWrite, false, none⟩] := by
  decide +kernel

theorem pair_laid : Laid pair.1.regions := by
  rw [pair_regions]
  refine ⟨fun r hr => ?_, pairwise_singleton ..⟩
  obtain rfl := mem_singleton.1 hr
  exact ⟨by decide, by decide, by decide, by decide, by decide⟩

/-- The pages of the region, and what is mapped there. -/
theorem pair_lookup (hr : r ∈ pair.1.regions) (hn : r.Has n) :
    (n = vpn mmapBase ∧ (pair.2.pmt.lookup n).map Pte.page = some 1) ∨
      (n = vpn (mmapBase + pageSize) ∧ (pair.2.pmt.lookup n).map Pte.page = some 4) := by
  rw [← (pair_laid.ok r hr).mem_vpns] at hn
  rw [pair_regions] at hr
  obtain rfl := mem_singleton.1 hr
  have hvpns : MmapRegion.vpns ⟨mmapBase, mmapBase + 2 * pageSize, .readWrite, false, none⟩ =
      [vpn mmapBase, vpn (mmapBase + pageSize)] := by decide
  rw [hvpns, mem_cons, mem_singleton] at hn
  rcases hn with rfl | rfl
  · exact .inl ⟨rfl, by decide +kernel⟩
  · exact .inr ⟨rfl, by decide +kernel⟩

theorem pair_unshared : Unshared pair.1.regions pair.2.pmt where
  priv r hr := by
    rw [pair_regions] at hr
    rw [mem_singleton.1 hr]
  ne_zero r hr n pte hn hpte := by
    rcases pair_lookup hr hn with ⟨-, h⟩ | ⟨-, h⟩ <;>
    · rw [hpte, Option.map_some, Option.some.injEq] at h
      rw [h]
      decide
  once r hr c hc n n' pte pte' hn hn' hpte hpte' he := by
    have hpage := congrArg (Option.map Pte.page) hpte
    have hpage' := congrArg (Option.map Pte.page) hpte'
    rw [Option.map_some] at hpage hpage'
    rw [← he] at hpage'
    rcases pair_lookup hr hn with ⟨hn, h⟩ | ⟨hn, h⟩ <;>
    rcases pair_lookup hc hn' with ⟨hn', h'⟩ | ⟨hn', h'⟩
    · rw [hn, hn']
    · exact absurd ((h.symm.trans hpage).trans (hpage'.symm.trans h')) (by decide)
    · exact absurd ((h.symm.trans hpage).trans (hpage'.symm.trans h')) (by decide)
    · rw [hn, hn']

/-- Both pages are unmapped. -/
theorem unmap_exact_iff_pair : ∃ m' t',
    unmap .counting mmapBase (2 * pageSize) pair.1 pair.2 = some (0, m', t') ∧
      Exact mmapBase (mmapBase + pageRoundUp (2 * pageSize)) pair.1.regions pair.2 t' := by
  obtain ⟨m', t', hu, hex⟩ : ∃ m' t',
      unmap .counting mmapBase (2 * pageSize) pair.1 pair.2 = some (0, m', t') ∧ (_ ↔ _) :=
    unmap_exact_iff pair_laid pair_unshared (by decide) (by decide) (by decide)
  refine ⟨m', t', hu, hex.2 fun r hr _ n hn hout => absurd ?_ hout⟩
  rcases pair_lookup hr hn with ⟨rfl, -⟩ | ⟨rfl, -⟩ <;> decide

/-- The first page is unmapped, and the second one with it, while its region stays. -/
theorem unmap_first : ∃ m' t', unmap .counting mmapBase pageSize pair.1 pair.2 = some (0, m', t') ∧
      Covers m'.regions (mmapBase + pageSize) ∧ .back 4 ∈ t'.ph.log ∧
      t'.pmt.lookup (vpn (mmapBase + pageSize)) = none ∧
      ¬ Exact mmapBase (mmapBase + pageRoundUp pageSize) pair.1.regions pair.2 t' := by
  obtain ⟨m', t', hu, hcov, hlog, hnone⟩ : ∃ m' t',
      unmap .counting mmapBase pageSize pair.1 pair.2 = some (0, m', t') ∧
      (∃ r ∈ m'.regions, r.vaStart ≤ mmapBase + pageSize ∧ mmapBase + pageSize < r.vaEnd) ∧
      .back 4 ∈ t'.ph.log ∧ t'.pmt.lookup (vpn (mmapBase + pageSize)) = none := by
    decide +kernel
  refine ⟨m', t', hu, hcov, hlog, hnone, fun hex => ?_⟩
  have hhas : MmapRegion.Has ⟨mmapBase, mmapBase + 2 * pageSize, .readWrite, false, none⟩
      (vpn (mmapBase + pageSize)) := ⟨vpn_user (by decide), by decide, by decide⟩
  have := hex _ (by rw [pair_regions]; exact mem_singleton_self _) _ hhas
  rw [if_neg (by decide), hnone] at this
  have hsome : (pair.2.pmt.lookup (vpn (mmapBase + pageSize))).isSome := by decide +kernel
  rw [← this] at hsome
  cases hsome

end Mmap

end HobbyOS
