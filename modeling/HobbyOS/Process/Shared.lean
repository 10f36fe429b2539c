import HobbyOS.Process.Sharing

/-!
# The lifetime of shared regions

What the events do to shared regions (`HobbyOS.Process.Sharing`), and that the pages of a shared
region are handed back with the last process which holds it.

This is so as long as

* `munmap`, and `mmap` with `MAP_FIXED`, remove whole regions: what is left of one which is cut has
  an `MmapSharedRef` which is deleted, or not counted;
* `exec` is called by processes without regions: it gives up the pages of the process as if
  they were counted by `PageRefCount`, and leaves the regions;
* the allocator does not refuse: `Mmap::clone` goes on with a page missing.
-/

namespace HobbyOS

open Finset Function List Mmap Nat Option

namespace Sys

variable {σ : Type*} {P : Pool σ ℕ} {live : σ → Set ℕ → Prop} {A0 : Set ℕ}
  {l0 l1 : List (Transfer ℕ)} {s s' : Sys σ} {pid child q hint addr stop va ref : ℕ} {m m' : Mmap}
  {r : MmapRegion} {rs done : List MmapRegion} {n : Vpn} {pte : Pte} {t u : Space σ} {o : Out}
  {ev : Event}

/-! ## Pages outside of the regions -/

theorem holds_congr (hpids : s'.pids = s.pids) (hmmap : ∀ q, (s'.proc q).mmap = (s.proc q).mmap) :
    s'.holding.holds = s.holding.holds := by
  funext q r
  simp only [holding, hpids, hmmap]

theorem set_mmap (s : Sys σ) (p : Process) (ph : Phys σ) (hp : p.mmap = (s.proc pid).mmap) (q : ℕ) :
    ((s.set pid p ph).proc q).mmap = (s.proc q).mmap := by
  by_cases hq : q = pid
  · rw [hq, set_proc_self, hp]
  · rw [set_proc_of_ne hq]

section

variable (h : s.Shared live A0 l0)

include h

section

variable (hshared : s'.shared = s.shared) (howned : s'.Owned live A0 s.sharedPages l1 False)

include hshared howned

/-- A page outside of the regions changes. -/
theorem Shared.changed (hc : Changed s s' pid n pte)
    (hout : s.holding.Outside MmapRegion.Has pid n)
    (hmmap : ∀ q, (s'.proc q).mmap = (s.proc q).mmap) :
    s'.Shared live A0 l1 ∧ s.sharedPages ⊆ s'.sharedPages := by
  -- No page of a region is where the page changes.
  have hne : ∀ {q r n'}, s.holding.holds q r → r.Has n' → (q, n') ≠ (pid, n) := by
    rintro q r n' hq hn' ⟨⟩
    exact hout r hq hn'
  refine h.outside (fun q hq => ?_) (holds_congr hc.pids hmmap) hshared (fun hq hn' hpte => ?_)
    (fun hpte => ?_) howned
  · rw [hmmap]
    exact h.sharing.valid q (hc.pids ▸ hq)
  · refine ⟨hc.pids ▸ hpte.1, hpte.2.1, ?_⟩
    rw [hc.lookup, if_neg fun e => hne hq hn' (Prod.ext e.1 e.2)]
    exact hpte.2.2
  · rcases hc.maps hpte with ⟨rfl, rfl, rfl⟩ | ⟨-, hpte⟩
    · refine .inr ⟨hout, ?_⟩
      rintro ⟨q', r, n', hq, hn', pte', hpte', hp⟩
      exact hc.alone q' n' pte' hpte' (hne hq hn') hp
    · exact .inl ⟨_, hpte, rfl⟩

/-- No entry changes. -/
theorem Shared.congr (hpids : s'.pids = s.pids)
    (hlookup : ∀ q n, n.User → (s'.proc q).pmt.lookup n = (s.proc q).pmt.lookup n)
    (hmmap : ∀ q, (s'.proc q).mmap = (s.proc q).mmap) :
    s'.Shared live A0 l1 ∧ s.sharedPages ⊆ s'.sharedPages := by
  have hmaps : ∀ q n pte, s'.Maps q n pte ↔ s.Maps q n pte := fun q n pte => by
    rw [Maps, Maps, hpids]
    exact and_congr_right fun _ => and_congr_right fun hn => by rw [hlookup q n hn]
  refine h.outside (fun q hq => ?_) (holds_congr hpids hmmap) hshared
    (fun _ _ hpte => (hmaps _ _ _).2 hpte) (fun hpte => .inl ⟨_, (hmaps _ _ _).1 hpte, rfl⟩) howned
  rw [hmmap]
  exact h.sharing.valid q (hpids ▸ hq)

/-- The pages of a process without regions are given up. -/
theorem Shared.gone (hm : ∀ r, ¬ s.holding.holds pid r)
    (hvalid : ∀ q ∈ s'.pids, ∃ m, (s'.proc q).mmap = some m ∧ m.Valid)
    (hholds : s'.holding.holds = s.holding.holds)
    (hmaps : ∀ q n pte, s'.Maps q n pte ↔ q ≠ pid ∧ s.Maps q n pte) :
    s'.Shared live A0 l1 ∧ s.sharedPages ⊆ s'.sharedPages := by
  refine h.outside hvalid hholds hshared (fun hq _ hpte => (hmaps _ _ _).2 ⟨?_, hpte⟩)
    (fun hpte => .inl ⟨_, ((hmaps _ _ _).1 hpte).2, rfl⟩) howned
  rintro rfl
  exact hm _ hq

end

omit h in
theorem Keeps.of_subset (h : s'.Shared live A0 s.ph.log ∧ s.sharedPages ⊆ s'.sharedPages) :
    Keeps live A0 s.ph.log s s' := ⟨h.1, h.1.log, fun _ hp => .inl (h.2 hp)⟩

/-- The pages of a process without regions are none of the regions'. -/
theorem Shared.refs_notMem (hpid : pid ∈ s.pids) (hm : ∀ r, ¬ s.holding.holds pid r) :
    ∀ p ∈ (s.proc pid).pmt.refs, p ∉ s.sharedPages := by
  intro p hp
  obtain ⟨n, pte, hn, hl, rfl⟩ := PMT.exists_lookup hp
  exact h.sharing.fair.notMem_pages ⟨pte, ⟨hpid, hn, hl⟩, rfl⟩ fun r hr => absurd hr (hm r)

theorem Shared.again : s.Shared live A0 s.ph.log := by
  obtain ⟨A, howned⟩ := h.owned.rebase
  exact ⟨h.sharing, howned.owns⟩

/-! ## Unmapping -/

omit h in
theorem remap_self (hm : (s.proc pid).mmap = some m) : s.remap pid m (s.space pid) = s := by
  have hp : ({ s.proc pid with pmt := (s.space pid).pmt, mmap := some m } : Process) = s.proc pid := by
    rw [← hm]
    rfl
  rw [remap, hp, set, update_eq_self]
  rfl

theorem Shared.unmoved (hm : (s.proc pid).mmap = some m) :
    Keeps live A0 l0 s (s.remap pid m (s.space pid)) := by
  rw [remap_self hm]
  exact h.keeps

end

variable (hP : P.Lawful live) (h0 : ∀ s A, live s A → 0 ∉ A) (h : s.Shared live A0 l0)
  (hpid : pid ∈ s.pids)

section Unmap

include hP h0 h hpid

/-- The loop of `Mmap::unmap` drops the regions in the range, if it cuts none. -/
theorem unmapFrom_shared (pre : List MmapRegion) (hm : (s.proc pid).mmap = some ⟨pre ++ rs, hint⟩)
    (hw : ∀ r ∈ rs, r.Apart addr stop ∨ (addr ≤ r.vaStart ∧ r.vaEnd ≤ stop)) :
    ∃ rs' t, unmapFrom P addr stop rs (s.space pid) = some (rs', t) ∧
      Keeps live A0 l0 s (s.remap pid ⟨pre ++ rs', hint⟩ t) := by
  induction rs generalizing s pre with
  | nil => exact ⟨[], s.space pid, rfl, h.unmoved hm⟩
  | cons r rs ih =>
    rw [unmapFrom]
    split_ifs with hstop haddr
    · exact ⟨r :: rs, s.space pid, rfl, h.unmoved hm⟩
    · obtain ⟨rs', t, hu, hres⟩ := ih h hpid (pre ++ [r]) (by rw [hm]; simp)
        fun c hc => hw c (.tail r hc)
      refine ⟨r :: rs', t, by rw [hu]; rfl, ?_⟩
      rwa [append_assoc] at hres
    obtain ⟨t, ht, hs1⟩ := dropRegion_shared h hpid hm rfl hP h0
    -- The range contains the region, so nothing is left of it.
    have htrim : trim addr stop r = [] := by
      have hr := hw r (.head _)
      rw [MmapRegion.Apart] at hr
      rw [trim, if_neg (by omega), if_neg (by omega)]
      rfl
    obtain ⟨rs', t', hu, hs2⟩ := ih hs1.shared hpid pre
      (by rw [remap_proc_self]) fun c hc => hw c (.tail r hc)
    rw [remap_space] at hu
    rw [remap_remap] at hs2
    refine ⟨rs', t', ?_, hs1.trans hs2⟩
    rw [ht, bind_eq_bind, bind_some, hu, htrim]
    rfl

/-- `Mmap::unmap` of a range which cuts no region. -/
theorem unmap_shared {length : ℕ} (hm : (s.proc pid).mmap = some m)
    (hlen : addr + pageRoundUp length < 2 ^ 64)
    (hw : ∀ r ∈ m.regions, r.Apart addr (addr + pageRoundUp length) ∨
      (addr ≤ r.vaStart ∧ r.vaEnd ≤ addr + pageRoundUp length)) :
    ∃ v m' t, m.unmap P addr length (s.space pid) = some (v, m', t) ∧
      Keeps live A0 l0 s (s.remap pid m' t) := by
  rw [unmap]
  split_ifs
  · exact ⟨_, m, _, rfl, h.unmoved hm⟩
  · exact ⟨_, m, _, rfl, h.unmoved hm⟩
  · obtain ⟨rs', t, hu, hres⟩ := unmapFrom_shared hP h0 h hpid [] hm hw
    rw [mod_eq_of_lt hlen, hu]
    exact ⟨0, ⟨rs', m.nextHint⟩, t, rfl, hres⟩

/-- `Mmap::~Mmap`. -/
theorem destroy_shared (hm : (s.proc pid).mmap = some ⟨rs, hint⟩) :
    ∃ t, destroy P rs (s.space pid) = some t ∧ Keeps live A0 l0 s (s.remap pid ⟨[], hint⟩ t) := by
  induction rs generalizing s with
  | nil => exact ⟨s.space pid, rfl, h.unmoved hm⟩
  | cons r rs ih =>
    obtain ⟨t, ht, hs1⟩ := dropRegion_shared h hpid hm (show _ = [] ++ r :: rs from rfl)
      hP h0
    obtain ⟨t', ht', hs2⟩ := ih hs1.shared hpid (by rw [remap_proc_self]; rfl)
    rw [remap_space] at ht'
    rw [remap_remap] at hs2
    refine ⟨t', ?_, hs1.trans hs2⟩
    rwa [destroy, foldlM_cons, ht]

omit h0 in
/-- The table of a process without regions is destroyed. -/
theorem Shared.leave (hm : ∀ r, ¬ s.holding.holds pid r) (hpids : s'.pids = s.pids.erase pid)
    (hproc : ∀ q, q ≠ pid → s'.proc q = s.proc q) (hshared : s'.shared = s.shared)
    (hph : s'.ph = VM.destroyPMT P (s.proc pid).pmt s.ph) : Keeps live A0 l0 s s' := by
  have htotal : ∀ f : PMT → Multiset ℕ, s'.total f = s.others f pid := fun f => by
    rw [total, others, hpids]
    exact sum_congr rfl fun q hq => by rw [hproc q (ne_of_mem_erase hq)]
  have howned : ∀ l, s.Owned live A0 s.sharedPages l False →
      s'.Owned live A0 s.sharedPages l False := by
    intro l hl
    obtain ⟨A, D, hown⟩ := (owned_iff hpid).1 hl
    rw [Owned, refs, tables, htotal, htotal, hph]
    exact destroyPMT_owned hP (h.refs_notMem hpid hm) hown
  have hne : ∀ q, q ∈ s'.pids ↔ q ≠ pid ∧ q ∈ s.pids := fun q => by rw [hpids, mem_erase]
  have hgone : ∀ l, s.Owned live A0 s.sharedPages l False →
      s'.Shared live A0 l ∧ s.sharedPages ⊆ s'.sharedPages := by
    refine fun l hl => h.gone hshared (howned l hl) hm (fun q hq => ?_) ?_ fun q n pte => ?_
    · obtain ⟨hqp, hq⟩ := (hne q).1 hq
      rw [hproc q hqp]
      exact h.sharing.valid q hq
    · funext q r
      refine propext ⟨fun hqr => ?_, fun hqr => ?_⟩
      · obtain ⟨hq, m, hmq, hr⟩ := hqr
        obtain ⟨hqp, hq⟩ := (hne q).1 hq
        exact ⟨hq, m, by rwa [← hproc q hqp], hr⟩
      · have hqp : q ≠ pid := by
          rintro rfl
          exact hm r hqr
        obtain ⟨hq, m, hmq, hr⟩ := hqr
        exact ⟨(hne q).2 ⟨hqp, hq⟩, m, by rwa [hproc q hqp], hr⟩
    · rw [Maps, Maps, hne, and_assoc]
      exact and_congr_right fun hqp => by rw [hproc q hqp]
  obtain ⟨hs', hpages⟩ := hgone l0 h.owned
  exact ⟨hs', (hgone s.ph.log h.again.owned).1.log, fun _ hp => .inl (hpages hp)⟩

/-- The end of a process. -/
theorem exit_shared : ∃ s', s.exit P pid = some (s', .done) ∧ Keeps live A0 l0 s s' := by
  obtain ⟨⟨rs, hint⟩, hm, -⟩ := h.sharing.valid pid hpid
  obtain ⟨t, ht, hs1⟩ := destroy_shared hP h0 h hpid hm
  have hnone : ∀ r, ¬ (s.remap pid ⟨[], hint⟩ t).holding.holds pid r := fun r hr => by
    rw [remap_holds hpid] at hr
    simp at hr
  have hexit : s.exit P pid = some ({ s with
      ph := VM.destroyPMT P t.pmt t.ph, shared := t.shared, pids := s.pids.erase pid }, .done) := by
    rw [exit, hm]
    exact congrArg (Option.bind · _) ht
  refine ⟨_, hexit, hs1.trans (hs1.shared.leave hP hpid hnone rfl
    (fun q hq => (remap_proc_of_ne hq).symm) rfl ?_)⟩
  rw [remap_proc_self]
  rfl

omit h0 in
/-- `Process::exec` of a process without regions. -/
theorem clear_shared (hm : ∀ r, ¬ s.holding.holds pid r) :
    Keeps live A0 s.ph.log s (s.clear P pid).1 := by
  obtain ⟨ph, page, hs', -, howned⟩ := clear_spec hP h.owned hpid (h.refs_notMem hpid hm)
  have hmmap := s.set_mmap { s.proc pid with pmt := .new page } ph rfl
  rw [hs']
  generalize hs1 : s.set pid { s.proc pid with pmt := .new page } ph = s1 at howned hmmap
  have hpids : s1.pids = s.pids := by rw [← hs1, set_pids]
  refine .of_subset (h.gone (by rw [← hs1]; rfl) howned hm (fun q hq => ?_)
    (holds_congr hpids hmmap) fun q n pte => ?_)
  · rw [hmmap]
    exact h.sharing.valid q (hpids ▸ hq)
  · rw [← hs1]
    by_cases hqp : q = pid
    · subst hqp
      simp [Maps, PMT.lookup, PMT.slot, PMT.new]
    · simp [Maps, set_proc_of_ne hqp, hqp]

end Unmap

/-! ## Mapping -/

section Map

variable {args : Mmap.MapArgs} {v : ℕ} (hm : (s.proc pid).mmap = some m)

include h hpid hm

/-- The next hint does not matter. -/
theorem Shared.rehint (hv : m'.Valid) (hr : m'.regions = m.regions) :
    Keeps live A0 l0 s (s.remap pid m' (s.space pid)) := by
  have hmaps : ∀ q n pte, (s.remap pid m' (s.space pid)).Maps q n pte ↔ s.Maps q n pte := by
    intro q n pte
    rw [remap_maps hpid]
    by_cases hq : q = pid
    · subst hq
      simp [Maps, space, hpid]
    · simp [hq]
  have hholds : (s.remap pid m' (s.space pid)).holding.holds = s.holding.holds := by
    funext q r
    rw [remap_holds hpid]
    by_cases hq : q = pid
    · subst hq
      simp [holds_iff hpid hm, hr]
    · simp [hq]
  obtain ⟨hs', hpages⟩ := h.outside (h.sharing.valid_remap hv) hholds rfl
    (fun _ _ hpte => (hmaps _ _ _).2 hpte) (fun hpte => .inl ⟨_, (hmaps _ _ _).1 hpte, rfl⟩)
    ((remap_owned hpid).2 ((owned_iff hpid).1 h.owned))
  exact ⟨hs', ⟨[], rfl⟩, fun _ hp => .inl (hpages hp)⟩

include hP h0

/-- Fresh pages are unmapped, and handed back. -/
theorem Shared.undone {flags : Flags} {ph : Phys σ} {pmt : PMT} (hok : r.Ok)
    (hmapped : Mapped live A0 s.sharedPages s.ph.log flags (s.proc pid).pmt (s.others PMT.refs pid)
      (s.others PMT.tables pid) (pageAt r.vaStart) (pageCount r.vaStart r.vaEnd) (ph, pmt))
    (ht : unmapPhysical P r.vaStart r.vaEnd (ph, pmt) = (t.ph, t.pmt))
    (hshared : t.shared = s.shared) : Keeps live A0 s.ph.log s (s.remap pid m t) := by
  obtain ⟨A, hown⟩ := hmapped.owned
  obtain ⟨hun, -⟩ := unmapPhysical_owned hown (fun i hi => (hok.pageAt_has hi).1) hP h0 hmapped.alone
  rw [ht] at hun
  have hx := hok.extended (f := pmt.translate) hmapped.filled fun i hi pte hpte => by
    rw [PMT.translate, show pmt.lookup _ = some pte from hpte]
  have hlook : ∀ n, t.pmt.lookup n = (s.proc pid).pmt.lookup n := by
    intro n
    by_cases hn : r.Has n
    · rw [hx.free hn]
      exact hok.cleared_has hun.cleared hn
    · rw [← hx.outside hn]
      exact hok.cleared_not_has hun.cleared hn
  have hproc : ∀ q, (∀ n, ((s.remap pid m t).proc q).pmt.lookup n = (s.proc q).pmt.lookup n) ∧
      ((s.remap pid m t).proc q).mmap = (s.proc q).mmap := by
    intro q
    by_cases hq : q = pid
    · subst hq
      rw [remap_proc_self]
      exact ⟨hlook, hm.symm⟩
    · rw [remap_proc_of_ne hq]
      exact ⟨fun _ => rfl, rfl⟩
  exact .of_subset (h.congr hshared ((remap_owned hpid).2 hun.owns) rfl
    (fun q n _ => (hproc q).1 n) fun q => (hproc q).2)

/-- `Mmap::map` adds a region where there is none, or fails to read its pages from the file. -/
theorem mapAt_shared (hsh : args.flags.shared = true) (hroom : Roomy m va args)
    (hmap : m.mapAt P va args (s.space pid) = some (v, m', t)) (hr : .refused ∉ t.ph.log) :
    Keeps live A0 s.ph.log s (s.remap pid m' t) := by
  have hlt : va + pageRoundUp args.length < 2 ^ 64 := hroom.le_top.trans_lt (by decide)
  have hok := hroom.ok (some s.shared.next)
  rw [hsh] at hok
  have hn : ∀ i < pageCount va (va + pageRoundUp args.length), (pageAt va i).User :=
    fun i hi => (hok.pageAt_has hi).1
  obtain ⟨A, hown⟩ := h.owned.rebase
  rw [refs, tables, total_eq _ hpid, total_eq _ hpid] at hown
  have hpages := mapPages_owned (protToPte args.prot) hP hown rfl hn
  rw [mapAt] at hmap
  dsimp only [space] at hmap
  rw [pageCount_pageRoundUp va, mod_eq_of_lt hlt] at hmap
  generalize mapPages _ _ _ _ _ = res at hmap hpages
  cases res with
  | panic => cases hmap
  | fail w =>
    cases hmap
    exact absurd hpages hr
  | ok w =>
    obtain ⟨ph, pmt⟩ := w
    have hfill : (if args.flags.anonymous then Outcome.ok (ph, 0)
        else fillFromFile args.file pmt va (pageCount va (va + pageRoundUp args.length))
          args.length ph).Holds (fun t => ∃ mem, t.1 = { ph with mem := mem })
        (fun t => ∃ mem, t.1 = { ph with mem := mem }) False := by
      split_ifs
      · exact ⟨ph.mem, rfl⟩
      · exact fillFromFile_mem ..
    dsimp only at hmap
    generalize (if args.flags.anonymous then Outcome.ok (ph, 0)
        else fillFromFile args.file pmt va (pageCount va (va + pageRoundUp args.length))
          args.length ph) = res at hmap hfill
    cases res with
    | panic => cases hmap
    | fail x =>
      obtain ⟨_, _⟩ := x
      obtain ⟨mem, rfl⟩ := hfill
      cases hmap
      exact h.undone hP h0 hpid hm hok (Mapped.setMem hpages mem) rfl rfl
    | ok x =>
      obtain ⟨_, _⟩ := x
      obtain ⟨mem, rfl⟩ := hfill
      have hmapped := Mapped.setMem hpages mem
      obtain ⟨A', hown'⟩ := hmapped.owned
      obtain ⟨l, hl, -⟩ := hown'.since
      simp only [newRegion, hsh, if_true] at hmap
      cases hmap
      rw [mod_eq_of_lt hlt]
      exact h.again.add hpid hm rfl rfl hok hroom.apart rfl hmapped ⟨l, hl⟩

omit hP h0 h hpid hm

/-- What an event of the process `pid` does: the pages it hands back are not mapped by any
    other process. -/
structure Steps (live : σ → Set ℕ → Prop) (A0 : Set ℕ) (pid : ℕ) (s s' : Sys σ) : Prop where
  shared : ∃ l, s'.Shared live A0 l
  lasts : s.Lasts s'
  freed : ∀ page, s.Frees s' page → ∀ q n pte, q ≠ pid → s'.Maps q n pte → pte.page ≠ page

/-- Something is handed back first, and what is mapped after that is mapped by the process. -/
theorem Steps.of_keeps {s1 : Sys σ} (h1 : Keeps live A0 s.ph.log s s1)
    (h' : Keeps live A0 s1.ph.log s1 s')
    (hmaps : ∀ q n pte, q ≠ pid → s'.Maps q n pte → s1.Maps q n pte) : Steps live A0 pid s s' := by
  refine ⟨⟨_, h'.shared⟩, h1.lasts.trans h'.lasts, fun page hf q n pte hq hpte hp => ?_⟩
  obtain ⟨l1, hlog1⟩ := h1.lasts.log
  obtain ⟨l', hlog'⟩ := h'.lasts.log
  obtain ⟨l, hlog, hmem⟩ := hf
  rw [hlog', hlog1, ← append_assoc, append_left_inj] at hlog
  subst hlog
  have hnot : ∀ {u w : Sys σ} {k}, w.Shared live A0 u.ph.log → w.ph.log = k ++ u.ph.log →
      .back page ∈ k → ¬ w.Maps q n pte := fun hw hk hmem hpte =>
    hw.owned.notMem_of_frees ⟨[], rfl⟩ ⟨_, hk, hmem⟩ (hp ▸ mem_refs hpte.1 hpte.2.1 hpte.2.2)
  rcases mem_append.1 hmem with hmem | hmem
  · exact hnot h'.shared hlog' hmem hpte
  · exact hnot h1.shared hlog1 hmem (hmaps q n pte hq hpte)

theorem Keeps.steps (h : Keeps live A0 s.ph.log s s') : Steps live A0 pid s s' :=
  ⟨⟨_, h.shared⟩, h.lasts, fun _ hf _ _ _ _ hpte hp => h.shared.owned.notMem_of_frees ⟨[], rfl⟩ hf
    (hp ▸ mem_refs hpte.1 hpte.2.1 hpte.2.2)⟩

theorem Steps.refl (h : s.Shared live A0 l0) : Steps live A0 pid s s := h.again.keeps.steps

/-- The range contains every region it meets. -/
def Whole (rs : List MmapRegion) (addr stop : ℕ) : Prop :=
  ∀ r ∈ rs, r.Apart addr stop ∨ (addr ≤ r.vaStart ∧ r.vaEnd ≤ stop)

include hP h0 h hpid hm

theorem map_shared (hsh : args.flags.shared = true) (hfits : args.Fits)
    (hw : args.flags.fixed = true → Whole m.regions args.hint (args.hint + pageRoundUp args.length))
    (hmap : m.map P args (s.space pid) = some (v, m', t)) (hr : .refused ∉ t.ph.log) :
    Steps live A0 pid s (s.remap pid m' t) := by
  obtain ⟨hpos, hlen, hhint⟩ := hfits
  obtain ⟨hpos', hlen', hround⟩ := pageRoundUp_bounds hpos hlen
  have hv := h.sharing.valid_mmap hpid hm
  rcases map_cases hmap with ⟨-, rfl, rfl⟩ | ⟨-, va, m1, ha, hmap⟩
  · rw [remap_self hm]
    exact .refl h
  obtain ⟨hv1, hregions, hroom, hlt, hun⟩ := hv.roomy (P := P) (s := s.space pid) hpos' hlen' hhint ha
  have hmapAt : ∀ {m1 : Mmap} {t1 : Space σ}, Keeps live A0 s.ph.log s (s.remap pid m1 t1) →
      Roomy m1 va args → m1.mapAt P va args t1 = some (v, m', t) →
      Steps live A0 pid s (s.remap pid m' t) := by
    intro m1 t1 hs1 hroom hmap
    have hmap' : m1.mapAt P va args ((s.remap pid m1 t1).space pid) = some (v, m', t) := by
      rwa [remap_space]
    have hs2 := mapAt_shared hP h0 hs1.shared hpid (by rw [remap_proc_self]) hsh hroom hmap' hr
    rw [remap_remap] at hs2
    refine .of_keeps hs1 hs2 fun q n pte hq hpte => ?_
    rw [remap_maps hpid] at hpte ⊢
    exact .inr (hpte.resolve_left fun e => hq e.1)
  rcases hmap with ⟨hfixed, hat⟩ | ⟨hfixed, v1, m2, t2, hu, hat⟩
  · exact hmapAt (h.again.rehint hpid hm hv1 hregions) (hroom hfixed) hat
  -- The regions in the range are dropped before.
  rw [hfixed] at ha
  obtain ⟨rfl, rfl⟩ := allocVA_fixed ha
  obtain ⟨v2, m3, t3, hu', hs1⟩ := unmap_shared hP h0 h.again hpid hm hlt
    (by rw [hround]; exact hw hfixed)
  rw [hu] at hu'
  cases hu'
  exact hmapAt hs1 (hun _ _ _ hu) hat

end Map

/-! ## Forks -/

section Fork

/-- The regions can be given to a child: it maps nothing there, and no `MmapSharedRef` is
    deleted. -/
structure Clonable (t : Space σ) (rs : List MmapRegion) : Prop where
  free : ∀ r ∈ rs, ∀ n, r.Has n → t.pmt.lookup n = none
  refs : ∀ r ∈ rs, r.shared = true ∧ ∃ ref, r.sharedRef = some ref ∧ t.shared.refCount ref ≠ 0

/-- One round of the loop of `Mmap::clone`. -/
theorem cloneFrom_cons (src : PMT) (hlaid : Mmap.Laid (done ++ r :: rs)) (h : Clonable t (r :: rs))
    (href : r.sharedRef = some ref) : ∃ t' : Space σ, t'.shared = { t.shared with
      refCount := update t.shared.refCount ref (t.shared.refCount ref + 1) } ∧
      cloneShared P src r (t.ph, t.pmt) = .ok (t'.ph, t'.pmt) ∧
      cloneFrom P src (r :: rs) done t = cloneFrom P src rs (done ++ [r]) t' ∧
      Clonable t' rs ∧ (.refused ∈ t.ph.log → .refused ∈ t'.ph.log) := by
  obtain ⟨hsh, ref', href', hcount⟩ := h.refs r (.head _)
  rw [href] at href'
  cases href'
  obtain ⟨⟨ph, pmt⟩, hw, hlook, hlog⟩ := cloneShared_total (P := P) (hlaid.ok r (by simp)) src
    (h.free r (.head _)) t.ph
  refine ⟨⟨ph, pmt, _⟩, rfl, hw, ?_, ⟨fun c hc n hn => ?_, fun c hc => ?_⟩, hlog⟩
  · rw [cloneFrom, cloneRegion, if_pos hsh, hw]
    dsimp only
    rw [href, SharedRefs.acquire, if_neg hcount, bind_some, hlaid.insertRegion_next]
  · -- The region is apart from the others.
    refine (hlook n fun hn' => ?_).trans (h.free c (.tail r hc) n hn)
    have hcr := hlaid.eq_of_has (by simp) (by simp [hc]) hn' hn
    exact hlaid.notMem (by simp [← hcr, hc])
  · obtain ⟨hshc, ref', href', hcount'⟩ := h.refs c (.tail r hc)
    refine ⟨hshc, ref', href', ?_⟩
    dsimp only
    by_cases he : ref' = ref
    · rw [he, update_self]
      exact succ_ne_zero _
    · rwa [update_of_ne he]

/-- The loop of `Mmap::clone` gets through the regions. -/
theorem cloneFrom_total (src : PMT) (hlaid : Mmap.Laid (done ++ rs)) (h : Clonable t rs) :
    ∃ u, cloneFrom P src rs done t = some (some (done ++ rs), u) ∧
      (.refused ∈ t.ph.log → .refused ∈ u.ph.log) := by
  induction rs generalizing done t with
  | nil => exact ⟨t, by rw [cloneFrom, append_nil], id⟩
  | cons r rs ih =>
    obtain ⟨-, ref, href, -⟩ := h.refs r (.head _)
    obtain ⟨t', -, -, hc, h', hlog⟩ := cloneFrom_cons (P := P) src hlaid h href
    have hnext : Mmap.Laid (done ++ [r] ++ rs) := by rwa [append_assoc]
    obtain ⟨u, hu, hlog'⟩ := ih hnext h'
    rw [append_assoc] at hu
    exact ⟨u, hc.trans hu, fun hr => hlog' (hlog hr)⟩

theorem Sharing.clonable (h : s.Sharing) (hpid : pid ∈ s.pids) (hm : (s.proc pid).mmap = some m)
    (hrs : ∀ r ∈ rs, r ∈ m.regions)
    (hfree : ∀ r ∈ rs, ∀ n, r.Has n → (s.proc child).pmt.lookup n = none) :
    Clonable (s.space child) rs := by
  refine ⟨hfree, fun r hr => ?_⟩
  have hab : s.holding.holds pid r := (holds_iff hpid hm).2 (hrs r hr)
  obtain ⟨hsh, ref, -, href, hcount⟩ := h.counted hab
  refine ⟨hsh, ref, href, ?_⟩
  dsimp only [space]
  rw [hcount]
  exact Set.ncard_ne_zero_of_mem (a := pid) hab (s.holders_finite r)

include hP h0 h hpid in
/-- The child gets the regions which are left, with the pages of its parent. -/
theorem cloneFrom_shared (hchild : child ∈ s.pids) (hne : pid ≠ child) (hm : (s.proc pid).mmap = some m)
    (hmc : (s.proc child).mmap = some ⟨done, hint⟩) (hregions : m.regions = done ++ rs)
    (hfree : ∀ r ∈ rs, ∀ n, r.Has n → (s.proc child).pmt.lookup n = none)
    (hc : cloneFrom P (s.proc pid).pmt rs done (s.space child) = some (some m.regions, u))
    (hr : .refused ∉ u.ph.log) : Keeps live A0 l0 s (s.remap child ⟨m.regions, hint⟩ u) := by
  induction rs generalizing s done with
  | nil =>
    rw [append_nil] at hregions
    cases hc
    rw [hregions]
    exact h.unmoved hmc
  | cons r rs ih =>
    have hs := h.sharing
    have hlaid := hregions ▸ (hs.valid_mmap hpid hm).laid
    have hmem : r ∈ m.regions := by rw [hregions]; simp
    have hab : s.holding.holds pid r := (holds_iff hpid hm).2 hmem
    have hok := hlaid.ok r (by simp)
    obtain ⟨-, ref, -, href, -⟩ := hs.counted hab
    have hsub : ∀ c ∈ r :: rs, c ∈ m.regions := fun c hc => by
      rw [hregions]
      exact mem_append_right _ hc
    have hclon := hs.clonable hpid hm hsub hfree
    obtain ⟨t', hshared, hw, hstep, hclon', -⟩ := cloneFrom_cons (P := P) (s.proc pid).pmt hlaid hclon
      href
    have hnext : Mmap.Laid (done ++ [r] ++ rs) := by rwa [append_assoc]
    -- The allocator has not refused so far.
    have hr' : .refused ∉ t'.ph.log := by
      obtain ⟨u', hu', hlog⟩ := cloneFrom_total (P := P) (s.proc pid).pmt hnext hclon'
      rw [hstep, hu', Option.some.injEq, Prod.mk.injEq] at hc
      exact fun hm => hr (hc.2 ▸ hlog hm)
    have hsrc : ∀ n, r.Has n → ∃ pte, (s.proc pid).pmt.lookup n = some pte ∧
        pte.page ∈ s.others PMT.refs child ∧ pte.page ∈ s.sharedPages := by
      intro n hn
      obtain ⟨page, pte, hpte, rfl⟩ := hs.fair.mapped hab hn
      exact ⟨pte, hpte.2.2, mem_others hpte hne, pid, r, n, hab, hn, pte, hpte, rfl⟩
    have hcloned : ∀ l, s.Owned live A0 s.sharedPages l False →
        Cloned live A0 s.sharedPages l (s.proc pid).pmt (protToPte r.prot) (s.proc child).pmt
          (s.others PMT.refs child) (s.others PMT.tables child) (pageAt r.vaStart)
          (pageCount r.vaStart r.vaEnd) (t'.ph, t'.pmt) := by
      intro l hl
      obtain ⟨A, D, hown⟩ := (owned_iff hchild).1 hl
      have hcl := cloneShared_owned hP h0 hok hown hsrc (hfree r (.head _))
      rw [show cloneShared P (s.proc pid).pmt r (s.ph, (s.proc child).pmt) = _ from hw] at hcl
      exact hcl.resolve_left hr'
    have hlog : ∃ l, t'.ph.log = l ++ s.ph.log := by
      obtain ⟨A, D, hown⟩ := (hcloned s.ph.log h.again.owned).owns
      obtain ⟨l, hl, -⟩ := hown.since
      exact ⟨l, hl⟩
    have hs1 := h.share hpid hm hchild hmc hmem (hnext.sublist (sublist_append_left ..))
      (hfree r (.head _)) href hshared (hcloned l0 h.owned) hlog
    have hproc : (s.remap child ⟨done ++ [r], hint⟩ t').proc pid = s.proc pid := remap_proc_of_ne hne
    have hs2 := ih hs1.shared hpid hchild (by rw [hproc, hm]) (by rw [remap_proc_self])
      (by rw [hregions, append_assoc]; rfl) (by rw [remap_proc_self]; exact hclon'.free)
      (by rw [hproc, remap_space, ← hstep, hc])
    rw [remap_remap] at hs2
    exact hs1.trans hs2

include h hpid in
/-- The pages outside of the regions are copied for a child, which has no regions yet. -/
theorem Shared.copied (hchild : child ∉ s.pids) (hm : (s.proc pid).mmap = some m)
    (hc : Copied s s' pid child fun va => (m.find va).isSome) (hmp : (s'.proc pid).mmap = some m)
    (hmc : (s'.proc child).mmap = some ⟨[], hint⟩) (hhint : hint ≤ mmapTop)
    (hshared : s'.shared = s.shared) (howned : s'.Owned live A0 s.sharedPages l1 False) :
    s'.Shared live A0 l1 ∧ s.sharedPages ⊆ s'.sharedPages := by
  have hs := h.sharing
  have hmem : ∀ q, q ∈ s'.pids ↔ q = child ∨ q ∈ s.pids := fun q => by
    rw [hc.pids, mem_insert]
  have hmmap : ∀ q ∈ s.pids, (s'.proc q).mmap = (s.proc q).mmap := by
    intro q hq
    by_cases hqp : q = pid
    · rw [hqp, hmp, hm]
    · rw [hc.proc q hq hqp]
  have hholds : s'.holding.holds = s.holding.holds := by
    funext q r
    refine propext ⟨fun ⟨hq, m', hm', hr⟩ => ?_, fun ⟨hq, m', hm', hr⟩ => ?_⟩
    · rcases (hmem q).1 hq with rfl | hq
      · rw [hmc] at hm'
        cases hm'
        cases hr
      · exact ⟨hq, m', (hmmap q hq) ▸ hm', hr⟩
    · exact ⟨(hmem q).2 (.inr hq), m', (hmmap q hq).trans hm', hr⟩
  have hskip : ∀ {n}, n.User → ((m.find n.addr).isSome ↔ ∃ r, s.holding.holds pid r ∧ r.Has n) := by
    intro n hn
    rw [find_isSome hn]
    exact exists_congr fun r => and_congr_left fun _ => (holds_iff hpid hm).symm
  refine h.outside (fun q hq => ?_) hholds hshared (fun {q r n pte} hq hn hpte => ?_)
    (fun {q n pte} hpte => ?_) howned
  · rcases (hmem q).1 hq with rfl | hq
    · exact ⟨_, hmc, laid_nil, hhint⟩
    · rw [hmmap q hq]
      exact hs.valid q hq
  · refine ⟨(hmem q).2 (.inr hpte.1), hpte.2.1, ?_⟩
    by_cases hqp : q = pid
    · subst hqp
      rw [hc.inSrc n hpte.2.1, hpte.2.2, inParent, map_some,
        if_pos ((hskip hpte.2.1).2 ⟨r, hq, hn⟩)]
    · rw [hc.proc q hpte.1 hqp]
      exact hpte.2.2
  · rcases hc.maps hpid hpte with ⟨rfl, hfalse, -, pte', hpte', hp⟩ | ⟨-, pte', hpte', hp, -⟩
    · -- The page of the parent is outside of its regions.
      have hout : s.holding.Outside MmapRegion.Has pid n := fun r hr hn => by
        rw [(hskip hpte.2.1).2 ⟨r, hr, hn⟩] at hfalse
        cases hfalse
      exact .inr ⟨fun r hr _ => hchild hr.1, hs.fair.notMem_pages ⟨pte', hpte', hp⟩ hout⟩
    · exact .inl ⟨pte', hpte', hp⟩

include hP h0 h hpid in
/-- A fork does not find that an `MmapSharedRef` is deleted; the child holds the regions of
    its parent, unless the allocator refused. -/
theorem fork_shared (hchild : child ∉ s.pids) : ∃ s' o, s.fork P pid child = some (s', o) ∧
      (.refused ∉ s'.ph.log → Keeps live A0 s.ph.log s s') := by
  have hne : pid ≠ child := ne_of_mem_of_not_mem hpid hchild
  obtain ⟨m, hm, hv⟩ := h.sharing.valid pid hpid
  rw [fork, Process.fork, VM.createPMT]
  rcases hp : kallocPage P s.ph with ⟨_ | page, ph⟩
  · exact ⟨_, _, rfl, fun hr => absurd (HobbyOS.Owned.refused_mem hp) hr⟩
  have hskip : (fun va => ((s.proc pid).mmap.bind (·.find va)).isSome) =
      fun va => (m.find va).isSome := by
    rw [hm]
    rfl
  have hcopy := copy_spec hP h.owned hpid hchild hp (fun va => (m.find va).isSome)
    ⟨.new page, (s.proc pid).segTable, some ⟨[], m.nextHint⟩⟩
  dsimp only at hcopy ⊢
  rw [hskip]
  generalize VM.copyPMT _ _ _ = res at hcopy
  cases res with
  | panic => exact hcopy.elim
  | fail t => exact ⟨_, _, rfl, fun hr => absurd (.tail _ hcopy.2.2.2) hr⟩
  | ok t =>
    obtain ⟨howned, hcopied⟩ := hcopy
    generalize hs1 : (s.set pid { s.proc pid with pmt := t.src } t.ph).add child
      ⟨t.dst, (s.proc pid).segTable, some ⟨[], m.nextHint⟩⟩ t.ph = s1 at howned hcopied
    have hparent : s1.proc pid = { s.proc pid with pmt := t.src } := by
      rw [← hs1, add_proc_of_ne hne, set_proc_self]
    have hproc : s1.proc child = ⟨t.dst, (s.proc pid).segTable, some ⟨[], m.nextHint⟩⟩ := by
      rw [← hs1, add_proc_self]
    have hspace : s1.space child = ⟨t.ph, t.dst, s.shared⟩ := by
      rw [space, hproc, ← hs1]
      rfl
    have hpid1 : pid ∈ s1.pids := by
      rw [hcopied.pids]
      exact Finset.mem_insert_of_mem hpid
    have hchild1 : child ∈ s1.pids := by
      rw [hcopied.pids]
      exact Finset.mem_insert_self ..
    have hm1 : (s1.proc pid).mmap = some m := by rw [hparent, hm]
    have hkeeps : Keeps live A0 s.ph.log s s1 := .of_subset (h.copied hpid hchild hm hcopied hm1
      (by rw [hproc]) hv.nextHint_le (by rw [← hs1]; rfl) howned)
    have hsh1 := hkeeps.shared
    have hfree : ∀ r ∈ m.regions, ∀ n, r.Has n → (s1.proc child).pmt.lookup n = none := by
      intro r hr n hn
      rw [hcopied.inDst n hn.1, inChild]
      cases (s.proc pid).pmt.lookup n with
      | none => rfl
      | some pte => exact if_pos ((find_isSome hn.1).2 ⟨r, hr, hn⟩)
    have hclon := hsh1.sharing.clonable hpid1 hm1 (fun r hr => hr) hfree
    obtain ⟨u, hu, -⟩ := cloneFrom_total (P := P) (s1.proc pid).pmt
      (show Mmap.Laid ([] ++ m.regions) from hv.laid) hclon
    have hclone : m.clone P t.src ⟨t.ph, t.dst, s.shared⟩ = some (some m, u) := by
      rw [clone, ← hspace]
      rw [hparent] at hu
      rw [hu]
      rfl
    have hrem : s1.remap child m u = { (s.set pid { s.proc pid with pmt := t.src } u.ph).add child
        ⟨u.pmt, (s.proc pid).segTable, some m⟩ u.ph with shared := u.shared } := by
      rw [remap, hproc, ← hs1]
      simp only [add, set, update_idem]
    refine ⟨s1.remap child m u, .done, ?_, fun hr => ?_⟩
    · simp only [hm, hclone, hrem]
      rfl
    · exact hkeeps.trans (cloneFrom_shared hP h0 hsh1 hpid1 hchild1 hne hm1 (by rw [hproc])
        (nil_append _).symm hfree hu hr)

end Fork

/-! ## Events -/

/-- The regions of a process. -/
def regions (s : Sys σ) (pid : ℕ) : List MmapRegion := (s.proc pid).mmap.elim [] (·.regions)

theorem regions_eq (hm : (s.proc pid).mmap = some m) : s.regions pid = m.regions := by
  rw [regions, hm]
  rfl

/-- Regions are shared ones, and are removed as a whole; `exec` finds none. -/
def KeepsWhole (s : Sys σ) : Event → Prop
  | .clear pid => s.regions pid = []
  | .mmap pid args => args.flags.shared = true ∧ args.Fits ∧ (args.flags.fixed = true →
    Whole (s.regions pid) args.hint (args.hint + pageRoundUp args.length))
  | .munmap pid addr length => addr + pageRoundUp length < 2 ^ 64 ∧
    Whole (s.regions pid) addr (addr + pageRoundUp length)
  | .brk .. | .mprotect .. => False
  | _ => True

/-- A process ends, forks, or unmaps a range. -/
def OnRegions : Event → Prop
  | .exit _ | .fork .. | .munmap .. => True
  | _ => False

/-- Regions are removed as a whole, and the allocator does not refuse. -/
def SharedSafe (P : Pool σ ℕ) (s : Sys σ) (ev : Event) : Prop :=
  s.KeepsWhole ev ∧ ∀ r ∈ s.step P ev, .refused ∉ r.1.ph.log

instance (rs : List MmapRegion) (addr stop : ℕ) : Decidable (Whole rs addr stop) :=
  inferInstanceAs (Decidable (∀ r ∈ rs, (_ ≤ _ ∨ _ ≤ _) ∨ _ ∧ _))

instance (s : Sys σ) (ev : Event) : Decidable (s.KeepsWhole ev) := by
  cases ev <;> unfold KeepsWhole <;> infer_instance

instance (s : Sys σ) (ev : Event) : Decidable (s.SharedSafe P ev) :=
  inferInstanceAs (Decidable (_ ∧ _))

section Step

variable {byte : UInt8}

include h hpid

/-- A store the hardware allows changes no entry. -/
theorem Shared.write (hva : va < userTop) (hw : s.write pid va byte = some s') :
    Keeps live A0 l0 s s' := by
  obtain ⟨_, _, -, -, rfl, howned, -⟩ := write_spec h.owned hpid hva hw
  obtain ⟨hs', hpages⟩ := h.congr (by rfl) howned rfl (fun _ _ _ => rfl) fun _ => rfl
  exact ⟨hs', ⟨[], rfl⟩, fun _ hp => .inl (hpages hp)⟩

include hP

/-- A page is mapped outside of the regions, all of whose pages are mapped. -/
theorem sysMap_shared {prot : Access} {data : ℕ → UInt8} (hva : va < userTop)
    (hs : s.map P pid va prot data = some (s', o)) (hr : .refused ∉ s'.ph.log) :
    Keeps live A0 s.ph.log s s' := by
  obtain ⟨hnone, -⟩ | ⟨s1, o1, hs1, p, ph, ⟨rfl, hm, -⟩, hc⟩ :=
    map_spec hP h.owned hpid prot data hva
  · rw [hnone] at hs
    cases hs
  rw [hs1] at hs
  cases hs
  obtain ⟨-, hr', -⟩ | ⟨-, hnone, howned, page, hc, -⟩ := hc
  · exact absurd hr' hr
  have hout : s.holding.Outside MmapRegion.Has pid (vpn va) := by
    intro r hq hn
    obtain ⟨_, pte, hpte, -⟩ := h.sharing.fair.mapped hq hn
    have hl := hpte.2.2
    rw [hnone] at hl
    cases hl
  exact .of_subset (h.changed rfl howned hc hout (s.set_mmap p ph hm))

include h0

/-- A store changes a page outside of the regions at most, since no page of a region is marked. -/
theorem store_shared (hva : va < userTop) (hs : s.store P pid va byte = some (s', o))
    (hr : .refused ∉ s'.ph.log) : Keeps live A0 s.ph.log s s' := by
  have hout {pte : Pte} (hpte : (s.proc pid).pmt.lookup (vpn va) = some pte) (hcow : pte.flags.cow) :
      s.holding.Outside MmapRegion.Has pid (vpn va) := by
    intro r hq hn
    rw [h.sharing.plain hq hn ⟨hpid, vpn_user hva, hpte⟩] at hcow
    cases hcow
  rcases store_cases hP h.owned hpid byte h0 hva fun pte hpte hcow =>
      h.sharing.fair.notMem_pages ⟨pte, ⟨hpid, vpn_user hva, hpte⟩, rfl⟩ (hout hpte hcow) with
    ⟨s1, hw, hs1⟩ | ⟨-, -, hs1⟩ | ⟨ph, hs1, hr', -⟩ |
    ⟨pte, pmt, ph, page, s1, hpte, hcow, rfl, howned, hc, -, hs1⟩
  · cases hs1.symm.trans hs
    exact h.again.write hpid hva hw
  · cases hs1.symm.trans hs
    exact h.again.keeps
  · cases hs1.symm.trans hs
    exact absurd hr' hr
  · have hs1' := Keeps.of_subset (h.changed (by rfl) howned hc (hout hpte hcow) (s.set_mmap _ _ rfl))
    rcases hs1 with ⟨-, hs1⟩ | ⟨s2, hw, hs1⟩
    · cases hs1.symm.trans hs
      exact hs1'
    · cases hs1.symm.trans hs
      exact hs1'.trans (hs1'.shared.write hpid hva hw)

/-- These events do not find that an `MmapSharedRef` is deleted. -/
theorem stepOf_onRegions (he : ev.pid = pid) (hev : s.KeepsWhole ev) (hon : OnRegions ev) :
    ∃ s' o, s.stepOf P pid ev = some (s', o) ∧
      (.refused ∉ s'.ph.log → Keeps live A0 s.ph.log s s') := by
  cases ev with
  | exit =>
    obtain ⟨s', hs', hkeeps⟩ := exit_shared hP h0 h.again hpid
    exact ⟨s', .done, hs', fun _ => hkeeps⟩
  | fork _ child =>
    rw [stepOf]
    split_ifs with hchild
    · exact ⟨s, _, rfl, fun _ => h.again.keeps⟩
    · exact fork_shared hP h0 h hpid hchild
  | munmap q addr length =>
    obtain rfl : q = pid := he
    obtain ⟨m, hm, -⟩ := h.sharing.valid q hpid
    obtain ⟨hlen, hw⟩ := hev
    rw [regions_eq hm] at hw
    obtain ⟨v, m', t, hu, hkeeps⟩ := unmap_shared hP h0 h.again hpid hm hlen hw
    refine ⟨s.remap q m' t, .value v, ?_, fun _ => hkeeps⟩
    rw [stepOf, onMmap, hm]
    dsimp only
    rw [show m.unmap P addr length ⟨s.ph, (s.proc q).pmt, s.shared⟩ = _ from hu]
    rfl
  | _ => cases hon

theorem stepOf_shared {ev : Event} (he : ev.pid = pid) (hev : s.KeepsWhole ev)
    (hs : s.stepOf P pid ev = some (s', o)) (hr : .refused ∉ s'.ph.log) :
    Steps live A0 pid s s' := by
  obtain ⟨m, hm, hv⟩ := h.sharing.valid pid hpid
  cases ev with
  | create | load =>
    cases hs
    exact .refl h
  | map _ va prot data =>
    rw [stepOf] at hs
    split_ifs at hs with hva
    · exact (sysMap_shared hP h hpid hva hs hr).steps
    · cases hs
      exact .refl h
  | fork | exit | munmap =>
    obtain ⟨s1, o1, hs1, hkeeps⟩ := stepOf_onRegions hP h0 h hpid he hev trivial
    rw [hs1] at hs
    cases hs
    exact (hkeeps hr).steps
  | store _ va byte =>
    rw [stepOf] at hs
    split_ifs at hs with hva
    · exact (store_shared hP h0 h hpid hva hs hr).steps
    · cases hs
      exact .refl h
  | clear q =>
    obtain rfl : q = pid := he
    have hnone : ∀ r, ¬ s.holding.holds q r := fun r hr => by
      have hmem := (holds_iff hpid hm).1 hr
      rw [← regions_eq hm, show s.regions q = [] from hev] at hmem
      cases hmem
    cases hs
    exact (clear_shared hP h hpid hnone).steps
  | brk => cases hev
  | mmap q args =>
    obtain rfl : q = pid := he
    obtain ⟨hsh, hfits, hw⟩ := hev
    rw [stepOf, onMmap, hm] at hs
    obtain ⟨⟨v, m', t⟩, hmap, ⟨⟩⟩ := bind_eq_some_iff.1 hs
    rw [regions_eq hm] at hw
    exact map_shared hP h0 h hpid hm hsh hfits hw hmap hr
  | mprotect => cases hev

end Step

/-- A process without pages and regions is added. -/
theorem Shared.created {page : ℕ} {segTable : SegmentTable} {ph : Phys σ}
    (h : s.Shared live A0 l0) (hpid : pid ∉ s.pids)
    (howned : (s.add pid ⟨.new page, segTable, some .new⟩ ph).Owned live A0 s.sharedPages l1 False) :
    (s.add pid ⟨.new page, segTable, some .new⟩ ph).Shared live A0 l1 ∧
      s.sharedPages ⊆ (s.add pid ⟨.new page, segTable, some .new⟩ ph).sharedPages := by
  have hne : ∀ {q}, q ∈ s.pids → q ≠ pid := fun hq => ne_of_mem_of_not_mem hq hpid
  refine h.outside (fun q hq => ?_) ?_ rfl (fun hq _ hpte => ?_)
    (fun hpte => .inl ⟨_, hpte.of_add, rfl⟩) howned
  · by_cases hqp : q = pid
    · rw [hqp, add_proc_self]
      exact ⟨.new, rfl, laid_nil, le_rfl⟩
    · rw [add_proc_of_ne hqp]
      exact h.sharing.valid q (mem_of_mem_insert_of_ne hq hqp)
  · funext q r
    refine propext ⟨fun ⟨hq, m, hm, hr⟩ => ?_, fun ⟨hq, m, hm, hr⟩ => ?_⟩
    · by_cases hqp : q = pid
      · rw [hqp, add_proc_self] at hm
        cases hm
        cases hr
      · rw [add_proc_of_ne hqp] at hm
        exact ⟨mem_of_mem_insert_of_ne hq hqp, m, hm, hr⟩
    · exact ⟨Finset.mem_insert_of_mem hq, m, by rwa [add_proc_of_ne (hne hq)], hr⟩
  · exact ⟨Finset.mem_insert_of_mem hpte.1, hpte.2.1, by
      rw [add_proc_of_ne (hne hpte.1)]
      exact hpte.2.2⟩

include hP h0 h in
theorem step_shared (hev : s.SharedSafe P ev) (hs : s.step P ev = some (s', o)) : Steps live A0 ev.pid s s' := by
  have hr : .refused ∉ s'.ph.log := hev.2 _ hs
  by_cases hpid : ev.pid ∈ s.pids
  · unfold step at hs
    rw [if_pos hpid] at hs
    exact stepOf_shared hP h0 h hpid rfl hev.1 hs hr
  cases ev with
  | create pid =>
    rw [step, if_neg hpid] at hs
    replace hpid : pid ∉ s.pids := hpid
    obtain ⟨howned, -, ⟨hr', -⟩ | ⟨-, page, ph, rfl⟩⟩ :=
      create_spec hP h.owned hpid (Option.some.inj hs)
    · exact absurd hr' hr
    exact (Keeps.of_subset (h.created hpid howned)).steps
  | _ =>
    unfold step at hs
    rw [if_neg hpid] at hs
    cases hs
    exact .refl h

/-! ## Runs -/

/-- The system before the first process has no regions. -/
theorem Boot.shared (h : s.Boot live A0) : s.Shared live A0 s.ph.log := by
  have hnot : ∀ pid, pid ∉ s.pids := fun pid => by simp [h.pids]
  have hno : ∀ {pid r}, ¬ s.holding.holds pid r := fun hq => hnot _ hq.1
  refine ⟨⟨fun pid hpid => absurd hpid (hnot pid), ⟨fun hq => absurd hq hno, fun hq => absurd hq hno,
    fun hq => absurd hq hno, fun hq => absurd hq hno⟩, fun hq => absurd hq hno,
    fun hq => absurd hq hno, fun hq => absurd hq hno⟩, ?_⟩
  obtain ⟨A, D, hown⟩ := h.kept.owned
  exact Owned.reshare ⟨A, D, hown.mono False.elim⟩ fun p hp => absurd hp (Set.notMem_empty p)

include hP h0 h in
theorem step_ne_none (hev : s.KeepsWhole ev) (hon : OnRegions ev) : s.step P ev ≠ none := by
  by_cases hpid : ev.pid ∈ s.pids
  · obtain ⟨s', o, hs', -⟩ := stepOf_onRegions hP h0 h hpid rfl hev hon
    unfold step
    rw [if_pos hpid, hs']
    exact some_ne_none _
  · cases ev with
    | create => cases hon
    | _ =>
      unfold step
      rw [if_neg hpid]
      exact some_ne_none _

/-- In every run in which regions are removed as a whole, `exec` is called by processes without
    regions and the allocator does not refuse: no page is handed back twice, and those of regions
    are out; every `MmapSharedRef` a region refers to is counted, and none is found deleted. A page
    which an event hands back is not mapped by any other process after it, and a page of a
    region is handed back as soon as it is not the page of any region any more. -/
theorem reachable_shared {s0 : Sys σ} (hP : P.Lawful live) (h0 : ∀ s A, live s A → 0 ∉ A)
    (hboot : s0.Boot live A0) (hrun : Reaches (step P) (SharedSafe P) s0 s) :
    (∃ A, Replays A0 s.ph.log A ∧ ∀ page ∈ s.sharedPages, page ∈ A ∧ page ∉ A0) ∧
    (∀ pid ∈ s.pids, ∀ r ∈ s.regions pid, ∃ ref, r.sharedRef = some ref ∧
      0 < s.shared.refCount ref) ∧
    (∀ ev, s.KeepsWhole ev → OnRegions ev → s.step P ev ≠ none) ∧
    ∀ ev s' o, s.SharedSafe P ev → s.step P ev = some (s', o) →
      (∀ page, s.Frees s' page → ∀ q n pte, q ≠ ev.pid → s'.Maps q n pte → pte.page ≠ page) ∧
      ∀ page ∈ s.sharedPages, page ∉ s'.sharedPages → s.Frees s' page := by
  obtain ⟨l, h⟩ := hrun.inv (I := fun s => ∃ l, s.Shared live A0 l)
    (fun s ev s' o ⟨l, h⟩ hev hs => (step_shared hP h0 h hev hs).shared) ⟨_, hboot.shared⟩
  refine ⟨?_, fun pid hpid r hr => ?_, fun ev hev hon => step_ne_none hP h0 h hev hon,
    fun ev s' o hev hs => ?_⟩
  · obtain ⟨A, D, hown⟩ := h.owned
    refine ⟨A, hown.replays, fun page hp => ?_⟩
    obtain ⟨pid, r, n, -, -, pte, hpte, rfl⟩ := hp
    have hmem := mem_refs hpte.1 hpte.2.1 hpte.2.2
    exact ⟨hown.data _ hmem, fun hk => (hown.kernel _ hk).2.1 hmem⟩
  · obtain ⟨m, hm, -⟩ := h.sharing.valid pid hpid
    rw [regions_eq hm] at hr
    have hab : s.holding.holds pid r := (holds_iff hpid hm).2 hr
    obtain ⟨-, ref, -, href, hcount⟩ := h.sharing.counted hab
    refine ⟨ref, href, Nat.pos_of_ne_zero ?_⟩
    rw [hcount]
    exact Set.ncard_ne_zero_of_mem (a := pid) hab (s.holders_finite r)
  · have hst := step_shared hP h0 h hev hs
    exact ⟨hst.freed, fun page hp hp' => (hst.lasts.pages page hp).resolve_left hp'⟩

/-- Two pages are mapped as a shared region. -/
def sharedPair : Mmap.MapArgs :=
  ⟨mmapBase, 2 * pageSize, .readWrite, ⟨true, false, true, true⟩, -1, none⟩

/-- A process maps a shared region and forks; the child is left. -/
def inherited : Sys ℕ :=
  lastState (guarded (step .counting) (SharedSafe .counting)) boot
    [.create 0, .mmap 0 sharedPair, .fork 0 1, .exit 0]

/-- The child holds the region, and may end. -/
theorem reachable_shared_inherited : (∃ r ∈ inherited.regions 1, ∃ ref, r.sharedRef = some ref ∧
    0 < inherited.shared.refCount ref) ∧ inherited.step .counting (.exit 1) ≠ none := by
  have hpid : 1 ∈ inherited.pids ∧ inherited.regions 1 ≠ [] := by decide +kernel
  obtain ⟨-, hrefs, hstep, -⟩ := reachable_shared Pool.counting_lawful
    (fun _ _ => Pool.Counted.zero_notMem) boot_boot (Reaches.lastState boot _)
  obtain ⟨r, hr⟩ := exists_mem_of_ne_nil _ hpid.2
  exact ⟨⟨r, hr, hrefs 1 hpid.1 r hr⟩, hstep _ trivial trivial⟩

/-- A process maps a shared region of two pages, and unmaps the first one. -/
def trimmed : Sys ℕ :=
  lastState (guarded (step .counting) fun _ _ => True) boot
    [.create 0, .mmap 0 sharedPair, .munmap 0 mmapBase pageSize]

/-- A process maps a shared region and forks, and the parent calls `exec`. -/
def replaced : Sys ℕ :=
  lastState (guarded (step .counting) fun _ _ => True) boot
    [.create 0, .mmap 0 sharedPair, .fork 0 1, .clear 0]

/-- What is left of the region has an `MmapSharedRef` which is deleted, and which is used when the
    process ends. And `exec` hands a page back which the child still maps. -/
theorem trimmed_used : (Reaches (step .counting) (fun _ _ => True) boot trimmed ∧
      (∃ r ∈ trimmed.regions 0, r.sharedRef = some 0) ∧ trimmed.shared.refCount 0 = 0 ∧
      (trimmed.step .counting (.exit 0)).isNone) ∧
    Reaches (step .counting) (fun _ _ => True) boot replaced ∧
      .back ((replaced.proc 1).pmt.translate (vpn mmapBase)) ∈ replaced.ph.log ∧
      ((replaced.proc 1).pmt.lookup (vpn mmapBase)).isSome := by
  have htrimmed : (∃ r ∈ trimmed.regions 0, r.sharedRef = some 0) ∧ trimmed.shared.refCount 0 = 0 ∧
      (trimmed.step .counting (.exit 0)).isNone := by decide +kernel
  have hreplaced : .back ((replaced.proc 1).pmt.translate (vpn mmapBase)) ∈ replaced.ph.log ∧
      ((replaced.proc 1).pmt.lookup (vpn mmapBase)).isSome := by decide +kernel
  exact ⟨⟨.lastState _ _, htrimmed⟩, .lastState _ _, hreplaced⟩

end Sys

end HobbyOS
