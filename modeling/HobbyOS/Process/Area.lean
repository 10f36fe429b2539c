import HobbyOS.Process.Unmap

/-!
# The area of regions

`Mmap` is meant to have the addresses from `MMAP_BASE` to `MMAP_TOP` to itself. If so, every page of
the area which is mapped is in a region (`Within`), and `Mmap::map`, which looks for addresses without
regions, or removes those in the way, does not come upon a page which is mapped already
(`Within.not_mapsTwice`).

All of this is true as long as nobody else maps pages there, as a program does which has a segment in
the area, and the computations on addresses do not wrap around (`Apart`): neither
`pageRoundUp(length)`, nor `hint + len`, `len + MMAP_BASE` and `addr + roundedLen`, which are
compared with the bounds of the area afterwards (`MapArgs.NoWrap`). `map_wraps` shows what happens
otherwise.
-/

namespace HobbyOS

open Function List Nat Option Regions

variable {σ : Type*} {P : Pool σ ℕ} {n : Vpn} {r : MmapRegion} {flags : Flags} {pmt pmt' : PMT}

/-- A page of the area. -/
def Vpn.InArea (n : Vpn) : Prop := n.User ∧ mmapBase ≤ n.addr ∧ n.addr < mmapTop

theorem MmapRegion.Ok.inArea (h : r.Ok) (hn : r.Has n) : n.InArea :=
  ⟨hn.1, h.base_le.trans hn.2.1, hn.2.2.trans_le h.le_top⟩

/-! ## Entries -/

theorem rollback_cleared (a i : ℕ) (ph : Phys σ) (pmt : PMT) :
    Cleared (pageAt a) i pmt (Mmap.rollback P a i (ph, pmt)).2 :=
  forRange_induct (P := fun i (t : Phys σ × PMT) => Cleared (pageAt a) i pmt t.2) cleared_zero
    fun _ _ _ h => h.succ fun _ => PMT.unmapPage_lookup

theorem unmapPhysical_cleared (a b : ℕ) (ph : Phys σ) (pmt : PMT) :
    Cleared (pageAt a) (pageCount a b) pmt (Mmap.unmapPhysical P a b (ph, pmt)).2 :=
  forRange_induct (P := fun i (t : Phys σ × PMT) => Cleared (pageAt a) i pmt t.2) cleared_zero
    fun _ _ _ h => h.succ fun _ => PMT.unmapPage_lookup

/-- What was mapped is unmapped again. -/
theorem Filled.undo {Q : ℕ → ℕ → Prop} {f : ℕ → Vpn} {i : ℕ} {pmt'' : PMT}
    (h : Filled Q flags f i pmt pmt') (hc : Cleared f i pmt' pmt'') (n : Vpn) :
    pmt''.lookup n = pmt.lookup n := by
  by_cases hn : ∃ j < i, n = f j
  · obtain ⟨j, hj, rfl⟩ := hn
    rw [hc.inside j hj, (h.inside j hj).1]
  · push Not at hn
    rw [hc.outside n hn, h.outside n hn]

/-- `Mmap::mapPages` gets through a range where nothing is mapped, unless the allocator refuses. -/
theorem MmapRegion.Ok.mapPages_filled (hr : r.Ok) (hv : flags.v) {s : Phys σ × PMT}
    (hfree : ∀ n, r.Has n → s.2.lookup n = none) :
    (Mmap.mapPages P r.vaStart (pageCount r.vaStart r.vaEnd) flags s).Holds
      (fun t => Filled (fun _ _ => True) flags (pageAt r.vaStart) (pageCount r.vaStart r.vaEnd) s.2 t.2)
      (fun t => ∀ n, t.2.lookup n = s.2.lookup n) False := by
  refine tryRange_induct
    (P := fun i (t : Phys σ × PMT) => Filled (fun _ _ => True) flags (pageAt r.vaStart) i s.2 t.2)
    filled_zero fun i t hi ht => ?_
  have hnone : t.2.lookup (pageAt r.vaStart i) = none := by
    rw [ht.outside _ fun j hj he => hj.ne' (hr.pageAt_injective hi (hj.trans hi) he)]
    exact hfree _ (hr.pageAt_has hi)
  rw [Mmap.mapPagesStep]
  split
  next ph hp => exact ht.undo (rollback_cleared _ _ _ _)
  next page ph hp =>
    dsimp only
    have hmap := PMT.mapPage_lookup (P := P) (pageAt r.vaStart i) page hv
      ({ ph with mem := update ph.mem page fun _ => 0 }, t.2)
    have hfree : (PMT.mapPage (pageAt r.vaStart i) P page flags
      ({ ph with mem := update ph.mem page fun _ => 0 }, t.2)).Holds _ _ False :=
      mapPage_free hv hnone
    generalize PMT.mapPage _ _ _ _ _ = res at hmap hfree
    cases res with
    | ok u => exact ht.succ trivial hnone hmap.2
    | fail u => exact (ht.congr fun n => hmap n).undo (rollback_cleared _ _ _ _)
    | panic => exact hfree

namespace Mmap

variable {addr stop length va v : ℕ} {rs rs' : List MmapRegion} {m m' m1 : Mmap} {s s' : Space σ}
  {args : MapArgs} {src : PMT}

/-- The pages of a region are unmapped, whether they are freed or not. -/
theorem dropRegion_cleared (h : dropRegion P r s = some s') :
    Cleared (pageAt r.vaStart) (pageCount r.vaStart r.vaEnd) s.pmt s'.pmt := by
  have hphys : Cleared (pageAt r.vaStart) (pageCount r.vaStart r.vaEnd) s.pmt
      (unmapPhysical P r.vaStart r.vaEnd (s.ph, s.pmt)).2 := unmapPhysical_cleared _ _ _ _
  have hshared : Cleared (pageAt r.vaStart) (pageCount r.vaStart r.vaEnd) s.pmt
      (unmapPhysicalShared r.vaStart r.vaEnd (s.ph, s.pmt)).2 :=
    forRange_induct (P := fun i (t : Phys σ × PMT) => Cleared (pageAt r.vaStart) i s.pmt t.2)
      cleared_zero
      fun _ _ _ h => h.succ fun _ => PMT.unmapPage_lookup
  rw [dropRegion] at h
  split at h
  · dsimp only at h
    split_ifs at h <;>
    · cases h
      assumption
  · cases h
    exact hphys

/-- `Mmap::unmap` leaves no page of a region it meets, and maps none. -/
theorem unmapFrom_lookup (h : Laid rs) (hu : unmapFrom P addr stop rs s = some (rs', s')) (n : Vpn) :
    s'.pmt.lookup n = none ∨
      s'.pmt.lookup n = s.pmt.lookup n ∧ ∀ r ∈ rs, ¬ r.Apart addr stop → ¬ r.Has n := by
  induction rs generalizing s rs' with
  | nil =>
    cases hu
    exact .inr ⟨rfl, fun _ hr => absurd hr not_mem_nil⟩
  | cons r rs ih =>
    rw [unmapFrom] at hu
    split at hu
    next hstop =>
      cases hu
      exact .inr ⟨rfl, fun c hc hmet => absurd (.inl (h.beyond hstop c hc)) hmet⟩
    split at hu
    next haddr =>
      obtain ⟨⟨rs1, s1⟩, hu1, ⟨⟩⟩ := bind_eq_some_iff.1 hu
      refine (ih h.tail hu1).imp_right fun hsame => ⟨hsame.1, fun c hc => ?_⟩
      rcases mem_cons.1 hc with rfl | hc
      · exact fun hmet => absurd (.inr haddr) hmet
      · exact hsame.2 c hc
    · obtain ⟨s1, hdrop, hu⟩ := bind_eq_some_iff.1 hu
      obtain ⟨⟨rs1, s2⟩, hu1, ⟨⟩⟩ := bind_eq_some_iff.1 hu
      have hcleared := dropRegion_cleared hdrop
      have hok := h.ok r (.head _)
      rcases ih h.tail hu1 with hnone | ⟨hsame, hrest⟩
      · exact .inl hnone
      by_cases hn : r.Has n
      · exact .inl (hsame.trans (hok.cleared_has hcleared hn))
      · refine .inr ⟨hsame.trans (hok.cleared_not_has hcleared hn), fun c hc => ?_⟩
        rcases mem_cons.1 hc with rfl | hc
        · exact fun _ => hn
        · exact hrest c hc

/-! ## Pages are in regions -/

/-- The regions are as they should be, and the pages of the area which are mapped are in them. -/
structure Within (m : Mmap) (pmt : PMT) : Prop where
  valid : m.Valid
  inside : ∀ n, n.InArea → (pmt.lookup n).isSome → ∃ r ∈ m.regions, r.Has n

/-- In a range without regions, nothing is mapped. -/
theorem Within.free (h : Within m pmt) (hr : r.Ok) (hap : ∀ c ∈ m.regions, c.Apart r.vaStart r.vaEnd)
    (hn : r.Has n) : pmt.lookup n = none := by
  by_contra hsome
  obtain ⟨c, hc, hcn⟩ := h.inside n (hr.inArea hn) (isSome_iff_ne_none.2 hsome)
  obtain ⟨-, h₁, h₂⟩ := hn
  obtain ⟨-, h₃, h₄⟩ := hcn
  rcases hap c hc with hle | hle <;> omega

theorem Within.unmap (h : Within m s.pmt) (hfit : addr + pageRoundUp length < 2 ^ 64)
    (hu : m.unmap P addr length s = some (v, m', s')) : Within m' s'.pmt := by
  rw [Mmap.unmap] at hu
  split_ifs at hu with h0 haddr
  · cases hu
    exact h
  · cases hu
    exact h
  obtain ⟨⟨rs, s1⟩, hrs, ⟨⟩⟩ := bind_eq_some_iff.1 hu
  rw [mod_eq_of_lt hfit] at hrs
  obtain rfl := unmapFrom_regions h.valid.laid hrs
  refine ⟨⟨(h.valid.laid.cut (not_not.1 haddr) (add_pageRoundUp_mod (not_not.1 haddr) length)
    (Nat.le_add_right ..)).1, h.valid.nextHint_le⟩, fun n hn hsome => ?_⟩
  rcases unmapFrom_lookup h.valid.laid hrs n with hnone | ⟨hsame, hmet⟩
  · rw [hnone] at hsome
    cases hsome
  -- The region the page is in is not met by the range, and stays as it is.
  rw [hsame] at hsome
  obtain ⟨r, hr, hrn⟩ := h.inside n hn hsome
  have hap : r.Apart addr (addr + pageRoundUp length) := by
    by_contra hmet'
    exact hmet r hr hmet' hrn
  refine ⟨r, mem_flatMap.2 ⟨r, hr, ?_⟩, hrn⟩
  rw [pieces_apart hap]
  exact mem_singleton_self r

/-- A region is added, with the pages mapped for it. -/
theorem Within.insert (h : Within m pmt) (hr : r.Ok)
    (hap : ∀ c ∈ m.regions, c.Apart r.vaStart r.vaEnd)
    (hsame : ∀ n, ¬ r.Has n → pmt'.lookup n = pmt.lookup n) :
    Within { m with regions := insertRegion r m.regions } pmt' := by
  refine ⟨⟨h.valid.laid.insertRegion hr hap, h.valid.nextHint_le⟩, fun n hn hsome => ?_⟩
  by_cases hrn : r.Has n
  · exact ⟨r, insertRegion_mem.2 (.inl rfl), hrn⟩
  · rw [hsame n hrn] at hsome
    obtain ⟨c, hc, hcn⟩ := h.inside n hn hsome
    exact ⟨c, insertRegion_mem.2 (.inr hc), hcn⟩

theorem Within.congr (h : Within m pmt) (hsame : ∀ n, pmt'.lookup n = pmt.lookup n) :
    Within m pmt' :=
  ⟨h.valid, fun n hn hsome => h.inside n hn (by rwa [hsame n] at hsome)⟩

/-- The pages of the new region are mapped one by one. -/
theorem Within.mapPages (h : Within m s.pmt) (hr : Roomy m va args) :
    (Mmap.mapPages P va (pageRoundUp args.length / pageSize) (protToPte args.prot) (s.ph, s.pmt)).Holds
      (fun t => Filled (fun _ _ => True) (protToPte args.prot) (pageAt va)
        (pageCount va (va + pageRoundUp args.length)) s.pmt t.2)
      (fun t => ∀ n, t.2.lookup n = s.pmt.lookup n) False := by
  rw [pageCount_pageRoundUp va]
  exact (hr.ok none).mapPages_filled (s := (s.ph, s.pmt)) rfl
    fun n hn => h.free (hr.ok none) hr.apart hn

/-- `Mmap::map` from `mapPages` on. -/
theorem Within.mapAt (h : Within m s.pmt) (hr : Roomy m va args)
    (hm : mapAt P va args m s = some (v, m', s')) : Within m' s'.pmt ∧ (v = mmapFailed ∨
      v = va ∧ ∃ r ∈ m'.regions, r.vaStart = va ∧ r.vaEnd = va + pageRoundUp args.length) := by
  have hpages := h.mapPages (P := P) hr
  rw [Mmap.mapAt] at hm
  rw [mod_eq_of_lt (hr.le_top.trans_lt (by decide))] at hm
  generalize Mmap.mapPages _ _ _ _ _ = res at hm hpages
  cases res with
  | panic => cases hm
  | fail t =>
    cases hm
    exact ⟨h.congr hpages, .inl rfl⟩
  | ok t =>
    dsimp only at hm
    split at hm
    · cases hm
    next ph _ hfill =>
      -- The file cannot be read: the pages are unmapped again.
      cases hm
      exact ⟨h.congr (hpages.undo (unmapPhysical_cleared _ _ _ _)), .inl rfl⟩
    · cases hm
      have hregion : ∃ ref, (newRegion va args s.shared).1 =
          ⟨va, va + pageRoundUp args.length, args.prot, args.flags.shared, ref⟩ := by
        rw [newRegion, mod_eq_of_lt (hr.le_top.trans_lt (by decide))]
        split <;> exact ⟨_, rfl⟩
      obtain ⟨ref, hregion⟩ := hregion
      rw [hregion]
      refine ⟨h.insert (hr.ok ref) hr.apart fun n hn => hpages.outside n fun j hj he => hn ?_,
        .inr ⟨rfl, _, insertRegion_mem.2 (.inl rfl), rfl, rfl⟩⟩
      rw [he]
      exact (hr.ok ref).pageAt_has hj

/-! ## Arguments -/

/-- The computations of `Mmap::map` on addresses do not wrap around. -/
def MapArgs.NoWrap (args : MapArgs) : Prop :=
  args.length + (pageSize - 1) < 2 ^ 64 ∧ args.hint + pageRoundUp args.length < 2 ^ 64 ∧
    pageRoundUp args.length + mmapBase < 2 ^ 64

instance (args : MapArgs) : Decidable args.NoWrap := inferInstanceAs (Decidable (_ ∧ _ ∧ _))

theorem pageRoundUp_eq (h : length + (pageSize - 1) < 2 ^ 64) :
    pageRoundUp length = (length + (pageSize - 1)) / pageSize * pageSize := by
  rw [pageRoundUp, mod_eq_of_lt h]

section

variable (hargs : args.NoWrap)
  (ha : m.allocVA args.hint (pageRoundUp args.length / pageSize) args.flags.fixed = some (va, m1))

include hargs ha

/-- A range which is too long for the area is not found. -/
theorem Valid.allocVA_len (h : m.Valid) : pageRoundUp args.length ≤ mmapTop - mmapBase := by
  obtain ⟨-, hhint, hbase⟩ := hargs
  have hnext := h.nextHint_le
  rw [Mmap.allocVA] at ha
  rw [pageRoundUp_div, mod_eq_of_lt hhint, mod_eq_of_lt hbase] at ha
  split_ifs at ha with h1 h2 h3 h4 h5 h6
  · simp only [Bool.or_eq_true, decide_eq_true_eq, not_or, not_lt] at h4
    omega
  · simp only [Bool.and_eq_true, decide_eq_true_eq] at h5
    omega
  · omega

/-- Where `Mmap::map` comes to `mapPages`, there is room. -/
theorem Within.roomy (h : Within m s.pmt) (hpos : 0 < args.length) :
    Within m1 s.pmt ∧ (args.flags.fixed = false → Roomy m1 va args) ∧
      ∀ v m2 s2, m1.unmap P va (pageRoundUp args.length) s = some (v, m2, s2) →
        Within m2 s2.pmt ∧ Roomy m2 va args := by
  have hlen := h.valid.allocVA_len hargs ha
  have hpos' : 0 < pageRoundUp args.length := by
    rw [pageRoundUp_eq hargs.1]
    simp only [pageSize]
    omega
  obtain ⟨hv1, hregions, hroom, hlt, hun⟩ := h.valid.roomy (P := P) hpos' hlen hargs.2.1 ha
  have h₁ : Within m1 s.pmt := ⟨hv1, by rw [hregions]; exact h.inside⟩
  exact ⟨h₁, hroom, fun v m2 s2 hu => ⟨h₁.unmap hlt hu, hun v m2 s2 hu⟩⟩

end

/-- `Mmap::map` gets to a page which is mapped already. -/
def MapsTwice (P : Pool σ ℕ) (args : MapArgs) (m : Mmap) (s : Space σ) : Prop :=
  0 < args.length ∧ ∃ va m1 s1,
    m.allocVA args.hint (pageRoundUp args.length / pageSize) args.flags.fixed = some (va, m1) ∧
    (if args.flags.fixed then ∃ v m2, m1.unmap P va (pageRoundUp args.length) s = some (v, m2, s1)
      else s1 = s) ∧
    mapPages P va (pageRoundUp args.length / pageSize) (protToPte args.prot) (s1.ph, s1.pmt) = .panic

theorem Within.not_mapsTwice (h : Within m s.pmt) (hargs : args.NoWrap) : ¬ MapsTwice P args m s := by
  rintro ⟨hpos, va, m1, s1, ha, hs1, hpanic⟩
  obtain ⟨h₁, hroomy, hun⟩ := h.roomy (P := P) hargs ha hpos
  split at hs1
  · obtain ⟨v, m2, hu⟩ := hs1
    obtain ⟨h₂, hroomy2⟩ := hun v m2 s1 hu
    have := h₂.mapPages (P := P) hroomy2
    rwa [hpanic] at this
  next hfixed =>
    subst hs1
    have := h₁.mapPages (P := P) (hroomy (Bool.not_eq_true _ ▸ hfixed))
    rwa [hpanic] at this

theorem map_length_zero (h : args.length = 0) : m.map P args s = some (mmapFailed, m, s) :=
  if_pos h

theorem Within.map (h : Within m s.pmt) (hargs : args.NoWrap)
    (hm : m.map P args s = some (v, m', s')) : Within m' s'.pmt ∧ (v = mmapFailed ∨
      ∃ r ∈ m'.regions, r.vaStart = v ∧ r.vaEnd = v + pageRoundUp args.length) := by
  obtain h0 | hpos := args.length.eq_zero_or_pos
  · rw [map_length_zero h0] at hm
    cases hm
    exact ⟨h, .inl rfl⟩
  rcases map_cases hm with ⟨rfl, rfl, rfl⟩ | ⟨-, va, m1, ha, hm⟩
  · exact ⟨h, .inl rfl⟩
  obtain ⟨h₁, hroomy, hun⟩ := h.roomy (P := P) hargs ha hpos
  rcases hm with ⟨hfixed, hm⟩ | ⟨-, u, m2, s2, hu, hm⟩
  · refine (h₁.mapAt (hroomy hfixed) hm).imp_right fun hv => hv.imp_right ?_
    rintro ⟨rfl, hr⟩
    exact hr
  · obtain ⟨h₂, hroomy2⟩ := hun u m2 s2 hu
    refine (h₂.mapAt hroomy2 hm).imp_right fun hv => hv.imp_right ?_
    rintro ⟨rfl, hr⟩
    exact hr

/-! ## Forks -/

/-- `Mmap::clone` maps pages of the regions only. -/
theorem cloneRegion_lookup {t t' : Phys σ × PMT} (hr : r.Ok) (hc : cloneRegion P src r t = .ok t')
    (hn : ¬ r.Has n) : t'.2.lookup n = t.2.lookup n := by
  have hne : ∀ i < pageCount r.vaStart r.vaEnd, n ≠ pageAt r.vaStart i := fun i hi he =>
    hn (he ▸ hr.pageAt_has hi)
  have hmap (page : ℕ) {i : ℕ} (hi : i < pageCount r.vaStart r.vaEnd) (u : Phys σ × PMT)
      (hu : u.2.lookup n = t.2.lookup n) :
      (PMT.mapPage (pageAt r.vaStart i) P page (protToPte r.prot) u).ignore.Holds
        (fun u => u.2.lookup n = t.2.lookup n) (fun _ => True) True := by
    refine ((PMT.mapPage_lookup (P := P) _ page rfl u).imp (fun w hw => ?_) fun w hw => ?_).ignore
    · rw [hw.2, if_neg (hne i hi), hu]
    · rw [hw, hu]
  suffices h : (cloneRegion P src r t).Holds (fun u => u.2.lookup n = t.2.lookup n)
      (fun _ => True) True by
    rwa [hc] at h
  rw [cloneRegion]
  split
  · rw [cloneShared, hr.div_eq_pageCount]
    refine tryRange_induct (P := fun _ (u : Phys σ × PMT) => u.2.lookup n = t.2.lookup n) rfl
      fun i u hi hu => ?_
    dsimp only
    split_ifs
    · exact hu
    · exact hmap _ hi u hu
  · rw [clonePrivate, hr.div_eq_pageCount]
    refine tryRange_induct (P := fun _ (u : Phys σ × PMT) => u.2.lookup n = t.2.lookup n) rfl
      fun i u hi hu => ?_
    dsimp only
    split_ifs
    · exact hu
    · split
      · trivial
      · exact hmap _ hi _ hu

theorem cloneFrom_lookup {done : List MmapRegion} (h : ∀ r ∈ rs, r.Ok)
    (hc : cloneFrom P src rs done s = some (some rs', s')) (hn : ∀ r ∈ rs, ¬ r.Has n) :
    s'.pmt.lookup n = s.pmt.lookup n := by
  induction rs generalizing done s with
  | nil =>
    cases hc
    rfl
  | cons r rs ih =>
    rw [forall_mem_cons] at h hn
    rw [cloneFrom] at hc
    split at hc
    · cases hc
    · obtain ⟨s1, -, ⟨⟩⟩ := bind_eq_some_iff.1 hc
    next ph pmt hregion =>
      obtain ⟨shared, -, hc⟩ := bind_eq_some_iff.1 hc
      rw [ih h.2 hc hn.2]
      exact cloneRegion_lookup h.1 hregion hn.1

/-- The child has the regions of its parent, and the pages of the area it maps are in them. -/
theorem Within.clone (h : Within m src) (hfree : ∀ n, n.InArea → s.pmt.lookup n = none)
    (hc : m.clone P src s = some (some m', s')) : Within m' s'.pmt := by
  have hm := clone_regions h.valid hc
  obtain ⟨⟨regions, s1⟩, hrs, he⟩ := bind_eq_some_iff.1 hc
  cases regions with
  | none => cases he
  | some rs =>
    cases he
    rw [hm]
    refine ⟨h.valid, fun n hn hsome => ?_⟩
    by_contra hno
    push Not at hno
    rw [cloneFrom_lookup h.valid.laid.ok hrs hno, hfree n hn] at hsome
    cases hsome

end Mmap

/-! ## Runs -/

/-- The regions of a process, and its page table. -/
structure Area where
  mmap : Mmap
  pmt : PMT

/-- What happens to the areas of processes, with the memory it works on. -/
inductive AreaEvent (σ : Type*)
  /-- A process begins, or another program is loaded. -/
  | create (pid : ℕ) (pmt : PMT)
  | map (pid : ℕ) (args : Mmap.MapArgs) (ph : Phys σ) (shared : SharedRefs)
  | unmap (pid addr length : ℕ) (ph : Phys σ) (shared : SharedRefs)
  /-- `Mmap::clone`, after the rest of the table was copied. -/
  | clone (pid child : ℕ) (s : Space σ)
  /-- Anything else is done to the page table. -/
  | other (pid : ℕ) (pmt : PMT)

namespace Area

open Mmap

variable (P : Pool σ ℕ)

/-- A call of `Mmap` for a process. -/
def call (as : ℕ → Option Area) (pid : ℕ) (ph : Phys σ) (shared : SharedRefs)
    (f : Mmap → Space σ → Option (ℕ × Mmap × Space σ)) : Option ((ℕ → Option Area) × ℕ) :=
  (as pid).bind fun a => (f a.mmap ⟨ph, a.pmt, shared⟩).map fun o =>
    (update as pid (some ⟨o.2.1, o.2.2.pmt⟩), o.1)

/-- One event; a process whose `Mmap::clone` failed has no area. -/
def step (as : ℕ → Option Area) : AreaEvent σ → Option ((ℕ → Option Area) × ℕ)
  | .create pid pmt => some (update as pid (some ⟨.new, pmt⟩), 0)
  | .map pid args ph shared => call as pid ph shared (Mmap.map P args)
  | .unmap pid addr length ph shared => call as pid ph shared (Mmap.unmap P addr length)
  | .clone pid child s => (as pid).bind fun a => (a.mmap.clone P a.pmt s).map fun o =>
      (update as child (o.1.map fun m => ⟨m, o.2.pmt⟩), 0)
  | .other pid pmt => (as pid).map fun a => (update as pid (some { a with pmt := pmt }), 0)

/-- The calls do not wrap around, and nobody else maps pages of the area. -/
def Apart (as : ℕ → Option Area) : AreaEvent σ → Prop
  | .create _ pmt => ∀ n, n.InArea → pmt.lookup n = none
  | .map _ args _ _ => args.NoWrap
  | .unmap _ addr length _ _ => addr + pageRoundUp length < 2 ^ 64
  | .clone _ _ s => ∀ n, n.InArea → s.pmt.lookup n = none
  | .other pid pmt => ∀ a, as pid = some a → ∀ n, n.InArea → (pmt.lookup n).isSome →
      (a.pmt.lookup n).isSome

variable {P} {as as' : ℕ → Option Area} {pid v : ℕ}

/-- All areas are as they should be. -/
def AllWithin (as : ℕ → Option Area) : Prop := ∀ pid a, as pid = some a → Within a.mmap a.pmt

theorem AllWithin.update {o : Option Area} (h : AllWithin as)
    (ho : ∀ a, o = some a → Within a.mmap a.pmt) : AllWithin (update as pid o) := by
  intro q a ha
  rcases eq_or_ne q pid with rfl | hne
  · rw [update_self] at ha
    exact ho a ha
  · rw [update_of_ne hne] at ha
    exact h q a ha

theorem AllWithin.call {ph : Phys σ} {shared : SharedRefs}
    {f : Mmap → Space σ → Option (ℕ × Mmap × Space σ)} (h : AllWithin as)
    (hf : ∀ m s v m' s', Within m s.pmt → f m s = some (v, m', s') → Within m' s'.pmt)
    (hs : call as pid ph shared f = some (as', v)) : AllWithin as' := by
  obtain ⟨a, ha, hs⟩ := bind_eq_some_iff.1 hs
  obtain ⟨⟨v, m', s'⟩, hm', ⟨⟩⟩ := map_eq_some_iff.1 hs
  refine h.update fun a' he => ?_
  obtain rfl := Option.some.inj he
  exact hf a.mmap _ v m' s' (h pid a ha) hm'

theorem step_allWithin {e : AreaEvent σ} (h : AllWithin as) (he : Apart as e)
    (hs : step P as e = some (as', v)) : AllWithin as' := by
  cases e with
  | create pid pmt =>
    cases hs
    refine h.update fun a ha => ?_
    obtain rfl := Option.some.inj ha
    refine ⟨⟨laid_nil, le_rfl⟩, fun n hn hsome => ?_⟩
    rw [he n hn] at hsome
    cases hsome
  | map pid args ph shared => exact h.call (fun m s v m' s' hm hf => (hm.map he hf).1) hs
  | unmap pid addr length ph shared => exact h.call (fun m s v m' s' hm hf => hm.unmap he hf) hs
  | clone pid child s =>
    obtain ⟨a, ha, hs⟩ := bind_eq_some_iff.1 hs
    obtain ⟨⟨o, s'⟩, hc, he'⟩ := map_eq_some_iff.1 hs
    cases he'
    refine h.update fun a' ha' => ?_
    obtain ⟨m', rfl, rfl⟩ := map_eq_some_iff.1 ha'
    exact (h pid a ha).clone he hc
  | other pid pmt =>
    obtain ⟨a, ha, he'⟩ := map_eq_some_iff.1 hs
    cases he'
    refine h.update fun a' ha' => ?_
    obtain rfl := Option.some.inj ha'
    exact ⟨(h pid a ha).valid, fun n hn hsome => (h pid a ha).inside n hn (he a ha n hn hsome)⟩

/-- In every state reached by calls which do not wrap around: a call of `Mmap::map` which does not
    wrap around fails, or makes a region of as many pages as the length takes up, inside of the area
    and apart from the others; `Mmap::unmap` leaves the regions sorted and disjoint; and no page is
    mapped twice. -/
theorem reachable_noWrap (h : Reaches (step P) Apart (fun _ => none) as) {a : Area}
    (ha : as pid = some a) (ph : Phys σ) (shared : SharedRefs) :
    (∀ args v m' s', args.NoWrap → a.mmap.map P args ⟨ph, a.pmt, shared⟩ = some (v, m', s') →
      v = mmapFailed ∨ ∃ r ∈ m'.regions, r.vaStart = v ∧
        r.vaEnd = v + (args.length + (pageSize - 1)) / pageSize * pageSize ∧ r.vaStart < r.vaEnd ∧
        mmapBase ≤ r.vaStart ∧ r.vaEnd ≤ mmapTop ∧
        ∀ c ∈ m'.regions, c ≠ r → c.Apart r.vaStart r.vaEnd) ∧
    (∀ addr length v m' s', addr + pageRoundUp length < 2 ^ 64 →
      a.mmap.unmap P addr length ⟨ph, a.pmt, shared⟩ = some (v, m', s') → Laid m'.regions) ∧
    ∀ args, args.NoWrap → ¬ MapsTwice P args a.mmap ⟨ph, a.pmt, shared⟩ := by
  have hw : Within a.mmap a.pmt := h.inv (I := AllWithin)
    (fun _ _ _ _ hI he hs => step_allWithin hI he hs) (fun _ _ ha => by cases ha) pid a ha
  refine ⟨fun args v m' s' hargs hm => ?_, fun addr length v m' s' hfit hu => ?_,
    fun args hargs => Within.not_mapsTwice (s := ⟨ph, a.pmt, shared⟩) hw hargs⟩
  · obtain ⟨hw', hv⟩ := Within.map (s := ⟨ph, a.pmt, shared⟩) hw hargs hm
    refine hv.imp_right ?_
    rintro ⟨r, hr, hstart, hend⟩
    have hok := hw'.valid.laid.ok r hr
    exact ⟨r, hr, hstart, by rw [hend, pageRoundUp_eq hargs.1], hok.nonempty, hok.base_le, hok.le_top,
      fun c hc hne => hw'.valid.laid.apart_of_ne hr hc hne⟩
  · exact (Within.unmap (s := ⟨ph, a.pmt, shared⟩) hw hfit hu).valid.laid

/-- A page, at any address. -/
def page : MapArgs := ⟨0, pageSize, .readWrite, ⟨false, true, false, true⟩, -1, none⟩

/-- Four pages are mapped, the second one is unmapped again, and the process forks. -/
def forked : ℕ → Option Area :=
  lastState (step .counting) (fun _ => none) [.create 0 (.new 0), .map 0
      ⟨mmapBase, 4 * pageSize, .readWrite, page.flags, -1, none⟩ blank.ph blank.shared,
    .unmap 0 (mmapBase + pageSize) pageSize blank.ph blank.shared, .clone 0 1 blank]

theorem reaches_forked : Reaches (step .counting) Apart (fun _ => none) forked :=
  .of_allowed ⟨fun _ _ => rfl, fun _ _ _ => ⟨show MapArgs.NoWrap _ by decide, fun _ _ _ =>
    ⟨show _ < _ by decide, fun _ _ _ => ⟨fun _ _ => rfl, fun _ _ _ => trivial⟩⟩⟩⟩

/-- The child maps a page, at the end of the area, apart from the regions of its parent. -/
theorem reachable_noWrap_page : ∃ a m' s', forked 1 = some a ∧
    a.mmap.regions.map (fun r => (r.vaStart, r.vaEnd)) =
      [(mmapBase, mmapBase + pageSize), (mmapBase + 2 * pageSize, mmapBase + 4 * pageSize)] ∧
    a.mmap.map .counting page ⟨blank.ph, a.pmt, blank.shared⟩ =
      some (mmapTop - pageSize, m', s') ∧ ∃ r ∈ m'.regions, r.vaStart = mmapTop - pageSize ∧
      r.vaEnd = mmapTop ∧ ∀ c ∈ m'.regions, c ≠ r → c.Apart r.vaStart r.vaEnd := by
  obtain ⟨a, ha, hregions, m', s', hm, -⟩ : ∃ a, forked 1 = some a ∧
      a.mmap.regions.map (fun r => (r.vaStart, r.vaEnd)) =
        [(mmapBase, mmapBase + pageSize), (mmapBase + 2 * pageSize, mmapBase + 4 * pageSize)] ∧
      ∃ m' s', a.mmap.map .counting page ⟨blank.ph, a.pmt, blank.shared⟩ =
        some (mmapTop - pageSize, m', s') ∧ True := by
    decide +kernel
  rcases (reachable_noWrap reaches_forked ha blank.ph blank.shared).1 page _ m' s' (by decide) hm with
    hfailed | ⟨r, hr, h₁, h₂, -, -, -, hap⟩
  · exact absurd hfailed (by decide)
  · exact ⟨a, m', s', ha, hregions, hm, r, hr, h₁, h₂, hap⟩

/-- Four pages are mapped. -/
def four : Mmap × Space ℕ :=
  ((Mmap.new.map .counting ⟨mmapBase, 4 * pageSize, .readWrite, ⟨false, true, true, true⟩, -1, none⟩
    blank).map Prod.snd).getD (.new, blank)

/-- Mapping pages over the end of the addresses, where others are mapped. -/
def beyond : MapArgs :=
  ⟨mmapBase, 2 ^ 64 - pageSize, .readWrite, ⟨false, true, true, true⟩, -1, none⟩

theorem mapsTwice_beyond : MapsTwice .counting beyond pair.1 pair.2 := by
  have hunmap : pair.1.unmap .counting mmapBase (pageRoundUp beyond.length) pair.2 =
      some (0, pair.1, pair.2) := by
    rw [Mmap.unmap, if_neg (by decide), if_neg (by decide), pair_regions, unmapFrom,
      if_pos (by decide), ← pair_regions]
    rfl
  have hsome : (pair.2.pmt.lookup (pageAt mmapBase 0)).isSome := by decide +kernel
  obtain ⟨pte, hpte⟩ := isSome_iff_exists.1 hsome
  refine ⟨by decide, mmapBase, pair.1, pair.2, rfl, ⟨0, pair.1, hunmap⟩, ?_⟩
  refine tryRange_stop (k := 1) (fun _ => rfl) (by decide) ?_
  rw [tryRange, tryRange, Outcome.ok_andThen, mapPagesStep]
  split
  next hp => cases hp
  · dsimp only
    rw [mapPage_of_lookup hpte]

/-- What the computations which wrap around lead to: a length which is rounded up to `0` makes a
    region without pages; a range which ends below its beginning leaves regions which overlap; and
    another one makes the kernel map a page twice. -/
theorem map_wraps : ((Mmap.new.map .counting { page with length := 2 ^ 64 - 1 } blank).map fun o =>
      (o.1, o.2.1.regions.map fun r => (r.vaStart, r.vaEnd))) = some (mmapTop, [(mmapTop, mmapTop)]) ∧
    ((four.1.unmap .counting (mmapBase + 2 * pageSize) (2 ^ 64 - pageSize) four.2).map fun o =>
      (o.1, o.2.1.regions.map fun r => (r.vaStart, r.vaEnd))) =
      some (0, [(mmapBase, mmapBase + 2 * pageSize), (mmapBase + pageSize, mmapBase + 4 * pageSize)]) ∧
    MapsTwice .counting beyond pair.1 pair.2 :=
  ⟨by decide +kernel, by decide +kernel, mapsTwice_beyond⟩

end Area

end HobbyOS
