import HobbyOS.Machine
import HobbyOS.Vm.Mmap

/-!
# The regions of processes

`Mmap` keeps its regions sorted, and apart from each other (`Laid`), whatever a process
maps and unmaps:

* `Mmap::unmap` cuts the range out of every region it meets (`unmapFrom_regions`): what is
  left are pieces of the regions, outside of the range;
* `Mmap::isFree` stops at the first region beyond the range, which is right since the
  regions are sorted (`isFree_apart`);
* `Mmap::map` adds a region where there is none (`Valid.map`), and none at all if a page
  cannot be allocated;
* `Mmap::clone` gives the child the same regions (`clone_regions`).

None of this depends on the memory behind the regions. So a step of the machine (`Regions.step`)
works on any memory, page table and reference counts, and pages may be refused at any point.
-/

namespace HobbyOS

open Function List Nat Option

/-- The range from `start` to before `stop` does not meet that of the region. -/
def MmapRegion.Apart (r : MmapRegion) (start stop : ℕ) : Prop := stop ≤ r.vaStart ∨ r.vaEnd ≤ start

/-- A region as it should be. -/
structure MmapRegion.Ok (r : MmapRegion) : Prop where
  start_aligned : r.vaStart % pageSize = 0
  end_aligned : r.vaEnd % pageSize = 0
  nonempty : r.vaStart < r.vaEnd
  base_le : mmapBase ≤ r.vaStart
  le_top : r.vaEnd ≤ mmapTop

namespace Mmap

/-- The regions are sorted, and pairwise disjoint. -/
structure Laid (rs : List MmapRegion) : Prop where
  ok : ∀ r ∈ rs, r.Ok
  apart : rs.Pairwise fun a b => a.vaEnd ≤ b.vaStart

/-- The address is in a region. -/
def Covers (rs : List MmapRegion) (va : ℕ) : Prop := ∃ r ∈ rs, r.vaStart ≤ va ∧ va < r.vaEnd

variable {σ : Type*} {P : Pool σ ℕ} {addr stop len va v hint pages : ℕ} {r c : MmapRegion}
  {rs rs' done : List MmapRegion} {s s' : Space σ} {m m' : Mmap} {args : MapArgs} {src : PMT}

theorem Laid.tail (h : Laid (r :: rs)) : Laid rs :=
  ⟨fun c hc => h.ok c (mem_cons_of_mem r hc), (pairwise_cons.1 h.apart).2⟩

theorem laid_nil : Laid [] := ⟨by simp, .nil⟩

/-- The regions after one which begins beyond a range do so, too. -/
theorem Laid.beyond (h : Laid (r :: rs)) (hr : stop ≤ r.vaStart) :
    ∀ c ∈ r :: rs, stop ≤ c.vaStart := by
  intro c hc
  rcases mem_cons.1 hc with rfl | hc
  · exact hr
  · have hle : r.vaEnd ≤ c.vaStart := (pairwise_cons.1 h.apart).1 c hc
    have hne := (h.ok r (.head _)).nonempty
    omega

/-! ## Unmapping -/

/-- What `Mmap::unmap` leaves of a region. -/
def pieces (addr stop : ℕ) (r : MmapRegion) : List MmapRegion :=
  if stop ≤ r.vaStart ∨ r.vaEnd ≤ addr then [r] else trim addr stop r

theorem pieces_apart (h : r.Apart addr stop) : pieces addr stop r = [r] := if_pos h

/-- The regions are cut one by one; those beyond the range, which the loop does not get to, are
    not met by it. -/
theorem unmapFrom_regions (h : Laid rs) (hu : unmapFrom P addr stop rs s = some (rs', s')) :
    rs' = rs.flatMap (pieces addr stop) := by
  induction rs generalizing s rs' with
  | nil =>
    cases hu
    rfl
  | cons r rs ih =>
    rw [unmapFrom] at hu
    split at hu
    next hstop =>
      cases hu
      -- The loop ends here: nothing is cut from this region or from those after it.
      have hself : (r :: rs).flatMap (pieces addr stop) = (r :: rs).flatMap fun c => [c] :=
        flatMap_congr fun c hc => pieces_apart (.inl (h.beyond hstop c hc))
      rw [hself, flatMap_singleton']
    next hstop =>
      split at hu
      next haddr =>
        obtain ⟨⟨rs1, s1⟩, hu1, ⟨⟩⟩ := bind_eq_some_iff.1 hu
        rw [flatMap_cons, pieces_apart (.inr haddr), ← ih h.tail hu1]
        rfl
      next haddr =>
        obtain ⟨s1, -, hu⟩ := bind_eq_some_iff.1 hu
        obtain ⟨⟨rs1, s2⟩, hu1, ⟨⟩⟩ := bind_eq_some_iff.1 hu
        rw [flatMap_cons, pieces, if_neg (by tauto), ← ih h.tail hu1]

/-- A piece of a region is inside of it, and outside of the range. -/
theorem piece_sub (hr : r.Ok) (haddr : addr % pageSize = 0) (hstop : stop % pageSize = 0)
    (hc : c ∈ pieces addr stop r) :
    c.Ok ∧ r.vaStart ≤ c.vaStart ∧ c.vaEnd ≤ r.vaEnd ∧ c.Apart addr stop := by
  obtain ⟨h1, h2, h3, h4, h5⟩ := hr
  unfold pieces at hc
  split_ifs at hc with hap
  · obtain rfl := mem_singleton.1 hc
    exact ⟨⟨h1, h2, h3, h4, h5⟩, le_rfl, le_rfl, hap⟩
  rw [not_or, not_le, not_le] at hap
  rcases mem_append.1 hc with hc | hc
  · -- What is left before the range.
    split_ifs at hc with hlt
    · obtain rfl := mem_singleton.1 hc
      exact ⟨⟨h1, haddr, hlt, h4, hap.2.le.trans h5⟩, le_rfl, hap.2.le, .inr le_rfl⟩
    · cases hc
  · -- What is left after it.
    split at hc
    next hlt =>
      obtain rfl := mem_singleton.1 hc
      exact ⟨⟨hstop, h2, hlt, h4.trans hap.1.le, h5⟩, hap.1.le, le_rfl, .inl le_rfl⟩
    · cases hc

/-- A piece before the range ends before a piece after it begins. -/
theorem pieces_pairwise (r : MmapRegion) (hle : addr ≤ stop) :
    (pieces addr stop r).Pairwise fun a b => a.vaEnd ≤ b.vaStart := by
  rw [pieces, trim]
  split_ifs <;> simp [hle]

/-- No address of a region outside of the range is lost. -/
theorem exists_piece (hva : r.vaStart ≤ va ∧ va < r.vaEnd) (hout : ¬ (addr ≤ va ∧ va < stop)) :
    ∃ c ∈ pieces addr stop r, c.vaStart ≤ va ∧ va < c.vaEnd := by
  rw [pieces]
  split
  · exact ⟨r, mem_singleton_self r, hva⟩
  rcases Nat.lt_or_ge va addr with hlt | hge
  · refine ⟨{ r with vaEnd := addr }, mem_append_left _ ?_, hva.1, hlt⟩
    rw [if_pos (hva.1.trans_lt hlt)]
    exact mem_singleton_self _
  have hstop : stop ≤ va := by
    by_contra hlt
    exact hout ⟨hge, not_le.1 hlt⟩
  rw [trim, if_pos (hstop.trans_lt hva.2)]
  exact ⟨_, mem_append_right _ (mem_singleton_self _), hstop, hva.2⟩

/-- Regions of which a range is cut out. -/
theorem Laid.cut (h : Laid rs) (haddr : addr % pageSize = 0) (hstop : stop % pageSize = 0)
    (hle : addr ≤ stop) : Laid (rs.flatMap (pieces addr stop)) ∧
      (∀ c ∈ rs.flatMap (pieces addr stop), c.Apart addr stop) ∧
      ∀ va, ¬ (addr ≤ va ∧ va < stop) → (Covers (rs.flatMap (pieces addr stop)) va ↔ Covers rs va) := by
  have hsub {r c : MmapRegion} (hr : r ∈ rs) (hc : c ∈ pieces addr stop r) :=
    piece_sub (h.ok r hr) haddr hstop hc
  refine ⟨⟨fun c hc => ?_, ?_⟩, fun c hc => ?_, fun va hout => ⟨?_, ?_⟩⟩
  · obtain ⟨r, hr, hc⟩ := mem_flatMap.1 hc
    exact (hsub hr hc).1
  · -- The pieces of two regions are apart since the regions are.
    refine pairwise_flatMap.2 ⟨fun r _ => pieces_pairwise r hle, ?_⟩
    refine h.apart.imp_of_mem fun {a b} ha hb hab c hc d hd => ?_
    exact (hsub ha hc).2.2.1.trans (hab.trans (hsub hb hd).2.1)
  · obtain ⟨r, hr, hc⟩ := mem_flatMap.1 hc
    exact (hsub hr hc).2.2.2
  · rintro ⟨c, hc, h1, h2⟩
    obtain ⟨r, hr, hc⟩ := mem_flatMap.1 hc
    obtain ⟨-, h3, h4, -⟩ := hsub hr hc
    exact ⟨r, hr, h3.trans h1, h2.trans_le h4⟩
  · rintro ⟨r, hr, hva⟩
    obtain ⟨c, hc, hva⟩ := exists_piece hva hout
    exact ⟨c, mem_flatMap.2 ⟨r, hr, hc⟩, hva⟩

theorem pageRoundUp_mod (n : ℕ) : pageRoundUp n % pageSize = 0 := mul_mod_left ..

theorem add_pageRoundUp_mod (h : addr % pageSize = 0) (n : ℕ) :
    (addr + pageRoundUp n) % pageSize = 0 := by
  rw [add_mod, h, pageRoundUp_mod]
  rfl

/-- What `Mmap::unmap` does to the regions. -/
theorem unmap_regions {length : ℕ} (h : Laid m.regions)
    (hlen : addr + pageRoundUp length < 2 ^ 64) (hu : unmap P addr length m s = some (v, m', s')) :
    (v = mmapFailed ∧ m' = m ∧ (length = 0 ∨ addr % pageSize ≠ 0)) ∨ (addr % pageSize = 0 ∧
        m' = { m with regions := m.regions.flatMap (pieces addr (addr + pageRoundUp length)) }) := by
  rw [unmap] at hu
  split at hu
  next h0 =>
    cases hu
    exact .inl ⟨rfl, rfl, .inl h0⟩
  split_ifs at hu with haddr
  · cases hu
    exact .inl ⟨rfl, rfl, .inr haddr⟩
  · obtain ⟨⟨rs, s1⟩, hrs, ⟨⟩⟩ := bind_eq_some_iff.1 hu
    rw [mod_eq_of_lt hlen] at hrs
    exact .inr ⟨not_not.1 haddr, by rw [unmapFrom_regions h hrs]⟩

/-! ## Mapping -/

/-- The early exit of `Mmap::isFree` is right, since the regions are sorted. -/
theorem isFree_apart (h : Laid rs) (hlen : addr + len < 2 ^ 64) (hf : isFree addr len rs = true) :
    ∀ r ∈ rs, r.Apart addr (addr + len) := by
  induction rs with
  | nil => simp
  | cons r rs ih =>
    rw [isFree, mod_eq_of_lt hlen] at hf
    split at hf
    next hstop => exact fun c hc => .inl (h.beyond hstop c hc)
    split at hf
    · cases hf
    next haddr =>
      intro c hc
      rcases mem_cons.1 hc with rfl | hc
      · exact .inr (not_lt.1 haddr)
      · exact ih h.tail hf c hc

/-- The loop of `Mmap::allocVA` goes down page by page. -/
theorem allocFrom_some {candidate : ℕ} (h : allocFrom rs len candidate = some va) :
    mmapBase ≤ va ∧ va ≤ candidate ∧ va % pageSize = candidate % pageSize ∧
      isFree va len rs = true := by
  fun_induction allocFrom rs len candidate with
  | case1 => cases h
  | case2 candidate hbase hfree =>
    cases h
    exact ⟨not_lt.1 hbase, le_rfl, rfl, hfree⟩
  | case3 => cases h
  | case4 candidate _ _ hpage ih =>
    obtain ⟨h1, h2, h3, h4⟩ := ih h
    refine ⟨h1, h2.trans (sub_le ..), ?_, h4⟩
    rw [h3, ← mod_eq_sub_mod (not_lt.1 hpage)]

/-- The regions of a process, and where it looks for room next. -/
structure Valid (m : Mmap) : Prop where
  laid : Laid m.regions
  nextHint_le : m.nextHint ≤ mmapTop

/-- The range `Mmap::allocVA` finds is where regions may be, and unless it was asked for a fixed
    address, there is no region. -/
theorem Valid.allocVA {fixed : Bool} (h : m.Valid) (hlen : pages * pageSize ≤ mmapTop - mmapBase)
    (hhint : hint + pages * pageSize < 2 ^ 64) (ha : m.allocVA hint pages fixed = some (va, m')) :
    m'.Valid ∧ m'.regions = m.regions ∧ va % pageSize = 0 ∧ mmapBase ≤ va ∧
      va + pages * pageSize ≤ mmapTop ∧
      (fixed = false → ∀ r ∈ m.regions, r.Apart va (va + pages * pageSize)) := by
  have htop : mmapTop < 2 ^ 64 := by decide
  rw [Mmap.allocVA] at ha
  simp only [mod_eq_of_lt hhint] at ha
  split at ha
  next hfixed =>
    split_ifs at ha with h0 h1 h2
    cases ha
    simp only [Bool.or_eq_true, decide_eq_true_eq, not_or, not_lt] at h2
    exact ⟨h, rfl, not_not.1 h1, h2.1, h2.2, by simp [hfixed]⟩
  next hfixed =>
    split_ifs at ha with h0 h1
    · -- The hint is free.
      cases ha
      simp only [Bool.and_eq_true, decide_eq_true_eq, ne_eq] at h0
      obtain ⟨⟨⟨⟨-, h1⟩, h2⟩, h3⟩, h4⟩ := h0
      exact ⟨h, rfl, h1, h2, h3, fun _ => isFree_apart h.laid hhint h4⟩
    -- Room is looked for downwards from the last range which was found.
    obtain ⟨va', hva, ⟨⟩⟩ := map_eq_some_iff.1 ha
    obtain ⟨h2, h3, h4, h5⟩ := allocFrom_some hva
    have hnext := h.nextHint_le
    have hlen' : pages * pageSize + mmapBase < 2 ^ 64 := by
      simp only [mmapBase, mmapTop] at *
      omega
    rw [mod_eq_of_lt hlen'] at h1
    have hle : va + pages * pageSize ≤ m.nextHint := by
      refine (Nat.add_le_add_right (h3.trans (div_mul_le_self ..)) _).trans ?_
      rw [sub64, if_pos (by omega)]
      omega
    refine ⟨⟨h.laid, by dsimp only; omega⟩, rfl, ?_, h2, hle.trans hnext, fun _ => ?_⟩
    · rw [h4, mul_mod_left]
    · exact isFree_apart h.laid (by omega) h5

/-- A fixed address is taken as it is. -/
theorem allocVA_fixed (ha : m.allocVA hint pages true = some (va, m')) : va = hint ∧ m' = m := by
  rw [Mmap.allocVA] at ha
  rw [if_pos rfl] at ha
  split_ifs at ha
  cases ha
  exact ⟨rfl, rfl⟩

theorem insertRegion_mem : c ∈ insertRegion r rs ↔ c = r ∨ c ∈ rs := by
  induction rs with
  | nil => simp [insertRegion]
  | cons d rs ih =>
    rw [insertRegion]
    split
    · rw [mem_cons, ih, mem_cons]
      tauto
    · rw [mem_cons]

/-- A region where there is none is inserted where it belongs. -/
theorem Laid.insertRegion (h : Laid rs) (hr : r.Ok) (hap : ∀ c ∈ rs, c.Apart r.vaStart r.vaEnd) :
    Laid (insertRegion r rs) := by
  refine ⟨fun c hc => ?_, ?_⟩
  · rcases insertRegion_mem.1 hc with rfl | hc
    · exact hr
    · exact h.ok c hc
  have hne := hr.nonempty
  induction rs with
  | nil => exact pairwise_singleton ..
  | cons d rs ih =>
    have hd := (h.ok d (.head _)).nonempty
    rw [Mmap.insertRegion]
    split
    next hlt =>
      refine pairwise_cons.2 ⟨fun c hc => ?_, ih h.tail fun c hc => hap c (.tail d hc)⟩
      rcases insertRegion_mem.1 hc with rfl | hc
      · rcases hap d mem_cons_self with hle | hle <;> omega
      · exact (pairwise_cons.1 h.apart).1 c hc
    next hge =>
      -- This region is the first one after the new one.
      have hle : r.vaEnd ≤ d.vaStart := by
        rcases hap d mem_cons_self with hle | hle
        · exact hle
        · omega
      exact pairwise_cons.2 ⟨h.beyond hle, h.apart⟩

/-- `Mmap::map` from `mapPages` on adds a region, or does nothing if it fails. -/
theorem mapAt_regions (hm : mapAt P va args m s = some (v, m', s')) :
    (v = mmapFailed ∧ m' = m) ∨ (v = va ∧ ∃ ref, m' = { m with
      regions := insertRegion (MmapRegion.mk va ((va + pageRoundUp args.length) % 2 ^ 64) args.prot
        args.flags.shared ref) m.regions }) := by
  rw [mapAt] at hm
  split at hm
  · cases hm
  · cases hm
    exact .inl ⟨rfl, rfl⟩
  dsimp only at hm
  split at hm
  · cases hm
  · cases hm
    exact .inl ⟨rfl, rfl⟩
  · cases hm
    refine .inr ⟨rfl, ?_⟩
    unfold newRegion
    split <;> exact ⟨_, rfl⟩

theorem pageRoundUp_div (n : ℕ) : pageRoundUp n / pageSize * pageSize = pageRoundUp n :=
  Nat.div_mul_cancel (dvd_of_mod_eq_zero (pageRoundUp_mod n))

/-- A length which fits is rounded up, and no more than it can be. -/
theorem pageRoundUp_bounds {n : ℕ} (h0 : 0 < n) (hn : n ≤ mmapTop - mmapBase) :
    0 < pageRoundUp n ∧ pageRoundUp n ≤ mmapTop - mmapBase ∧
      pageRoundUp (pageRoundUp n) = pageRoundUp n := by
  simp only [mmapTop, mmapBase, pageRoundUp, pageSize] at *
  omega

/-- The arguments of `mmap` which are considered. -/
def MapArgs.Fits (args : MapArgs) : Prop :=
  0 < args.length ∧ args.length ≤ mmapTop - mmapBase ∧ args.hint + pageRoundUp args.length < 2 ^ 64

instance (args : MapArgs) : Decidable args.Fits := inferInstanceAs (Decidable (_ ∧ _ ∧ _))

/-- How `Mmap::map` comes to `mapPages`: a range is found, and if the address is fixed, then the
    regions in the way are removed. -/
theorem map_cases (hm : map P args m s = some (v, m', s')) :
    (v = mmapFailed ∧ m' = m ∧ s' = s) ∨ (args.length ≠ 0 ∧
        (args.flags.priv || args.flags.shared) = true ∧ (args.flags.anonymous = false → 0 ≤ args.fd)) ∧
      ∃ va m1, m.allocVA args.hint (pageRoundUp args.length / pageSize) args.flags.fixed = some (va, m1) ∧
      ((args.flags.fixed = false ∧ mapAt P va args m1 s = some (v, m', s')) ∨
        args.flags.fixed = true ∧ ∃ u m2 s2, unmap P va (pageRoundUp args.length) m1 s =
          some (u, m2, s2) ∧ mapAt P va args m2 s2 = some (v, m', s')) := by
  rw [Mmap.map] at hm
  dsimp only at hm
  repeat
    split at hm
    · cases hm
      exact .inl ⟨rfl, rfl, rfl⟩
  next hlength hkind _ hfd _ va m1 ha =>
    refine .inr ⟨⟨hlength, ?_, fun hanon => ?_⟩, va, m1, ha, ?_⟩
    · rwa [← Bool.not_or, Bool.not_eq_true', Bool.not_eq_false] at hkind
    · simpa [hanon] using hfd
    split_ifs at hm with hfixed
    · obtain ⟨⟨u, m2, s2⟩, hu, hm⟩ := bind_eq_some_iff.1 hm
      exact .inr ⟨hfixed, u, m2, s2, hu, hm⟩
    · exact .inl ⟨Bool.not_eq_true _ ▸ hfixed, hm⟩

/-- The range at `va` for the arguments is one where `Mmap::map` may map pages. -/
structure Roomy (m : Mmap) (va : ℕ) (args : MapArgs) : Prop where
  valid : m.Valid
  pos : 0 < pageRoundUp args.length
  aligned : va % pageSize = 0
  base_le : mmapBase ≤ va
  le_top : va + pageRoundUp args.length ≤ mmapTop
  apart : ∀ c ∈ m.regions, c.Apart va (va + pageRoundUp args.length)

/-- The new region. -/
theorem Roomy.ok (h : Roomy m va args) (ref : Option ℕ) : MmapRegion.Ok
    ⟨va, va + pageRoundUp args.length, args.prot, args.flags.shared, ref⟩ :=
  ⟨h.aligned, add_pageRoundUp_mod h.aligned _, Nat.lt_add_of_pos_right h.pos, h.base_le, h.le_top⟩

/-- The range which is found has room, once the regions in the way are removed. -/
theorem Valid.roomy {m1 : Mmap} (h : m.Valid) (hpos : 0 < pageRoundUp args.length)
    (hlen : pageRoundUp args.length ≤ mmapTop - mmapBase)
    (hhint : args.hint + pageRoundUp args.length < 2 ^ 64)
    (ha : m.allocVA args.hint (pageRoundUp args.length / pageSize) args.flags.fixed =
      some (va, m1)) : m1.Valid ∧ m1.regions = m.regions ∧
      (args.flags.fixed = false → Roomy m1 va args) ∧
      va + pageRoundUp (pageRoundUp args.length) < 2 ^ 64 ∧
      ∀ u m2 s2, unmap P va (pageRoundUp args.length) m1 s = some (u, m2, s2) →
        Roomy m2 va args := by
  obtain ⟨hv1, hregions, hmod, hbase, htop, hfree⟩ := h.allocVA
    (by rw [pageRoundUp_div]; exact hlen) (by rw [pageRoundUp_div]; exact hhint) ha
  rw [pageRoundUp_div] at htop hfree
  have hround : pageRoundUp (pageRoundUp args.length) = pageRoundUp args.length := by
    have := pageRoundUp_mod args.length
    generalize pageRoundUp args.length = n at *
    simp only [mmapTop, mmapBase, pageRoundUp, pageSize] at *
    omega
  have hlt : va + pageRoundUp (pageRoundUp args.length) < 2 ^ 64 := by
    rw [hround]
    exact htop.trans_lt (by decide)
  refine ⟨hv1, hregions, fun hfixed => ⟨hv1, hpos, hmod, hbase, htop, ?_⟩, hlt, fun u m2 s2 hu => ?_⟩
  · rw [hregions]
    exact hfree hfixed
  · rcases unmap_regions hv1.laid hlt hu with ⟨-, -, hzero | hmod'⟩ | ⟨-, rfl⟩
    · exact absurd hzero hpos.ne'
    · exact absurd hmod hmod'
    · rw [hround]
      obtain ⟨hcut, hout, -⟩ := hv1.laid.cut hmod (add_pageRoundUp_mod hmod args.length)
        (Nat.le_add_right va _)
      exact ⟨⟨hcut, hv1.nextHint_le⟩, hpos, hmod, hbase, htop, hout⟩

/-- The new region of `Mmap::map` is inserted where there is none. -/
theorem Roomy.mapAt (h : Roomy m va args) (hm : mapAt P va args m s = some (v, m', s')) :
    m'.Valid ∧ (v ≠ mmapFailed → v = va) := by
  rcases mapAt_regions hm with ⟨hv, rfl⟩ | ⟨rfl, ref, rfl⟩
  · exact ⟨h.valid, fun hne => absurd hv hne⟩
  · rw [mod_eq_of_lt (h.le_top.trans_lt (by decide))]
    exact ⟨⟨h.valid.laid.insertRegion (h.ok ref) h.apart, h.valid.nextHint_le⟩, fun _ => rfl⟩

/-- `Mmap::map` keeps the regions apart. Unless it was asked for a fixed address, there has been
    no region where it maps one. -/
theorem Valid.map (h : m.Valid) (hargs : args.Fits) (hm : map P args m s = some (v, m', s')) :
    m'.Valid ∧ (args.flags.fixed = false → v ≠ mmapFailed →
      ∀ r ∈ m.regions, r.Apart v (v + pageRoundUp args.length)) := by
  obtain ⟨hpos, hlen, hhint⟩ := hargs
  obtain ⟨hpos', hlen', -⟩ := pageRoundUp_bounds hpos hlen
  rcases map_cases hm with ⟨hv, rfl, -⟩ | ⟨-, va, m1, ha, hm⟩
  · exact ⟨h, fun _ hne => absurd hv hne⟩
  obtain ⟨-, hregions, hroom, -, hun⟩ := h.roomy (P := P) hpos' hlen' hhint ha
  rcases hm with ⟨hfixed, hm⟩ | ⟨hfixed, u, m2, s2, hu, hm⟩
  · obtain ⟨hv, hva⟩ := (hroom hfixed).mapAt hm
    refine ⟨hv, fun _ hne => ?_⟩
    rw [hva hne, ← hregions]
    exact (hroom hfixed).apart
  · exact ⟨((hun u m2 s2 hu).mapAt hm).1, by simp [hfixed]⟩

/-! ## Forks -/

/-- A region beyond the others is inserted at the end. -/
theorem insertRegion_last (h : ∀ c ∈ rs, c.vaStart < r.vaStart) : insertRegion r rs = rs ++ [r] := by
  induction rs with
  | nil => rfl
  | cons c rs ih =>
    rw [insertRegion, if_pos (h c (.head _)), ih fun d hd => h d (.tail c hd)]
    rfl

/-- The next region comes after those before. -/
theorem Laid.insertRegion_next (h : Laid (done ++ r :: rs)) :
    Mmap.insertRegion r done = done ++ [r] :=
  insertRegion_last fun c hc =>
    (h.ok c (mem_append_left _ hc)).nonempty.trans_le
      ((pairwise_append.1 h.apart).2.2 c hc r (.head _))

theorem cloneFrom_regions (h : Laid (done ++ rs))
    (hc : cloneFrom P src rs done s = some (some rs', s')) : rs' = done ++ rs := by
  induction rs generalizing done s with
  | nil =>
    cases hc
    rw [append_nil]
  | cons r rs ih =>
    rw [cloneFrom] at hc
    split at hc
    · cases hc
    · obtain ⟨s1, -, ⟨⟩⟩ := bind_eq_some_iff.1 hc
    · obtain ⟨shared, -, hc⟩ := bind_eq_some_iff.1 hc
      rw [h.insertRegion_next] at hc
      rw [ih (by rw [append_assoc]; exact h) hc, append_assoc]
      rfl

/-- The child has the regions of its parent. -/
theorem clone_regions (h : m.Valid) (hc : clone P src m s = some (some m', s')) : m' = m := by
  obtain ⟨⟨regions, s1⟩, hrs, he⟩ := bind_eq_some_iff.1 hc
  cases regions with
  | none => cases he
  | some rs =>
    cases he
    rw [cloneFrom_regions (nil_append _ ▸ h.laid) hrs]
    rfl

end Mmap

/-! ## Runs -/

/-- What happens to the regions of processes, with the memory it works on. -/
inductive RegionEvent (σ : Type*)
  | create (pid : ℕ)
  | map (pid : ℕ) (args : Mmap.MapArgs) (s : Space σ)
  | unmap (pid addr length : ℕ) (s : Space σ)
  | clone (pid child : ℕ) (src : PMT) (s : Space σ)

namespace Regions

open Mmap

variable {σ : Type*} (P : Pool σ ℕ)

/-- The call changes the regions of a process. -/
def onMmap (ms : ℕ → Option Mmap) (pid : ℕ) (f : Mmap → Option (ℕ × Mmap × Space σ)) :
    Option ((ℕ → Option Mmap) × ℕ) :=
  (ms pid).bind fun m => (f m).map fun r => (update ms pid (some r.2.1), r.1)

/-- One event; the regions of a process whose `Mmap::clone` failed are none. -/
def step (ms : ℕ → Option Mmap) : RegionEvent σ → Option ((ℕ → Option Mmap) × ℕ)
  | .create pid => some (update ms pid (some .new), 0)
  | .map pid args s => onMmap ms pid fun m => m.map P args s
  | .unmap pid addr length s => onMmap ms pid fun m => m.unmap P addr length s
  | .clone pid child src s =>
    (ms pid).bind fun m => (m.clone P src s).map fun r => (update ms child r.1, 0)

/-- The ranges in question do not wrap around. -/
def InRange : RegionEvent σ → Prop
  | .map _ args _ => args.Fits
  | .unmap _ addr length _ => addr + pageRoundUp length < 2 ^ 64
  | _ => True

instance (e : RegionEvent σ) : Decidable (InRange e) := by
  unfold InRange
  split <;> infer_instance

variable {P} {ms ms' : ℕ → Option Mmap} {pid v : ℕ}

/-- The regions of every process are as they should be. -/
def AllValid (ms : ℕ → Option Mmap) : Prop := ∀ pid m, ms pid = some m → m.Valid

theorem AllValid.update {o : Option Mmap} (h : AllValid ms) (ho : ∀ m, o = some m → m.Valid) :
    AllValid (update ms pid o) := by
  intro q m hm
  rcases eq_or_ne q pid with rfl | hne
  · rw [update_self] at hm
    exact ho m hm
  · rw [update_of_ne hne] at hm
    exact h q m hm

theorem AllValid.onMmap {f : Mmap → Option (ℕ × Mmap × Space σ)} (h : AllValid ms)
    (hf : ∀ m v m' s', m.Valid → f m = some (v, m', s') → m'.Valid)
    (hs : onMmap ms pid f = some (ms', v)) : AllValid ms' := by
  obtain ⟨m, hm, hs⟩ := bind_eq_some_iff.1 hs
  obtain ⟨⟨v, m', s'⟩, hm', ⟨⟩⟩ := map_eq_some_iff.1 hs
  exact h.update fun m1 he => Option.some.inj he ▸ hf m v m' s' (h pid m hm) hm'

theorem step_allValid {e : RegionEvent σ} (h : AllValid ms) (he : InRange e)
    (hs : step P ms e = some (ms', v)) : AllValid ms' := by
  cases e with
  | create pid =>
    cases hs
    refine h.update fun m hm => ?_
    obtain rfl := Option.some.inj hm
    exact ⟨laid_nil, le_rfl⟩
  | map pid args s => exact h.onMmap (fun m v m' s' hm hf => (hm.map he hf).1) hs
  | unmap pid addr length s =>
    refine h.onMmap (fun m v m' s' hm hf => ?_) hs
    rcases unmap_regions hm.laid he hf with ⟨-, rfl, -⟩ | ⟨hmod, rfl⟩
    · exact hm
    · exact ⟨(hm.laid.cut hmod (add_pageRoundUp_mod hmod length) (Nat.le_add_right ..)).1,
        hm.nextHint_le⟩
  | clone pid child src s =>
    obtain ⟨m, hm, hs⟩ := bind_eq_some_iff.1 hs
    obtain ⟨⟨m', s'⟩, hm', ⟨⟩⟩ := map_eq_some_iff.1 hs
    refine h.update fun m1 he => ?_
    subst he
    rw [clone_regions (h pid m hm) hm']
    exact h pid m hm

/-- In every state reached, the regions of a process are sorted, not empty, aligned, pairwise
    disjoint, and between `MMAP_BASE` and `MMAP_TOP`. `Mmap::unmap` removes the range and nothing
    else, and `Mmap::map` without `MAP_FIXED` maps a range without regions. -/
theorem reachable_regions (h : Reaches (step P) (fun _ e => InRange e) (fun _ => none) ms) (pid : ℕ)
    (m : Mmap) (hm : ms pid = some m) : (m.regions.Pairwise (fun a b => a.vaStart < b.vaStart) ∧
      m.regions.Pairwise (fun a b => ∀ va, ¬ (a.vaStart ≤ va ∧ va < a.vaEnd ∧
        b.vaStart ≤ va ∧ va < b.vaEnd)) ∧
      ∀ r ∈ m.regions, r.vaStart < r.vaEnd ∧ r.vaStart % pageSize = 0 ∧ r.vaEnd % pageSize = 0 ∧
        mmapBase ≤ r.vaStart ∧ r.vaEnd ≤ mmapTop) ∧
    (∀ addr length m' s s', addr + pageRoundUp length < 2 ^ 64 →
      m.unmap P addr length s = some (0, m', s') →
      (∀ va, addr ≤ va → va < addr + pageRoundUp length → ¬ Mmap.Covers m'.regions va) ∧
        ∀ va, ¬ (addr ≤ va ∧ va < addr + pageRoundUp length) →
          (Mmap.Covers m'.regions va ↔ Mmap.Covers m.regions va)) ∧
    (∀ args va m' s s', args.flags.fixed = false → args.Fits → m.map P args s = some (va, m', s') →
      va ≠ mmapFailed → ∀ x, va ≤ x → x < va + pageRoundUp args.length →
        ¬ Mmap.Covers m.regions x) := by
  have hv : m.Valid := h.inv (I := AllValid) (fun _ _ _ _ hI he hs => step_allValid hI he hs)
    (fun _ _ => nofun) pid m hm
  have hne {a b : MmapRegion} (ha : a ∈ m.regions) (hab : a.vaEnd ≤ b.vaStart) :
      a.vaStart < b.vaStart := (hv.laid.ok a ha).nonempty.trans_le hab
  refine ⟨⟨hv.laid.apart.imp_of_mem fun ha _ hab => hne ha hab, ?_, fun r hr => ?_⟩, ?_, ?_⟩
  · refine hv.laid.apart.imp fun hab va hva => ?_
    omega
  · obtain ⟨h1, h2, h3, h4, h5⟩ := hv.laid.ok r hr
    exact ⟨h3, h1, h2, h4, h5⟩
  · intro addr length m' s s' hlen hu
    rcases unmap_regions hv.laid hlen hu with ⟨h0, -⟩ | ⟨hmod, rfl⟩
    · exact absurd h0 (by decide)
    obtain ⟨-, hout, hsame⟩ := hv.laid.cut hmod (add_pageRoundUp_mod hmod length)
      (Nat.le_add_right ..)
    refine ⟨fun va h1 h2 => ?_, hsame⟩
    rintro ⟨r, hr, h3, h4⟩
    rcases hout r hr with h5 | h5 <;> omega
  · intro args va m' s s' hfixed hargs hmap hva x h1 h2
    rintro ⟨r, hr, h3, h4⟩
    rcases (hv.map hargs hmap).2 hfixed hva r hr with h5 | h5 <;> omega

/-- A memory without regions. -/
def blank : Space ℕ := ⟨⟨1, [], .empty, fun _ _ => 0⟩, .new 0, ⟨fun _ => 0, 0⟩⟩

/-- A process maps three pages, and unmaps the second one. -/
def split : ℕ → Option Mmap :=
  lastState (guarded (step .counting) fun _ e => InRange e) (fun _ => none)
    [.create 0,
      .map 0 ⟨mmapBase, 3 * pageSize, .readWrite, ⟨false, true, true, true⟩, -1, none⟩ blank,
      .unmap 0 (mmapBase + pageSize) pageSize blank]

/-- Two regions are left, one on each side of the page. -/
theorem reachable_regions_split : ∃ m, split 0 = some m ∧
    m.regions.map (fun r => (r.vaStart, r.vaEnd)) =
      [(mmapBase, mmapBase + pageSize), (mmapBase + 2 * pageSize, mmapBase + 3 * pageSize)] ∧
    m.regions.Pairwise fun a b => a.vaStart < b.vaStart := by
  obtain ⟨m, hm, hregions⟩ : ∃ m, split 0 = some m ∧ m.regions.map (fun r => (r.vaStart, r.vaEnd)) =
      [(mmapBase, mmapBase + pageSize), (mmapBase + 2 * pageSize, mmapBase + 3 * pageSize)] := by
    decide +kernel
  exact ⟨m, hm, hregions, (reachable_regions (.lastState _ _) 0 m hm).1.1⟩

end Regions

end HobbyOS
