import HobbyOS.Elf.Format

/-!
# Malformed programs

A file is loaded if its header is one of a program, and nothing else is looked at: the fields of the
program headers are whatever the file says. Any user can supply such a file.

`ElfLoader::load` is `Contained` if it does not panic, copies bytes of the file into the pages which it
has allocated for the segment only, maps these only, at addresses of the user, and leaves what is
mapped already. It is so, in every state of the memory, if and only if the program headers are
`Harmless`: the pages of the segments are different ones of the user's half, none of which is mapped,
and what is read of the file for a segment fits into its pages (`contained_iff`).

The gigapages of the kernel are not part of a `PMT`; they are at addresses which are not the user's,
where no page of a segment may be.
-/

namespace HobbyOS

open List Option

namespace ElfLoader

variable {σ : Type*} {B : BlockPool σ} {p : Elf64ProgramHeader} {pmt : PMT}
  {hs : ℕ → Elf64ProgramHeader} {bodies : ℕ → Reader} {i n : ℕ} {file : Reader} {junk : ℕ → UInt8}
  {junks : ℕ → ℕ → UInt8} {t : SegmentTable} {ph : Phys σ}

/-- The byte `o` of the page `q` is one which `File::read` writes to, for a segment in the block at
    `page`. -/
def Copied (p : Elf64ProgramHeader) (file : Reader) (page q o : ℕ) : Prop :=
  page * pageSize + offsetInPage p ≤ q * pageSize + o ∧
    q * pageSize + o < page * pageSize + offsetInPage p + file.readable p.filesz

/-- Loading a file does no harm, in this state of the memory. -/
structure Contained (B : BlockPool σ) (file : Reader) (junk : ℕ → UInt8) (junks : ℕ → ℕ → UInt8)
    (pmt : PMT) (t : SegmentTable) (ph : Phys σ) : Prop where
  /-- It does not panic. -/
  returns : load B (some file) junk junks pmt t ph ≠ none
  /-- In every round, bytes are copied into the pages which are allocated in it. -/
  copies : let hdr := header file junk
    let p := headerAt hdr.phoff junks (file.advance Elf64Header.size)
    let body := bodyAt hdr.phoff junks (file.advance Elf64Header.size)
    ∀ i < hdr.phnum, ∀ u, tryRange (loadStep B hdr junks) i (.start file ph pmt t) = .ok u →
      Loaded (p i) → ∀ page ph1, kallocPages B u.ph (pages (p i) % 2 ^ 32) = (some page, ph1) →
      ∀ q o, o < pageSize → Copied (p i) ((body i).seek (p i).offset) page q o →
        q ∈ block page (pages (p i) % 2 ^ 32)
  /-- If it succeeds, then it maps addresses of the user only. -/
  user : ∀ info ph' pmt' t', load B (some file) junk junks pmt t ph = some (some info, ph', pmt', t') →
    ∀ m, pmt'.lookup m ≠ pmt.lookup m → m.User
  /-- What it maps it has allocated. -/
  mapped : ∀ o ph' pmt' t', load B (some file) junk junks pmt t ph = some (o, ph', pmt', t') →
    ∀ m pte, pmt'.lookup m = some pte → pmt.lookup m = some pte ∨
      ∃ l, ph'.log = l ++ ph.log ∧ .out pte.page ∈ l
  /-- What is mapped before stays so. -/
  kept : ∀ o ph' pmt' t', load B (some file) junk junks pmt t ph = some (o, ph', pmt', t') →
    ∀ m pte, pmt.lookup m = some pte → pmt'.lookup m = some pte

/-- The segments are in their places, these are the user's, and what is read fits into them. -/
structure Harmless (pmt : PMT) (hs : ℕ → Elf64ProgramHeader) (bodies : ℕ → Reader) (n : ℕ) : Prop
    extends Placed pmt hs n where
  user : ∀ i < n, ∀ m, Covers (hs i) m → m.User
  reads : ∀ i < n, Loaded (hs i) → 0 < ((bodies i).seek (hs i).offset).readable (hs i).filesz →
    offsetInPage (hs i) + ((bodies i).seek (hs i).offset).readable (hs i).filesz ≤
      pages (hs i) * pageSize

/-! ## Harmless programs -/

/-- A page is as it was, or a new one, which has been allocated since. -/
def Gained (pmt : PMT) (log : List (Transfer ℕ)) (u : Loading σ) : Prop :=
  ∃ l, u.ph.log = l ++ log ∧ ∀ m, u.pmt.lookup m = pmt.lookup m ∨
    pmt.lookup m = none ∧ m.User ∧ ∃ pte, u.pmt.lookup m = some pte ∧ .out pte.page ∈ l

theorem kallocPage_log (P : Pool σ ℕ) (log : List (Transfer ℕ)) (ph : Phys σ)
    (h : ∃ l, ph.log = l ++ log) : ∃ l, (kallocPage P ph).2.log = l ++ log := by
  obtain ⟨l, hl⟩ := h
  rw [kallocPage]
  rcases P.take ph.pool with ⟨_ | page, pool⟩
  · exact ⟨.refused :: l, by rw [hl]; rfl⟩
  · exact ⟨.out page :: l, by rw [hl]; rfl⟩

/-- A segment which is in its place keeps what is mapped, and maps what it has allocated. -/
theorem loadSegment_gained {phoff : ℕ} {log : List (Transfer ℕ)} {u : Loading σ}
    (hpages : Loaded p → pages p % 2 ^ 32 = pages p) (huser : ∀ m, Covers p m → m.User)
    (hfree : Loaded p → ¬ Occupied (vaddrAligned p) (pages p) u.pmt)
    (hnone : ∀ m, Covers p m → pmt.lookup m = none) (hu : Gained pmt log u) :
    (loadSegment B phoff p u).Holds (Gained pmt log) (Gained pmt log) False := by
  obtain ⟨l, hl, hcases⟩ := hu
  refine loadSegment_rule (fun _ => ⟨l, hl, hcases⟩) (fun hp ph1 halloc => ?_)
    fun hp page ph1 halloc => ?_
  · rw [kallocPages] at halloc
    split at halloc
    · cases halloc
    · cases halloc
      refine ⟨.refused :: l, by rw [hl]; rfl, fun m => (hcases m).imp_right fun hm => ?_⟩
      obtain ⟨h1, h2, pte, h3, h4⟩ := hm
      exact ⟨h1, h2, pte, h3, mem_cons_of_mem _ h4⟩
  rw [hpages hp] at halloc
  obtain ⟨pool, -, rfl⟩ := Owned.kallocPages_some halloc
  -- The ledger grows by the pages of the block, and those of tables.
  have hlog : (PMT.mapPages B.toPool (vaddrAligned p) page (pages p) (flagsToPte p.flags)
      (⟨pool, (List.range (pages p)).map (fun k => .out (page + k)) ++ u.ph.log, u.ph.refs,
        fill p (u.file.seek p.offset) page u.ph.mem⟩, u.pmt)).Holds _ _ True :=
    PMT.mapPages_phys (kallocPage_log B.toPool
      ((List.range (pages p)).map (fun k => .out (page + k)) ++ u.ph.log)) ⟨[], rfl⟩ _ _
  have hv : (flagsToPte p.flags).v := rfl
  refine ((Outcome.Holds.ignore (Q := fun _ => False) hlog).and (mapPages_ignore hv _)).imp ?_
    (fun _ h => h.1) |>.mono_panic fun hocc => hfree hp hocc.2
  rintro v ⟨⟨l', hl'⟩, ⟨c, hc, hrow, -⟩, -⟩
  refine ⟨l' ++ (List.range (pages p)).map (fun k => .out (page + k)) ++ l, ?_, fun m => ?_⟩
  · rw [Loading.loaded, hl', hl]
    simp only [append_assoc]
  rw [show (Loading.loaded phoff p u v).pmt = v.2 from rfl]
  rcases hrow.cases m with he | ⟨k, hk, rfl, -, hpte⟩
  · rw [he]
    refine (hcases m).imp_right fun hm => ?_
    obtain ⟨h1, h2, pte, h3, h4⟩ := hm
    exact ⟨h1, h2, pte, h3, mem_append_right _ h4⟩
  · have hcov : Covers p (pageAt (vaddrAligned p) k) := ⟨hp, k, hk.trans_le hc, rfl⟩
    refine .inr ⟨hnone _ hcov, huser _ hcov, _, hpte, mem_append_left _ ?_⟩
    refine mem_append_right _ (List.mem_map.2 ⟨k, ?_, rfl⟩)
    exact mem_range.2 (hk.trans_le hc)

theorem Harmless.contained (hvalid : validateHeader (header file junk) = true)
    (h : Harmless pmt (headerAt (header file junk).phoff junks (file.advance Elf64Header.size))
      (bodyAt (header file junk).phoff junks (file.advance Elf64Header.size))
      (header file junk).phnum) : Contained B file junk junks pmt t ph := by
  have hloop : (loadLoop B file junk junks pmt t ph).Holds _ _ False :=
    loadSegments_rule (I := fun _ u => Gained pmt ph.log u) (Q := Gained pmt ph.log) rfl
      ⟨[], rfl, fun _ => .inl rfl⟩ fun i u hi hext hu =>
        loadSegment_gained (fun hl => h.pages_mod hi hl) (h.user i hi)
          (fun hl => h.not_occupied hi hl hext.outside) (h.free i hi) hu
  -- Whatever `load` returns, it has gained pages only.
  have hload : (loadLoop B file junk junks pmt t ph).Holds _ _ _ := load_cases hvalid
  have hgained : ∃ o u, load B (some file) junk junks pmt t ph =
      some (o, u.ph, u.pmt, u.segTable) ∧ Gained pmt ph.log u := by
    generalize loadLoop B file junk junks pmt t ph = r at hloop hload
    cases r with
    | panic => exact hloop.elim
    | fail u => exact ⟨none, u, hload, hloop⟩
    | ok u =>
      obtain ⟨info, hinfo⟩ := hload
      exact ⟨some info, u, hinfo, hloop.1⟩
  obtain ⟨o, u, hu, l, hl, hcases⟩ := hgained
  have hres : ∀ o' ph' pmt' t', load B (some file) junk junks pmt t ph = some (o', ph', pmt', t') →
      ph' = u.ph ∧ pmt' = u.pmt := by
    intro o' ph' pmt' t' h'
    rw [hu] at h'
    cases h'
    exact ⟨rfl, rfl⟩
  refine ⟨by rw [hu]; exact some_ne_none _, ?_, ?_, ?_, ?_⟩
  · intro hdr p body i hi v _ hl page ph1 _ q o ho hc
    have hreads := h.reads i hi hl
    rw [h.pages_mod hi hl]
    obtain ⟨h1, h2⟩ := hc
    generalize Reader.readable _ _ = len at *
    generalize offsetInPage _ = off at *
    have hlen := hreads (by omega)
    generalize pages _ = c at *
    simp only [pageSize] at *
    exact ⟨by omega, by omega⟩
  · intro info ph' pmt' t' h' m hne
    obtain ⟨rfl, rfl⟩ := hres _ _ _ _ h'
    exact ((hcases m).resolve_left hne).2.1
  · intro o' ph' pmt' t' h' m pte hpte
    obtain ⟨rfl, rfl⟩ := hres _ _ _ _ h'
    rcases hcases m with he | ⟨-, -, pte', hpte', hout⟩
    · exact .inl (he ▸ hpte)
    · obtain rfl := Option.some.inj (hpte.symm.trans hpte')
      exact .inr ⟨l, hl, hout⟩
  · intro o' ph' pmt' t' h' m pte hpte
    obtain ⟨rfl, rfl⟩ := hres _ _ _ _ h'
    rcases hcases m with he | ⟨hnone, -⟩
    · rw [he, hpte]
    · rw [hnone] at hpte
      cases hpte

/-! ## Programs which are contained -/

/-- With memory without end nothing is refused. -/
theorem loadSegments_unlimited {hdr : Elf64Header} {f : Reader} {s : Loading ℕ} (hfile : s.file = f)
    (hlog : .refused ∉ s.ph.log) : (tryRange (loadStep .counting hdr junks) n s).Holds
      (fun u => .refused ∉ u.ph.log ∧ Extends (headerAt hdr.phoff junks f) s n u)
      (fun _ => False) True := by
  refine loadSegments_rule (I := fun _ u => .refused ∉ u.ph.log) hfile hlog fun i u _ _ hu => ?_
  refine loadSegment_rule (fun _ => hu) (fun _ ph1 halloc => ?_) fun _ page ph1 halloc => ?_
  · cases halloc
  · cases halloc
    refine (PMT.mapPages_phys (I := fun ph => .refused ∉ ph.log) (fun ph => ?_) ?_ _ _).ignore
    · exact kallocPage_unlimited (fun _ => rfl) ph
    · simpa using hu

/-- Then the loop gets to its end, unless it panics. -/
theorem load_unlimited (hvalid : validateHeader (header file junk) = true)
    (hret : load .counting (some file) junk junks pmt .empty blank ≠ none) :
    ∃ u info, loadLoop .counting file junk junks pmt .empty blank = .ok u ∧
      load .counting (some file) junk junks pmt .empty blank =
        some (some info, u.ph, u.pmt, u.segTable) ∧ .refused ∉ u.ph.log ∧
      Extends (headerAt (header file junk).phoff junks (file.advance Elf64Header.size))
        (.start file blank pmt .empty) (header file junk).phnum u := by
  have hload : (loadLoop .counting file junk junks pmt .empty blank).Holds _ _ _ := load_cases hvalid
  have hloop : (loadLoop .counting file junk junks pmt .empty blank).Holds _ _ True :=
    loadSegments_unlimited rfl not_mem_nil
  cases hr : loadLoop .counting file junk junks pmt .empty blank with
  | panic =>
    rw [hr] at hload
    exact absurd hload hret
  | fail u =>
    rw [hr] at hloop
    exact hloop.elim
  | ok u =>
    rw [hr] at hload hloop
    obtain ⟨info, hinfo⟩ := hload
    exact ⟨u, info, rfl, hinfo, hloop⟩

/-- For every content of a file which passes `validateHeader`, whatever is in the program headers:
    it is contained in every state of the memory if and only if it is harmless. -/
theorem contained_iff (hvalid : validateHeader (header file junk) = true) :
    (∀ (σ : Type) (B : BlockPool σ) (t : SegmentTable) (ph : Phys σ),
      Contained B file junk junks pmt t ph) ↔
    Harmless pmt (headerAt (header file junk).phoff junks (file.advance Elf64Header.size))
      (bodyAt (header file junk).phoff junks (file.advance Elf64Header.size))
      (header file junk).phnum := by
  refine ⟨fun hall => ?_, fun h σ B t ph => h.contained hvalid⟩
  have hc := hall ℕ .counting .empty blank
  obtain ⟨u, info, hr, hinfo, hlog, hext⟩ := load_unlimited hvalid hc.returns
  have hpl := hext.placed hlog
  refine ⟨hpl, fun i hi m hm => ?_, fun i hi hl hpos => ?_⟩
  · refine hc.user _ _ _ _ hinfo m fun he => ?_
    have hsome := hext.inside hlog i hi m hm
    rw [he] at hsome
    exact absurd (hpl.free i hi m hm) (isSome_iff_ne_none.1 hsome)
  -- The first byte behind the block would be copied.
  obtain ⟨v, hv⟩ := exists_tryRange_ok hi.le hr
  have hcopies := hc.copies i hi v hv hl v.ph.pool _ rfl
  rw [hpl.pages_mod hi hl] at hcopies
  by_contra hlt
  generalize headerAt _ _ _ i = p at *
  generalize (bodyAt _ _ _ i).seek p.offset = f at *
  rw [not_le] at hlt
  have hx := hcopies ((v.ph.pool * pageSize + max (offsetInPage p) (pages p * pageSize)) / pageSize)
    ((v.ph.pool * pageSize + max (offsetInPage p) (pages p * pageSize)) % pageSize)
    (Nat.mod_lt _ (by decide)) ?_
  · obtain ⟨-, hx⟩ := hx
    simp only [pageSize] at *
    omega
  · rw [Copied, Nat.div_add_mod']
    omega

/-- A program with one segment, of a page. -/
def onePage : Reader := ElfFormat.assemble 56 1 [⟨1, 5, 0, 0x10000, 64, 64⟩] []

theorem contained_iff_onePage :
    Contained .counting onePage (fun _ => 0) (fun _ _ => 0) (.new 0) .empty blank := by
  refine (contained_iff (by decide +kernel)).2 ?_ ℕ .counting .empty blank
  have hn : (header onePage fun _ => 0).phnum = 1 := by decide +kernel
  have hp : headerAt (header onePage fun _ => 0).phoff (fun _ _ => 0)
      (onePage.advance Elf64Header.size) 0 = ⟨1, 5, 0, 0x10000, 64, 64⟩ := by decide +kernel
  have hb : ((bodyAt (header onePage fun _ => 0).phoff (fun _ _ => 0)
      (onePage.advance Elf64Header.size) 0).seek 0).readable 64 = 64 := by decide +kernel
  rw [hn]
  refine ⟨⟨fun i hi m _ => rfl, fun i hi _ k hk j hj => ?_, fun i hi j hj => by omega⟩,
    fun i hi m hm => ?_, fun i hi _ _ => ?_⟩
  all_goals obtain rfl := Nat.lt_one_iff.1 hi
  · rw [hp] at hk
    exact absurd (Nat.lt_one_iff.1 (show k < 1 from hk) ▸ hj) (Nat.not_lt_zero j)
  · rw [hp] at hm
    obtain ⟨-, k, hk, rfl⟩ := hm
    obtain rfl := Nat.lt_one_iff.1 (show k < 1 from hk)
    exact ⟨by decide +kernel, by decide +kernel, by decide +kernel⟩
  · rw [hp]
    rw [hb]
    decide

/-- A program with one segment of one byte, at the end of a page, for which 64 are read. -/
def spilling : Reader := ElfFormat.assemble 56 1 [⟨1, 6, 0, 0x10FFF, 64, 1⟩] []

/-- Two segments in the same page make the kernel panic, one of the kernel's half, between its
    gigapages, is mapped there, and the bytes of a file go on where the pages of a segment end: the page 2 is one of a table. -/
theorem load_not_contained :
    loadNew (ElfFormat.assemble 56 2 [⟨1, 6, 0, 0x10000, 64, 64⟩, ⟨1, 6, 0, 0x10800, 64, 64⟩] []) =
      none ∧
    (loadNew (ElfFormat.assemble 56 1 [⟨1, 6, 0, 2 ^ 38 + 2 ^ 30, 64, 64⟩] [])).map
      (fun o => (o.1.isSome, (o.2.2.1.lookup ⟨257, 0, 0⟩).map Pte.page)) = some (true, some 1) ∧
    (loadNew spilling).map (fun o => (o.1.isSome, o.2.1.mem 2 0, o.2.2.1.lookup (vpn 0x10000))) =
      some (true, 0x45, some ⟨1, flagsToPte 6⟩) :=
  ⟨isNone_iff_eq_none.1 (by decide +kernel), by decide +kernel, by decide +kernel⟩

end ElfLoader

end HobbyOS
