import HobbyOS.Elf.Contained

/-!
# The loader and the format

A well-formed program is one in the format ELF64: the fields are where `HobbyOS.Elf.Format` has them,
and the segments are in the file and, page by page, apart from each other in the user's half. Loading
it should map the pages of its segments, with the bytes of the file and zeros around them, and return
the number and the size of its program headers (`Conforms`).

`ElfLoader::load` does so, as long as it has memory, if and only if the fields which it reads in place
of `e_phnum` and `e_phentsize` have the same values as these (`implements_iff`).
-/

namespace HobbyOS

namespace ElfLoader

open ElfFormat

variable {σ : Type*} {B : BlockPool σ} {live : σ → Set ℕ → Prop} {p : Elf64ProgramHeader}
  {pmt : PMT} {file f : Reader} {junk : ℕ → UInt8} {junks : ℕ → ℕ → UInt8} {t : SegmentTable}
  {i n k offset page o : ℕ} {hs : ℕ → Elf64ProgramHeader}

/-- A segment which is in the file, and in the user's half of the addresses. -/
structure Regular (file : Reader) (p : Elf64ProgramHeader) : Prop where
  filesz_le : p.filesz ≤ p.memsz
  inFile : p.offset + p.filesz ≤ file.size
  user : p.vaddr + p.memsz ≤ 2 ^ 38

/-- A program in the format. -/
structure WellFormed (file : Reader) : Prop where
  opened : file.offset = 0
  header_le : 64 ≤ file.size
  size_lt : file.size < 2 ^ 63
  valid : validateHeader (.ofBytes file.data) = true
  phentsize_eq : phentsize file.data = Elf64ProgramHeader.size
  table_le : phoff file.data + phnum file.data * phentsize file.data ≤ file.size
  regular : ∀ i < phnum file.data, Loaded (programHeader file.data i) →
    Regular file (programHeader file.data i)
  apart : ∀ i < phnum file.data, ∀ j < i, ∀ m, Covers (programHeader file.data i) m →
    ¬ Covers (programHeader file.data j) m

/-- The byte of a segment at an address in its pages. -/
def segmentByte (file : Reader) (p : Elf64ProgramHeader) (a : ℕ) : UInt8 :=
  if p.vaddr ≤ a ∧ a < p.vaddr + p.filesz then file.data (p.offset + (a - p.vaddr)) else 0

/-- The entry of a page of a segment. -/
def permissions (p : Elf64ProgramHeader) : Flags :=
  { Flags.none with
    v := true, u := true, r := p.flags.testBit 2, w := p.flags.testBit 1, x := p.flags.testBit 0 }

/-- The pages of the first `n` segments are mapped, to some in `S`. -/
def Shown (file : Reader) (S : Set ℕ) (hs : ℕ → Elf64ProgramHeader) (n : ℕ) (ph : Phys σ)
    (pmt : PMT) : Prop :=
  ∀ i < n, Loaded (hs i) → ∀ k < pages (hs i), ∃ page ∈ S,
    pmt.lookup (pageAt (vaddrAligned (hs i)) k) = some ⟨page, permissions (hs i)⟩ ∧
    ∀ o < pageSize, ph.mem page o = segmentByte file (hs i) (vaddrAligned (hs i) + k * pageSize + o)

/-- A program has been loaded as the format says. -/
structure Conforms (file : Reader) (pmt : PMT) (info : ElfLoadInfo) (ph' : Phys σ) (pmt' : PMT) :
    Prop where
  phnum : info.phnum = phnum file.data
  phent : info.phent = phentsize file.data
  inside : Shown file Set.univ (programHeader file.data) (ElfFormat.phnum file.data) ph' pmt'
  outside : ∀ m, (∀ i < ElfFormat.phnum file.data, ¬ Covers (programHeader file.data i) m) →
    pmt'.lookup m = pmt.lookup m

/-- A program is loaded as the format says, wherever its pages are not mapped before, as long as
    there is memory. -/
def Implements (file : Reader) : Prop :=
  ∀ (σ : Type) (B : BlockPool σ) (live : σ → Set ℕ → Prop), B.Lawful live →
    ∀ (junk : ℕ → UInt8) (junks : ℕ → ℕ → UInt8) (pmt : PMT) (t : SegmentTable) (ph : Phys σ)
      (A : Set ℕ), live ph.pool A →
    (∀ i < phnum file.data, ∀ m, Covers (programHeader file.data i) m → pmt.lookup m = none) →
    ∃ o ph' pmt' t', load B (some file) junk junks pmt t ph = some (o, ph', pmt', t') ∧
      (.refused ∉ ph'.log → ∃ info, o = some info ∧ Conforms file pmt info ph' pmt')

/-! ## What is read -/

/-- The header is in the file. -/
theorem WellFormed.read_eq (h : WellFormed file) (junk : ℕ → UInt8) (hk : k < 64) :
    file.read Elf64Header.size junk k = file.data k := by
  have hread : 64 ≤ file.readable Elf64Header.size := by
    have hsize := h.header_le
    rw [Reader.readable, h.opened, Elf64Header.size]
    split_ifs <;> omega
  rw [Reader.read, if_pos (hk.trans_le hread), h.opened, Nat.zero_add]

theorem WellFormed.header_eq (h : WellFormed file) (junk : ℕ → UInt8) :
    (header file junk).phoff = phoff file.data ∧
    (header file junk).phentsize = shentsize file.data ∧
    (header file junk).phnum = shnum file.data ∧ validateHeader (header file junk) = true := by
  have hword : ∀ a n, a + n ≤ 64 →
      loadLE (file.read Elf64Header.size junk) a n = loadLE file.data a n := fun a n ha =>
    loadLE_congr fun x _ hx => h.read_eq junk (hx.trans_le ha)
  refine ⟨hword 32 8 (by norm_num), hword 58 2 (by norm_num), hword 60 2 (by norm_num), ?_⟩
  rw [← h.valid, header, Elf64Header.ofBytes, Elf64Header.ofBytes, validateHeader, validateHeader]
  rw [hword 16 2 (by norm_num), hword 18 2 (by norm_num)]
  simp only [h.read_eq junk (show 0 < 64 by norm_num), h.read_eq junk (show 1 < 64 by norm_num),
    h.read_eq junk (show 2 < 64 by norm_num), h.read_eq junk (show 3 < 64 by norm_num),
    h.read_eq junk (show 4 < 64 by norm_num), h.read_eq junk (show 5 < 64 by norm_num)]

/-- Reading from a position in the file. -/
theorem seek_eq (hsame : SameFile file f) (ho : offset < 2 ^ 63) :
    f.seek offset = { file with offset := offset } := by
  rw [hsame.seek_eq ho, Reader.seek, Nat.mod_eq_of_lt (ho.trans (by norm_num)), if_pos ho]

theorem readable_eq {len : ℕ} (hle : offset + len ≤ file.size) (hsize : file.size < 2 ^ 63) :
    Reader.readable { file with offset := offset } len = len := by
  rw [Reader.readable]
  dsimp only
  rw [Nat.mod_eq_of_lt (by omega), if_neg (not_lt.2 hle)]
  split_ifs <;> omega

theorem ofBytes_congr {b b' : ℕ → UInt8} (h : ∀ k < Elf64ProgramHeader.size, b k = b' k) :
    Elf64ProgramHeader.ofBytes b = .ofBytes b' := by
  have hword : ∀ a n, a + n ≤ Elf64ProgramHeader.size → loadLE b a n = loadLE b' a n :=
    fun a n ha => loadLE_congr fun x _ hx => h x (hx.trans_le ha)
  rw [Elf64ProgramHeader.ofBytes, Elf64ProgramHeader.ofBytes, hword 0 4 (by decide),
    hword 4 4 (by decide), hword 8 8 (by decide), hword 16 8 (by decide), hword 32 8 (by decide),
    hword 40 8 (by decide)]

/-- The program headers are those of the format. -/
theorem WellFormed.headerAt_eq (h : WellFormed file) (hsame : SameFile file f)
    (hi : i < phnum file.data) :
    headerAt (phoff file.data) junks f i = programHeader file.data i := by
  have htable := h.table_le
  have hsize := h.size_lt
  rw [h.phentsize_eq] at htable
  have hle : phoff file.data + i * Elf64ProgramHeader.size + Elf64ProgramHeader.size ≤ file.size := by
    simp only [Elf64ProgramHeader.size] at *
    omega
  rw [headerAt, nextHeader]
  rw [seek_eq (hsame.readerAt i) (by simp only [Elf64ProgramHeader.size] at *; omega), programHeader,
    h.phentsize_eq]
  refine ofBytes_congr fun k hk => ?_
  rw [Reader.read, readable_eq hle hsize, if_pos hk]

/-! ## What is written -/

/-- The pages of a segment in the user's half. -/
theorem Regular.pages (h : Regular file p) : offsetInPage p + p.memsz ≤ pages p * pageSize ∧
    ∀ k < ElfLoader.pages p, vaddrAligned p + k * pageSize < 2 ^ 38 := by
  have huser := h.user
  simp only [ElfLoader.pages, offsetInPage, vaddrAligned, pageRoundDown, pageSize]
  refine ⟨by omega, fun k hk => by omega⟩

/-- They are different ones. -/
theorem Regular.once (h : Regular file p) {j : ℕ} (hk : k < ElfLoader.pages p) (hj : j < k) :
    pageAt (vaddrAligned p) j ≠ pageAt (vaddrAligned p) k := by
  have hlt := h.pages.2 k hk
  have hmod : vaddrAligned p % pageSize = 0 := Nat.mul_mod_left ..
  rw [pageAt, pageAt, vpn, vpn]
  simp only [pageSize, ne_eq, Vpn.mk.injEq] at *
  omega

/-- The bytes of a segment in its block. -/
theorem Regular.fill_block (h : Regular file p) (hsize : file.size < 2 ^ 63) (mem : ℕ → ℕ → UInt8)
    (hk : k < ElfLoader.pages p) : fill p { file with offset := p.offset } page mem (page + k) o =
      segmentByte file p (vaddrAligned p + k * pageSize + o) := by
  have hoff : offsetInPage p + vaddrAligned p = p.vaddr := by
    simp only [offsetInPage, vaddrAligned, pageRoundDown, pageSize]
    omega
  rw [fill, segmentByte]
  dsimp only
  rw [readable_eq h.inFile hsize]
  generalize offsetInPage p = off at *
  generalize vaddrAligned p = start at *
  have hcond : (page * pageSize + off ≤ (page + k) * pageSize + o ∧
      (page + k) * pageSize + o < page * pageSize + off + p.filesz) ↔
      p.vaddr ≤ start + k * pageSize + o ∧ start + k * pageSize + o < p.vaddr + p.filesz := by
    simp only [pageSize]
    omega
  by_cases hin : p.vaddr ≤ start + k * pageSize + o ∧ start + k * pageSize + o < p.vaddr + p.filesz
  · rw [if_pos (hcond.2 hin), if_pos hin]
    congr 2
    simp only [pageSize]
    omega
  · rw [if_neg (hcond.not.2 hin), if_neg hin, if_pos ⟨by omega, by omega⟩]

/-- Other pages are left. -/
theorem Regular.fill_outside (h : Regular file p) (hsize : file.size < 2 ^ 63) {q : ℕ}
    (mem : ℕ → ℕ → UInt8) (hq : q ∉ block page (ElfLoader.pages p)) (ho : o < pageSize) :
    fill p { file with offset := p.offset } page mem q o = mem q o := by
  have hpages := h.pages.1
  have hfilesz := h.filesz_le
  have hq' : ¬ (page ≤ q ∧ q < page + ElfLoader.pages p) := hq
  rw [fill]
  dsimp only
  rw [readable_eq h.inFile hsize, if_neg, if_neg hq']
  generalize offsetInPage p = off at *
  simp only [pageSize] at *
  omega

/-- The segments of a well-formed program are in their places. -/
theorem WellFormed.placed (h : WellFormed file)
    (hfree : ∀ i < phnum file.data, ∀ m, Covers (programHeader file.data i) m →
      pmt.lookup m = none) : Placed pmt (programHeader file.data) (phnum file.data) :=
  ⟨hfree, fun i hi hl _ hk _ hj => (h.regular i hi hl).once hk hj, h.apart⟩

theorem Placed.congr {hs' : ℕ → Elf64ProgramHeader} (h : Placed pmt hs n)
    (he : ∀ i < n, hs' i = hs i) : Placed pmt hs' n := by
  refine ⟨fun i hi => ?_, fun i hi => ?_, fun i hi j hj => ?_⟩
  · rw [he i hi]
    exact h.free i hi
  · rw [he i hi]
    exact h.once i hi
  · rw [he i hi, he j (hj.trans hi)]
    exact h.apart i hi j hj

/-- A block is handed out. -/
theorem Reserved.takeBlock {S : Set ℕ} {ph ph' : Phys σ} (hB : B.Lawful live)
    (h : Reserved live S ph) (hp : kallocPages B ph n = (some page, ph')) :
    Reserved live (block page n ∪ S) ph' := by
  obtain ⟨A, hA, hlive⟩ := h
  obtain ⟨pool, hpool, rfl⟩ := Owned.kallocPages_some hp
  exact ⟨block page n ∪ A, Set.union_subset_union_right _ hA, (hB.takeBlock_some hlive hpool).2⟩

/-- The pages in `S` are handed out, and show the first segments unless something was refused. -/
def Showing (live : σ → Set ℕ → Prop) (file : Reader) (hs : ℕ → Elf64ProgramHeader) (i : ℕ)
    (u : Loading σ) : Prop :=
  ∃ S, Reserved live S u.ph ∧ (.refused ∉ u.ph.log → Shown file S hs i u.ph u.pmt)

/-- One more segment is shown. -/
theorem loadSegment_showing {phoff : ℕ} {u : Loading σ} (hB : B.Lawful live)
    (hsize : file.size < 2 ^ 63) (hsame : SameFile file u.file)
    (hregular : Loaded (hs i) → Regular file (hs i))
    (hmod : Loaded (hs i) → pages (hs i) % 2 ^ 32 = pages (hs i))
    (hfree : Loaded (hs i) → ¬ Occupied (vaddrAligned (hs i)) (pages (hs i)) u.pmt)
    (hu : Showing live file hs i u) :
    (loadSegment B phoff (hs i) u).Holds (Showing live file hs (i + 1))
      (fun v => .refused ∈ v.ph.log) False := by
  obtain ⟨S, hres, hshown⟩ := hu
  refine loadSegment_rule (fun hskip => ⟨S, hres, fun hlog j hj hl => ?_⟩) (fun _ ph1 halloc => ?_)
    fun hl page ph1 halloc => ?_
  · rcases Nat.lt_succ_iff_lt_or_eq.1 hj with hj | rfl
    · exact hshown hlog j hj hl
    · exact absurd hl hskip
  · rw [kallocPages] at halloc
    split at halloc
    · cases halloc
    · cases halloc
      exact (.head _)
  rw [hmod hl] at halloc
  have hfits := hregular hl
  have hdis := hres.disjoint hB halloc
  have hres1 := Reserved.takeBlock hB hres halloc
  have hlog1 : .refused ∈ u.ph.log → .refused ∈ ph1.log := fun hr => by
    have := kallocPages_refused (B := B) (pages (hs i)) hr
    rwa [halloc] at this
  have hmem : ph1.mem = u.ph.mem := by
    have := kallocPages_mem (B := B) u.ph (pages (hs i))
    rwa [halloc] at this
  rw [seek_eq hsame (by have := hfits.inFile; omega)]
  generalize hfill : fill (hs i) { file with offset := (hs i).offset } page ph1.mem = mem
  -- Mapping the pages allocates tables, which are not among those in use, and writes nothing.
  have hphys : (PMT.mapPages B.toPool (vaddrAligned (hs i)) page (pages (hs i))
      (flagsToPte (hs i).flags) ({ ph1 with mem := mem }, u.pmt)).Holds _ _ True :=
    PMT.mapPages_phys
      (I := fun ph => Reserved live (block page (pages (hs i)) ∪ S) ph ∧ ph.mem = mem)
      (fun ph h => ⟨h.1.kallocPage hB.single, (kallocPage_mem ph).trans h.2⟩) ⟨hres1, rfl⟩ _ _
  have hv : (flagsToPte (hs i).flags).v := rfl
  refine ((Outcome.Holds.ignore (Q := fun _ => False) hphys).and (mapPages_ignore hv _)).imp ?_
    (fun _ h => h.1) |>.mono_panic fun hocc => hfree hl hocc.2
  rintro v ⟨⟨hresv, hmemv⟩, ⟨c, hc, hrow, hshort⟩, hgo⟩
  refine ⟨block page (pages (hs i)) ∪ S, hresv, fun hlog j hj hlj k hk => ?_⟩
  have hlog' : .refused ∉ v.1.log := hlog
  obtain rfl : c = pages (hs i) := hc.eq_of_not_lt fun hlt => hlog' (hshort hlt).1
  rcases Nat.lt_succ_iff_lt_or_eq.1 hj with hj | rfl
  · -- An earlier segment is in other pages.
    obtain ⟨pg, hpg, hlook, hbytes⟩ := hshown (fun hr => hlog' (hgo (hlog1 hr))) j hj hlj k hk
    refine ⟨pg, .inr hpg, hrow.keeps hlook, fun o ho => ?_⟩
    rw [← hbytes o ho, ← hmem, show (u.loaded phoff (hs i) v).ph.mem = mem from hmemv, ← hfill]
    exact hfits.fill_outside hsize _ (Set.disjoint_right.1 hdis hpg) ho
  · refine ⟨page + k, .inl ⟨Nat.le_add_right .., Nat.add_lt_add_left hk _⟩, (hrow.inside hk).2,
      fun o _ => ?_⟩
    rw [show (u.loaded phoff (hs j) v).ph.mem = mem from hmemv, ← hfill]
    exact hfits.fill_block hsize _ hk

/-! ## The loader -/

/-- The loader reads the number and the size of the program headers where those of the section headers
    are. -/
theorem WellFormed.implements (h : WellFormed file) (hnum : shnum file.data = phnum file.data)
    (hent : shentsize file.data = phentsize file.data) : Implements file := by
  intro σ B live hB junk junks pmt t ph A hA hfree
  obtain ⟨hphoff, hphent, hphnum, hvalid⟩ := h.header_eq junk
  rw [hnum] at hphnum
  rw [hent] at hphent
  have hsame : SameFile file (file.advance Elf64Header.size) := SameFile.refl.advance _
  have hheaders : ∀ i < phnum file.data, headerAt (header file junk).phoff junks
      (file.advance Elf64Header.size) i = programHeader file.data i := by
    intro i hi
    rw [hphoff]
    exact h.headerAt_eq hsame hi
  have hpl := (h.placed hfree).congr hheaders
  have hload : (loadLoop B file junk junks pmt t ph).Holds _ _ _ := load_cases hvalid
  have hloop : (tryRange (loadStep B (header file junk) junks) (phnum file.data)
      (.start file ph pmt t)).Holds _ _ False :=
    loadSegments_rule (f := file.advance Elf64Header.size) (Q := fun v => .refused ∈ v.ph.log)
      (I := Showing live file (headerAt (header file junk).phoff junks
        (file.advance Elf64Header.size))) rfl
      ⟨A, ⟨A, le_rfl, hA⟩, fun _ j hj => absurd hj (Nat.not_lt_zero j)⟩ fun i u hi hext hu => by
        refine loadSegment_showing hB h.size_lt (hsame.bodyAt i) (fun hl => ?_)
          (fun hl => hpl.pages_mod hi hl) (fun hl => hpl.not_occupied hi hl hext.outside) hu
        rw [hheaders i hi] at hl ⊢
        exact h.regular i hi hl
  rw [← hphnum, ← loadLoop] at hloop
  cases hr : loadLoop B file junk junks pmt t ph with
  | panic =>
    rw [hr] at hloop
    exact hloop.elim
  | fail u =>
    rw [hr] at hload hloop
    exact ⟨_, _, _, _, hload, fun hlog => absurd hloop hlog⟩
  | ok u =>
    rw [hr] at hload hloop
    obtain ⟨info, hinfo⟩ := hload
    obtain ⟨⟨S, -, hshown⟩, hext⟩ := hloop
    rw [hphnum] at hshown hext
    refine ⟨_, _, _, _, hinfo, fun hlog => ⟨info, rfl, ?_, ?_, fun i hi hl k hk => ?_,
      fun m hm => hext.outside m fun j hj => ?_⟩⟩
    · rw [(load_some hinfo).2.1, hphnum]
    · rw [(load_some hinfo).1, hphent]
    · have hi' := hshown hlog i hi
      rw [hheaders i hi] at hi'
      obtain ⟨page, -, hpage⟩ := hi' hl k hk
      exact ⟨page, trivial, hpage⟩
    · rw [hheaders j hj]
      exact hm j hj

/-- For every well-formed program, with any number of program headers and section headers, and any
    flags: the loader does what the format says if and only if the fields which it takes for `e_phnum`
    and `e_phentsize` have their values. -/
theorem implements_iff (h : WellFormed file) : Implements file ↔
    shnum file.data = phnum file.data ∧ shentsize file.data = phentsize file.data := by
  refine ⟨fun himp => ?_, fun he => h.implements he.1 he.2⟩
  obtain ⟨-, hphent, hphnum, hvalid⟩ := h.header_eq fun _ => 0
  obtain ⟨o, ph', pmt', t', hres, hconf⟩ := himp ℕ .counting Pool.Counted
    BlockPool.counting_lawful (fun _ => 0) (fun _ _ => 0) (.new 0) .empty blank ∅
    ⟨by decide, by simp⟩ fun _ _ _ _ => rfl
  obtain ⟨u, info, -, hinfo, hlog, -⟩ := load_unlimited hvalid (hres ▸ Option.some_ne_none _)
  rw [hinfo] at hres
  cases hres
  obtain ⟨info', he, hc⟩ := hconf hlog
  cases he
  rw [← hc.phnum, ← hc.phent, (load_some hinfo).2.1, (load_some hinfo).1]
  exact ⟨hphnum.symm, hphent.symm⟩

/-- A program with one segment. -/
theorem wellFormed_of_single (hfile : file.offset = 0 ∧ 64 ≤ file.size ∧ file.size < 2 ^ 63 ∧
      validateHeader (.ofBytes file.data) = true ∧
      phentsize file.data = Elf64ProgramHeader.size ∧ phnum file.data = 1 ∧
      phoff file.data + Elf64ProgramHeader.size ≤ file.size)
    (hp : Regular file (programHeader file.data 0)) : WellFormed file := by
  obtain ⟨h1, h2, h3, h4, h5, h6, h7⟩ := hfile
  refine ⟨h1, h2, h3, h4, h5, by rwa [h5, h6, Nat.one_mul], fun i hi _ => ?_, fun i hi j hj => ?_⟩
  · obtain rfl := Nat.lt_one_iff.1 (h6 ▸ hi)
    exact hp
  · rw [h6] at hi
    omega

theorem wellFormed_onePage : WellFormed onePage :=
  wellFormed_of_single (by decide +kernel)
    ⟨by decide +kernel, by decide +kernel, by decide +kernel⟩

/-- As many section headers as program headers, said to be of the same size. -/
theorem implements_iff_onePage : WellFormed onePage ∧ Implements onePage :=
  ⟨wellFormed_onePage, (implements_iff wellFormed_onePage).2 (by decide +kernel)⟩

/-- The same program without section headers. -/
def stripped : Reader := assemble 64 0 [⟨1, 5, 0, 0x10000, 64, 64⟩] []

/-- It is well-formed, and nothing of it is loaded. -/
theorem load_stripped : WellFormed stripped ∧
    (loadNew stripped).map (fun o => (o.1.map fun info => (info.phnum, info.phent), o.2.1.log,
      o.2.2.1.lookup (vpn 0x10000))) = some (some (0, 64), [], none) ∧
    phnum stripped.data = 1 ∧ phentsize stripped.data = 56 :=
  ⟨wellFormed_of_single (by decide +kernel)
    ⟨by decide +kernel, by decide +kernel, by decide +kernel⟩, by decide +kernel⟩

end ElfLoader

end HobbyOS
