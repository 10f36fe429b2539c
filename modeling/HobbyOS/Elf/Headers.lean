import HobbyOS.Elf
import HobbyOS.Vm.Rows

/-!
# Program headers

`ElfLoader::load` goes through the program headers of a file. Which ones it finds, and where the file
is read next, does not depend on the memory: `headerAt` and `bodyAt` say so in advance, and the loop
is one over `loadSegment` (`loadStep_eq`). What one segment does is said once, as a rule
(`loadSegment_rule`), and lifted to the loop (`loadSegments_rule`) and to `load` (`load_cases`,
`load_some`): the pages of the segments are mapped, and those which were mapped before are kept
(`Extends`).

Whether `ElfLoader::load` panics is decided by the addresses of the segments: it does not if their
pages are different ones, none of which is mapped before (`Placed`). Then every segment finds its
pages unmapped (`Placed.not_occupied`).
-/

namespace HobbyOS

namespace ElfLoader

variable {σ : Type*} {B : BlockPool σ}

/-- A segment is loaded: `PT_LOAD`, and there is something of it in memory. -/
def Loaded (p : Elf64ProgramHeader) : Prop := p.type = 1 ∧ p.memsz ≠ 0

instance (p : Elf64ProgramHeader) : Decidable (Loaded p) := inferInstanceAs (Decidable (_ ∧ _))

/-- The file after a segment, if it is loaded. -/
def after (p : Elf64ProgramHeader) (f : Reader) : Reader :=
  if Loaded p then (f.seek p.offset).advance p.filesz else f

/-- The program header `i`, and the file after it, which is `f` before. -/
def nextHeader (phoff : ℕ) (junks : ℕ → ℕ → UInt8) (i : ℕ) (f : Reader) :
    Elf64ProgramHeader × Reader :=
  let f := f.seek (phoff + i * Elf64ProgramHeader.size)
  (.ofBytes (f.read Elf64ProgramHeader.size (junks i)), f.advance Elf64ProgramHeader.size)

/-- The file before the program header `i`, which is `f` before the first. -/
def readerAt (phoff : ℕ) (junks : ℕ → ℕ → UInt8) (f : Reader) : ℕ → Reader
  | 0 => f
  | i + 1 =>
    let r := nextHeader phoff junks i (readerAt phoff junks f i)
    after r.1 r.2

/-- The program header `i`. -/
@[irreducible] def headerAt (phoff : ℕ) (junks : ℕ → ℕ → UInt8) (f : Reader) (i : ℕ) :
    Elf64ProgramHeader :=
  (nextHeader phoff junks i (readerAt phoff junks f i)).1

/-- The file after the program header `i`. -/
@[irreducible] def bodyAt (phoff : ℕ) (junks : ℕ → ℕ → UInt8) (f : Reader) (i : ℕ) : Reader :=
  (nextHeader phoff junks i (readerAt phoff junks f i)).2

theorem memsz_headerAt_lt (phoff : ℕ) (junks : ℕ → ℕ → UInt8) (f : Reader) (i : ℕ) :
    (headerAt phoff junks f i).memsz < 2 ^ 64 := by
  rw [headerAt]
  exact loadLE_lt

theorem readerAt_succ (phoff : ℕ) (junks : ℕ → ℕ → UInt8) (f : Reader) (i : ℕ) :
    readerAt phoff junks f (i + 1) = after (headerAt phoff junks f i) (bodyAt phoff junks f i) := by
  rw [readerAt, headerAt, bodyAt]

/-- The file is the same, wherever it is read next. -/
def SameFile (file f : Reader) : Prop := f.data = file.data ∧ f.size = file.size

namespace SameFile

variable {file f : Reader} {phoff : ℕ}

theorem refl : SameFile f f := ⟨rfl, rfl⟩

variable (h : SameFile file f)

include h

theorem seek (offset : ℕ) : SameFile file (f.seek offset) := by
  rw [Reader.seek]
  split <;> exact ⟨h.1, h.2⟩

theorem advance (len : ℕ) : SameFile file (f.advance len) := by
  rw [Reader.advance]
  split_ifs <;> exact ⟨h.1, h.2⟩

theorem after {p : Elf64ProgramHeader} : SameFile file (after p f) := by
  rw [ElfLoader.after]
  split
  · exact (h.seek _).advance _
  · exact h

/-- What is read after `File::seek` does not depend on what was read before. -/
theorem seek_eq {offset : ℕ} (ho : offset < 2 ^ 63) : f.seek offset = file.seek offset := by
  obtain ⟨data, size, off⟩ := f
  obtain ⟨rfl, rfl⟩ := h
  have hmod : offset % 2 ^ 64 = offset := Nat.mod_eq_of_lt (ho.trans (by norm_num))
  rw [Reader.seek, Reader.seek, hmod, if_pos ho, if_pos ho]

theorem readerAt (i : ℕ) : SameFile file (readerAt phoff junks f i) := by
  induction i with
  | zero => exact h
  | succ i ih =>
    rw [ElfLoader.readerAt]
    exact ((ih.seek _).advance _).after

theorem bodyAt (i : ℕ) : SameFile file (bodyAt phoff junks f i) := by
  rw [ElfLoader.bodyAt]
  exact ((h.readerAt i).seek _).advance _

end SameFile

/-- A round of the loop loads a segment. -/
theorem loadStep_eq {i : ℕ} (h : s.file = readerAt hdr.phoff junks f i) : loadStep B hdr junks i s =
      loadSegment B hdr.phoff (headerAt hdr.phoff junks f i)
        { s with file := bodyAt hdr.phoff junks f i } := by
  rw [loadStep, h, headerAt, bodyAt, nextHeader]

/-! ## Segments -/

/-- A page of a segment which is loaded. -/
def Covers (p : Elf64ProgramHeader) (n : Vpn) : Prop :=
  Loaded p ∧ ∃ k < pages p, n = pageAt (vaddrAligned p) k

theorem kallocPages_refused {ph : Phys σ} (count : ℕ) (h : .refused ∈ ph.log) :
    .refused ∈ (kallocPages B ph count).2.log := by
  rw [kallocPages]
  split
  · exact List.mem_append_right _ h
  · exact (.head _)

section Rules

variable {phoff : ℕ} {p : Elf64ProgramHeader} {s : Loading σ} {P Q : Loading σ → Prop} {R : Prop}

/-- The state after a segment has been mapped. -/
def Loading.loaded (phoff : ℕ) (p : Elf64ProgramHeader) (s : Loading σ) (t : Phys σ × PMT) :
    Loading σ :=
  ⟨t.1, t.2, describe p s.segTable, (s.file.seek p.offset).advance p.filesz,
    if p.offset = 0 then (p.vaddr + phoff) % 2 ^ 64 else s.phdrVa⟩

/-- What `loadSegment` does: nothing, failing to get a block, or mapping it. -/
theorem loadSegment_rule (hskip : ¬ Loaded p → P s)
    (hfail : Loaded p → ∀ ph, kallocPages B s.ph (pages p % 2 ^ 32) = (none, ph) →
      Q { s with ph := ph })
    (hload : Loaded p → ∀ page ph, kallocPages B s.ph (pages p % 2 ^ 32) = (some page, ph) →
      (PMT.mapPages B.toPool (vaddrAligned p) page (pages p) (flagsToPte p.flags)
        ({ ph with mem := fill p (s.file.seek p.offset) page ph.mem }, s.pmt)).ignore.Holds
        (fun t => P (s.loaded phoff p t)) (fun _ => False) R) :
    (loadSegment B phoff p s).Holds P Q R := by
  rw [loadSegment]
  by_cases htype : p.type ≠ 1
  · rw [if_pos htype]
    exact hskip fun hl => htype hl.1
  by_cases hmemsz : p.memsz = 0
  · rw [if_neg htype, if_pos hmemsz]
    exact hskip fun hl => hl.2 hmemsz
  rw [if_neg htype, if_neg hmemsz]
  have hl : Loaded p := ⟨not_not.1 htype, hmemsz⟩
  rcases halloc : kallocPages B s.ph (pages p % 2 ^ 32) with ⟨_ | page, ph⟩
  · exact hfail hl ph halloc
  have hmap := hload hl page ph halloc
  dsimp only
  generalize (PMT.mapPages _ _ _ _ _ _).ignore = r at hmap ⊢
  cases r with
  | panic => exact hmap
  | fail t => exact hmap.elim
  | ok t => exact hmap

/-- What loading a segment does: its pages are mapped in a row, all of them unless the allocator
    refuses something. -/
structure Adds (p : Elf64ProgramHeader) (s u : Loading σ) : Prop where
  file : u.file = after p s.file
  segTable : u.segTable = if Loaded p then describe p s.segTable else s.segTable
  log : .refused ∈ s.ph.log → .refused ∈ u.ph.log
  row : ∃ page c, Row (vaddrAligned p) page (flagsToPte p.flags) c s.pmt u.pmt ∧
    (∀ k < c, Covers p (pageAt (vaddrAligned p) k)) ∧ (.refused ∉ u.ph.log → Loaded p → c = pages p)

theorem loadSegment_adds :
    (loadSegment B phoff p s).Holds (Adds p s) (fun _ => True) True := by
  refine loadSegment_rule (fun hp => ?_) (fun _ _ _ => trivial) fun hp page ph halloc => ?_
  · exact ⟨(if_neg hp).symm, (if_neg hp).symm, id, 0, 0, filled_zero, nofun, fun _ hl => absurd hl hp⟩
  have hlog : .refused ∈ s.ph.log → .refused ∈ ph.log := fun hr => by
    have hr' := kallocPages_refused (B := B) (pages p % 2 ^ 32) hr
    rwa [halloc] at hr'
  have hv : (flagsToPte p.flags).v := rfl
  refine ((mapPages_ignore hv _).imp (fun t ht => ?_) fun _ h => h).mono_panic fun _ => trivial
  obtain ⟨⟨c, hc, hrow, hshort⟩, hgo⟩ := ht
  refine ⟨(if_pos hp).symm, (if_pos hp).symm, fun hr => hgo (hlog hr), page, c, hrow,
    fun k hk => ⟨hp, k, hk.trans_le hc, rfl⟩, fun hr _ => ?_⟩
  exact hc.eq_of_not_lt fun hlt => hr (hshort hlt).1

end Rules

/-! ## The loop -/

variable {hdr : Elf64Header} {junks : ℕ → ℕ → UInt8} {f : Reader} {i n : ℕ} {s u v : Loading σ}
  {ph : Phys σ} {pmt : PMT} {hs : ℕ → Elf64ProgramHeader}

/-- The pages of the first `n` segments are different ones, and none is mapped. -/
structure Placed (pmt : PMT) (hs : ℕ → Elf64ProgramHeader) (n : ℕ) : Prop where
  free : ∀ i < n, ∀ m, Covers (hs i) m → pmt.lookup m = none
  once : ∀ i < n, Loaded (hs i) → ∀ k < pages (hs i), ∀ j < k,
    pageAt (vaddrAligned (hs i)) j ≠ pageAt (vaddrAligned (hs i)) k
  apart : ∀ i < n, ∀ j < i, ∀ m, Covers (hs i) m → ¬ Covers (hs j) m

/-- The first `i` segments have been loaded after `s`: what was mapped before stays so, and the other
    pages are theirs, all of which are mapped unless the allocator refused something. -/
structure Extends (hs : ℕ → Elf64ProgramHeader) (s : Loading σ) (i : ℕ) (u : Loading σ) : Prop where
  log : .refused ∈ s.ph.log → .refused ∈ u.ph.log
  kept : ∀ m pte, s.pmt.lookup m = some pte → u.pmt.lookup m = some pte
  outside : ∀ m, (∀ j < i, ¬ Covers (hs j) m) → u.pmt.lookup m = s.pmt.lookup m
  inside : .refused ∉ u.ph.log → ∀ j < i, ∀ m, Covers (hs j) m → (u.pmt.lookup m).isSome
  placed : .refused ∉ u.ph.log → Placed s.pmt hs i

/-- One more segment. -/
theorem Extends.succ (h : Extends hs s i u) (ha : Adds (hs i) { u with file := f } v) :
    Extends hs s (i + 1) v := by
  obtain ⟨page, c, hrow, hcov, hall⟩ := ha.row
  have hlog (hr : .refused ∉ v.ph.log) : .refused ∉ u.ph.log := mt ha.log hr
  -- The pages of the segment were not mapped, so they are none of another one.
  have hnew (hr : .refused ∉ v.ph.log) {m : Vpn} (hm : Covers (hs i) m) : u.pmt.lookup m = none ∧
      (v.pmt.lookup m).isSome := by
    obtain ⟨hl, k, hk, rfl⟩ := hm
    obtain ⟨hnone, hsome⟩ := hrow.inside (hall hr hl ▸ hk)
    exact ⟨hnone, Option.isSome_of_eq_some hsome⟩
  refine ⟨fun hr => ha.log (h.log hr), fun m pte hpte => hrow.keeps (h.kept m pte hpte),
    fun m hm => ?_, fun hr j hj m hm => ?_, fun hr => ⟨fun j hj m hm => ?_, fun j hj => ?_,
    fun j hj k hk m hm => ?_⟩⟩
  · rw [hrow.outside m fun k hk he => hm i (Nat.lt_succ_self i) (he ▸ hcov k hk)]
    exact h.outside m fun j hj => hm j (Nat.lt_succ_of_lt hj)
  · rcases Nat.lt_succ_iff_lt_or_eq.1 hj with hj | rfl
    · obtain ⟨pte, hpte⟩ := Option.isSome_iff_exists.1 (h.inside (hlog hr) j hj m hm)
      exact Option.isSome_of_eq_some (hrow.keeps hpte)
    · exact (hnew hr hm).2
  · rcases Nat.lt_succ_iff_lt_or_eq.1 hj with hj | rfl
    · exact (h.placed (hlog hr)).free j hj m hm
    · refine Option.eq_none_iff_forall_ne_some.2 fun pte hpte => ?_
      exact absurd ((h.kept m pte hpte).symm.trans (hnew hr hm).1) nofun
  · rcases Nat.lt_succ_iff_lt_or_eq.1 hj with hj | rfl
    · exact (h.placed (hlog hr)).once j hj
    · intro hl k hk k' hk' he
      rw [← hall hr hl] at hk
      exact hk'.ne (hrow.injective (hk'.trans hk) hk he)
  · rcases Nat.lt_succ_iff_lt_or_eq.1 hj with hj | rfl
    · exact (h.placed (hlog hr)).apart j hj k hk m hm
    · intro hm'
      have hsome := h.inside (hlog hr) k hk m hm'
      rw [(hnew hr hm).1] at hsome
      cases hsome

/-- The loop of `ElfLoader::load` keeps what every segment keeps. -/
theorem loadSegments_rule {I : ℕ → Loading σ → Prop} {Q : Loading σ → Prop} {R : Prop}
    (hfile : s.file = f) (h0 : I 0 s)
    (hstep : ∀ i u, i < n → Extends (headerAt hdr.phoff junks f) s i u → I i u →
      (loadSegment B hdr.phoff (headerAt hdr.phoff junks f i)
        { u with file := bodyAt hdr.phoff junks f i }).Holds (I (i + 1)) Q R) :
    (tryRange (loadStep B hdr junks) n s).Holds
      (fun u => I n u ∧ Extends (headerAt hdr.phoff junks f) s n u) Q R := by
  have hstart : Extends (headerAt hdr.phoff junks f) s 0 s :=
    ⟨id, fun _ _ => id, fun _ _ => rfl, fun _ => nofun, fun _ => ⟨nofun, nofun, nofun⟩⟩
  refine (tryRange_induct (P := fun i u => (I i u ∧ Extends (headerAt hdr.phoff junks f) s i u) ∧
    u.file = readerAt hdr.phoff junks f i) ⟨⟨h0, hstart⟩, hfile⟩ fun i u hi hu => ?_).imp
    (fun _ hu => hu.1) fun _ hu => hu
  rw [loadStep_eq hu.2, readerAt_succ]
  exact ((hstep i u hi hu.1.2 hu.1.1).and loadSegment_adds).mono_panic And.left |>.imp
    (fun v hv => ⟨⟨hv.1, hu.1.2.succ hv.2⟩, hv.2.file⟩) fun _ h => h.1

theorem loadSegments_extends (hfile : s.file = f) : (tryRange (loadStep B hdr junks) n s).Holds
    (Extends (headerAt hdr.phoff junks f) s n) (fun _ => True) True :=
  (loadSegments_rule (I := fun _ _ => True) hfile trivial fun _ _ _ _ _ =>
    loadSegment_adds.imp (fun _ _ => trivial) fun _ h => h).imp (fun _ h => h.2) fun _ h => h

section

variable (h : Placed pmt hs n) (hi : i < n) (hl : Loaded (hs i))

include h hi hl

/-- There are `2 ^ 27` pages. -/
theorem Placed.pages_le : pages (hs i) ≤ 2 ^ 27 := by
  by_contra hlt
  refine h.once i hi hl (2 ^ 27) (not_le.1 hlt) 0 (by norm_num) ?_
  rw [pageAt, pageAt, vpn, vpn]
  simp only [pageSize, Vpn.mk.injEq]
  omega

/-- The pages which were asked for are those of the segment. -/
theorem Placed.pages_mod : pages (hs i) % 2 ^ 32 = pages (hs i) :=
  Nat.mod_eq_of_lt ((h.pages_le hi hl).trans_lt (by norm_num))

/-- Where the other pages are as they were before, those of the next segment are not occupied. -/
theorem Placed.not_occupied {pmt' : PMT}
    (hsame : ∀ m, (∀ j < i, ¬ Covers (hs j) m) → pmt'.lookup m = pmt.lookup m) :
    ¬ Occupied (vaddrAligned (hs i)) (pages (hs i)) pmt' := by
  rintro ⟨k, hk, hsome | ⟨j, hj, he⟩⟩
  · have hc : Covers (hs i) (pageAt (vaddrAligned (hs i)) k) := ⟨hl, k, hk, rfl⟩
    rw [hsame _ fun j hj => h.apart i hi j hj _ hc, h.free i hi _ hc] at hsome
    cases hsome
  · exact h.once i hi hl k hk j hj he

end

/-- What `ElfLoader::load` starts with. -/
def Loading.start (file : Reader) (ph : Phys σ) (pmt : PMT) (t : SegmentTable) : Loading σ :=
  ⟨ph, pmt, t, file.advance Elf64Header.size, 0⟩

/-- The loop of `ElfLoader::load`. -/
def loadLoop (B : BlockPool σ) (file : Reader) (junk : ℕ → UInt8) (junks : ℕ → ℕ → UInt8) (pmt : PMT)
    (t : SegmentTable) (ph : Phys σ) : Outcome (Loading σ) :=
  tryRange (loadStep B (header file junk) junks) (header file junk).phnum (.start file ph pmt t)

/-- `ElfLoader::load` returns what the loop leaves. -/
theorem load_cases {file : Reader} {junk : ℕ → UInt8} {t : SegmentTable}
    (hvalid : validateHeader (header file junk) = true) :
    (loadLoop B file junk junks pmt t ph).Holds
      (fun u => ∃ info, load B (some file) junk junks pmt t ph =
        some (some info, u.ph, u.pmt, u.segTable))
      (fun u => load B (some file) junk junks pmt t ph = some (none, u.ph, u.pmt, u.segTable))
      (load B (some file) junk junks pmt t ph = none) := by
  rw [load]
  rw [hvalid, Bool.not_true, if_neg Bool.false_ne_true, loadLoop, Loading.start]
  generalize tryRange _ _ _ = r
  cases r with
  | panic => rfl
  | fail u => rfl
  | ok u => exact ⟨_, rfl⟩

/-- A program which has been loaded. -/
theorem load_some {file : Reader} {junk : ℕ → UInt8} {pmt' : PMT} {t t' : SegmentTable}
    {ph' : Phys σ} {info : ElfLoadInfo}
    (h : load B (some file) junk junks pmt t ph = some (some info, ph', pmt', t')) :
    info.phent = (header file junk).phentsize ∧
    info.phnum = (header file junk).phnum ∧
    ∃ u, tryRange (loadStep B (header file junk) junks) (header file junk).phnum
      ⟨ph, pmt, t, file.advance Elf64Header.size, 0⟩ = .ok u ∧
      u.ph = ph' ∧ u.pmt = pmt' ∧ u.segTable = t' := by
  rw [load] at h
  generalize header file junk = hdr at h ⊢
  cases hvalid : validateHeader hdr with
  | false =>
    rw [hvalid] at h
    cases h
  | true =>
    rw [hvalid] at h
    generalize tryRange _ _ _ = r at h ⊢
    cases r with
    | panic => cases h
    | fail u => cases (Prod.mk.inj (Option.some.inj h)).1
    | ok u =>
      obtain ⟨hinfo, h⟩ := Prod.mk.inj (Option.some.inj h)
      obtain ⟨hph, h⟩ := Prod.mk.inj h
      obtain ⟨hpmt, ht⟩ := Prod.mk.inj h
      cases Option.some.inj hinfo
      exact ⟨rfl, rfl, u, rfl, hph, hpmt, ht⟩

end ElfLoader

end HobbyOS
