import HobbyOS.Elf.Format

/-!
# Descriptors of segments

`ElfLoader::load` sets a descriptor for every segment, by which `SegmentTable::checkOperation` knows
which addresses a program may pass to a system call. The table has one slot for each kind: the text,
the read-only data, the data, and what is behind the data of the file. So of several segments of a
kind only the last one is described (`slot_foldl`), and the addresses of the others are refused.

* `passes_iff`: the table admits what the segments allow, and no other byte to be written, if and only
  if those which can be read or written fit into the address space and are each the last of their
  kind, the last segment with a part behind its data is one of them, and those which can be written
  begin and end at the bounds of pages. For that part is described as one which can be written,
  whatever the flags of the segment are; and segments are described page by page.
-/

namespace HobbyOS

open List Nat Option

/-- The slots which the loader sets. -/
inductive Slot
  | text
  | roData
  | data
  | bss
  deriving DecidableEq

/-- The descriptor in a slot. -/
def SegmentTable.slot (t : SegmentTable) : Slot → Option SegmentDesc
  | .text => t.text
  | .roData => t.roData
  | .data => t.data
  | .bss => t.bss

/-- An access to one byte asks for the first descriptor which has it. -/
theorem checkRange_one {ds : List SegmentDesc} {op : Access} {a : ℕ} :
    checkRange ds op a (a + 1) = true ↔
      ∃ d, ds.find? (·.contains a) = some d ∧ d.flags.meets op = true := by
  rw [checkRange, if_pos (lt_succ_self a)]
  split
  next h => simp [h]
  next d h =>
    have hc := List.find?_some h
    rw [SegmentDesc.contains, Bool.and_eq_true, decide_eq_true_eq, decide_eq_true_eq] at hc
    rw [checkRange, if_neg (by omega), Bool.and_true, h]
    simp

namespace ElfLoader

variable {σ : Type*} {B : BlockPool σ} {p q : Elf64ProgramHeader} {ps : List Elf64ProgramHeader}
  {t : SegmentTable} {s s' : Slot} {d d' : SegmentDesc} {a : ℕ}

/-- What is described of a segment in a slot. -/
def part (p : Elf64ProgramHeader) (s : Slot) : Option SegmentDesc := (describe p .empty).slot s

theorem describe_slot (p : Elf64ProgramHeader) (t : SegmentTable) (s : Slot) :
    (describe p t).slot s = (part p s).or (t.slot s) := by
  rw [part, describe, describe]
  dsimp only
  split_ifs <;> cases s <;> rfl

theorem describe_heap_stack (p : Elf64ProgramHeader) (t : SegmentTable) :
    (describe p t).heap = t.heap ∧ (describe p t).stack = t.stack := by
  rw [describe]
  dsimp only
  split_ifs <;> exact ⟨rfl, rfl⟩

/-- Where the pages of a segment end. -/
def vaEnd (p : Elf64ProgramHeader) : ℕ := (vaddrAligned p + pages p * pageSize) % 2 ^ 64

/-- Where the pages with bytes of the file end. -/
def dataEnd (p : Elf64ProgramHeader) : ℕ :=
  pageRoundUp ((vaddrAligned p + offsetInPage p + p.filesz) % 2 ^ 64)

/-- The access which the flags of a segment allow. -/
def segFlags (p : Elf64ProgramHeader) : Access := ⟨pfR p.flags, pfW p.flags, pfX p.flags⟩

/-- What is described of a segment, case by case. -/
inductive Part (p : Elf64ProgramHeader) : Slot → SegmentDesc → Prop
  | text (hx : pfX p.flags = true) : Part p .text ⟨segFlags p, vaddrAligned p, vaEnd p⟩
  | roData (hx : pfX p.flags = false) (hrw : (pfR p.flags && !pfW p.flags) = true) :
    Part p .roData ⟨segFlags p, vaddrAligned p, vaEnd p⟩
  | data (hx : pfX p.flags = false) (hrw : (pfR p.flags && !pfW p.flags) = false)
    (hsize : p.filesz = p.memsz) : Part p .data ⟨segFlags p, vaddrAligned p, vaEnd p⟩
  | file (hx : pfX p.flags = false) (hrw : (pfR p.flags && !pfW p.flags) = false)
    (hsize : p.filesz ≠ p.memsz) (hlt : vaddrAligned p < dataEnd p) :
    Part p .data ⟨{ segFlags p with x := false }, vaddrAligned p, dataEnd p⟩
  | bss (hx : pfX p.flags = false) (hrw : (pfR p.flags && !pfW p.flags) = false)
    (hsize : p.filesz ≠ p.memsz) (hlt : dataEnd p < vaEnd p) :
    Part p .bss ⟨.readWrite, dataEnd p, vaEnd p⟩

theorem part_iff : part p s = some d ↔ Part p s d := by
  rw [part, describe]
  dsimp only
  rw [← vaEnd, ← dataEnd, ← segFlags]
  constructor
  · intro h
    split_ifs at h with hx hrw hsize hbss hdata hdata
    all_goals cases s <;> cases h
    · exact .text hx
    · exact .roData (eq_false_of_ne_true hx) hrw
    · exact .data (eq_false_of_ne_true hx) (eq_false_of_ne_true hrw) hsize
    · exact .file (eq_false_of_ne_true hx) (eq_false_of_ne_true hrw) hsize hdata
    · exact .bss (eq_false_of_ne_true hx) (eq_false_of_ne_true hrw) hsize hbss
    · exact .bss (eq_false_of_ne_true hx) (eq_false_of_ne_true hrw) hsize hbss
    · exact .file (eq_false_of_ne_true hx) (eq_false_of_ne_true hrw) hsize hdata
  · rintro (hx | ⟨hx, hrw⟩ | ⟨hx, hrw, hsize⟩ | ⟨hx, hrw, hsize, hlt⟩ | ⟨hx, hrw, hsize, hlt⟩)
    · rw [if_pos hx]
      rfl
    · rw [if_neg (by simp [hx]), if_pos hrw]
      rfl
    · rw [if_neg (by simp [hx]), if_neg (by simp [hrw]), if_pos hsize]
      rfl
    · rw [if_neg (by simp [hx]), if_neg (by simp [hrw]), if_neg hsize, if_pos hlt]
      split <;> rfl
    · rw [if_neg (by simp [hx]), if_neg (by simp [hrw]), if_neg hsize, if_pos hlt]
      rfl

/-- A segment has a part of this kind. -/
def Sets (p : Elf64ProgramHeader) (s : Slot) : Prop := ∃ d, Part p s d

theorem sets_iff : Sets p s ↔ (part p s).isSome = true := by
  simp only [Sets, isSome_iff_exists, part_iff]

instance (p : Elf64ProgramHeader) (s : Slot) : Decidable (Sets p s) :=
  decidable_of_iff _ sets_iff.symm

/-- The table after some segments. -/
def describeAll (ps : List Elf64ProgramHeader) (t : SegmentTable) : SegmentTable :=
  ps.foldl (fun t p => describe p t) t

theorem describeAll_concat (ps : List Elf64ProgramHeader) (p : Elf64ProgramHeader)
    (t : SegmentTable) : describeAll (ps ++ [p]) t = describe p (describeAll ps t) := by
  rw [describeAll, foldl_append]
  rfl

/-- The last segment which sets a slot. -/
def Last (ps : List Elf64ProgramHeader) (s : Slot) (p : Elf64ProgramHeader) : Prop :=
  ∃ l1 l2, ps = l1 ++ p :: l2 ∧ Sets p s ∧ ∀ q ∈ l2, ¬ Sets q s

theorem Last.mem (h : Last ps s p) : p ∈ ps := by
  obtain ⟨l1, l2, rfl, -⟩ := h
  exact mem_append_right _ (.head _)

/-- One more segment sets the slot, or leaves it. -/
theorem last_concat : Last (ps ++ [q]) s p ↔ p = q ∧ Sets q s ∨ ¬ Sets q s ∧ Last ps s p := by
  constructor
  · rintro ⟨l1, l2, hps, hsets, hnone⟩
    rcases eq_nil_or_concat l2 with rfl | ⟨l2, r, rfl⟩
    · obtain rfl : q = p := by simpa using (append_inj' hps rfl).2
      exact .inl ⟨rfl, hsets⟩
    · rw [concat_eq_append, ← cons_append, ← append_assoc] at hps
      obtain rfl : q = r := by simpa using (append_inj' hps rfl).2
      obtain ⟨rfl, -⟩ := append_inj' hps rfl
      exact .inr ⟨hnone q (by simp), l1, l2, rfl, hsets, fun r hr => hnone r (by simp [hr])⟩
  · rintro (⟨rfl, hsets⟩ | ⟨hq, l1, l2, rfl, hsets, hnone⟩)
    · exact ⟨ps, [], rfl, hsets, by simp⟩
    · refine ⟨l1, l2 ++ [q], by simp, hsets, fun r hr => ?_⟩
      rcases mem_append.1 hr with hr | hr
      · exact hnone r hr
      · rwa [mem_singleton.1 hr]

/-- A slot keeps what was set last. -/
theorem slot_describeAll : (describeAll ps .empty).slot s = some d ↔
    ∃ p, Last ps s p ∧ part p s = some d := by
  induction ps using List.reverseRecOn with
  | nil =>
    constructor
    · intro h
      cases s <;> cases h
    · rintro ⟨p, hp, -⟩
      exact absurd hp.mem not_mem_nil
  | append_singleton ps q ih =>
    rw [describeAll_concat, describe_slot]
    cases hq : part q s with
    | some e =>
      simp [last_concat, sets_iff, hq]
    | none =>
      simp [last_concat, sets_iff, hq, ih]

theorem mem_descs_describeAll : d ∈ (describeAll ps .empty).descs ↔
    ∃ s p, Last ps s p ∧ part p s = some d := by
  have hrest : (describeAll ps .empty).heap = none ∧ (describeAll ps .empty).stack = none := by
    induction ps using List.reverseRecOn with
    | nil => exact ⟨rfl, rfl⟩
    | append_singleton ps q ih =>
      rwa [describeAll_concat, (describe_heap_stack _ _).1, (describe_heap_stack _ _).2]
  rw [SegmentTable.descs, reduceOption_mem_iff, hrest.1, hrest.2]
  simp only [mem_cons, not_mem_nil, or_false, reduceCtorEq]
  constructor
  · rintro (h | h | h | h)
    · exact ⟨.text, slot_describeAll.1 h.symm⟩
    · exact ⟨.roData, slot_describeAll.1 h.symm⟩
    · exact ⟨.data, slot_describeAll.1 h.symm⟩
    · exact ⟨.bss, slot_describeAll.1 h.symm⟩
  · rintro ⟨s, h⟩
    have hslot := (slot_describeAll.2 h).symm
    cases s with
    | text => exact .inl hslot
    | roData => exact .inr (.inl hslot)
    | data => exact .inr (.inr (.inl hslot))
    | bss => exact .inr (.inr (.inr hslot))

/-! ## The addresses of a segment -/

/-- A segment as it is read from a file, which does not begin at the last of all addresses. -/
structure Proper (p : Elf64ProgramHeader) : Prop where
  memsz_ne : p.memsz ≠ 0
  vaddr_lt : p.vaddr + 1 < 2 ^ 64
  memsz_lt : p.memsz < 2 ^ 64
  filesz_le : p.filesz ≤ p.memsz

/-- The address of a byte of a segment. -/
def HasByte (p : Elf64ProgramHeader) (a : ℕ) : Prop := ∃ k < p.memsz, a = (p.vaddr + k) % 2 ^ 64

/-- An address in a page of a segment. -/
def OnPages (p : Elf64ProgramHeader) (a : ℕ) : Prop :=
  ∃ k < p.memsz, a / pageSize = (p.vaddr + k) % 2 ^ 64 / pageSize

/-- The pages of a segment end before the address space does. -/
def Fits (p : Elf64ProgramHeader) : Prop := p.vaddr + p.memsz ≤ 2 ^ 64 - pageSize

instance (p : Elf64ProgramHeader) : Decidable (Fits p) := inferInstanceAs (Decidable (_ ≤ _))

/-- The segment begins and ends at the bounds of pages. -/
def Whole (p : Elf64ProgramHeader) : Prop :=
  p.vaddr % pageSize = 0 ∧ (p.vaddr + p.memsz) % pageSize = 0

instance (p : Elf64ProgramHeader) : Decidable (Whole p) := inferInstanceAs (Decidable (_ ∧ _))

theorem HasByte.onPages (h : HasByte p a) : OnPages p a := by
  obtain ⟨k, hk, rfl⟩ := h
  exact ⟨k, hk, rfl⟩

/-- The bytes of a segment, up to where they wrap around, and after that. -/
theorem hasByte_iff (hp : Proper p) (ha : a < 2 ^ 64) : HasByte p a ↔
    p.vaddr ≤ a ∧ a < p.vaddr + p.memsz ∨ a + 2 ^ 64 < p.vaddr + p.memsz := by
  have hvaddr := hp.vaddr_lt
  have hmemsz := hp.memsz_lt
  constructor
  · rintro ⟨k, hk, rfl⟩
    omega
  · rintro (⟨h1, h2⟩ | h)
    · exact ⟨a - p.vaddr, by omega, by omega⟩
    · exact ⟨a + 2 ^ 64 - p.vaddr, by omega, by omega⟩

/-- The pages of a segment, up to where they wrap around, and after that. -/
theorem onPages_iff (hp : Proper p) (ha : a < 2 ^ 64) : OnPages p a ↔
    vaddrAligned p ≤ a ∧ a / pageSize * pageSize < p.vaddr + p.memsz ∨
      a / pageSize * pageSize + 2 ^ 64 < p.vaddr + p.memsz := by
  have hne := hp.memsz_ne
  have hvaddr := hp.vaddr_lt
  have hmemsz := hp.memsz_lt
  simp only [OnPages, vaddrAligned, pageRoundDown, pageSize]
  constructor
  · rintro ⟨k, hk, he⟩
    omega
  · rintro (⟨h1, h2⟩ | h)
    · by_cases hfirst : a / 4096 = p.vaddr / 4096
      · exact ⟨0, by omega, by omega⟩
      · exact ⟨a / 4096 * 4096 - p.vaddr, by omega, by omega⟩
    · exact ⟨a / 4096 * 4096 + 2 ^ 64 - p.vaddr, by omega, by omega⟩

theorem contains_iff : d.contains a = true ↔ d.start ≤ a ∧ a < d.stop := by
  rw [SegmentDesc.contains, Bool.and_eq_true, decide_eq_true_eq, decide_eq_true_eq]

theorem vaEnd_le (p : Elf64ProgramHeader) :
    vaEnd p ≤ p.vaddr + p.memsz + (pageSize - 1) ∧ vaEnd p % pageSize = 0 := by
  simp only [vaEnd, pages, offsetInPage, vaddrAligned, pageRoundDown, pageSize]
  omega

theorem dataEnd_le (p : Elf64ProgramHeader) :
    dataEnd p ≤ p.vaddr + p.filesz + (pageSize - 1) ∧ dataEnd p % pageSize = 0 := by
  simp only [dataEnd, pageRoundUp, offsetInPage, vaddrAligned, pageRoundDown, pageSize]
  omega

/-- A part has addresses of the segment only. -/
theorem Part.onPages (h : Part p s d) (hp : Proper p) (ha : a < 2 ^ 64) (hc : d.contains a = true) :
    OnPages p a := by
  have hfilesz := hp.filesz_le
  have hva := vaEnd_le p
  have hdata := dataEnd_le p
  rw [contains_iff] at hc
  rw [onPages_iff hp ha]
  cases h with
  | text | roData | data | file =>
    simp only [pageSize] at *
    omega
  | bss hx hrw hsize hlt =>
    by_cases hge : vaddrAligned p ≤ a
    · simp only [pageSize] at *
      omega
    -- The segment wraps around.
    have hvaddr := hp.vaddr_lt
    have hmemsz := hp.memsz_lt
    simp only [vaEnd, dataEnd, pages, offsetInPage, pageRoundUp, vaddrAligned, pageRoundDown,
      pageSize] at *
    omega

/-- The parts of a segment are apart. -/
theorem Part.unique (h : Part p s d) (h' : Part p s' d') (hc : d.contains a = true)
    (hc' : d'.contains a = true) : s = s' ∧ d = d' := by
  rw [contains_iff] at hc hc'
  cases h <;> cases h'
  any_goals exact ⟨rfl, rfl⟩
  all_goals first | (simp_all; done) | (dsimp only at hc hc'; omega)

/-- A part which can be written is one of a segment which can, or behind the bytes of the file. -/
theorem Part.flags (h : Part p s d) : (d.flags.r = true ↔ pfR p.flags = true ∨ s = .bss) ∧
    (d.flags.w = true ↔ pfW p.flags = true ∨ s = .bss) := by
  cases h <;> simp [segFlags, Access.readWrite]

theorem Part.bss_flags (h : Part p .bss d) (hrw : pfR p.flags = true ∨ pfW p.flags = true) :
    pfW p.flags = true := by
  cases h with
  | bss hx hnot => 
    cases hw : pfW p.flags with
    | true => rfl
    | false => simp_all

theorem Fits.vaEnd (h : Fits p) : p.vaddr + p.memsz ≤ vaEnd p := by
  simp only [Fits, ElfLoader.vaEnd, pages, offsetInPage, vaddrAligned, pageRoundDown, pageSize] at *
  omega

/-- A segment which fits is described from its first page to its last one. -/
theorem Fits.exists_part (h : Fits p) (hp : Proper p) (ha : a < 2 ^ 64) (hon : OnPages p a) :
    ∃ s d, Part p s d ∧ d.contains a = true := by
  have hend := h.vaEnd
  have hmod := (vaEnd_le p).2
  obtain ⟨hstart, hstop⟩ : vaddrAligned p ≤ a ∧ a < ElfLoader.vaEnd p := by
    rw [onPages_iff hp ha] at hon
    simp only [Fits, pageSize] at *
    omega
  cases hx : pfX p.flags with
  | true => exact ⟨_, _, .text hx, contains_iff.2 ⟨hstart, hstop⟩⟩
  | false =>
    cases hrw : pfR p.flags && !pfW p.flags with
    | true => exact ⟨_, _, .roData hx hrw, contains_iff.2 ⟨hstart, hstop⟩⟩
    | false =>
      by_cases hsize : p.filesz = p.memsz
      · exact ⟨_, _, .data hx hrw hsize, contains_iff.2 ⟨hstart, hstop⟩⟩
      · rcases lt_or_ge a (dataEnd p) with hlt | hge
        · exact ⟨_, _, .file hx hrw hsize (hstart.trans_lt hlt), contains_iff.2 ⟨hstart, hlt⟩⟩
        · exact ⟨_, _, .bss hx hrw hsize (hge.trans_lt hstop), contains_iff.2 ⟨hge, hstop⟩⟩

/-- Behind the end of the address space, the end of a segment is before its start, unless its size is
    lost in the sum as well. -/
theorem vaEnd_of_not_fits (h : ¬ Fits p) (hp : Proper p) : vaEnd p ≤ vaddrAligned p ∨
    vaEnd p = vaddrAligned p + pageSize ∧ 2 ^ 64 < vaEnd p + p.memsz ∧ vaEnd p < 2 ^ 64 := by
  have hvaddr := hp.vaddr_lt
  have hmemsz := hp.memsz_lt
  simp only [Fits, vaEnd, pages, offsetInPage, vaddrAligned, pageRoundDown, pageSize] at *
  omega

/-- One which does not fit has a byte which is not described. -/
theorem exists_not_part (h : ¬ Fits p) (hp : Proper p) : ∃ a, a + 1 < 2 ^ 64 ∧ HasByte p a ∧
    ∀ s d, Part p s d → d.contains a = false := by
  have hends := vaEnd_of_not_fits h hp
  have hva := vaEnd_le p
  have hdata := dataEnd_le p
  have hne := hp.memsz_ne
  have hstart : vaddrAligned p ≤ p.vaddr ∧ p.vaddr < vaddrAligned p + pageSize ∧
      vaddrAligned p % pageSize = 0 := by
    simp only [vaddrAligned, pageRoundDown, pageSize]
    omega
  have hvaddr := hp.vaddr_lt
  have hlt : dataEnd p < 2 ^ 64 := by
    simp only [dataEnd, pageRoundUp, pageSize]
    omega
  -- The first byte behind the parts which start at the first page.
  by_cases hfile : vaddrAligned p < dataEnd p ∧ pfX p.flags = false ∧
      (pfR p.flags && !pfW p.flags) = false ∧ p.filesz ≠ p.memsz
  · refine ⟨dataEnd p, ?_, (hasByte_iff hp hlt).2 ?_, fun s d hpart => ?_⟩
    · simp only [pageSize] at *
      omega
    · simp only [Fits, pageSize] at *
      omega
    · rw [← Bool.not_eq_true, contains_iff]
      obtain ⟨hlt', hx, hrw, hsize⟩ := hfile
      cases hpart <;> simp_all [pageSize]; omega
  refine ⟨max p.vaddr (vaEnd p), ?_, (hasByte_iff hp ?_).2 ?_, fun s d hpart => ?_⟩
  · simp only [pageSize] at *
    omega
  · simp only [pageSize] at *
    omega
  · simp only [Fits, pageSize] at *
    omega
  · rw [← Bool.not_eq_true, contains_iff]
    cases hpart with
    | file hx hrw hsize hlt => exact absurd ⟨hlt, hx, hrw, hsize⟩ hfile
    | _ =>
      dsimp only
      omega

/-- Every part of a segment which fits has a byte of it. -/
theorem Part.exists_byte (h : Part p s d) (hp : Proper p) (hfits : Fits p) :
    ∃ a, a + 1 < 2 ^ 64 ∧ HasByte p a ∧ d.contains a = true := by
  have hend := hfits.vaEnd
  have hne := hp.memsz_ne
  have hstart : vaddrAligned p ≤ p.vaddr := by
    simp only [vaddrAligned, pageRoundDown, pageSize]
    omega
  -- The part behind the bytes of the file starts at their end, the others at the first page.
  have hdata : p.vaddr < dataEnd p ∨ dataEnd p = vaddrAligned p ∧ dataEnd p = p.vaddr := by
    have := hp.filesz_le
    simp only [Fits, dataEnd, pageRoundUp, offsetInPage, vaddrAligned, pageRoundDown, pageSize] at *
    omega
  have hmod := vaEnd_le p
  have hmod' := dataEnd_le p
  cases h with
  | bss =>
    refine ⟨dataEnd p, ?_, (hasByte_iff hp ?_).2 ?_, contains_iff.2 ?_⟩ <;>
    · simp only [Fits, pageSize] at *
      omega
  | _ =>
    refine ⟨p.vaddr, hp.vaddr_lt, ⟨0, by omega, ?_⟩, contains_iff.2 ?_⟩
    · exact (mod_eq_of_lt (lt_of_succ_lt hp.vaddr_lt)).symm
    · dsimp only
      omega

/-- The first address of the part behind the bytes of the file. -/
theorem Part.contains_start (h : Part p .bss d) :
    d.start + 1 < 2 ^ 64 ∧ d.contains d.start = true := by
  have hdata := (dataEnd_le p).2
  have hlt : dataEnd p < 2 ^ 64 := by
    simp only [dataEnd, pageRoundUp, pageSize]
    omega
  rw [contains_iff]
  cases h
  simp only [pageSize] at *
  omega

/-- The bytes of a segment which begins and ends at the bounds of pages are those of its pages. -/
theorem Whole.hasByte (h : Whole p) (hfits : Fits p) (hp : Proper p) (ha : a < 2 ^ 64)
    (hon : OnPages p a) : HasByte p a := by
  rw [onPages_iff hp ha] at hon
  rw [hasByte_iff hp ha]
  simp only [Whole, Fits, vaddrAligned, pageRoundDown, pageSize] at *
  omega

/-- Any other segment has an address which is none of its bytes. -/
theorem exists_not_byte (h : ¬ Whole p) (hfits : Fits p) (hp : Proper p) :
    ∃ a, a + 1 < 2 ^ 64 ∧ OnPages p a ∧ ¬ HasByte p a := by
  have hne := hp.memsz_ne
  by_cases hstart : p.vaddr % pageSize = 0
  · refine ⟨p.vaddr + p.memsz, ?_, (onPages_iff hp ?_).2 ?_, mt (hasByte_iff hp ?_).1 ?_⟩ <;>
    · simp only [Whole, Fits, vaddrAligned, pageRoundDown, pageSize] at *
      omega
  · refine ⟨vaddrAligned p, ?_, (onPages_iff hp ?_).2 ?_, mt (hasByte_iff hp ?_).1 ?_⟩ <;>
    · simp only [Fits, vaddrAligned, pageRoundDown, pageSize] at *
      omega

/-! ## The table -/

/-- The table admits reading the bytes of the segments which can be read, and writing exactly the
    bytes of those which can be written. -/
structure Passes (ps : List Elf64ProgramHeader) (t : SegmentTable) : Prop where
  read : ∀ p ∈ ps, pfR p.flags = true → ∀ a, a + 1 < 2 ^ 64 → HasByte p a →
    t.checkOperation a (a + 1) .read = true
  write : ∀ a, a + 1 < 2 ^ 64 → (t.checkOperation a (a + 1) .write = true ↔
    ∃ p ∈ ps, pfW p.flags = true ∧ HasByte p a)

/-- The segments which can be read or written fit, and no later one has a part of the same kind; the
    last one with a part behind the bytes of the file is among them; and those which can be written
    have all of their pages. -/
structure Separate (ps : List Elf64ProgramHeader) : Prop where
  fits : ∀ p ∈ ps, pfR p.flags = true ∨ pfW p.flags = true → Fits p
  last : ∀ p ∈ ps, pfR p.flags = true ∨ pfW p.flags = true → ∀ s, Sets p s → Last ps s p
  bss : ∀ p, Last ps .bss p → pfR p.flags = true ∨ pfW p.flags = true
  whole : ∀ p ∈ ps, pfW p.flags = true → Whole p

section Table

variable (hps : ∀ p ∈ ps, Proper p) (hdis : ps.Pairwise fun p q => ∀ a, ¬ (OnPages p a ∧ OnPages q a))

include hdis in
/-- An address is one of one segment only. -/
theorem onPages_unique (hp : p ∈ ps) (hq : q ∈ ps) (ha : OnPages p a) (ha' : OnPages q a) : p = q := by
  by_contra hne
  have : Std.Symm fun p q => ∀ a, ¬ (OnPages p a ∧ OnPages q a) := ⟨fun _ _ h a ha => h a ha.symm⟩
  exact hdis.forall hp hq hne a ⟨ha, ha'⟩

include hps hdis in
/-- An access to one byte is admitted by the part which has it. -/
theorem checkOperation_iff {op : Access} (ha : a + 1 < 2 ^ 64) :
    (describeAll ps .empty).checkOperation a (a + 1) op = true ↔
      ∃ s p d, Last ps s p ∧ Part p s d ∧ d.contains a = true ∧ d.flags.meets op = true := by
  rw [SegmentTable.checkOperation, checkRange_one]
  constructor
  · rintro ⟨d, hfind, hmeets⟩
    obtain ⟨s, p, hlast, hpart⟩ := mem_descs_describeAll.1 (mem_of_find?_eq_some hfind)
    have hc := List.find?_some hfind
    exact ⟨s, p, d, hlast, part_iff.1 hpart, hc, hmeets⟩
  rintro ⟨s, p, d, hlast, hpart, hc, hmeets⟩
  have hmem : d ∈ (describeAll ps .empty).descs :=
    mem_descs_describeAll.2 ⟨s, p, hlast, part_iff.2 hpart⟩
  have hsome : ((describeAll ps .empty).descs.find? (·.contains a)).isSome :=
    List.find?_isSome.2 ⟨d, hmem, hc⟩
  obtain ⟨d', hd'⟩ := isSome_iff_exists.1 hsome
  -- It is the first one, since it is the only one.
  obtain ⟨s', p', hlast', hpart'⟩ := mem_descs_describeAll.1 (mem_of_find?_eq_some hd')
  have hc' := List.find?_some hd'
  have ha' : a < 2 ^ 64 := lt_of_succ_lt ha
  obtain rfl := onPages_unique hdis hlast.mem hlast'.mem
    (hpart.onPages (hps p hlast.mem) ha' hc)
    ((part_iff.1 hpart').onPages (hps p' hlast'.mem) ha' hc')
  obtain ⟨-, rfl⟩ := hpart.unique (part_iff.1 hpart') hc hc'
  exact ⟨d, hd', hmeets⟩

theorem meets_read {flags : Access} : flags.meets .read = flags.r := by
  simp [Access.meets, Access.read]

theorem meets_write {flags : Access} : flags.meets .write = flags.w := by
  simp [Access.meets, Access.write]

include hps hdis in
theorem Separate.passes (h : Separate ps) : Passes ps (describeAll ps .empty) := by
  have hadmit : ∀ p ∈ ps, pfR p.flags = true ∨ pfW p.flags = true → ∀ a, a + 1 < 2 ^ 64 →
      HasByte p a → ∃ s d, Last ps s p ∧ Part p s d ∧ d.contains a = true := by
    intro p hp hrw a ha hb
    obtain ⟨s, d, hpart, hc⟩ :=
      (h.fits p hp hrw).exists_part (hps p hp) (lt_of_succ_lt ha) hb.onPages
    exact ⟨s, d, h.last p hp hrw s ⟨d, hpart⟩, hpart, hc⟩
  refine ⟨fun p hp hr a ha hb => ?_, fun a ha => ?_⟩
  · obtain ⟨s, d, hlast, hpart, hc⟩ := hadmit p hp (.inl hr) a ha hb
    rw [checkOperation_iff hps hdis ha]
    exact ⟨s, p, d, hlast, hpart, hc, by rw [meets_read, hpart.flags.1]; exact .inl hr⟩
  rw [checkOperation_iff hps hdis ha]
  constructor
  · rintro ⟨s, p, d, hlast, hpart, hc, hmeets⟩
    rw [meets_write, hpart.flags.2] at hmeets
    have hp := hlast.mem
    have hw : pfW p.flags = true := by
      rcases hmeets with hw | rfl
      · exact hw
      · exact hpart.bss_flags (h.bss p hlast)
    have ha' := lt_of_succ_lt ha
    exact ⟨p, hp, hw, (h.whole p hp hw).hasByte (h.fits p hp (.inr hw)) (hps p hp) ha'
      (hpart.onPages (hps p hp) ha' hc)⟩
  · rintro ⟨p, hp, hw, hb⟩
    obtain ⟨s, d, hlast, hpart, hc⟩ := hadmit p hp (.inr hw) a ha hb
    exact ⟨s, p, d, hlast, hpart, hc, by rw [meets_write, hpart.flags.2]; exact .inl hw⟩

include hps hdis in
theorem Passes.separate (h : Passes ps (describeAll ps .empty)) : Separate ps := by
  -- A byte of a segment which can be read or written is in a part of it which was not replaced.
  have hadmit : ∀ p ∈ ps, pfR p.flags = true ∨ pfW p.flags = true → ∀ a, a + 1 < 2 ^ 64 →
      HasByte p a → ∃ s d, Last ps s p ∧ Part p s d ∧ d.contains a = true := by
    intro p hp hrw a ha hb
    obtain ⟨op, hop⟩ : ∃ op, (describeAll ps .empty).checkOperation a (a + 1) op = true := by
      rcases hrw with hr | hw
      · exact ⟨.read, h.read p hp hr a ha hb⟩
      · exact ⟨.write, (h.write a ha).2 ⟨p, hp, hw, hb⟩⟩
    obtain ⟨s, q, d, hlast, hpart, hc, -⟩ := (checkOperation_iff hps hdis ha).1 hop
    obtain rfl := onPages_unique hdis hp hlast.mem hb.onPages
      (hpart.onPages (hps q hlast.mem) (lt_of_succ_lt ha) hc)
    exact ⟨s, d, hlast, hpart, hc⟩
  -- What can be written in a part of a segment is a byte of it.
  have hbyte : ∀ {p s d a}, Last ps s p → Part p s d → d.flags.w = true → a + 1 < 2 ^ 64 →
      d.contains a = true → pfW p.flags = true ∧ HasByte p a := by
    intro p s d a hlast hpart hw ha hc
    have hp := hlast.mem
    obtain ⟨q, hq, hwq, hb⟩ := (h.write a ha).1 ((checkOperation_iff hps hdis ha).2
      ⟨s, p, d, hlast, hpart, hc, by rwa [meets_write]⟩)
    obtain rfl := onPages_unique hdis hp hq (hpart.onPages (hps p hp) (lt_of_succ_lt ha) hc) hb.onPages
    exact ⟨hwq, hb⟩
  have hfits : ∀ p ∈ ps, pfR p.flags = true ∨ pfW p.flags = true → Fits p := by
    intro p hp hrw
    by_contra hnot
    obtain ⟨a, ha, hb, hnone⟩ := exists_not_part hnot (hps p hp)
    obtain ⟨s, d, -, hpart, hc⟩ := hadmit p hp hrw a ha hb
    rw [hnone s d hpart] at hc
    cases hc
  have hlast : ∀ p ∈ ps, pfR p.flags = true ∨ pfW p.flags = true → ∀ s, Sets p s → Last ps s p := by
    intro p hp hrw s hsets
    obtain ⟨d, hpart⟩ := hsets
    obtain ⟨a, ha, hb, hc⟩ := hpart.exists_byte (hps p hp) (hfits p hp hrw)
    obtain ⟨s', d', hlast, hpart', hc'⟩ := hadmit p hp hrw a ha hb
    obtain ⟨rfl, -⟩ := hpart.unique hpart' hc hc'
    exact hlast
  refine ⟨hfits, hlast, fun p hl => ?_, fun p hp hw => ?_⟩
  · obtain ⟨-, -, -, ⟨d, hpart⟩, -⟩ := id hl
    obtain ⟨ha, hc⟩ := hpart.contains_start
    exact .inr (hbyte hl hpart (hpart.flags.2.2 (.inr rfl)) ha hc).1
  · by_contra hnot
    have hf := hfits p hp (.inr hw)
    obtain ⟨a, ha, hon, hno⟩ := exists_not_byte hnot hf (hps p hp)
    obtain ⟨s, d, hpart, hc⟩ := hf.exists_part (hps p hp) (lt_of_succ_lt ha) hon
    have hl := hlast p hp (.inr hw) s ⟨d, hpart⟩
    exact hno (hbyte hl hpart (hpart.flags.2.2 (.inl hw)) ha hc).2

end Table

/-! ## Programs -/

/-- The segments of a program which are loaded, in order. -/
def segments (file : Reader) (junk : ℕ → UInt8) (junks : ℕ → ℕ → UInt8) : List Elf64ProgramHeader :=
  ((List.range (header file junk).phnum).map
    (headerAt (header file junk).phoff junks (file.advance Elf64Header.size))).filter (Loaded ·)

variable {hdr : Elf64Header} {junk : ℕ → UInt8} {junks : ℕ → ℕ → UInt8} {f file : Reader} {n : ℕ}

/-- The loop describes one segment after the other. -/
theorem loadSegments_segTable {s : Loading σ} (hfile : s.file = f) :
    (tryRange (loadStep B hdr junks) n s).Holds
      (fun u => u.segTable = describeAll (((List.range n).map (headerAt hdr.phoff junks f)).filter
        (Loaded ·)) s.segTable) (fun _ => True) True := by
  refine (loadSegments_rule (I := fun i u => u.segTable = describeAll
    (((List.range i).map (headerAt hdr.phoff junks f)).filter (Loaded ·)) s.segTable) hfile rfl
    fun i u _ _ hu => loadSegment_adds.imp (fun v hv => ?_) fun _ h => h).imp (fun _ h => h.1)
    fun _ h => h
  rw [range_succ, map_append, filter_append, map_singleton, filter_singleton, hv.segTable, hu]
  split_ifs with hl
  · rw [decide_eq_true hl, cond_true, describeAll_concat]
  · rw [decide_eq_false hl, cond_false, append_nil]

theorem mem_segments (hp : p ∈ segments file junk junks) : p.memsz < 2 ^ 64 ∧ Loaded p := by
  obtain ⟨hp, hl⟩ := mem_filter.1 hp
  obtain ⟨i, -, rfl⟩ := List.mem_map.1 hp
  exact ⟨memsz_headerAt_lt .., of_decide_eq_true hl⟩

/-- For every program which is loaded, with any number of segments: if their pages are disjoint, and
    none begins at the last of all addresses, then the table is right if and only if they are
    separate. -/
theorem passes_iff {pmt pmt' : PMT} {ph ph' : Phys σ} {info : ElfLoadInfo}
    (h : load B (some file) junk junks pmt .empty ph = some (some info, ph', pmt', t))
    (hsize : ∀ p ∈ segments file junk junks, p.filesz ≤ p.memsz ∧ p.vaddr + 1 < 2 ^ 64)
    (hdis : (segments file junk junks).Pairwise fun p q => ∀ a, ¬ (OnPages p a ∧ OnPages q a)) :
    Passes (segments file junk junks) t ↔ Separate (segments file junk junks) := by
  obtain ⟨-, -, u, hu, -, -, rfl⟩ := load_some h
  rw [(loadSegments_segTable rfl).of_ok hu]
  have hps : ∀ p ∈ segments file junk junks, Proper p := by
    intro p hp
    obtain ⟨hlt, hl⟩ := mem_segments hp
    exact ⟨hl.2, (hsize p hp).2, hlt, (hsize p hp).1⟩
  exact ⟨Passes.separate hps hdis, Separate.passes hps hdis⟩

/-- A segment with text and one with data. -/
def plain : Reader :=
  ElfFormat.assemble 56 2 [⟨1, 5, 0, 0x10000, 64, 64⟩, ⟨1, 6, 0, 0x20000, 64, 8192⟩] []

/-- Its bytes can be passed to system calls as their flags say. -/
theorem passes_iff_plain : ∃ info ph' pmt' t, loadNew plain = some (some info, ph', pmt', t) ∧
    Passes (segments plain (fun _ => 0) fun _ _ => 0) t := by
  have hrun : (loadNew plain).map (fun o => o.1.isSome) = some true := by decide +kernel
  have hsegs : segments plain (fun _ => 0) (fun _ _ => 0) =
      [⟨1, 5, 0, 0x10000, 64, 64⟩, ⟨1, 6, 0, 0x20000, 64, 8192⟩] := by
    decide +kernel
  obtain ⟨⟨o, ph', pmt', t⟩, hload, hsome⟩ := map_eq_some_iff.1 hrun
  obtain ⟨info, rfl⟩ := isSome_iff_exists.1 hsome
  refine ⟨info, ph', pmt', t, hload, (passes_iff hload ?_ ?_).2 ?_⟩
  · rw [hsegs]
    decide
  · rw [hsegs, pairwise_pair]
    rintro a ⟨⟨k, hk, he⟩, k', hk', he'⟩
    simp only [pageSize] at *
    omega
  rw [hsegs]
  refine ⟨by decide, ?_, fun p hp => ?_, by decide⟩
  · rw [forall_mem_cons, forall_mem_singleton]
    refine ⟨fun _ s hs => ⟨[], _, rfl, hs, ?_⟩, fun _ s hs => ⟨[_], [], rfl, hs, nofun⟩⟩
    rw [forall_mem_singleton]
    cases s <;> revert hs <;> decide
  · exact .inl ((by decide : ∀ p ∈ ([⟨1, 5, 0, 0x10000, 64, 64⟩, ⟨1, 6, 0, 0x20000, 64, 8192⟩] :
      List Elf64ProgramHeader), pfR p.flags = true) p hp.mem)

/-- Two segments with data. -/
def twoData : Reader :=
  ElfFormat.assemble 56 2 [⟨1, 6, 0, 0x10000, 64, 64⟩, ⟨1, 6, 0, 0x20000, 64, 64⟩] []

/-- The first one is replaced by the second, so its bytes cannot be passed to a system call. -/
theorem first_data_refused : ∃ info ph' pmt' t p, loadNew twoData = some (some info, ph', pmt', t) ∧
    p ∈ segments twoData (fun _ => 0) (fun _ _ => 0) ∧ pfR p.flags = true ∧ HasByte p 0x10000 ∧
    t.checkOperation 0x10000 0x10001 .read = false := by
  obtain ⟨⟨_ | info, ph', pmt', t⟩, hload, hsome, hcheck, hmem⟩ : ∃ o, loadNew twoData = some o ∧
      o.1.isSome ∧ o.2.2.2.checkOperation 0x10000 0x10001 .read = false ∧
      ⟨1, 6, 0, 0x10000, 64, 64⟩ ∈ segments twoData (fun _ => 0) (fun _ _ => 0) := by
    decide +kernel
  · cases hsome
  · exact ⟨info, ph', pmt', t, _, hload, hmem, by decide, ⟨0, by decide, by decide⟩, hcheck⟩

end ElfLoader

end HobbyOS
