import HobbyOS.Bytes
import HobbyOS.Process
import HobbyOS.Vm.Blocks

/-!
# Programs

`ElfLoader::load` reads a program from a file: a header, and for each of its segments a program
header, which says where the segment is in the file and in memory. For every segment to be loaded it
allocates a block of pages, clears it, reads the bytes of the file into it, and maps it; the
descriptors of the segments are set on the way.

* The fields of the headers are where the structs of the source have them; `e_flags` is a word of
  eight bytes there.
* A file which ends too early leaves the rest of a header as it is on the stack of the kernel
  (`junk`).
* `PMT::mapPages` panics at a page which is mapped already; that it could not map a page is not
  looked at.
-/

namespace HobbyOS

/-- The segment descriptors which the loader sets. -/
def SegmentTable.setText (t : SegmentTable) (flags : Access) (vaStart vaEnd : ℕ) : SegmentTable :=
  { t with text := some ⟨flags, vaStart, vaEnd⟩ }

def SegmentTable.setRoData (t : SegmentTable) (flags : Access) (vaStart vaEnd : ℕ) : SegmentTable :=
  { t with roData := some ⟨flags, vaStart, vaEnd⟩ }

def SegmentTable.setData (t : SegmentTable) (flags : Access) (vaStart vaEnd : ℕ) : SegmentTable :=
  { t with data := some ⟨flags, vaStart, vaEnd⟩ }

def SegmentTable.setBss (t : SegmentTable) (flags : Access) (vaStart vaEnd : ℕ) : SegmentTable :=
  { t with bss := some ⟨flags, vaStart, vaEnd⟩ }

def SegmentTable.setStack (t : SegmentTable) (flags : Access) (vaStart vaEnd : ℕ) : SegmentTable :=
  { t with stack := some ⟨flags, vaStart, vaEnd⟩ }

/-- A file which is open for reading. -/
structure Reader where
  data : ℕ → UInt8
  size : ℕ
  offset : ℕ

namespace Reader

/-- `File::seek` with `SEEK_SET`; a negative offset is refused. -/
def seek (f : Reader) (offset : ℕ) : Reader :=
  if offset % 2 ^ 64 < 2 ^ 63 then { f with offset := offset % 2 ^ 64 } else f

/-- The number of bytes which `File::read` reads. The end of what is asked for is computed with
    64 bits. -/
def readable (f : Reader) (len : ℕ) : ℕ :=
  if f.size ≤ f.offset then 0
  else if f.size < (f.offset + len) % 2 ^ 64 then f.size - f.offset
  else len

/-- The buffer after `File::read`. -/
def read (f : Reader) (len : ℕ) (buf : ℕ → UInt8) (k : ℕ) : UInt8 :=
  if k < f.readable len then f.data (f.offset + k) else buf k

/-- The file after `File::read`: the number of bytes is an `int` by then. -/
def advance (f : Reader) (len : ℕ) : Reader :=
  let n := f.readable len % 2 ^ 32
  if n = 2 ^ 32 - 1 then f
  else if n < 2 ^ 31 then { f with offset := (f.offset + n) % 2 ^ 64 }
  else { f with offset := (f.offset + n + (2 ^ 64 - 2 ^ 32)) % 2 ^ 64 }

end Reader

/-- `Elf64Header`. -/
structure Elf64Header where
  ident : ℕ → UInt8
  type : ℕ
  machine : ℕ
  entry : ℕ
  phoff : ℕ
  phentsize : ℕ
  phnum : ℕ

/-- The size and the fields of `Elf64Header`. -/
def Elf64Header.size : ℕ := 72

def Elf64Header.ofBytes (b : ℕ → UInt8) : Elf64Header where
  ident := b
  type := loadLE b 16 2
  machine := loadLE b 18 2
  entry := loadLE b 24 8
  phoff := loadLE b 32 8
  phentsize := loadLE b 58 2
  phnum := loadLE b 60 2

/-- `Elf64ProgramHeader`. -/
structure Elf64ProgramHeader where
  type : ℕ
  flags : ℕ
  offset : ℕ
  vaddr : ℕ
  filesz : ℕ
  memsz : ℕ
  deriving DecidableEq

/-- The size and the fields of `Elf64ProgramHeader`. -/
def Elf64ProgramHeader.size : ℕ := 56

def Elf64ProgramHeader.ofBytes (b : ℕ → UInt8) : Elf64ProgramHeader where
  type := loadLE b 0 4
  flags := loadLE b 4 4
  offset := loadLE b 8 8
  vaddr := loadLE b 16 8
  filesz := loadLE b 32 8
  memsz := loadLE b 40 8

/-- `ElfLoadInfo`. -/
structure ElfLoadInfo where
  entry : ℕ
  phdrVa : ℕ
  phent : ℕ
  phnum : ℕ

/-- `MemoryLayout::pageRoundDown`. -/
def pageRoundDown (addr : ℕ) : ℕ := addr / pageSize * pageSize

namespace ElfLoader

/-- `ElfLoader::validateHeader`. -/
def validateHeader (hdr : Elf64Header) : Bool :=
  hdr.ident 0 = 0x7F && hdr.ident 1 = 0x45 && hdr.ident 2 = 0x4C && hdr.ident 3 = 0x46 &&
    -- `ELF_CLASS_64` and `ELF_DATA_2_LSB`
    hdr.ident 4 = 2 && hdr.ident 5 = 1 &&
    -- `ET_EXEC` and `EM_RISCV`
    hdr.type = 2 && hdr.machine = 243

/-- The permissions in `p_flags`. -/
def pfX (flags : ℕ) : Bool := flags.testBit 0

def pfW (flags : ℕ) : Bool := flags.testBit 1

def pfR (flags : ℕ) : Bool := flags.testBit 2

/-- `ElfLoader::flagsToPte`. -/
def flagsToPte (flags : ℕ) : Flags :=
  { Flags.none with v := true, u := true, r := pfR flags, w := pfW flags, x := pfX flags }

/-- What the loop of `ElfLoader::load` works on. -/
structure Loading (σ : Type*) where
  ph : Phys σ
  pmt : PMT
  segTable : SegmentTable
  file : Reader
  phdrVa : ℕ

variable {σ : Type*} (B : BlockPool σ)

/-- The first page of a segment. -/
def vaddrAligned (p : Elf64ProgramHeader) : ℕ := pageRoundDown p.vaddr

/-- The bytes before a segment in its first page. -/
def offsetInPage (p : Elf64ProgramHeader) : ℕ := p.vaddr - vaddrAligned p

/-- The number of pages of a segment. -/
def pages (p : Elf64ProgramHeader) : ℕ :=
  (offsetInPage p + p.memsz + pageSize - 1) % 2 ^ 64 / pageSize

/-- The memory after `memset` on a block, and `File::read` into it. The bytes of the file may go
    beyond the block. -/
def fill (p : Elf64ProgramHeader) (file : Reader) (page : ℕ) (mem : ℕ → ℕ → UInt8) :
    ℕ → ℕ → UInt8 :=
  let start := page * pageSize + offsetInPage p
  fun q k =>
    if start ≤ q * pageSize + k ∧ q * pageSize + k < start + file.readable p.filesz then
      file.data (file.offset + (q * pageSize + k - start))
    else if page ≤ q ∧ q < page + pages p then 0 else mem q k

/-- The descriptors which are set for a segment. -/
def describe (p : Elf64ProgramHeader) (t : SegmentTable) : SegmentTable :=
  let start := vaddrAligned p
  let vaEnd := (start + pages p * pageSize) % 2 ^ 64
  let segFlags : Access := ⟨pfR p.flags, pfW p.flags, pfX p.flags⟩
  if pfX p.flags then t.setText segFlags start vaEnd
  else if pfR p.flags && !pfW p.flags then t.setRoData segFlags start vaEnd
  else if p.filesz = p.memsz then t.setData segFlags start vaEnd
  else
    let dataEnd := pageRoundUp ((start + offsetInPage p + p.filesz) % 2 ^ 64)
    let t := if start < dataEnd then t.setData { segFlags with x := false } start dataEnd else t
    if dataEnd < vaEnd then t.setBss .readWrite dataEnd vaEnd else t

/-- The body of the loop of `ElfLoader::load`, for the program header `p`. -/
def loadSegment (phoff : ℕ) (p : Elf64ProgramHeader) (s : Loading σ) : Outcome (Loading σ) :=
  -- `PT_LOAD`
  if p.type ≠ 1 then .ok s
  else if p.memsz = 0 then .ok s
  else
    -- The number of pages is an argument of 32 bits.
    match kallocPages B s.ph (pages p % 2 ^ 32) with
    | (none, ph) => .fail { s with ph := ph }
    | (some page, ph) =>
      let file := s.file.seek p.offset
      let ph := { ph with mem := fill p file page ph.mem }
      match (PMT.mapPages B.toPool (vaddrAligned p) page (pages p) (flagsToPte p.flags)
        (ph, s.pmt)).ignore with
      | .ok (ph, pmt) => .ok ⟨ph, pmt, describe p s.segTable, file.advance p.filesz,
          if p.offset = 0 then (p.vaddr + phoff) % 2 ^ 64 else s.phdrVa⟩
      | _ => .panic

/-- The body of the loop of `ElfLoader::load`. -/
def loadStep (hdr : Elf64Header) (junk : ℕ → ℕ → UInt8) (i : ℕ) (s : Loading σ) :
    Outcome (Loading σ) :=
  let file := s.file.seek (hdr.phoff + i * Elf64ProgramHeader.size)
  let p := Elf64ProgramHeader.ofBytes (file.read Elf64ProgramHeader.size (junk i))
  loadSegment B hdr.phoff p { s with file := file.advance Elf64ProgramHeader.size }

/-- The header of a file. -/
def header (file : Reader) (junk : ℕ → UInt8) : Elf64Header :=
  .ofBytes (file.read Elf64Header.size junk)

/-- `ElfLoader::load`, on the file which `VFS::open` returns: the program, if it could be loaded. -/
def load (file : Option Reader) (junk : ℕ → UInt8) (junks : ℕ → ℕ → UInt8) (pmt : PMT)
    (segTable : SegmentTable) (ph : Phys σ) :
    Option (Option ElfLoadInfo × Phys σ × PMT × SegmentTable) :=
  match file with
  | none => some (none, ph, pmt, segTable)
  | some file =>
    let hdr := header file junk
    if !validateHeader hdr then some (none, ph, pmt, segTable)
    else
      match tryRange (loadStep B hdr junks) hdr.phnum
        ⟨ph, pmt, segTable, file.advance Elf64Header.size, 0⟩ with
      | .panic => none
      | .fail s => some (none, s.ph, s.pmt, s.segTable)
      | .ok s =>
        let phdrVa :=
          if s.phdrVa = 0 then (pageRoundDown hdr.entry + hdr.phoff) % 2 ^ 64 else s.phdrVa
        some (some ⟨hdr.entry, phdrVa, hdr.phentsize, hdr.phnum⟩, s.ph, s.pmt, s.segTable)

end ElfLoader

end HobbyOS
