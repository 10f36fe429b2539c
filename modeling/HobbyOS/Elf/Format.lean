import HobbyOS.Elf.Headers

/-!
# The format of programs

The fields of a file as the format ELF64 has them, apart from those which the structs of the source
have in the same place. The format has a word of four bytes for `e_flags`, so the fields after it are
four bytes before where `Elf64Header` has them: what the loader takes for `e_phentsize` and `e_phnum`
are `e_shentsize` and `e_shnum`.

A program can be written in this format (`assemble`).
-/

namespace HobbyOS

namespace ElfFormat

/-- The fields of the header which say where the program headers and the section headers are. -/
def phoff (b : ℕ → UInt8) : ℕ := loadLE b 32 8

def phentsize (b : ℕ → UInt8) : ℕ := loadLE b 54 2

def phnum (b : ℕ → UInt8) : ℕ := loadLE b 56 2

def shentsize (b : ℕ → UInt8) : ℕ := loadLE b 58 2

def shnum (b : ℕ → UInt8) : ℕ := loadLE b 60 2

/-- The program header `i`. -/
def programHeader (b : ℕ → UInt8) (i : ℕ) : Elf64ProgramHeader :=
  .ofBytes fun k => b (phoff b + i * phentsize b + k)

/-! ## Writing programs -/

/-- The lowest `n` bytes of a number. -/
def bytesLE (n v : ℕ) : List UInt8 := (List.range n).map fun i => UInt8.ofNat (v / 256 ^ i)

/-- The bytes of a header: `e_phoff` is 64, and there is nothing before it. -/
def headerBytes (phnum shentsize shnum : ℕ) : List UInt8 :=
  [0x7F, 0x45, 0x4C, 0x46, 2, 1, 1] ++ bytesLE 9 0 ++ bytesLE 2 2 ++ bytesLE 2 243 ++ bytesLE 4 1 ++
    bytesLE 8 0x10000 ++ bytesLE 8 64 ++ bytesLE 8 0 ++ bytesLE 4 0 ++ bytesLE 2 64 ++
    bytesLE 2 56 ++ bytesLE 2 phnum ++ bytesLE 2 shentsize ++ bytesLE 2 shnum ++ bytesLE 2 0

/-- The bytes of a program header. -/
def programBytes (p : Elf64ProgramHeader) : List UInt8 :=
  bytesLE 4 p.type ++ bytesLE 4 p.flags ++ bytesLE 8 p.offset ++ bytesLE 8 p.vaddr ++
    bytesLE 8 p.vaddr ++ bytesLE 8 p.filesz ++ bytesLE 8 p.memsz ++ bytesLE 8 pageSize

/-- A program with these segments, the bytes of which are in `rest`. -/
def assemble (shentsize shnum : ℕ) (ps : List Elf64ProgramHeader) (rest : List UInt8) : Reader :=
  let bytes := headerBytes ps.length shentsize shnum ++ ps.flatMap programBytes ++ rest
  ⟨fun k => bytes.getD k 0, bytes.length, 0⟩

end ElfFormat

/-- Memory with nothing in it. -/
def ElfLoader.blank : Phys ℕ := ⟨1, [], .empty, fun _ _ => 0⟩

/-- A program is loaded into an empty table, the page of which is `0`. -/
def ElfLoader.loadNew (file : Reader) : Option (Option ElfLoadInfo × Phys ℕ × PMT × SegmentTable) :=
  load .counting (some file) (fun _ => 0) (fun _ _ => 0) (.new 0) .empty blank

end HobbyOS
