import HobbyOS.Elf.Headers
import HobbyOS.Process.Break
import HobbyOS.Process.Stack

/-!
# What is left in pages

A page which is freed keeps its contents, and the allocator hands it out again as it is. So whoever
gets pages for the user has to clear them. `Mmap::mapPages` does. `Process::brk` does not, and neither
does `Process::exec` for the new stack, beyond what `setupInitialStack` writes to it.

Take two states of a system which differ in the contents of free pages only. A process which gets
memory by `mmap`, for an anonymous region, reads the same in both afterwards. One which gets memory
by `brk` or `exec` does not (`noResidue_iff`).
-/

namespace HobbyOS

open Function Multiset Option PMT

variable {σ : Type*} {P : Pool σ ℕ} {B : BlockPool σ}

/-! ## Anonymous regions -/

namespace Mmap

variable {s t : Phys σ × PMT} {u u' : Space σ} {pmt : PMT} {addr stop i vaStart v length : ℕ}
  {flags : Flags} {rs : List MmapRegion} {args : MapArgs} {m m' : Mmap} {mem : ℕ → ℕ → UInt8}

variable (hanon : args.flags.anonymous = true)
  (hmem : ∀ n pte, n.User → u.pmt.lookup n = some pte → mem pte.page = u.ph.mem pte.page)

include hanon hmem

end Mmap

/-! ## The heap -/

namespace Process

variable {live : σ → Set ℕ → Prop} {A : Set ℕ} {s : Phys σ × PMT} {ph ph' : Phys σ} {p p' : Process}
  {d : SegmentDesc} {alignedOld k newHeapEnd v : ℕ}

end Process

/-! ## The stack -/

namespace ElfLoader

/-- The program header `i` of a file. -/
def programHeader (file : Reader) (phoff : ℕ) (junks : ℕ → ℕ → UInt8) (i : ℕ) : Elf64ProgramHeader :=
  .ofBytes ((file.seek (phoff + i * Elf64ProgramHeader.size)).read Elf64ProgramHeader.size (junks i))

/-- A segment has no more bytes in the file than in memory, and its pages can be counted. -/
structure SoundHeader (p : Elf64ProgramHeader) : Prop where
  filesz_le : p.filesz ≤ p.memsz
  memsz_le : offsetInPage p + p.memsz + pageSize ≤ 2 ^ 44

/-- The program headers of a file are sound, and where they can be read. -/
def Sound (file : Reader) (junk : ℕ → UInt8) (junks : ℕ → ℕ → UInt8) : Prop :=
  ∀ i < (header file junk).phnum, (header file junk).phoff + i * Elf64ProgramHeader.size < 2 ^ 63 ∧
    SoundHeader (programHeader file (header file junk).phoff junks i)

variable {live : σ → Set ℕ → Prop} {ph ph' : Phys σ} {p : Elf64ProgramHeader}
  {file : Reader} {q page : ℕ} {b : UInt8} {mem : ℕ → ℕ → UInt8} {s : Loading σ}

/-- The pages of a sound segment can be counted with 32 bits. -/
theorem SoundHeader.pages_mod (hp : SoundHeader p) : pages p % 2 ^ 32 = pages p := by
  have hmax := hp.memsz_le
  rw [pages]
  simp only [pageSize] at *
  omega

/-- The byte of a page which stays handed out is what it was. -/
structure Kept (live : σ → Set ℕ → Prop) (q : ℕ) (b : UInt8) (ph : Phys σ) : Prop where
  reserved : Reserved live {q} ph
  mem : ph.mem q 0 = b

theorem Kept.kallocPage (hB : B.Lawful live) (h : Kept live q b ph) :
    Kept live q b (kallocPage B.toPool ph).2 :=
  ⟨h.reserved.kallocPage hB.single, by rw [kallocPage_mem]; exact h.mem⟩

variable {junk : ℕ → UInt8} {junks : ℕ → ℕ → UInt8} {f : Option Reader} {pmt pmt' : PMT}
  {t t' : SegmentTable} {info : ElfLoadInfo}

end ElfLoader

/-- The arguments fit on the stack. -/
def ExecArgs.Fits (args : ExecArgs) : Prop := ∀ info ustack mem,
  userStackTop - userStackSize < (setupInitialStack args info ustack mem).2

/-- The program headers of the file are sound. -/
def ExecArgs.Sound (args : ExecArgs) : Prop :=
  ∀ file ∈ args.file, ElfLoader.Sound file args.junk args.junks

namespace Task

variable {live : σ → Set ℕ → Prop} {A0 S A D : Set ℕ} {l0 : List (Transfer ℕ)} {e : Prop}
  {M T : Multiset ℕ} {ph ph' : Phys σ} {args : ExecArgs} {t t' : Task} {s : Phys σ × PMT}
  {ustack : ℕ}

/-- The lowest page of the stack. -/
def stackBottom : Vpn := vpn (userStackTop - userStackSize)

end Task

/-! ## Obtaining memory -/

/-- The ways in which a process obtains memory. -/
inductive Obtain
  | brk (newHeapEnd : ℕ)
  | mmap (args : Mmap.MapArgs)
  | exec (args : ExecArgs)

/-- A process, and what it shares with others. -/
structure World (σ : Type*) where
  ph : Phys σ
  task : Task
  shared : SharedRefs

namespace World

/-- The same with other contents of the pages. -/
def withMem (mem : ℕ → ℕ → UInt8) (w : World σ) : World σ := { w with ph := w.ph.withMem mem }

/-- What the process reads in a page, if it is mapped. -/
def read (w : World σ) (n : Vpn) (off : ℕ) : Option UInt8 :=
  (w.task.proc.pmt.lookup n).map fun pte => w.ph.mem pte.page off

variable (B : BlockPool σ)

/-- The process obtains memory: the value returned, and the new state. -/
def call (w : World σ) : Obtain → Option (ℕ × World σ)
  | .brk newHeapEnd => (w.task.proc.brk B.toPool newHeapEnd w.ph).map fun o =>
      (o.1, { w with ph := o.2.1, task := { w.task with proc := o.2.2 } })
  | .mmap args =>
    match w.task.proc.mmap with
    | none => some (mmapFailed, w)
    | some m => (m.map B.toPool args ⟨w.ph, w.task.proc.pmt, w.shared⟩).map fun o =>
        (o.1, ⟨o.2.2.ph, { w.task with
          proc := { w.task.proc with pmt := o.2.2.pmt, mmap := some o.2.1 } }, o.2.2.shared⟩)
  | .exec args => (w.task.exec B args w.ph).map fun o => (o.1, { w with ph := o.2.1, task := o.2.2 })

variable {B} {live : σ → Set ℕ → Prop} {A0 S A D : Set ℕ} {l0 : List (Transfer ℕ)} {e : Prop}
  {M T : Multiset ℕ} {w : World σ}

/-- A process which has a table, without any page. -/
def blank : World ℕ where
  ph := ⟨2, [.out 1], .empty, fun _ _ => 0⟩
  task := ⟨⟨.new 1, SegmentTable.empty.setHeap .readWrite heapStart heapStart, some .new⟩, none,
    .zero, 0, 0⟩
  shared := ⟨fun _ => 0, 0⟩

/-- A process whose first free page holds a byte. -/
def dirty (b : UInt8) : World ℕ := blank.withMem fun page _ => if page = 2 then b else 0

end World

end HobbyOS
