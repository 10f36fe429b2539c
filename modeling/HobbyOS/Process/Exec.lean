import HobbyOS.Elf
import HobbyOS.Signal

/-!
# Programs of processes

`Process::exec` replaces the program of a process: it gives the pages and the segments up, loads the
file (`ElfLoader::load`), maps a new stack with the arguments, and resets the signal actions and the
registers.

It gives everything up before it looks into the file. So if it returns `-1`, the process is what it
was only if the file could not be opened, or the stack not be allocated (`exec_unchanged_iff`). A
file which is no program leaves the process without a single page (`exec_invalid`).

A task (`Task`) is a process with its signal actions, the registers of the user and the block of its
stack. `m_mmap` is not touched: the regions stay, without their pages.
-/

namespace HobbyOS

open ElfLoader

/-- `SignalHandler::resetForExec`. -/
def SignalHandler.resetForExec (h : SignalHandler) : SignalHandler :=
  { h with actions := fun i =>
      if i < Signal.nsig ∧ (h.actions i).handler ≠ Signal.sigIgn then ⟨Signal.sigDfl, 0, 0, 0⟩
      else h.actions i }

/-- The registers after `memset` on a `TrapFrame`. -/
def TrapFrame.zero : TrapFrame :=
  ⟨0, 0, 0, 0, 0, 0, 0, 0, 0, 0, 0, 0, 0, 0, 0, 0, 0, 0, 0, 0, 0, 0, 0, 0, 0, 0, 0, 0, 0, 0, 0, 0, 0⟩

/-- `USER_STACK_TOP`. -/
def userStackTop : ℕ := 0x3FFFFFF000

/-- `USER_STACK_SIZE / PAGE_SIZE`, and `KERNEL_STACK_SIZE / PAGE_SIZE`. -/
def stackPages : ℕ := 4

/-- `USER_STACK_SIZE`. -/
def userStackSize : ℕ := stackPages * pageSize

/-! ## The initial stack -/

/-- What `setupInitialStack` works on: the memory, and how many bytes of the stack are used. -/
structure Stack where
  mem : ℕ → ℕ → UInt8
  used : ℕ

namespace Stack

/-- Writing bytes, by the physical address of the first. -/
def write (mem : ℕ → ℕ → UInt8) (addr : ℕ) : List UInt8 → ℕ → ℕ → UInt8
  | [] => mem
  | b :: bs => write (Function.update mem (addr / pageSize)
      (Function.update (mem (addr / pageSize)) (addr % pageSize) b)) (addr + 1) bs

/-- Bytes are pushed, on the stack whose block ends at `top`. -/
def push (top : ℕ) (bs : List UInt8) (s : Stack) : Stack :=
  ⟨write s.mem (top - (s.used + bs.length)) bs, s.used + bs.length⟩

/-- `getVirtAddr`, of the last byte pushed. -/
def virtAddr (s : Stack) : ℕ := userStackTop - s.used

/-- `push8`. -/
def push8 (top v : ℕ) (s : Stack) : Stack :=
  s.push top ((List.range 8).map fun k => UInt8.ofNat (v / 256 ^ k))

/-- Strings are pushed, from the last one to the first: their addresses, from the first one on. -/
def pushStrings (top : ℕ) : List (List UInt8) → Stack → List ℕ × Stack
  | [], s => ([], s)
  | str :: strs, s =>
    let (addrs, s) := pushStrings top strs s
    let s := s.push top (str ++ [0])
    (s.virtAddr :: addrs, s)

/-- Bytes are skipped. -/
def skip (n : ℕ) (s : Stack) : Stack := { s with used := s.used + n }

end Stack

/-- The arguments of `Process::exec`. -/
structure ExecArgs where
  path : List UInt8
  argv : List (List UInt8)
  envp : List (List UInt8)
  /-- The first `VFS::open` finds the file. -/
  opens : Bool
  /-- What the second one, in `ElfLoader::load`, returns. -/
  file : Option Reader
  /-- What is in the variables of the kernel which are not initialised: the header, the program
      headers, and the addresses of the environment. -/
  junk : ℕ → UInt8
  junks : ℕ → ℕ → UInt8
  junkAddr : ℕ → ℕ

/-- The words which `setupInitialStack` pushes. -/
def initialWords (info : ElfLoadInfo) (atRandom : ℕ) (argv envp : List ℕ) : List ℕ :=
  [0, 0, 0, 23, 0, 14, 0, 13, 0, 12, 0, 11, info.entry, 9, atRandom, 25, 0, 16, 4096, 6,
    info.phnum, 5, info.phent, 4, info.phdrVa, 3, 0] ++ envp.reverse ++ [0] ++ argv.reverse ++
    [argv.length]

/-- `Process::setupInitialStack`, on the block `ustack`: the memory, and the stack pointer. The
    strings of the environment are pushed if there are arguments. -/
def setupInitialStack (args : ExecArgs) (info : ElfLoadInfo) (ustack : ℕ) (mem : ℕ → ℕ → UInt8) :
    (ℕ → ℕ → UInt8) × ℕ :=
  let top := ustack * pageSize + userStackSize
  let s : Stack := ⟨mem, 0⟩
  let (argv, envp, s) :=
    if args.argv = [] then
      let s := s.push top (args.path ++ [0])
      ([s.virtAddr], (List.range args.envp.length).map args.junkAddr, s)
    else
      let (envp, s) := s.pushStrings top args.envp
      let (argv, s) := s.pushStrings top args.argv
      (argv, envp, s)
  -- `p & ~0xF`; the end of the block is aligned.
  let s := s.skip ((16 - s.used % 16) % 16)
  let s := s.push top (List.replicate 16 0)
  let atRandom := s.virtAddr
  let wordsCount := 15 * 2 + (envp.length + 1) + (argv.length + 1) + 1
  let s := if (s.used + wordsCount * 8) % 16 ≠ 0 then s.skip 8 else s
  let s := (initialWords info atRandom argv envp).foldl (fun s v => s.push8 top v) s
  (s.mem, s.virtAddr)

/-! ## Execution -/

/-- A process, its signal actions, the registers of the user, the block of its stack, and
    `m_entry`. -/
structure Task where
  proc : Process
  handler : Option SignalHandler
  trapFrame : TrapFrame
  ustack : ℕ
  entry : ℕ

namespace Task

variable {σ : Type*} (B : BlockPool σ)

/-- `Process::exec` after the program has been loaded. -/
def start (args : ExecArgs) (info : ElfLoadInfo) (ustack : ℕ) (t : Task) (pmt : PMT)
    (segTable : SegmentTable) (ph : Phys σ) : Option (ℕ × Phys σ × Task) :=
  match (PMT.mapPages B.toPool (userStackTop - userStackSize) ustack stackPages .user
    (ph, pmt)).ignore with
  | .ok (ph, pmt) =>
    let (mem, sp) := setupInitialStack args info ustack ph.mem
    let segTable := (segTable.setHeap .readWrite heapStart heapStart).setStack .readWrite
      (userStackTop - userStackSize) userStackTop
    some (0, { ph with mem := mem },
      { proc := { t.proc with pmt := pmt, segTable := segTable }
        handler := t.handler.map SignalHandler.resetForExec
        trapFrame := { TrapFrame.zero with
          kstack := t.trapFrame.kstack, sepc := .ofNat info.entry, sp := .ofNat sp }
        ustack := ustack
        entry := info.entry })
  | _ => none

/-- `Process::exec`: the result, and the new state. -/
def exec (args : ExecArgs) (t : Task) (ph : Phys σ) : Option (ℕ × Phys σ × Task) :=
  if !args.opens then some (mmapFailed, ph, t)
  else
    match kallocPages B ph stackPages with
    | (none, ph) => some (mmapFailed, ph, t)
    | (some ustack, ph) =>
      let (ph, pmt) := VM.clearUserPages B.toPool t.proc.pmt ph
      match load B args.file args.junk args.junks pmt .empty ph with
      | none => none
      | some (none, ph, pmt, segTable) =>
        some (mmapFailed, kfreePages B ph ustack stackPages,
          { t with proc := { t.proc with pmt := pmt, segTable := segTable } })
      | some (some info, ph, pmt, segTable) => start B args info ustack t pmt segTable ph

/-! ## Failures -/

variable {B} {args : ExecArgs} {t t' : Task} {ph ph' : Phys σ}

/-- What a program notices of: its pages, segments and regions, the signal actions and the
    registers. -/
structure Unchanged (t t' : Task) : Prop where
  pages : ∀ n, t'.proc.pmt.lookup n = t.proc.pmt.lookup n
  segTable : t'.proc.segTable = t.proc.segTable
  mmap : t'.proc.mmap = t.proc.mmap
  handler : t'.handler = t.handler
  trapFrame : t'.trapFrame = t.trapFrame

theorem describe_stack (p : Elf64ProgramHeader) (s : SegmentTable) :
    (describe p s).stack = s.stack := by
  rw [describe]
  dsimp only
  split_ifs <;> rfl

/-- The loader sets no descriptor of a stack. -/
theorem loadSegment_stack (phoff : ℕ) (p : Elf64ProgramHeader) (s : ElfLoader.Loading σ) :
    (loadSegment B phoff p s).Holds (fun u => u.segTable.stack = s.segTable.stack)
      (fun u => u.segTable.stack = s.segTable.stack) True := by
  rw [loadSegment]
  by_cases htype : p.type ≠ 1
  · rw [if_pos htype]
    rfl
  by_cases hmemsz : p.memsz = 0
  · rw [if_neg htype, if_pos hmemsz]
    rfl
  rw [if_neg htype, if_neg hmemsz]
  split
  · rfl
  next page ph hp =>
    dsimp only
    split
    · exact describe_stack p s.segTable
    · trivial

theorem load_stack {file : Option Reader} {junk : ℕ → UInt8} {junks : ℕ → ℕ → UInt8} {pmt pmt' : PMT}
    {s s' : SegmentTable} {info : Option ElfLoadInfo}
    (h : load B file junk junks pmt s ph = some (info, ph', pmt', s')) : s'.stack = s.stack := by
  cases file with
  | none =>
    cases h
    rfl
  | some file =>
    rw [load] at h
    split at h
    · cases h
      rfl
    have hloop := tryRange_induct (f := loadStep B (header file junk) junks)
      (n := (header file junk).phnum) (R := True)
      (s := ⟨ph, pmt, s, file.advance Elf64Header.size, 0⟩)
      (P := fun _ (u : ElfLoader.Loading σ) => u.segTable.stack = s.stack)
      (Q := fun u => u.segTable.stack = s.stack) rfl fun i u _ hu =>
        (loadSegment_stack _ _ _).imp (fun v hv => hv.trans hu) fun v hv => hv.trans hu
    generalize tryRange _ _ _ = r at h hloop
    cases r with
    | panic => cases h
    | fail | ok =>
      cases h
      exact hloop

/-- If `exec` returns `-1`, then the process, which has a stack, is what it was iff the file could not
    be opened or the new stack not be allocated. -/
theorem exec_unchanged_iff (hstack : t.proc.segTable.stack.isSome)
    (h : exec B args t ph = some (mmapFailed, ph', t')) :
    Unchanged t t' ↔ args.opens = false ∨ (B.takeBlock stackPages ph.pool).1 = none := by
  rw [exec] at h
  cases hopens : args.opens with
  | false =>
    rw [hopens] at h
    cases h
    exact iff_of_true ⟨fun _ => rfl, rfl, rfl, rfl, rfl⟩ (.inl rfl)
  | true =>
    rw [hopens, kallocPages] at h
    rcases htake : B.takeBlock stackPages ph.pool with ⟨_ | ustack, pool⟩
    · rw [htake] at h
      cases h
      exact iff_of_true ⟨fun _ => rfl, rfl, rfl, rfl, rfl⟩ (.inr rfl)
    rw [htake] at h
    refine iff_of_false ?_ (by simp)
    dsimp only [Bool.not_true] at h
    rw [if_neg (by decide)] at h
    split at h
    · cases h
    next ph1 pmt segTable hload =>
      -- Whatever has been loaded, there is no stack any more.
      cases h
      intro hsame
      have hnone := load_stack hload
      rw [← hsame.segTable] at hstack
      rw [hnone] at hstack
      cases hstack
    next info ph1 pmt segTable hload =>
      -- `exec` does not return `-1` once the program has been loaded.
      rw [start] at h
      split at h
      · cases h
      · cases h

/-- A process with a page and a stack. -/
def running : Phys ℕ × Task :=
  let unused : Phys ℕ := ⟨1, [], .empty, fun _ _ => 0⟩
  match PMT.mapPage (vpn 0x10000) .counting 100 .user (unused, .new 0) with
  | .ok (ph, pmt) =>
    let segTable := SegmentTable.empty.setStack .readWrite (userStackTop - userStackSize) userStackTop
    (ph, ⟨⟨pmt, segTable, some .new⟩, none, .zero, 0, 0⟩)
  | _ => (unused, ⟨⟨.new 0, .empty, none⟩, none, .zero, 0, 0⟩)

/-- A file with nothing in it. -/
def emptyFile : ExecArgs where
  path := []
  argv := []
  envp := []
  opens := true
  file := some ⟨fun _ => 0, 0, 0⟩
  junk _ := 0
  junks _ _ := 0
  junkAddr _ := 0

/-- There is a stack for the new program, but no program in the file. -/
theorem exec_unchanged_iff_empty : ∃ ph t, exec .counting emptyFile running.2 running.1 =
      some (mmapFailed, ph, t) ∧ ¬ Unchanged running.2 t := by
  have hrun : (exec .counting emptyFile running.2 running.1).map Prod.fst =
      some mmapFailed := by decide +kernel
  obtain ⟨⟨v, ph, t⟩, hx, rfl⟩ := Option.map_eq_some_iff.1 hrun
  refine ⟨ph, t, hx, fun hsame => ?_⟩
  obtain ho | hb := (exec_unchanged_iff (by decide +kernel) hx).1 hsame
  · cases ho
  · cases hb

/-- There is nothing in the file: the process loses its page and its stack. -/
theorem exec_invalid : ∃ ph t, exec .counting emptyFile running.2 running.1 =
      some (mmapFailed, ph, t) ∧
    (running.2.proc.pmt.lookup (vpn 0x10000)).isSome ∧ t.proc.pmt.lookup (vpn 0x10000) = none ∧
    running.2.proc.segTable.stack.isSome ∧ t.proc.segTable.stack = none := by
  decide +kernel

end Task

end HobbyOS
