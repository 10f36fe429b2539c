import HobbyOS.Machine
import HobbyOS.Vm.Mmap

/-!
# Processes

A `Process` has a page table, a segment table and the regions of `mmap`. This is the
part of the kernel which works on these: `fork`, `brk`, `mmap`, `munmap`, `mprotect`,
and the end of a process.

The system (`Sys`) consists of the physical memory and any number of processes. It
is driven by events: system calls, and the loads and stores of user programs. The
hardware looks at the valid entry for a page only; if it does not allow a store, the
kernel gets to handle the fault, and the store is tried once more.
-/

namespace HobbyOS

open Function

/-- `Process`; there are no regions where `Mmap::clone` failed. -/
structure Process where
  pmt : PMT
  segTable : SegmentTable
  mmap : Option Mmap

/-- `Process::HEAP_START`. -/
def heapStart : ℕ := 0x1000000

/-- The end of the lower half of the address space. -/
def userTop : ℕ := 2 ^ 38

/-- The hardware allows the user to load. -/
def Flags.readable (f : Flags) : Bool := f.u && f.r

/-- The hardware allows the user to store; `PAGE_W` without `PAGE_R` is reserved. -/
def Flags.writable (f : Flags) : Bool := f.u && f.r && f.w

namespace Process

variable {σ : Type*} (P : Pool σ ℕ)

/-- `Process::checkOperation`. -/
def checkOperation (p : Process) (addr len : ℕ) (op : Access) : Option Bool :=
  let stop := (addr + len) % 2 ^ 64
  if stop < addr then some false
  else if p.segTable.checkOperation addr stop op then some true
  else p.mmap.map fun m => m.checkOperation addr stop op

/-! ## Forks -/

/-- `Process::fork`: the state, the parent and the child, if there is one. -/
def fork (p : Process) (ph : Phys σ) (shared : SharedRefs) :
    Option (Phys σ × SharedRefs × Process × Option Process) :=
  match VM.createPMT P ph with
  | (none, ph) => some (ph, shared, p, none)
  | (some pmt, ph) =>
    let skip va := (p.mmap.bind (·.find va)).isSome
    match VM.copyPMT P skip ⟨ph, p.pmt, pmt⟩ with
    | .panic => none
    | .fail s => some (kfreePage P s.ph pmt.page, shared, { p with pmt := s.src }, none)
    | .ok s =>
      match p.mmap with
      | none =>
        some (s.ph, shared, { p with pmt := s.src }, some ⟨s.dst, p.segTable, some .new⟩)
      | some m => do
        let (mmap, t) ← m.clone P s.src ⟨s.ph, s.dst, shared⟩
        some (t.ph, t.shared, { p with pmt := s.src }, some ⟨t.pmt, p.segTable, mmap⟩)

/-! ## The heap -/

/-- The body of the loop of `Process::brk` which grows the heap. -/
def growStep (alignedOld i : ℕ) (s : Phys σ × PMT) : Outcome (Phys σ × PMT) :=
  match kallocPage P s.1 with
  | (none, ph) => .fail (ph, s.2)
  | (some page, ph) => PMT.mapPage (pageAt alignedOld i) P page .user (ph, s.2)

def grow (alignedOld pageNum : ℕ) (s : Phys σ × PMT) : Outcome (Phys σ × PMT) :=
  tryRange (growStep P alignedOld) pageNum s

/-- The page unmapped in the round `i` of the loop which shrinks the heap. -/
def shrinkAt (alignedOld i : ℕ) : Vpn := vpn (alignedOld - (i + 1) * pageSize)

/-- The body of the loop of `Process::brk` which shrinks the heap. -/
def shrinkStep (alignedOld i : ℕ) (s : Phys σ × PMT) : Outcome (Phys σ × PMT) :=
  let n := shrinkAt alignedOld i
  let (pa, pmt) := s.2.unmapPage n
  if pa = 0 then .fail (s.1, pmt) else .ok (kfreePage P s.1 (s.2.translate n), pmt)

def shrink (alignedOld pageNum : ℕ) (s : Phys σ × PMT) : Outcome (Phys σ × PMT) :=
  tryRange (shrinkStep P alignedOld) pageNum s

/-- The number of pages between two ends of the heap. -/
def pageNum (vaStart vaEnd : ℕ) : ℕ :=
  sub64 (pageRoundUp vaEnd) (pageRoundUp vaStart) / pageSize % 2 ^ 32

/-- `Process::brk` returns `-1`; the heap ends where it did. -/
def brkFailed (p : Process) (s : Phys σ × PMT) : Option (ℕ × Phys σ × Process) :=
  some (mmapFailed, s.1, { p with pmt := s.2 })

/-- `Process::brk` sets the end of the heap, and returns it. -/
def brkDone (heap : SegmentDesc) (p : Process) (heapEnd : ℕ) (s : Phys σ × PMT) :
    Option (ℕ × Phys σ × Process) :=
  some (heapEnd, s.1, { p with
    pmt := s.2, segTable := p.segTable.setHeap heap.flags heap.start heapEnd })

/-- `heapEnd` after the loop which grows the heap by `pages` pages. -/
def grownEnd (heapEnd pages : ℕ) : ℕ :=
  if pages = 0 then heapEnd else pageRoundUp heapEnd + pages * pageSize

/-- `Process::brk` for a larger heap. -/
def growHeap (newHeapEnd : ℕ) (heap : SegmentDesc) (p : Process) (ph : Phys σ) :
    Option (ℕ × Phys σ × Process) :=
  match grow P (pageRoundUp heap.stop) (pageNum heap.stop newHeapEnd) (ph, p.pmt) with
  | .panic => none
  | .fail s => brkFailed p s
  | .ok s => brkDone heap p (grownEnd heap.stop (pageNum heap.stop newHeapEnd)) s

/-- `heapEnd` after the loop which shrinks the heap by `pages` pages. -/
def shrunkEnd (heapEnd pages : ℕ) : ℕ :=
  if pages = 0 then heapEnd else pageRoundUp heapEnd - pages * pageSize

/-- `Process::brk` for a smaller heap. -/
def shrinkHeap (newHeapEnd : ℕ) (heap : SegmentDesc) (p : Process) (ph : Phys σ) :
    Option (ℕ × Phys σ × Process) :=
  match shrink P (pageRoundUp heap.stop) (pageNum newHeapEnd heap.stop) (ph, p.pmt) with
  | .panic => none
  | .fail s => brkFailed p s
  | .ok s =>
    match PMT.clean P s with
    | .ok s => brkDone heap p (shrunkEnd heap.stop (pageNum newHeapEnd heap.stop)) s
    | _ => none

/-- `Process::brk`, for a process with the heap `heap`. -/
def brkHeap (newHeapEnd : ℕ) (heap : SegmentDesc) (p : Process) (ph : Phys σ) :
    Option (ℕ × Phys σ × Process) :=
  if newHeapEnd = 0 ∨ newHeapEnd < heap.start ∨ newHeapEnd = heap.stop then some (heap.stop, ph, p)
  else if (heap.stop + P.room ph.pool * pageSize) % 2 ^ 64 < newHeapEnd then brkFailed p (ph, p.pmt)
  else if heap.stop < newHeapEnd then growHeap P newHeapEnd heap p ph
  else shrinkHeap P newHeapEnd heap p ph

/-- `Process::brk`: the result, and the new state. -/
def brk (newHeapEnd : ℕ) (p : Process) (ph : Phys σ) : Option (ℕ × Phys σ × Process) :=
  p.segTable.heap.bind fun heap => brkHeap P newHeapEnd heap p ph

end Process

/-! ## The system -/

/-- The physical memory and the processes. -/
structure Sys (σ : Type*) where
  ph : Phys σ
  shared : SharedRefs
  pids : Finset ℕ
  proc : ℕ → Process

/-- What happens to the system. -/
inductive Event
  /-- A process without pages is created. -/
  | create (pid : ℕ)
  /-- A page is allocated, filled, and mapped at the page of an address. -/
  | map (pid va : ℕ) (prot : Access) (data : ℕ → UInt8)
  | fork (pid child : ℕ)
  | load (pid va : ℕ)
  | store (pid va : ℕ) (byte : UInt8)
  /-- The end of a process: its regions and its page table are destroyed. -/
  | exit (pid : ℕ)
  /-- The pages are given up, as `Process::exec` does. -/
  | clear (pid : ℕ)
  | brk (pid newHeapEnd : ℕ)
  | mmap (pid : ℕ) (args : Mmap.MapArgs)
  | munmap (pid addr length : ℕ)
  | mprotect (pid addr length : ℕ) (prot : Access)

/-- What an event returns. -/
inductive Out
  | done
  /-- A process cannot be created, or does not exist. -/
  | failed
  | byte (b : UInt8)
  /-- A page fault which is not handled. -/
  | fault
  | value (v : ℕ)
  deriving DecidableEq

namespace Sys

variable {σ : Type*} (P : Pool σ ℕ) (s : Sys σ)

/-- A process changes. -/
def set (pid : ℕ) (p : Process) (ph : Phys σ) : Sys σ :=
  { s with ph := ph, proc := update s.proc pid p }

/-- A process is added. -/
def add (pid : ℕ) (p : Process) (ph : Phys σ) : Sys σ :=
  { s.set pid p ph with pids := insert pid s.pids }

section

variable {s} {pid q : ℕ} {p : Process} {ph : Phys σ}

@[simp] theorem set_ph : (s.set pid p ph).ph = ph := rfl

@[simp] theorem set_pids : (s.set pid p ph).pids = s.pids := rfl

@[simp] theorem set_proc_self : (s.set pid p ph).proc pid = p := update_self ..

theorem set_proc_of_ne (h : q ≠ pid) : (s.set pid p ph).proc q = s.proc q :=
  update_of_ne h ..

@[simp] theorem set_proc : (s.set pid (s.proc pid) ph).proc = s.proc := update_eq_self ..

theorem set_self : s.set pid (s.proc pid) s.ph = s := by
  rw [set, update_eq_self]

@[simp] theorem add_pids : (s.add pid p ph).pids = insert pid s.pids := rfl

@[simp] theorem add_proc_self : (s.add pid p ph).proc pid = p := update_self ..

theorem add_proc_of_ne (h : q ≠ pid) : (s.add pid p ph).proc q = s.proc q :=
  update_of_ne h ..

end

/-- `Process::createInit`, without the program. -/
def create (pid : ℕ) : Sys σ × Out :=
  match VM.createPMT P s.ph with
  | (none, ph) => ({ s with ph := ph }, .failed)
  | (some pmt, ph) =>
    let segTable := SegmentTable.empty.setHeap .readWrite heapStart heapStart
    (s.add pid ⟨pmt, segTable, some .new⟩ ph, .done)

/-- A page is mapped for a process. -/
def map (pid va : ℕ) (prot : Access) (data : ℕ → UInt8) : Option (Sys σ × Out) :=
  let p := s.proc pid
  match kallocPage P s.ph with
  | (none, ph) => some ({ s with ph := ph }, .failed)
  | (some page, ph) =>
    let ph := { ph with mem := update ph.mem page data }
    match PMT.mapPage (vpn va) P page (protToPte prot) (ph, p.pmt) with
    | .panic => none
    | .fail (ph, pmt) => some (s.set pid { p with pmt := pmt } ph, .failed)
    | .ok (ph, pmt) => some (s.set pid { p with pmt := pmt } ph, .done)

/-- A process forks. -/
def fork (pid child : ℕ) : Option (Sys σ × Out) := do
  let (ph, shared, parent, proc) ← (s.proc pid).fork P s.ph s.shared
  match proc with
  | none => some ({ s.set pid parent ph with shared := shared }, .failed)
  | some p => some ({ (s.set pid parent ph).add child p ph with shared := shared }, .done)

/-- A load of the user. -/
def load (pid va : ℕ) : Out :=
  match (s.proc pid).pmt.lookup (vpn va) with
  | some pte => if pte.flags.readable then .byte (s.ph.mem pte.page (va % pageSize)) else .fault
  | none => .fault

/-- A store, if the hardware allows it. -/
def write (pid va : ℕ) (byte : UInt8) : Option (Sys σ) :=
  match (s.proc pid).pmt.lookup (vpn va) with
  | some pte =>
    if pte.flags.writable then
      let page := update (s.ph.mem pte.page) (va % pageSize) byte
      some { s with ph := { s.ph with mem := update s.ph.mem pte.page page } }
    else none
  | none => none

/-- A store of the user. -/
def store (pid va : ℕ) (byte : UInt8) : Option (Sys σ × Out) :=
  match s.write pid va byte with
  | some s => some (s, .done)
  | none =>
    let p := s.proc pid
    match VM.handleCowFault P (vpn va) (s.ph, p.pmt) with
    | .panic => none
    | .fail (ph, pmt) => some (s.set pid { p with pmt := pmt } ph, .fault)
    | .ok (ph, pmt) =>
      let s := s.set pid { p with pmt := pmt } ph
      match s.write pid va byte with
      | some s => some (s, .done)
      | none => some (s, .fault)

/-- `Process::exit`, and the destructor of `Process`. -/
def exit (pid : ℕ) : Option (Sys σ × Out) := do
  let p := s.proc pid
  let t ← Mmap.destroy P (p.mmap.elim [] (·.regions)) ⟨s.ph, p.pmt, s.shared⟩
  some ({ s with
    ph := VM.destroyPMT P t.pmt t.ph, shared := t.shared, pids := s.pids.erase pid }, .done)

/-- The pages of a process are given up. -/
def clear (pid : ℕ) : Sys σ × Out :=
  let p := s.proc pid
  let (ph, pmt) := VM.clearUserPages P p.pmt s.ph
  (s.set pid { p with pmt := pmt } ph, .done)

/-- An operation on the regions of a process, which fails if there are none. -/
def onMmap (pid : ℕ) (f : Mmap → Space σ → Option (ℕ × Mmap × Space σ)) : Option (Sys σ × Out) :=
  let p := s.proc pid
  match p.mmap with
  | none => some (s, .value mmapFailed)
  | some m => do
    let (v, m, t) ← f m ⟨s.ph, p.pmt, s.shared⟩
    some ({ s.set pid { p with pmt := t.pmt, mmap := some m } t.ph with shared := t.shared }, .value v)

/-- A system call of an existing process, or an access to its memory. Addresses beyond
    the lower half are none of the user's. -/
def stepOf (pid : ℕ) : Event → Option (Sys σ × Out)
  | .create _ => some (s, .failed)
  | .map _ va prot data => if va < userTop then s.map P pid va prot data else some (s, .failed)
  | .fork _ child => if child ∈ s.pids then some (s, .failed) else s.fork P pid child
  | .load _ va => some (s, if va < userTop then s.load pid va else .fault)
  | .store _ va byte => if va < userTop then s.store P pid va byte else some (s, .fault)
  | .exit _ => s.exit P pid
  | .clear _ => some (s.clear P pid)
  | .brk _ newHeapEnd => do
    let (v, ph, p) ← (s.proc pid).brk P newHeapEnd s.ph
    some (s.set pid p ph, .value v)
  | .mmap _ args => s.onMmap pid (Mmap.map P args)
  | .munmap _ addr length => s.onMmap pid (Mmap.unmap P addr length)
  | .mprotect _ addr length prot => s.onMmap pid fun m t => do
    let (v, ph, pmt) ← Mmap.protect P addr length prot (t.ph, t.pmt)
    some (v, m, { t with ph := ph, pmt := pmt })

end Sys

/-- The process an event is about. -/
def Event.pid : Event → ℕ
  | .create pid | .map pid .. | .fork pid _ | .load pid _ | .store pid .. | .exit pid
  | .clear pid | .brk pid _ | .mmap pid _ | .munmap pid .. | .mprotect pid .. => pid

/-- The events which concern neither the heap nor regions. -/
def Event.Basic : Event → Prop
  | .brk .. | .mmap .. | .munmap .. | .mprotect .. => False
  | _ => True

namespace Sys

variable {σ : Type*} (P : Pool σ ℕ)

/-- One event; the system panics otherwise. -/
def step (s : Sys σ) (e : Event) : Option (Sys σ × Out) :=
  if e.pid ∈ s.pids then s.stepOf P e.pid e
  else
    match e with
    | .create pid => some (s.create P pid)
    | _ => some (s, .failed)

/-- A sequence of events, and what they return. -/
def run (s : Sys σ) (es : List Event) : Option (Sys σ × List Out) := runs (step P) s es

end Sys

end HobbyOS
