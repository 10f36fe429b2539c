import HobbyOS.Fs.Pipe
import HobbyOS.RefCount

/-!
# Files and descriptors

`File` and `FdTable`, and the calls which open, duplicate and close descriptors. Every object of
class `File` is in one slot of one table. It has a number here, by which it is known when it is
closed; pipes have numbers too.

What a file does when it is copied and closed depends on its inode: for pipes these are `onOpen`
and `onClose`, which do nothing for terminals. What `InodeCache` does for the others is not modelled.
-/

namespace HobbyOS

open Function

/-- `FdTable::MAX_FDS`. -/
def maxFds : ℕ := 16

/-- `File::O_RDWR`. -/
def oRdwr : ℕ := 2

/-- `File::O_APPEND`. -/
def oAppend : ℕ := 1024

/-- What the field `m_inode` of a file may be. -/
inductive Inode
  /-- A `PipeInode`; there is no mount. -/
  | pipe (p : ℕ)
  /-- A regular file of the mount. -/
  | regular (num : ℕ)
  /-- A `TTYInode`; there is no mount. -/
  | terminal
deriving DecidableEq

structure File where
  id : ℕ
  inode : Inode
  flags : ℕ
  offset : ℕ
deriving DecidableEq

/-- The data of a regular file, and `i_size`. -/
structure RegularFile where
  data : ℕ → UInt8
  size : ℕ

/-- The pipes, how many there have been, and which of them were deleted; how many files there have
    been, and which of them were closed; and the regular files. -/
structure FileHeap where
  pipes : ℕ → Option PipeInode
  made : ℕ
  deleted : List ℕ
  opened : ℕ
  closed : List ℕ
  /-- `s_log_block_size`. -/
  logBlockSize : ℕ
  regular : ℕ → RegularFile

/-! ## Regular files -/

namespace RegularFile

/-- `memcpy` into a block. -/
def putAt (data : ℕ → UInt8) (pos : ℕ) (src : List UInt8) : ℕ → UInt8 :=
  fun i => if pos ≤ i ∧ i < pos + src.length then src.getD (i - pos) 0 else data i

/-- The loop of `Ext2Inode::write`, which goes on `n` times at most, and whether all blocks could be
    allocated. -/
def writeBlocks (blockSize : ℕ) (blockMapAlloc : ℕ → Bool) :
    ℕ → ℕ → List UInt8 → (ℕ → UInt8) → (ℕ → UInt8) × Bool
  | 0, _, _, data => (data, true)
  | n + 1, pos, src, data =>
    if src.length = 0 then (data, true)
    else
      let logical := pos / blockSize % 2 ^ 32
      let blockOff := pos % blockSize
      let canWrite := min (blockSize - blockOff) src.length
      if blockMapAlloc logical then
        writeBlocks blockSize blockMapAlloc n (pos + canWrite) (src.drop canWrite)
          (putAt data (logical * blockSize + blockOff) (src.take canWrite))
      else (data, false)

/-- `Ext2Inode::write`, at an offset or at the end. -/
def write (r : RegularFile) (blockSize : ℕ) (blockMapAlloc : ℕ → Bool) (offset : Option ℕ)
    (src : List UInt8) : RegularFile × ℤ :=
  if src.length = 0 then (r, -1)
  else
    let offset := offset.getD r.size
    let w := writeBlocks blockSize blockMapAlloc src.length offset src r.data
    if w.2 then
      (⟨w.1, if r.size < offset + src.length then (src.length + offset) % 2 ^ 32 else r.size⟩,
        Int.bmod src.length (2 ^ 32))
    else (⟨w.1, r.size⟩, -1)

/-- A block has one number. -/
theorem add_div_of_lt {blockSize pos k : ℕ} (hk : pos % blockSize + k < blockSize) :
    (pos + k) / blockSize = pos / blockSize := by
  rw [Nat.div_eq_of_lt_le]
  · exact (Nat.div_mul_le_self _ _).trans (Nat.le_add_right _ _)
  · have hpos := Nat.div_add_mod' pos blockSize
    rw [Nat.succ_mul]
    omega

end RegularFile

/-! ## Files -/

/-- `if (n > 0) m_offset += n`. -/
def File.advance (f : File) (n : ℤ) : File :=
  if 0 < n then { f with offset := f.offset + n.toNat } else f

theorem File.advance_spec (f : File) (n : ℤ) :
    (f.advance n).id = f.id ∧ (f.advance n).inode = f.inode ∧ (f.advance n).flags = f.flags := by
  rw [advance]
  split_ifs
  · exact ⟨rfl, rfl, rfl⟩
  · exact ⟨rfl, rfl, rfl⟩

namespace FileHeap

variable (h : FileHeap)

/-- `m_blockSize`. -/
def blockSize : ℕ := 1024 <<< h.logBlockSize

/-- `File::File(const File&, true)`. -/
def copy (f : File) : Option (FileHeap × File) :=
  let h' := { h with opened := h.opened + 1 }
  match f.inode with
  | .pipe p => (h.pipes p).map fun pipe =>
    ({ h' with pipes := update h.pipes p (some (pipe.onOpen f.flags)) }, { f with id := h.opened })
  | _ => some (h', { f with id := h.opened })

/-- `File::close`, and the object is deleted. -/
def close (f : File) : Option FileHeap :=
  let h' := { h with closed := f.id :: h.closed }
  match f.inode with
  | .pipe p => (h.pipes p).map fun pipe =>
    if (pipe.onClose f.flags).Unused then
      { h' with pipes := update h.pipes p none, deleted := p :: h.deleted }
    else { h' with pipes := update h.pipes p (some (pipe.onClose f.flags)) }
  | _ => some h'

variable {h} {f : File} {p : ℕ} {pipe : PipeInode}

theorem copy_pipe (hi : f.inode = .pipe p) (hp : h.pipes p = some pipe) : h.copy f = some ({ h with
      pipes := update h.pipes p (some (pipe.onOpen f.flags))
      opened := h.opened + 1 }, { f with id := h.opened }) := by
  obtain ⟨id, inode, flags, offset⟩ := f
  obtain rfl : inode = .pipe p := hi
  rw [copy]
  dsimp only
  rw [hp]
  rfl

theorem copy_of_ne (hi : ∀ p, f.inode ≠ .pipe p) :
    h.copy f = some ({ h with opened := h.opened + 1 }, { f with id := h.opened }) := by
  rw [copy]
  split
  next p hp => exact absurd hp (hi p)
  · rfl

theorem close_pipe (hi : f.inode = .pipe p) (hp : h.pipes p = some pipe) :
    h.close f = some (if (pipe.onClose f.flags).Unused then
      { h with
        pipes := update h.pipes p none
        deleted := p :: h.deleted
        closed := f.id :: h.closed }
      else { h with
        pipes := update h.pipes p (some (pipe.onClose f.flags))
        closed := f.id :: h.closed }) := by
  obtain ⟨id, inode, flags, offset⟩ := f
  obtain rfl : inode = .pipe p := hi
  rw [close]
  dsimp only
  rw [hp]
  rfl

theorem close_of_ne (hi : ∀ p, f.inode ≠ .pipe p) :
    h.close f = some { h with closed := f.id :: h.closed } := by
  rw [close]
  split
  next p hp => exact absurd hp (hi p)
  · rfl

theorem close_opened {h' : FileHeap} (hc : h.close f = some h') : h'.opened = h.opened := by
  by_cases hi : ∃ p, f.inode = .pipe p
  · obtain ⟨p, hi⟩ := hi
    cases hp : h.pipes p with
    | none =>
      rw [close, hi] at hc
      dsimp only at hc
      rw [hp] at hc
      cases hc
    | some pipe =>
      rw [close_pipe hi hp] at hc
      cases hc
      split_ifs
      · rfl
      · rfl
  · rw [close_of_ne (not_exists.1 hi)] at hc
    cases hc
    rfl

variable (h)

/-- `File::File(VfsInode*, VfsMount*, uint32_t)`. -/
def openFile (inode : Inode) (flags : ℕ) : FileHeap × File :=
  ({ h with opened := h.opened + 1 }, ⟨h.opened, inode, flags, 0⟩)

/-- `File::write`, for regular files. -/
def write (blockMapAlloc : ℕ → Bool) (f : File) (src : List UInt8) : Option (FileHeap × File × ℤ) :=
  if f.flags &&& 3 ≠ oWronly ∧ f.flags &&& 3 ≠ oRdwr then some (h, f, -1)
  else
    match f.inode with
    | .regular num =>
      let r := (h.regular num).write h.blockSize blockMapAlloc
        (if f.flags &&& oAppend ≠ 0 then none else some f.offset) src
      some ({ h with regular := update h.regular num r.1 }, f.advance r.2, r.2)
    | _ => none

variable {h} {f : File} {blockMapAlloc : ℕ → Bool} {src : List UInt8}

/-- A write keeps what a file is. -/
theorem write_spec : h.write blockMapAlloc f src = none ∨
    ∃ regular g r, h.write blockMapAlloc f src = some ({ h with regular := regular }, g, r) ∧
      g.id = f.id ∧ g.inode = f.inode ∧ g.flags = f.flags := by
  rw [write]
  split
  · exact .inr ⟨h.regular, f, -1, rfl, rfl, rfl, rfl⟩
  · split
    next num hi => exact .inr ⟨_, _, _, rfl, f.advance_spec _⟩
    · exact .inl rfl

end FileHeap

/-! ## Tables -/

structure FdTable where
  fds : ℕ → Option File
  refCount : ℕ

namespace FdTable

variable (t : FdTable) {fd : ℕ} {f : Option File}

/-- `FdTable::FdTable`. -/
def new : FdTable := ⟨fun _ => none, 1⟩

/-- A slot of the table is set. -/
def set (fd : ℕ) (f : Option File) : FdTable := { t with fds := update t.fds fd f }

theorem set_fds_self {t : FdTable} : (t.set fd f).fds fd = f :=
  update_self ..

theorem set_fds_of_ne {t : FdTable} {i : ℕ} (h : i ≠ fd) :
    (t.set fd f).fds i = t.fds i := update_of_ne h _ _

/-- `FdTable::get`. -/
def get (fd : ℤ) : Option File := if fd < 0 ∨ maxFds ≤ fd then none else t.fds fd.toNat

/-- The first free slot from `min` on. -/
def findFree (min : ℕ) : Option ℕ :=
  (List.range maxFds).find? fun fd => min ≤ fd ∧ (t.fds fd).isNone

/-- The loop of `FdTable::clone`, with `n` slots left. -/
def cloneRest : ℕ → ℕ → FdTable → FdTable → FileHeap → Option (FdTable × FileHeap)
  | 0, _, _, copy, h => some (copy, h)
  | n + 1, fd, t, copy, h =>
    match t.fds fd with
    | some f => (h.copy f).bind fun r => cloneRest n (fd + 1) t (copy.set fd (some r.2)) r.1
    | none => cloneRest n (fd + 1) t copy h

/-- `FdTable::clone`. -/
def clone (h : FileHeap) : Option (FdTable × FileHeap) := cloneRest maxFds 0 t new h

/-- The loop of `FdTable::closeAll`, with `n` slots left. -/
def closeRest : ℕ → ℕ → FdTable → FileHeap → Option (FdTable × FileHeap)
  | 0, _, t, h => some (t, h)
  | n + 1, fd, t, h =>
    match t.fds fd with
    | some f => (h.close f).bind fun h => closeRest n (fd + 1) (t.set fd none) h
    | none => closeRest n (fd + 1) t h

/-- `FdTable::closeAll`. -/
def closeAll (h : FileHeap) : Option (FdTable × FileHeap) := closeRest maxFds 0 t h

/-- `FdTable::alloc`; the file is closed and deleted if there is no slot. -/
def allocOrClose (f : File) (min : ℕ) (h : FileHeap) : Option (FdTable × FileHeap × ℤ) :=
  match t.findFree min with
  | some fd => some (t.set fd (some f), h, fd)
  | none => (h.close f).map fun h => (t, h, -1)

/-- `FdTable::close`. -/
def close (fd : ℤ) (h : FileHeap) : Option (FdTable × FileHeap × ℤ) :=
  match t.get fd with
  | some f => (h.close f).map fun h => (t.set fd.toNat none, h, 0)
  | none => some (t, h, -1)

/-- `FdTable::allocAt`, for a slot of the table. -/
def allocAt (fd : ℕ) (f : File) (h : FileHeap) : Option (FdTable × FileHeap × ℤ) :=
  match t.fds fd with
  | some old => (h.close old).map fun h => (t.set fd (some f), h, fd)
  | none => some (t.set fd (some f), h, fd)

/-- `FdTable::get`, and the file is copied and goes on. -/
def withCopy (fd : ℤ) (h : FileHeap)
    (k : File → FileHeap → Option (FdTable × FileHeap × ℤ)) : Option (FdTable × FileHeap × ℤ) :=
  match t.get fd with
  | some f => (h.copy f).bind fun r => k r.2 r.1
  | none => some (t, h, -1)

/-- `SyscallHandler::sys_dup`. -/
def dup (fd : ℤ) (h : FileHeap) : Option (FdTable × FileHeap × ℤ) :=
  t.withCopy fd h fun f h => t.allocOrClose f 0 h

/-- `SyscallHandler::sys_fcntl` with `F_DUPFD`. -/
def dupFd (fd : ℤ) (min : ℕ) (h : FileHeap) : Option (FdTable × FileHeap × ℤ) :=
  t.withCopy fd h fun f h => t.allocOrClose f min h

/-- `SyscallHandler::sys_dup3`. -/
def dup3 (oldfd newfd : ℤ) (h : FileHeap) : Option (FdTable × FileHeap × ℤ) :=
  if oldfd = newfd then some (t, h, -1)
  else if newfd < 0 ∨ maxFds ≤ newfd then some (t, h, -1)
  else t.withCopy oldfd h fun f h => t.allocAt newfd.toNat f h

/-- `SyscallHandler::sys_pipe2`; `buf` is what the buffer of the pipe holds, and `writable` whether
    the descriptors may be stored. -/
def pipe2 (buf : ℕ → UInt8) (writable : Bool) (h : FileHeap) : Option (FdTable × FileHeap × ℤ) :=
  if writable then
    let p := h.made
    let h := { h with pipes := update h.pipes p (some (.new buf)), made := p + 1 }
    let r := h.openFile (.pipe p) 0
    let w := r.1.openFile (.pipe p) oWronly
    match t.findFree 0 with
    | none => (w.1.close r.2).bind fun h => (h.close w.2).map fun h => (t, h, -24)
    | some rfd =>
      let t := t.set rfd (some r.2)
      match t.findFree 0 with
      | none => (w.1.close r.2).bind fun h => (h.close w.2).map fun h => (t.set rfd none, h, -24)
      | some wfd => some (t.set wfd (some w.2), w.1, 0)
  else some (t, h, -14)

/-- `Process::openFile`, for a regular file which is there. -/
def openRegular (num flags : ℕ) (h : FileHeap) : Option (FdTable × FileHeap × ℤ) :=
  let r := h.openFile (.regular num) flags
  t.allocOrClose r.2 0 r.1

/-- `SyscallHandler::sys_write`, for regular files. -/
def write (fd : ℤ) (src : List UInt8) (blockMapAlloc : ℕ → Bool) (h : FileHeap) :
    Option (FdTable × FileHeap × ℤ) :=
  match t.get fd with
  | some f => (h.write blockMapAlloc f src).map fun r =>
    (t.set fd.toNat (some r.2.1), r.1, r.2.2)
  | none => some (t, h, -1)

end FdTable

/-- A call of a process, on its table. -/
inductive FdCall
  | pipe2 (buf : ℕ → UInt8) (writable : Bool)
  | dup (fd : ℤ)
  | dup3 (oldfd newfd : ℤ)
  | dupFd (fd : ℤ) (min : ℕ)
  | close (fd : ℤ)
  | openRegular (num flags : ℕ)
  | write (fd : ℤ) (src : List UInt8) (blockMapAlloc : ℕ → Bool)

/-- What a call does to its table. -/
def FdTable.call (t : FdTable) (h : FileHeap) : FdCall → Option (FdTable × FileHeap × ℤ)
  | .pipe2 buf writable => t.pipe2 buf writable h
  | .dup fd => t.dup fd h
  | .dup3 oldfd newfd => t.dup3 oldfd newfd h
  | .dupFd fd min => t.dupFd fd min h
  | .close fd => t.close fd h
  | .openRegular num flags => t.openRegular num flags h
  | .write fd src blockMapAlloc => t.write fd src blockMapAlloc h

/-- The tables there are, and what is outside of them. -/
structure Files where
  heap : FileHeap
  live : Finset ℕ
  table : ℕ → FdTable

/-- What happens next. -/
inductive FilesEvent
  /-- A call on a table. -/
  | call (t : ℕ) (c : FdCall)
  /-- `FdTable::clone`. -/
  | clone (t copy : ℕ)
  /-- `FdTable::acquire`. -/
  | acquire (t : ℕ)
  /-- `FdTable::release`. -/
  | release (t : ℕ)

namespace Files

variable (s : Files) {t q : ℕ} {tbl : FdTable} {h : FileHeap}

/-- The table of the first process, with the terminal in the first three slots. -/
def start (logBlockSize : ℕ) (regular : ℕ → RegularFile) : Files :=
  ⟨⟨fun _ => none, 0, [], 3, [], logBlockSize, regular⟩, {0}, fun _ =>
    ((FdTable.new.set 0 (some ⟨0, .terminal, oRdwr, 0⟩)).set 1 (some ⟨1, .terminal, oRdwr, 0⟩)).set 2
      (some ⟨2, .terminal, oRdwr, 0⟩)⟩

/-- A table is changed. -/
def set (t : ℕ) (tbl : FdTable) (h : FileHeap) : Files :=
  { s with heap := h, table := update s.table t tbl }

/-- A table is added. -/
def add (t : ℕ) (tbl : FdTable) (h : FileHeap) : Files :=
  ⟨h, insert t s.live, update s.table t tbl⟩

/-- A table is deleted. -/
def remove (t : ℕ) (h : FileHeap) : Files := { s with heap := h, live := s.live.erase t }

theorem set_table_self : (s.set t tbl h).table t = tbl :=
  update_self ..

theorem set_table_of_ne (hq : q ≠ t) : (s.set t tbl h).table q = s.table q := update_of_ne hq _ _

theorem add_table_self : (s.add t tbl h).table t = tbl :=
  update_self ..

theorem add_table_of_ne (hq : q ≠ t) : (s.add t tbl h).table q = s.table q := update_of_ne hq _ _

/-- `FdTable::release`. -/
def release (t : ℕ) : Option Files :=
  if (s.table t).refCount - 1 = 0 then
    ((s.table t).closeAll s.heap).map fun r => s.remove t r.2
  else some (s.set t { s.table t with refCount := (s.table t).refCount - 1 } s.heap)

/-- One step. -/
def step : FilesEvent → Option (Files × ℤ)
  | .call t c =>
    if t ∈ s.live then ((s.table t).call s.heap c).map fun r => (s.set t r.1 r.2.1, r.2.2)
    else none
  | .clone t copy =>
    if t ∈ s.live ∧ copy ∉ s.live then
      ((s.table t).clone s.heap).map fun r => (s.add copy r.1 r.2, 0)
    else none
  | .acquire t =>
    if t ∈ s.live then
      some (s.set t { s.table t with refCount := (s.table t).refCount + 1 } s.heap, 0)
    else none
  | .release t => if t ∈ s.live then (s.release t).map (·, 0) else none

/-- What cannot happen: something with a table which is not there, or a write to something else than
    a regular file. -/
def Barred : FilesEvent → Prop
  | .call t c => t ∈ s.live → ∃ fd src blockMapAlloc, c = .write fd src blockMapAlloc
  | .clone t copy => ¬ (t ∈ s.live ∧ copy ∉ s.live)
  | .acquire t => t ∉ s.live
  | .release t => t ∉ s.live

end Files

end HobbyOS
