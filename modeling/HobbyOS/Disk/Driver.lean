import HobbyOS.Disk
import HobbyOS.Sched

/-!
# The disk driver

`Disk::read` and `Disk::write` in interrupt mode, called by any number of processes. A process
runs until it blocks on a semaphore: on `m_coalesceSem`, if there is a request for the same
sector already; on `m_allocSem`, if all slots are in use; and on `m_slotSem`, until its request
is completed. Any process which was woken may go on next. The interrupt may come before the
process which made a request waits for it, so that this is a step of its own.

The driver puts the requests into the ring of the available descriptors, and the device takes
them from there, executes them in any order, and puts them into the ring of the used ones, from
where `Disk::interruptHandler` takes them. The indices of the rings have 16 bits.

The device does what it is told: it follows the chain of descriptors, transfers the data and
sets the status.

When `BlockCache::insert` evicts a dirty block, the process makes a request to write it while it
holds the lock of the cache. It does not come back from there, since it would have to acquire the
lock again, and its first slot stays in use. A step which panics or hangs has no result.
-/

namespace HobbyOS

open Function

/-- `QUEUE_SIZE`. -/
def queueSize : ℕ := 8

/-- `QUEUE_SIZE / 3`: how many requests there may be at a time. -/
def numSlots : ℕ := queueSize / 3

/-- The indices of the rings have 16 bits. -/
def idxSize : ℕ := 65536

/-- `Disk::opType`. -/
inductive OpType
  | read
  | write
  deriving DecidableEq

/-- What a descriptor points to. -/
inductive DescAddr
  /-- `m_req[slot]`. -/
  | req (slot : ℕ)
  /-- The buffer of a process. -/
  | buf (pid : ℕ)
  /-- `m_status[slot]`. -/
  | status (slot : ℕ)
  deriving DecidableEq

/-- `VirtqDesc`: where it points to, and the next one if `VIRTQ_DESC_F_NEXT` is set. -/
structure Desc where
  addr : DescAddr
  next : Option ℕ
  deriving DecidableEq

/-- Where a process is. -/
inductive DiskPc
  | idle
  /-- In `m_coalesceSem[i]->wait()`. -/
  | coalesce (i : ℕ)
  /-- In `m_allocSem->wait()`. -/
  | alloc
  /-- The device is notified of the request. -/
  | notified (i : ℕ)
  /-- In `m_slotSem[slot]->wait()`. -/
  | slot (i : ℕ)
  deriving DecidableEq

/-- What a step tells a process. -/
inductive Reply (D : Type*)
  /-- The call has not returned. -/
  | pending
  /-- `Disk::read` has returned. -/
  | read (data : D)
  /-- `Disk::write` has returned. -/
  | written
  deriving DecidableEq

/-- The driver, the device and the processes which use them. -/
structure Driver (D : Type*) where
  /-- The sectors of the device, and the cache. -/
  disk : Disk D
  /-- `m_free`: whether a slot is in use. -/
  free : ℕ → Bool
  /-- `m_slotSector`. -/
  slotSector : ℕ → Option ℕ
  allocSem : Semaphore
  slotSem : ℕ → Semaphore
  coalesceSem : ℕ → Semaphore
  /-- `m_req`: type and sector. -/
  req : ℕ → OpType × ℕ
  /-- `m_status`. -/
  status : ℕ → ℕ
  desc : ℕ → Desc
  availRing : ℕ → ℕ
  availIdx : ℕ
  usedRing : ℕ → ℕ
  /-- `m_used->idx`. -/
  usedIdx : ℕ
  /-- `m_usedIdx`. -/
  seenIdx : ℕ
  /-- The index of the next request the device takes. -/
  deviceIdx : ℕ
  /-- The requests the device has taken and not completed. -/
  inFlight : List ℕ
  pc : ℕ → DiskPc
  /-- The call a process is in. -/
  call : ℕ → OpType × ℕ
  /-- The buffer of a process. -/
  buf : ℕ → D
  /-- How many requests were put into a slot. -/
  submits : ℕ → ℕ
  /-- How many requests in a slot the device has completed. -/
  completes : ℕ → ℕ
  /-- How often `m_slotSem` was signalled. -/
  signals : ℕ → ℕ

/-- What happens next. -/
inductive DriverEvent (D : Type*)
  | read (pid sector : ℕ)
  | write (pid sector : ℕ) (data : D)
  /-- A process which was woken goes on. -/
  | resume (pid : ℕ)
  /-- The device takes a request. -/
  | take
  /-- The device completes a request. -/
  | complete (id : ℕ)
  | interrupt

namespace Semaphore

/-- `Semaphore::signal`: a process is woken, or the value grows. -/
def signal (sem : Semaphore) : Semaphore :=
  match sem.blocked with
  | [] => ⟨sem.value + 1, []⟩
  | _ :: pids => ⟨sem.value, pids⟩

/-- `Semaphore::pushBlocked`. -/
def push (sem : Semaphore) (pid : ℕ) : Semaphore := ⟨sem.value, sem.blocked ++ [pid]⟩

/-- A token is taken. -/
def take (sem : Semaphore) : Semaphore := ⟨sem.value - 1, sem.blocked⟩

/-- `while (waiting()) signal();` -/
def signalAll (sem : Semaphore) : Semaphore := ⟨sem.value, []⟩

end Semaphore

/-- The dirty block which `BlockCache::insert` evicts to make room for a sector. -/
def Disk.evicted {D : Type*} (s : Disk D) (sector : ℕ) : Option (CachedBlock D) :=
  if s.flushing ∨ s.locked ∨ (findBlock sector s.blocks).isSome ∨
    s.blocks.length < defaultCapacity then none
  else s.blocks.getLast?.filter CachedBlock.dirty

namespace Driver

variable {D : Type*} (s : Driver D)

/-- The call of a process returns. -/
def returned (pid : ℕ) : Driver D := { s with pc := update s.pc pid .idle }

/-- `Disk::freeSlot`, and the processes which wait for the same sector are woken. -/
def freeSlot (i : ℕ) : Driver D :=
  { s with
    free := update s.free i false
    slotSector := update s.slotSector i none
    allocSem := s.allocSem.signal
    coalesceSem := update s.coalesceSem i (s.coalesceSem i).signalAll }

/-- What a call replies when it returns. -/
def reply (pid : ℕ) : Reply D :=
  match (s.call pid).1 with
  | .read => .read (s.buf pid)
  | .write => .written

/-- The three descriptors of a slot. -/
def setDesc (pid i : ℕ) : ℕ → Desc :=
  update (update (update s.desc
    (i * 3) ⟨.req i, some (i * 3 + 1)⟩)
    (i * 3 + 1) ⟨.buf pid, some (i * 3 + 2)⟩)
    (i * 3 + 2) ⟨.status i, none⟩

/-- The request of a process is put into a slot, and the device is notified. -/
def fill (pid i : ℕ) : Driver D :=
  { s with
    free := update s.free i true
    slotSector := update s.slotSector i (some (s.call pid).2)
    req := update s.req i (s.call pid)
    status := update s.status i 0xFF
    desc := s.setDesc pid i
    availRing := update s.availRing (s.availIdx % queueSize) (i * 3)
    availIdx := (s.availIdx + 1) % idxSize
    submits := update s.submits i (s.submits i + 1)
    pc := update s.pc pid (.notified i) }

/-- `Disk::allocSlot` after `m_allocSem->wait()`. -/
def freeIndex : Option ℕ := (List.range numSlots).find? fun i => !s.free i

/-- `Disk::sendRequest` after `m_allocSem->wait()`; it panics if there is no free slot. -/
def submit (pid : ℕ) : Option (Driver D × Reply D) :=
  s.freeIndex.map fun i => (s.fill pid i, .pending)

/-- `m_allocSem->wait()`. -/
def allocWait (pid : ℕ) : Option (Driver D × Reply D) :=
  if s.allocSem.value = 0 then
    some ({ s with
      allocSem := s.allocSem.push pid
      pc := update s.pc pid .alloc }, .pending)
  else { s with allocSem := s.allocSem.take }.submit pid

/-- After `m_coalesceSem[i]->wait()`: a read finds the sector in the cache, or the loop goes on. -/
def coalesced (pid : ℕ) (rest : Driver D → Option (Driver D × Reply D)) :
    Option (Driver D × Reply D) :=
  (s.disk.lookup (s.call pid).2).bind fun r =>
    match r.2, (s.call pid).1 with
    | some data, .read =>
      some ({ s with disk := r.1, buf := update s.buf pid data }.returned pid, .read data)
    | _, _ => rest { s with disk := r.1 }

/-- The loop of `Disk::sendRequest` over the slots, and the rest of it. -/
def scan (pid : ℕ) : List ℕ → Driver D → Option (Driver D × Reply D)
  | [], s => s.allocWait pid
  | i :: is, s =>
    if s.free i ∧ s.slotSector i = some (s.call pid).2 then
      if (s.coalesceSem i).value = 0 then
        some ({ s with
          coalesceSem := update s.coalesceSem i ((s.coalesceSem i).push pid)
          pc := update s.pc pid (.coalesce i) }, .pending)
      else
        { s with coalesceSem := update s.coalesceSem i (s.coalesceSem i).take }.coalesced
          pid (scan pid is)
    else scan pid is s

/-- `Disk::sendRequest`. -/
def sendRequest (pid : ℕ) (op : OpType) (sector : ℕ) : Option (Driver D × Reply D) :=
  scan pid (List.range numSlots) { s with call := update s.call pid (op, sector) }

/-- `Disk::sendRequest` after `m_slotSem[slot]->wait()`. -/
def finish (pid i : ℕ) : Option (Driver D × Reply D) :=
  if s.status i ≠ 0 then none
  else
    match s.disk.evicted (s.call pid).2 with
    | some b => { s with
        disk := { s.disk with locked := true }
        buf := update s.buf pid b.data }.sendRequest pid .write b.sectorNum
    | none => (s.disk.insert (fun _ _ _ => none) (s.call pid).2 (s.buf pid)).map fun disk =>
        (({ s with disk := disk }.freeSlot i).returned pid, s.reply pid)

/-- `m_slotSem[slot]->wait()`. -/
def slotWait (pid i : ℕ) : Option (Driver D × Reply D) :=
  if (s.slotSem i).value = 0 then
    some ({ s with
      slotSem := update s.slotSem i ((s.slotSem i).push pid)
      pc := update s.pc pid (.slot i) }, .pending)
  else { s with slotSem := update s.slotSem i (s.slotSem i).take }.finish pid i

/-- `Disk::read`. -/
def read (pid sector : ℕ) : Option (Driver D × Reply D) :=
  (s.disk.lookup sector).bind fun r =>
    match r.2 with
    | some data => some ({ s with disk := r.1 }, .read data)
    | none => { s with disk := r.1 }.sendRequest pid .read sector

/-- `Disk::write`. -/
def write (pid sector : ℕ) (data : D) : Option (Driver D × Reply D) :=
  (s.disk.lookup sector).bind fun r =>
    match r.2 with
    | some _ => some ({ s with disk := { r.1 with
        cache := r.1.cache.map (overwrite sector data true) } }, .written)
    | none =>
      { s with disk := r.1, buf := update s.buf pid data }.sendRequest pid .write sector

/-- A process which was woken goes on. -/
def resume (pid : ℕ) : Option (Driver D × Reply D) :=
  match s.pc pid with
  | .idle => none
  | .coalesce i =>
    if pid ∈ (s.coalesceSem i).blocked then none
    else s.coalesced pid (scan pid (List.range' (i + 1) (numSlots - (i + 1))))
  | .alloc => if pid ∈ s.allocSem.blocked then none else s.submit pid
  | .notified i => s.slotWait pid i
  | .slot i => if pid ∈ (s.slotSem i).blocked then none else s.finish pid i

/-! ## The device -/

/-- The device takes the next request. -/
def take : Option (Driver D) :=
  if s.deviceIdx = s.availIdx then none
  else some { s with
    inFlight := s.availRing (s.deviceIdx % queueSize) :: s.inFlight
    deviceIdx := (s.deviceIdx + 1) % idxSize }

/-- The data of a request are transferred. -/
def transfer (pid : ℕ) : OpType × ℕ → Driver D
  | (.read, sector) => { s with buf := update s.buf pid (s.disk.device sector) }
  | (.write, sector) => { s with
      disk := { s.disk with device := update s.disk.device sector (s.buf pid) } }

/-- The chain of descriptors which begins with `id`: the slot of the request, the process whose
    buffer is used, and the slot of the status. -/
def chain (id : ℕ) : Option (ℕ × ℕ × ℕ) :=
  match s.desc id with
  | ⟨.req i, some d1⟩ =>
    match s.desc d1 with
    | ⟨.buf pid, some d2⟩ =>
      match s.desc d2 with
      | ⟨.status j, none⟩ => some (i, pid, j)
      | _ => none
    | _ => none
  | _ => none

/-- The device completes a request. -/
def complete (id : ℕ) : Option (Driver D) :=
  if id ∈ s.inFlight then
    (s.chain id).map fun c =>
      { s.transfer c.2.1 (s.req c.1) with
        status := update s.status c.2.2 0
        usedRing := update s.usedRing (s.usedIdx % queueSize) id
        usedIdx := (s.usedIdx + 1) % idxSize
        inFlight := s.inFlight.erase id
        completes := update s.completes c.1 (s.completes c.1 + 1) }
  else none

/-- The process whose request was completed is woken. -/
def signalSlot (i : ℕ) : Driver D :=
  { s with
    seenIdx := (s.seenIdx + 1) % idxSize
    slotSem := update s.slotSem i (s.slotSem i).signal
    signals := update s.signals i (s.signals i + 1) }

/-- The loop of `Disk::interruptHandler`; it hangs if the status of a request is not set. -/
def handle : ℕ → Driver D → Option (Driver D)
  | 0, _ => none
  | fuel + 1, s =>
    if s.seenIdx = s.usedIdx then some s
    else
      if s.status (s.usedRing (s.seenIdx % queueSize) / 3) = 0xFF then none
      else handle fuel (s.signalSlot (s.usedRing (s.seenIdx % queueSize) / 3))

/-- One step. -/
def step : DriverEvent D → Option (Driver D × Reply D)
  | .read pid sector => if s.pc pid = .idle then s.read pid sector else none
  | .write pid sector data => if s.pc pid = .idle then s.write pid sector data else none
  | .resume pid => s.resume pid
  | .take => s.take.map fun s => (s, .pending)
  | .complete id => (s.complete id).map fun s => (s, .pending)
  | .interrupt => (handle idxSize s).map fun s => (s, .pending)

/-- The driver after `Disk::enableInterruptMode`. There may have been any number of requests in
    polling mode. -/
def start (disk : Disk D) (data : D) (idx : ℕ) : Driver D where
  disk := disk
  free _ := false
  slotSector _ := none
  allocSem := ⟨numSlots, []⟩
  slotSem _ := ⟨0, []⟩
  coalesceSem _ := ⟨0, []⟩
  req _ := (.read, 0)
  status _ := 0
  desc _ := ⟨.req 0, none⟩
  availRing _ := 0
  availIdx := idx % idxSize
  usedRing _ := 0
  usedIdx := idx % idxSize
  seenIdx := idx % idxSize
  deviceIdx := idx % idxSize
  inFlight := []
  pc _ := .idle
  call _ := (.read, 0)
  buf _ := data
  submits _ := 0
  completes _ := 0
  signals _ := 0

end Driver

end HobbyOS
