import HobbyOS.Machine

/-!
# The block cache

`Disk::read` and `Disk::write` in polling mode, when requests are made one after the other:
the device executes each of them before the next. A sector which is read or written is put
into `BlockCache`, and later writes to it change the block in the cache only, which is
dirty then.

The cache has room for 1024 blocks, in the order of their last use. When there is none left,
the last block is removed, and written to the device if it is dirty. It is written by
`Disk::write`, which puts it into the cache again; but the lock of the cache is held by
then. A function which acquires the lock while it is held hangs: it has no result.

The data of a sector may be of any type.
-/

namespace HobbyOS

variable {D : Type*}

/-- `CachedBlock`. -/
structure CachedBlock (D : Type*) where
  sectorNum : ℕ
  data : D
  dirty : Bool

/-! ## `LRUCache` -/

/-- The block of a sector. -/
def findBlock (sector : ℕ) (l : List (CachedBlock D)) : Option (CachedBlock D) :=
  l.find? fun b => b.sectorNum = sector

/-- `List::moveFront`, for the block of a sector, if there is one. -/
def moveFront (sector : ℕ) (l : List (CachedBlock D)) : List (CachedBlock D) :=
  match findBlock sector l with
  | none => l
  | some b => b :: l.eraseP fun b => b.sectorNum = sector

/-- The data of a block is overwritten, and it may become dirty. -/
def overwrite (sector : ℕ) (data : D) (dirty : Bool) (l : List (CachedBlock D)) :
    List (CachedBlock D) :=
  l.map fun b => if b.sectorNum = sector then ⟨sector, data, b.dirty || dirty⟩ else b

/-- `LRUCache::DEFAULT_CAPACITY`. -/
def defaultCapacity : ℕ := 1024

/-! ## The disk -/

/-- The device and the cache. -/
structure Disk (D : Type*) where
  /-- The sectors of the device. -/
  device : ℕ → D
  /-- `BlockCache::s_cache`: the blocks, the last used first. -/
  cache : Option (List (CachedBlock D))
  /-- `BlockCache::s_lock`. -/
  locked : Bool
  /-- `BlockCache::s_flushing`. -/
  flushing : Bool

namespace Disk

variable (s : Disk D)

/-- The blocks in the cache. -/
def blocks : List (CachedBlock D) := s.cache.getD []

/-- `Lock::acquire`; nobody would release it. -/
def acquire : Option (Disk D) := if s.locked then none else some { s with locked := true }

/-- `Lock::release`. -/
def release : Disk D := { s with locked := false }

/-- `BlockCache::lookup`. -/
def lookup (sector : ℕ) : Option (Disk D × Option D) :=
  s.acquire.map fun s =>
    ({ s with cache := s.cache.map (moveFront sector) }.release,
      (findBlock sector s.blocks).map CachedBlock.data)

/-- `freeCachedBlock`, with `Disk::write(…, true)` given. -/
def freeCachedBlock (write : Disk D → ℕ → D → Option (Disk D)) (b : CachedBlock D) :
    Option (Disk D) :=
  if b.dirty then write s b.sectorNum b.data else some s

/-- The part of `LRUCache::insert` which evicts the last block. -/
def makeRoom (write : Disk D → ℕ → D → Option (Disk D)) : Option (Disk D) :=
  if s.blocks.length < defaultCapacity then some s
  else
    match s.blocks.getLast? with
    | none => some s
    | some b => (s.freeCachedBlock write b).map fun s => { s with cache := some s.blocks.dropLast }

/-- `BlockCache::insert`, with `Disk::write(…, true)` given. -/
def insert (write : Disk D → ℕ → D → Option (Disk D)) (sector : ℕ) (data : D) : Option (Disk D) :=
  if s.flushing then some s
  else s.acquire.bind fun s =>
    if (findBlock sector s.blocks).isSome then
      some { s with
        cache := some (overwrite sector data false (moveFront sector s.blocks)) }.release
    else (s.makeRoom write).map fun s =>
      { s with cache := some (⟨sector, data, false⟩ :: s.blocks) }.release

/-- `Disk::write(sector, buf, true)`: the device executes the request, and the sector is put into
    the cache. Such calls are nested at most as deep as the number says. -/
def forceWrite : ℕ → Disk D → ℕ → D → Option (Disk D)
  | 0, _, _, _ => none
  | depth + 1, s, sector, buf =>
    insert { s with device := Function.update s.device sector buf } (forceWrite depth) sector buf

/-- How deep calls of `Disk::write` may be nested. A call inside of another one hangs anyway. -/
def depth : ℕ := 2

/-- `Disk::read`. -/
def read (sector : ℕ) : Option (Disk D × D) :=
  (s.lookup sector).bind fun r =>
    match r.2 with
    | some data => some (r.1, data)
    | none => (r.1.insert (forceWrite depth) sector (r.1.device sector)).map fun s =>
        (s, r.1.device sector)

/-- `Disk::write`. -/
def write (sector : ℕ) (buf : D) : Option (Disk D) :=
  (s.lookup sector).bind fun r =>
    match r.2 with
    | some _ => some { r.1 with cache := r.1.cache.map (overwrite sector buf true) }
    | none => forceWrite depth r.1 sector buf

/-- The loop of `LRUCache::flush`. -/
def flushBlocks : List (CachedBlock D) → Disk D → Option (Disk D)
  | [], s => some s
  | b :: bs, s => (s.freeCachedBlock (forceWrite depth) b).bind (flushBlocks bs)

/-- `BlockCache::flush`. -/
def flush : Option (Disk D) :=
  s.acquire.bind fun s =>
    match s.cache with
    | none => some s.release
    | some l => (flushBlocks l { s with flushing := true }).map fun s =>
        { s with cache := none, flushing := false }.release

end Disk

/-- A call. -/
inductive DiskCall (D : Type*)
  | read (sector : ℕ)
  | write (sector : ℕ) (buf : D)
  | flush

namespace Disk

/-- One call; the result is what was read. -/
def step (s : Disk D) : DiskCall D → Option (Disk D × Option D)
  | .read sector => (s.read sector).map fun r => (r.1, some r.2)
  | .write sector buf => (s.write sector buf).map fun s => (s, none)
  | .flush => s.flush.map fun s => (s, none)

/-- The disk before the first call. -/
def start (device : ℕ → D) : Disk D := ⟨device, none, false, false⟩

end Disk

/-- What a disk is for: a sector holds what was written to it last, or what was there in the
    beginning. -/
def sectorStep (content : ℕ → D) : DiskCall D → Option ((ℕ → D) × Option D)
  | .read sector => some (content, some (content sector))
  | .write sector buf => some (Function.update content sector buf, none)
  | .flush => some (content, none)

end HobbyOS
