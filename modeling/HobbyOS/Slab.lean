import HobbyOS.Buddy
import HobbyOS.Bytes

/-!
# The slab allocator

A `MemCache` hands out objects of one size. It carves them out of slabs, each
with a header (`Slab`) and a number of slots; the free slots of a slab are linked
by index, through their own first four bytes, from `m_free` on. The slabs are kept
in three lists, linked through their headers: those with no free slot (`m_full`),
those with no slot handed out (`m_empty`), and the others (`m_partial`).

The slabs are named by the address of their headers, with `0` for the null
pointer. A header of a small object's slab lies at the start of the page the
slab occupies; that of a large object's slab is itself an object, of
`s_metaCache`, whose address is an argument here, as is the one `Buddy::alloc`
returns. The locks are left out.
-/

namespace HobbyOS

/-- `sizeof(Slab)`. -/
def sizeofSlab : ℕ := 40

/-- `Slab::FREE_END`. -/
def freeEnd : ℕ := 2 ^ 32 - 1

/-- `Slab::OBJ_SIZE_THRESHOLD`. -/
def objSizeThreshold : ℕ := 4096

/-- The header of a slab. -/
structure Slab where
  next : ℕ
  /-- `m_free`, the first free slot. -/
  free : ℕ
  freeSlots : ℕ
  maxSlots : ℕ
  /-- `m_start`, the address of the slot `0`. -/
  start : ℕ
deriving DecidableEq

/-- A cache, with the memory its slabs are in. -/
structure MemCache where
  /-- `m_full`. -/
  fullHead : ℕ
  /-- `m_empty`. -/
  emptyHead : ℕ
  /-- `m_partial`. -/
  partialHead : ℕ
  slabSize : ℕ
  objSize : ℕ
  /-- The headers, by address. -/
  slab : ℕ → Slab
  mem : ℕ → UInt8
  /-- The slabs created so far. The source does not keep them; their number
      bounds the walks along the lists. -/
  slabs : List ℕ

namespace MemCache

variable (c : MemCache)

/-- The loop of the constructor finding the size of the slabs. -/
def powLoop (objSize : ℕ) : ℕ → ℕ → ℕ
  | 0, pow => pow
  | fuel + 1, pow => if objSize > intShl pow then powLoop objSize fuel (pow + 1) else pow

/-- The constructor of `MemCache`. -/
def new (objSize : ℕ) (slab : ℕ → Slab) (mem : ℕ → UInt8) : MemCache :=
  { fullHead := 0, emptyHead := 0, partialHead := 0
    slabSize := intShl (powLoop objSize 20 startPow)
    objSize := objSize, slab := slab, mem := mem, slabs := [] }

def next (a : ℕ) : ℕ := (c.slab a).next

/-- The address of a slot. -/
def slotAddr (a i : ℕ) : ℕ := (c.slab a).start + i * c.objSize

/-- The word in the first four bytes of a slot. -/
def link (a i : ℕ) : ℕ := loadLE c.mem (c.slotAddr a i) 4

def setSlab (a : ℕ) (s : Slab) : MemCache := { c with slab := Function.update c.slab a s }

/-- The assignment `a->next = x`. -/
def setNext (a x : ℕ) : MemCache := c.setSlab a { c.slab a with next := x }

/-! ## Slabs -/

/-- The loop of `createSmall` and `createLarge`, linking each slot from `i` on to
    the next one. -/
def linkLoop (start objSize : ℕ) : ℕ → ℕ → (ℕ → UInt8) → ℕ → UInt8
  | 0, _, mem => mem
  | n + 1, i, mem => linkLoop start objSize n (i + 1) (storeLE mem (start + i * objSize) 4 (i + 1))

/-- Linking all slots. The last index, `m_maxSlots - 1`, is a `uint32_t`. -/
def linkSlots (start objSize maxSlots : ℕ) (mem : ℕ → UInt8) : ℕ → UInt8 :=
  let last := (maxSlots + 2 ^ 32 - 1) % 2 ^ 32
  storeLE (linkLoop start objSize last 0 mem) (start + last * objSize) 4 freeEnd

/-- What `createSmall` and `createLarge` have in common: the header at `slab`,
    with `bytes` bytes for the slots. -/
def createAt (slab start bytes : ℕ) : MemCache :=
  let maxSlots := bytes / c.objSize % 2 ^ 32
  { c.setSlab slab
      { next := 0, free := 0, freeSlots := maxSlots, maxSlots := maxSlots, start := start } with
    mem := linkSlots start c.objSize maxSlots c.mem
    slabs := slab :: c.slabs }

/-- `Slab::create`: `page` is what `Buddy::alloc` returns, and `header` what
    `s_metaCache` does. -/
def create (page header : ℕ) : ℕ × MemCache :=
  if c.objSize < objSizeThreshold then
    (page, c.createAt page (page + sizeofSlab) (c.slabSize - sizeofSlab))
  else (header, c.createAt header page c.slabSize)

/-- The number of slots of the slabs `create` makes. -/
def slotsPerSlab : ℕ :=
  if c.objSize < objSizeThreshold then (c.slabSize - sizeofSlab) / c.objSize
  else c.slabSize / c.objSize

/-- `Slab::getSlot`. -/
def getSlot (a : ℕ) : Option ℕ × MemCache :=
  let s := c.slab a
  if s.freeSlots = 0 then (none, c)
  else
    (some (c.slotAddr a s.free),
      c.setSlab a { s with free := c.link a s.free, freeSlots := s.freeSlots - 1 })

/-- `Slab::freeSlot`; none is the panic of the kernel. -/
def freeSlot (a slot : ℕ) : Option MemCache :=
  let s := c.slab a
  if s.freeSlots = s.maxSlots then none
  else
    let idx := (slot - s.start) / c.objSize % 2 ^ 32
    some { c.setSlab a { s with free := idx, freeSlots := s.freeSlots + 1 } with
      mem := storeLE c.mem (c.slotAddr a idx) 4 s.free }

/-- `Slab::contains`. -/
def contains (a obj : ℕ) : Bool :=
  let s := c.slab a
  obj ≥ s.start ∧ obj < (s.start + c.slabSize) / pageSize * pageSize

/-! ## The cache -/

/-- The first part of `alloc`: there is a slab in `m_partial`. -/
def refill (page header : ℕ) : MemCache :=
  if c.partialHead = 0 then
    let c := if c.emptyHead = 0 then
        let (a, c) := c.create page header
        { c with emptyHead := a }
      else c
    { c with partialHead := c.emptyHead, emptyHead := c.next c.emptyHead }
  else c

/-- The second part of `alloc`: a slot of the first slab in `m_partial`, which
    goes to `m_full` with its last slot. -/
def takeSlot : Option ℕ × MemCache :=
  let (ret, c) := c.getSlot c.partialHead
  if (c.slab c.partialHead).freeSlots = 0 then
    let temp := c.next c.partialHead
    let a := c.partialHead
    (ret, { c.setNext a c.fullHead with fullHead := a, partialHead := temp })
  else (ret, c)

/-- `MemCache::alloc`: the address of the object, or none (a null pointer). -/
def alloc (page header : ℕ) : Option ℕ × MemCache := (c.refill page header).takeSlot

/-- The walks of `free`: the slab `obj` is in, with the one before, if any. -/
def findLoop (obj : ℕ) : ℕ → ℕ → ℕ → Option (Option (ℕ × ℕ))
  | 0, _, _ => none
  | fuel + 1, it, prev =>
    if it = 0 then some none
    else if c.contains it obj then some (some (it, prev))
    else findLoop obj fuel (c.next it) it

def find (obj head : ℕ) : Option (Option (ℕ × ℕ)) := c.findLoop obj (c.slabs.length + 1) head 0

/-- Unlinking the slab `it`, after `prev`, from `m_partial`. -/
def unlinkPartial (it prev : ℕ) : MemCache :=
  if it = c.partialHead then { c with partialHead := c.next it } else c.setNext prev (c.next it)

/-- Unlinking the slab `it`, after `prev`, from `m_full`. -/
def unlinkFull (it prev : ℕ) : MemCache :=
  if it = c.fullHead then { c with fullHead := c.next it } else c.setNext prev (c.next it)

/-- The first loop of `free`, having found the slab `it` in `m_partial`. -/
def freePartial (obj it prev : ℕ) : Option MemCache := do
  let c ← c.freeSlot it obj
  if (c.slab it).freeSlots = (c.slab it).maxSlots then
    let c := c.unlinkPartial it prev
    some { c.setNext it c.emptyHead with emptyHead := it }
  else some c

/-- The second loop of `free`, having found the slab `it` in `m_full`. -/
def freeFull (obj it prev : ℕ) : Option MemCache := do
  let c ← c.freeSlot it obj
  let c := c.unlinkFull it prev
  some { c.setNext it c.partialHead with partialHead := it }

/-- `MemCache::free`: the value returned, and the cache. -/
def free (obj : ℕ) : Option (ℤ × MemCache) := do
  match ← c.find obj c.partialHead with
  | some (it, prev) => (c.freePartial obj it prev).map ((0, ·))
  | none =>
    match ← c.find obj c.fullHead with
    | some (it, prev) => (c.freeFull obj it prev).map ((0, ·))
    | none => some (-1, c)

end MemCache

end HobbyOS
