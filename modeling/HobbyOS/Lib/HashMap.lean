import HobbyOS.Loop
import HobbyOS.Machine
import HobbyOS.Chain

/-!
# Hash maps

`HashMap`: a table of buckets, each of which is a linked list of entries. The entries are objects
with addresses (`node`), `0` being the null pointer; those which are not there any more cannot be
used (`Panic.wild`). The address of a new entry is up to the allocator.

The table is doubled as it gets full (`rehash`), and all entries are linked anew. There is an end to
that: `kmalloc` panics if a block is too large.

The keys are hashed and compared by the trait, which may depend on what else is in memory.
-/

namespace HobbyOS

open Function

/-- How an operation on a container goes wrong. -/
inductive Panic
  /-- `MemoryAllocator::kmalloc(): allocation too big` -/
  | kmallocTooBig
  /-- `Vector::at(): index out of bounds`, and the same for `operator[]` -/
  | vectorBounds
  /-- `HashMap::at(): key not found` -/
  | mapAt
  /-- `HashMap::operator[](): key not found` -/
  | mapIndex
  /-- `HashMap::insert(): key already inside` -/
  | mapInsert
  /-- `HashMap::erase(): key not found` -/
  | mapErase
  /-- `List::removeLast(): list is empty` -/
  | listRemoveLast
  /-- There is no panic, but an object is used which is not there. -/
  | wild
  /-- A loop does not end. -/
  | endless
deriving DecidableEq

/-- The largest block `MemoryAllocator::kmalloc` can give: `1 << (SMB_START_POW + SMB_SIZE - 1)`. -/
def kmallocMax : ℕ := 1 <<< 17

/-- `MemoryAllocator::kmalloc`, as far as the size is concerned. -/
def kmalloc (size : ℕ) : Except Panic Unit :=
  if kmallocMax < size then throw .kmallocTooBig else pure ()

/-- `Trait`. -/
structure HashTrait (K : Type) where
  hash : K → ℕ → Except Panic ℕ
  eq : K → K → Except Panic Bool

structure HashMapEntry (K V : Type) where
  key : K
  value : V
  next : ℕ

structure HashMap (K V : Type) where
  entries : ℕ → ℕ
  capacity : ℕ
  count : ℕ
  node : ℕ → Option (HashMapEntry K V)

namespace HashMap

variable {K V : Type}

/-- `HashMap::HashMap`; a pointer has eight bytes. -/
def new (capacity : ℕ) : Except Panic (HashMap K V) := do
  kmalloc (capacity * 8)
  pure ⟨fun _ => 0, capacity, 0, fun _ => none⟩

variable (t : HashTrait K) (m : HashMap K V)

/-- An entry is read. -/
def read (a : ℕ) : Except Panic (HashMapEntry K V) := (m.node a).elim (throw .wild) pure

/-- `delete entry`. -/
def delete (a : ℕ) : HashMap K V := { m with node := update m.node a none }

/-- `m_entries[hash(key)]`, by its index. -/
def bucket (key : K) : Except Panic ℕ := do
  let index ← t.hash key m.capacity
  if index < m.capacity then pure index else throw .vectorBounds

/-- The loop which looks for a key from an entry on: the entry, or `0`, and the one before it. -/
def seek (key : K) : ℕ → ℕ → ℕ → Except Panic (ℕ × ℕ)
  | 0, _, _ => throw .endless
  | n + 1, prev, entry =>
    if entry = 0 then pure (prev, 0)
    else do
      let e ← m.read entry
      let same ← t.eq e.key key
      if same then pure (prev, entry) else seek key n entry e.next

/-- The index of the bucket, and what is found there. -/
def lookup (key : K) : Except Panic (ℕ × ℕ × ℕ) := do
  let index ← m.bucket t key
  let r ← m.seek t key (m.count + 1) 0 (m.entries index)
  pure (index, r)

/-- `HashMap::contains`. -/
def contains (key : K) : Except Panic Bool := do
  let r ← m.lookup t key
  pure (r.2.2 ≠ 0)

/-- `HashMap::at`. -/
def atKey (key : K) : Except Panic V := do
  let r ← m.lookup t key
  if r.2.2 = 0 then throw .mapAt
  else do
    let e ← m.read r.2.2
    pure e.value

/-- `HashMap::operator[]`: the entry whose value is referred to. -/
def index (key : K) : Except Panic ℕ := do
  let r ← m.lookup t key
  if r.2.2 = 0 then throw .mapIndex else pure r.2.2

/-- A value is written where `HashMap::operator[]` refers to. -/
def assign (a : ℕ) (value : V) : Except Panic (HashMap K V) := do
  let e ← m.read a
  pure { m with node := update m.node a (some { e with value }) }

/-- The loop of `rehash` over a bucket: the entries are moved to a table with another capacity. -/
def relink (newCapacity : ℕ) : ℕ → ℕ → HashMap K V → Except Panic (HashMap K V)
  | 0, _, _ => throw .endless
  | n + 1, entry, new =>
    if entry = 0 then pure new
    else do
      let e ← new.read entry
      let newIndex ← t.hash e.key newCapacity
      -- The new table is not a `Vector` yet.
      if newIndex < newCapacity then
        relink newCapacity n e.next { new with
          entries := update new.entries newIndex entry
          node := update new.node entry (some { e with next := new.entries newIndex }) }
      else throw .wild

/-- `HashMap::rehash`. -/
def rehash : Except Panic (HashMap K V) := do
  let newCapacity := m.capacity * 2
  kmalloc (newCapacity * 8)
  let new ← forRangeM (fun i => relink t newCapacity (m.count + 1) (m.entries i)) m.capacity
    { m with entries := fun _ => 0 }
  pure { new with capacity := newCapacity }

/-- The load factor would be too large with one more entry. -/
def Full : Prop := m.capacity * 3 < (m.count + 1) * 4

instance : Decidable m.Full := inferInstanceAs (Decidable (_ < _))

/-- `HashMap::insert`; the entry is at the address `a`. -/
def insert (a : ℕ) (key : K) (value : V) : Except Panic (HashMap K V) := do
  let m ← if m.Full then m.rehash t else pure m
  let r ← m.lookup t key
  if r.2.2 ≠ 0 then throw .mapInsert
  else pure { m with
    entries := update m.entries r.1 a
    count := m.count + 1
    node := update m.node a (some ⟨key, value, m.entries r.1⟩) }

/-- The entry before one which is erased, or its bucket, is linked to the next one. -/
def unlink (index prev next : ℕ) : Except Panic (HashMap K V) :=
  if prev = 0 then pure { m with entries := update m.entries index next }
  else do
    let p ← m.read prev
    pure { m with node := update m.node prev (some { p with next := next }) }

/-- `HashMap::erase`. -/
def erase (key : K) : Except Panic (HashMap K V) := do
  let r ← m.lookup t key
  if r.2.2 = 0 then throw .mapErase
  else do
    let e ← m.read r.2.2
    let m ← m.unlink r.1 r.2.1 e.next
    pure { m.delete r.2.2 with count := m.count - 1 }

/-- The loop of `clear` over a bucket. -/
def freeChain : ℕ → ℕ → HashMap K V → Except Panic (HashMap K V)
  | 0, _, _ => throw .endless
  | n + 1, entry, m =>
    if entry = 0 then pure m
    else do
      let e ← m.read entry
      freeChain n e.next (m.delete entry)

/-- `HashMap::clear`. -/
def clear : Except Panic (HashMap K V) := do
  let m ← forRangeM (fun i (m : HashMap K V) => do
    let m ← freeChain (m.count + 1) (m.entries i) m
    pure { m with entries := update m.entries i 0 }) m.capacity m
  pure { m with count := 0 }

/-! ## Iteration -/

/-- The first entry of the next `n` buckets from `i` on, with its index. -/
def skip : ℕ → ℕ → ℕ × ℕ
  | 0, i => (i, 0)
  | n + 1, i => if m.entries i ≠ 0 then (i, m.entries i) else skip n (i + 1)

/-- `HashMap::begin`. -/
def begin : ℕ × ℕ := m.skip m.capacity 0

/-- `Iterator::operator++`. -/
def advance (it : ℕ × ℕ) : Except Panic (ℕ × ℕ) :=
  if it.2 = 0 then pure it
  else do
    let e ← m.read it.2
    if e.next ≠ 0 then pure (it.1, e.next)
    else pure (m.skip (m.capacity - (it.1 + 1)) (it.1 + 1))

/-- What a loop from an iterator to `HashMap::end` visits. -/
def visit : ℕ → ℕ × ℕ → Except Panic (List (K × V))
  | 0, _ => throw .endless
  | n + 1, it =>
    if it = (m.capacity, 0) then pure []
    else do
      let e ← m.read it.2
      let it' ← m.advance it
      let rest ← visit n it'
      pure ((e.key, e.value) :: rest)

end HashMap

end HobbyOS
