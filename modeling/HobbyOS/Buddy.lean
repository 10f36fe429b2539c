import HobbyOS.MemLayout

/-!
# The buddy allocator

`Buddy` hands out blocks of `2 ^ i` pages of the kernel heap. The pages are
numbered from `0`, at the address `startAddr`; the free blocks of every order `i`
are kept in a list `buddy i`, linked through the first `int` of each free block
and ended by `-1`.

* `alloc` takes the first order, from the one asked for, with a free block, and
  splits the block down to the order asked for, pushing both halves at each
  order before taking one of them again;
* `free` inserts the block into the list of its order, in ascending order
  (`putBlock`), and merges it with its buddy, order by order (`merge`).

The loops of the source which walk along a list are given the fuel `walkFuel`,
more than a heap has pages; running out of it is an outcome of its own (`none`).
The locks are left out, the kernel calling the allocator from one hart.
-/

namespace HobbyOS

/-- `Buddy::START_POW`. -/
def startPow : ℕ := 12

/-- `Buddy::BUDDY_SIZE`, i.e., `END_POW - START_POW + 1`. -/
def buddySize : ℕ := 16

/-- The bound on the steps of a walk along a free list: a heap has at most
    `2 ^ 15` pages. -/
def walkFuel : ℕ := 2 ^ 15 + 2

/-- The `int` shift `1 << k`, compared with an unsigned 64-bit size: from `31`
    on it is negative, which the conversion makes huge. -/
def intShl (k : ℕ) : ℕ := if k < 31 then 2 ^ k else 2 ^ 64 - 2 ^ 31

/-- The state of the allocator. The memory it looks at is the first `int` of
    each page of the heap. -/
structure Buddy where
  /-- `m_startAddr`. -/
  startAddr : ℕ
  /-- `m_buddy`, the first block of the list of each order. -/
  buddy : ℕ → ℤ
  /-- The first `int` of each page. -/
  word : ℤ → ℤ
  /-- `m_freeSpace`, in bytes. -/
  freeSpace : ℕ

namespace Buddy

variable (b : Buddy)

def blockToPtr (block : ℤ) : ℕ := b.startAddr + block.toNat * pageSize

def ptrToBlock (ptr : ℕ) : ℤ := ((ptr - b.startAddr) / pageSize : ℕ)

def getAtBlock (block : ℤ) : ℤ := b.word block

def putAtBlock (block value : ℤ) : Buddy := { b with word := Function.update b.word block value }

/-- The assignment `m_buddy[entry] = block`. -/
def setHead (entry : ℕ) (block : ℤ) : Buddy :=
  { b with buddy := Function.update b.buddy entry block }

/-! ## Initialisation -/

/-- The loop of `init`: `blockNum` pages are left from `block` on, and blocks
    of order `i` are tried. -/
def initLoop : ℕ → ℕ → ℤ → ℤ → Buddy → Buddy
  | 0, _, _, _, b => b
  | fuel + 1, blockNum, i, block, b =>
    if blockNum > 0 ∧ i ≥ 0 then
      let size := 2 ^ i.toNat
      if blockNum ≥ size then
        let b := if b.buddy i.toNat = -1 then (b.setHead i.toNat block).putAtBlock block (-1)
          else (b.putAtBlock block (b.buddy i.toNat)).setHead i.toNat block
        initLoop fuel (blockNum - size) i (block + size) b
      else initLoop fuel blockNum (i - 1) block b
    else b

/-- `Buddy::init` on a heap of `blockNum` pages at `startAddr`, whatever the
    memory holds. -/
def init (startAddr blockNum : ℕ) : Buddy :=
  initLoop (blockNum + buddySize + 1) blockNum (buddySize - 1) 0
    { b with
      startAddr := startAddr
      buddy := fun i => if i < buddySize then -1 else b.buddy i
      freeSpace := blockNum * pageSize }

/-! ## Allocation -/

/-- The loop of `alloc` finding the order of a size. A shift past the `int`
    range is undefined in the source; no caller asks for that much. -/
def orderLoop (size : ℕ) : ℕ → ℕ → ℕ
  | 0, i => i
  | fuel + 1, i => if size > intShl (startPow + i) then orderLoop size fuel (i + 1) else i

/-- The order of the block `alloc` looks for. -/
def allocOrder (size : ℕ) : ℕ := orderLoop size 20 0

/-- The loop of `alloc` looking for an order with a free block. The bound is
    tested after the list is read, as in the source. -/
def diffLoop (entry : ℕ) : ℕ → ℕ → ℕ
  | 0, diff => diff
  | fuel + 1, diff =>
    if b.buddy (entry + diff) = -1 ∧ entry + diff < buddySize then diffLoop entry fuel (diff + 1)
    else diff

/-- A round of the loop of `alloc` splitting blocks: the first block of order
    `i + 1` is taken, and its halves are pushed on the list below. -/
def splitStep (i : ℕ) : Buddy :=
  let block := b.buddy (i + 1)
  let b := b.setHead (i + 1) (b.getAtBlock (b.buddy (i + 1)))
  let b := (b.putAtBlock block (b.buddy i)).setHead i block
  let block := block + ((2 ^ (startPow + i) / pageSize : ℕ) : ℤ)
  (b.putAtBlock block (b.buddy i)).setHead i block

/-- The loop of `alloc` splitting blocks, down from the order `entry + diff`. -/
def split (entry : ℕ) : ℕ → Buddy → Buddy
  | 0, b => b
  | diff + 1, b => split entry diff (b.splitStep (entry + diff))

/-- `Buddy::alloc`: the address of the block, or none (a null pointer). -/
def alloc (size : ℕ) : Option ℕ × Buddy :=
  let entry := allocOrder size
  let diff := b.diffLoop entry (buddySize + 1) 0
  if entry + diff ≥ buddySize then (none, b)
  else
    let b := split entry diff b
    let block := b.buddy entry
    let b' := b.setHead entry (b.getAtBlock block)
    (some (b.blockToPtr block),
      { b' with freeSpace := (b.freeSpace + 2 ^ 64 - size % 2 ^ 64) % 2 ^ 64 })

/-! ## Release -/

/-- The loop of `getOrder`. -/
def getOrderLoop (n : ℕ) : ℕ → ℕ → ℕ
  | 0, order => order
  | fuel + 1, order => if n > intShl order then getOrderLoop n fuel (order + 1) else order

/-- `getOrder`: the order of the blocks covering a size. -/
def getOrder (size : ℕ) : ℕ :=
  getOrderLoop ((size + pageSize - 1) % 2 ^ 64 / pageSize) 32 0

/-- The loop of `putBlock`, walking past the smaller blocks; it returns the block
    stopped at and the one before. -/
def putLoop (block : ℤ) : ℕ → ℤ → ℤ → Option (ℤ × ℤ)
  | 0, _, _ => none
  | fuel + 1, curr, prev =>
    if block > curr ∧ curr ≠ -1 then putLoop block fuel (b.getAtBlock curr) curr
    else some (curr, prev)

def putBlock (entry : ℕ) (block : ℤ) : Option Buddy :=
  if entry ≥ buddySize then some b
  else (b.putLoop block walkFuel (b.buddy entry) (-1)).map fun (curr, prev) =>
    if prev = -1 then (b.setHead entry block).putAtBlock block curr
    else (b.putAtBlock prev block).putAtBlock block curr

/-- The loop of `merge`, moving a window of four blocks along the list. It
    returns the blocks around the first two buddies, if there are any: the one
    before them, the lower buddy, and the one after them. -/
def mergeLoop (entry : ℕ) : ℕ → ℤ → ℤ → ℤ → ℤ → Option (Option (ℤ × ℤ × ℤ))
  | 0, _, _, _, _ => none
  | fuel + 1, first, second, third, fourth =>
    if second ≠ -1 ∧ third ≠ -1 ∧ third - second = 2 ^ entry ∧ second % 2 ^ (entry + 1) = 0 then
      some (some (first, second, fourth))
    else if fourth = -1 then some none
    else mergeLoop entry fuel second third fourth (b.getAtBlock fourth)

/-- Linking what comes before two buddies to what follows them. -/
def unlink (entry : ℕ) (first fourth : ℤ) : Buddy :=
  if first = -1 then b.setHead entry fourth else b.putAtBlock first fourth

/-- The recursion of `merge`, over at most the orders left. -/
def mergeFrom : ℕ → ℕ → Buddy → Option Buddy
  | 0, _, b => some b
  | k + 1, entry, b =>
    if entry ≥ buddySize then some b
    else do
      match ← b.mergeLoop entry walkFuel (-1) (-1) (-1) (b.buddy entry) with
      | none => some b
      | some (first, second, fourth) =>
        let b ← b.putBlock (entry + 1) second
        mergeFrom k (entry + 1) (b.unlink entry first fourth)

def merge (entry : ℕ) : Option Buddy := mergeFrom (buddySize + 1 - entry) entry b

/-- `Buddy::free`. -/
def free (ptr size : ℕ) : Option Buddy := do
  let block := b.ptrToBlock ptr
  let entry := getOrder size
  let b ← b.putBlock entry block
  let b ← b.merge entry
  some { b with freeSpace := (b.freeSpace + size) % 2 ^ 64 }

end Buddy

end HobbyOS
