import HobbyOS.Loop
import HobbyOS.Pool
import HobbyOS.Vm.PageMeta

/-!
# Page tables

A `PMT` maps the pages of an address space, in three levels of 512 entries: the
tables of the levels 2 and 1 refer to tables of the level below, and those of the
level 0 hold the entries (`Pte`) of the pages. Every table occupies a page, which
comes from `MemoryAllocator::kallocPage`.

* A table is modelled by what its entries refer to, together with the number of
  its own page. The kernel writes to a table by these functions only, and its page
  is not one of those mapped, as proved in `HobbyOS.Vm.Owned`.
* The upper half of the entries of level 2 is the same in every table, and maps the
  kernel by superpages. `PMT::walk` takes these for tables; the model is about the
  addresses of the lower half.
* The allocator of pages is a `Pool`; pages are given by number.
* The translation caches are left out: they are flushed after every change.
-/

namespace HobbyOS

open Function

/-- The flags of an entry. -/
structure Flags where
  v : Bool
  r : Bool
  w : Bool
  x : Bool
  u : Bool
  g : Bool
  a : Bool
  d : Bool
  /-- `PAGE_COW`, one of the bits the hardware leaves to software. -/
  cow : Bool
  deriving DecidableEq

/-- No flags. -/
def Flags.none : Flags := ⟨false, false, false, false, false, false, false, false, false⟩

/-- `PAGE_USER`. -/
def Flags.user : Flags := { Flags.none with v := true, r := true, w := true, u := true }

/-- An entry for a page. -/
structure Pte where
  page : ℕ
  flags : Flags
  deriving DecidableEq

/-- The entry `0`. -/
def Pte.zero : Pte := ⟨0, .none⟩

/-- `PMT_SIZE`. -/
@[irreducible] def pmtSize : ℕ := 512

/-- `USER_THRESHOLD`: the entries of level 2 below are those of the user. -/
@[irreducible] def userThreshold : ℕ := 256

/-- A table of level 0. -/
structure Leaf where
  page : ℕ
  entries : ℕ → Pte

/-- A table of level 1. -/
structure Mid where
  page : ℕ
  entries : ℕ → Option Leaf

/-- A table of level 2. -/
structure PMT where
  page : ℕ
  entries : ℕ → Option Mid

def Leaf.set (l : Leaf) (k : ℕ) (pte : Pte) : Leaf :=
  { l with entries := update l.entries k pte }

def Mid.set (m : Mid) (j : ℕ) (l : Leaf) : Mid :=
  { m with entries := update m.entries j (some l) }

def PMT.set (pmt : PMT) (i : ℕ) (m : Mid) : PMT :=
  { pmt with entries := update pmt.entries i (some m) }

/-- A table without entries, as the constructor of `PMT` leaves it. -/
def Leaf.new (page : ℕ) : Leaf := ⟨page, fun _ => .zero⟩

def Mid.new (page : ℕ) : Mid := ⟨page, fun _ => none⟩

def PMT.new (page : ℕ) : PMT := ⟨page, fun _ => none⟩

/-- The indices of a virtual page on the three levels. -/
structure Vpn where
  l2 : ℕ
  l1 : ℕ
  l0 : ℕ
  deriving DecidableEq

/-- The indices of an address, as in `PMT::walk`. -/
def vpn (va : ℕ) : Vpn := ⟨va / 2 ^ 30 % 512, va / 2 ^ 21 % 512, va / 2 ^ 12 % 512⟩

/-- The address of a page. -/
def Vpn.addr (n : Vpn) : ℕ := n.l2 * 2 ^ 30 + n.l1 * 2 ^ 21 + n.l0 * 2 ^ 12

/-- A page of the lower half. -/
structure Vpn.User (n : Vpn) : Prop where
  l2_lt : n.l2 < userThreshold
  l1_lt : n.l1 < pmtSize
  l0_lt : n.l0 < pmtSize

/-- The physical memory: the state of the allocator, with a record of what it
    handed out and took back, the reference counts, and the bytes of the pages. -/
structure Phys (σ : Type*) where
  pool : σ
  log : List (Transfer ℕ)
  refs : PageRefCount
  mem : ℕ → ℕ → UInt8

section Alloc

variable {σ : Type*} (P : Pool σ ℕ) (ph : Phys σ)

/-- `MemoryAllocator::kallocPage`. -/
def kallocPage : Option ℕ × Phys σ :=
  match P.take ph.pool with
  | (some page, pool) => (some page, { ph with pool := pool, log := .out page :: ph.log })
  | (none, pool) => (none, { ph with pool := pool, log := .refused :: ph.log })

/-- `MemoryAllocator::kfreePage`. -/
def kfreePage (page : ℕ) : Phys σ :=
  { ph with pool := P.give page ph.pool, log := .back page :: ph.log }

end Alloc

/-! ## Entries -/

namespace PMT

variable (pmt : PMT) (n : Vpn)

/-- `PMT::walk` without allocation: the entry for a page, if the tables exist. -/
def slot : Option Pte :=
  (pmt.entries n.l2).bind fun m => (m.entries n.l1).map fun l => l.entries n.l0

/-- Writing to the entry for a page. -/
def setSlot (pte : Pte) : PMT :=
  match pmt.entries n.l2 with
  | none => pmt
  | some m =>
    match m.entries n.l1 with
    | none => pmt
    | some l => pmt.set n.l2 (m.set n.l1 (l.set n.l0 pte))

/-- The valid entry for a page. -/
def lookup : Option Pte := (pmt.slot n).filter fun pte => pte.flags.v

/-- `PMT::translate`, at the start of a page: the number of the page, or `0`. -/
def translate : ℕ :=
  match pmt.lookup n with
  | some pte => pte.page
  | none => 0

/-- `PMT::getFlags`. -/
def getFlags : Flags :=
  match pmt.lookup n with
  | some pte => pte.flags
  | none => .none

/-- `PMT::unmapPage`: the page that was mapped, or `0`. -/
def unmapPage : ℕ × PMT :=
  match pmt.lookup n with
  | some pte => (pte.page, pmt.setSlot n .zero)
  | none => (0, pmt)

variable {σ : Type*} (P : Pool σ ℕ)

/-- The step of `PMT::walk` at level 2, with allocation. -/
def walkMid (s : Phys σ × PMT) : Outcome (Phys σ × PMT) :=
  match s.2.entries n.l2 with
  | some _ => .ok s
  | none =>
    match kallocPage P s.1 with
    | (none, ph) => .fail (ph, s.2)
    | (some page, ph) => .ok (ph, s.2.set n.l2 (.new page))

/-- The step of `PMT::walk` at level 1, with allocation. -/
def walkLeaf (s : Phys σ × PMT) : Outcome (Phys σ × PMT) :=
  match s.2.entries n.l2 with
  | none => .panic
  | some m =>
    match m.entries n.l1 with
    | some _ => .ok s
    | none =>
      match kallocPage P s.1 with
      | (none, ph) => .fail (ph, s.2)
      | (some page, ph) => .ok (ph, s.2.set n.l2 (m.set n.l1 (.new page)))

/-- `PMT::walk` with allocation: the tables exist afterwards. -/
def walk (s : Phys σ × PMT) : Outcome (Phys σ × PMT) := (walkMid n P s).andThen (walkLeaf n P)

/-- `PMT::mapPage`. -/
def mapPage (page : ℕ) (flags : Flags) (s : Phys σ × PMT) : Outcome (Phys σ × PMT) :=
  (walk n P s).andThen fun s =>
    if (s.2.lookup n).isSome then .panic else .ok (s.1, s.2.setSlot n ⟨page, flags⟩)

end PMT

/-! ## Cleaning -/

section Clean

variable {σ : Type*} (P : Pool σ ℕ)

/-- `PMT::empty`. -/
def Leaf.empty (l : Leaf) : Bool := (List.range pmtSize).all fun k => l.entries k = .zero

def Mid.empty (m : Mid) : Bool := (List.range pmtSize).all fun j => (m.entries j).isNone

/-- `PMT::clean` leaves a table of level 0 alone, unless it takes the page of an entry for
    a table, since the entry has none of `PAGE_R`, `PAGE_W`, `PAGE_X`. -/
def Leaf.plain (l : Leaf) : Bool := (List.range pmtSize).all fun k =>
  let flags := (l.entries k).flags
  !flags.v || flags.r || flags.w || flags.x

/-- The body of the loop of `PMT::clean` on a table of level 1. What happens to a page
    taken for a table is not modelled. -/
def Mid.cleanStep (j : ℕ) (s : Phys σ × Mid) : Outcome (Phys σ × Mid) :=
  match s.2.entries j with
  | none => .ok s
  | some l =>
    if !l.plain then .panic
    else if l.empty then
      .ok (kfreePage P s.1 l.page, { s.2 with entries := update s.2.entries j none })
    else .ok s

/-- The body of the loop of `PMT::clean` on a table of level 2. -/
def PMT.cleanStep (i : ℕ) (s : Phys σ × PMT) : Outcome (Phys σ × PMT) :=
  match s.2.entries i with
  | none => .ok s
  | some m =>
    match tryRange (Mid.cleanStep P) pmtSize (s.1, m) with
    | .ok (ph, m) =>
      if m.empty then
        .ok (kfreePage P ph m.page, { s.2 with entries := update s.2.entries i none })
      else .ok (ph, s.2.set i m)
    | _ => .panic

/-- `PMT::clean`. -/
def PMT.clean (s : Phys σ × PMT) : Outcome (Phys σ × PMT) :=
  tryRange (PMT.cleanStep P) userThreshold s

end Clean

end HobbyOS
