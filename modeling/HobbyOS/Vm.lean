import HobbyOS.Vm.Pmt

/-!
# Address spaces

`VM` creates, copies and destroys the address spaces of processes.

* `copyPMT` shares the pages of a table with a new one. A writable page is marked
  in both: its entries lose `PAGE_W` and get `PAGE_COW` instead. Every shared page
  is counted once more in `PageRefCount`.
* `handleCowFault` makes a marked page writable again: the page itself, if it is
  counted once, or else a copy of it.
* `destroyPMT` and `clearUserPages` count every page of a table once less, and
  free those not counted any more, as well as the tables.
-/

namespace HobbyOS

namespace VM

variable {σ : Type*} (P : Pool σ ℕ)

/-- `VM::createPMT`, from the user's half of the table. -/
def createPMT (ph : Phys σ) : Option PMT × Phys σ :=
  match kallocPage P ph with
  | (some page, ph) => (some (.new page), ph)
  | (none, ph) => (none, ph)

/-! ## Teardown -/

/-- Giving a reference to a page up: the page is freed with the last one. -/
def release (page : ℕ) (ph : Phys σ) : Phys σ :=
  let (last, refs) := ph.refs.decRef page
  let ph := { ph with refs := refs }
  if last then kfreePage P ph page else ph

/-- The innermost loop of `destroyPMT`, on a table of level 0, and its `delete`. -/
def destroyLeaf (l : Leaf) (ph : Phys σ) : Phys σ :=
  let ph := forRange (fun k ph =>
    if (l.entries k).flags.v then release P (l.entries k).page ph else ph) pmtSize ph
  kfreePage P ph l.page

/-- The loop of `destroyPMT` on a table of level 1, and its `delete`. -/
def destroyMid (m : Mid) (ph : Phys σ) : Phys σ :=
  let ph := forRange (fun j ph =>
    match m.entries j with
    | some l => destroyLeaf P l ph
    | none => ph) pmtSize ph
  kfreePage P ph m.page

/-- The outermost loop of `destroyPMT` and `clearUserPages`. -/
def destroyEntries (pmt : PMT) (ph : Phys σ) : Phys σ :=
  forRange (fun i ph =>
    match pmt.entries i with
    | some m => destroyMid P m ph
    | none => ph) userThreshold ph

/-- `VM::destroyPMT`. -/
def destroyPMT (pmt : PMT) (ph : Phys σ) : Phys σ := kfreePage P (destroyEntries P pmt ph) pmt.page

/-- `VM::clearUserPages`. -/
def clearUserPages (pmt : PMT) (ph : Phys σ) : Phys σ × PMT :=
  (destroyEntries P pmt ph, .new pmt.page)

/-! ## Copying -/

/-- The flags of a page which is shared from now on. -/
def cowFlags (f : Flags) : Flags := if f.w then { f with w := false, cow := true } else f

def cowPte (pte : Pte) : Pte := { pte with flags := cowFlags pte.flags }

/-- The pages of a table of level 0 which are copied; `skip` tells those in regions of
    `Mmap`. -/
def copied (skip : ℕ → Bool) (i j : ℕ) (l : Leaf) (k : ℕ) : Bool :=
  (l.entries k).flags.v && !skip (Vpn.addr ⟨i, j, k⟩)

/-- The innermost loop of `copyPMT`, on the reference counts. -/
def shareLeaf (skip : ℕ → Bool) (i j : ℕ) (l : Leaf) (ph : Phys σ) : Phys σ :=
  forRange (fun k ph =>
    if copied skip i j l k then { ph with refs := ph.refs.incRef (l.entries k).page } else ph)
    pmtSize ph

/-- The innermost loop of `copyPMT`, on the source. -/
def cowLeaf (skip : ℕ → Bool) (i j : ℕ) (l : Leaf) : Leaf :=
  { l with entries := fun k => if copied skip i j l k then cowPte (l.entries k) else l.entries k }

/-- The innermost loop of `copyPMT`, on the destination, in the page `page`. -/
def childLeaf (skip : ℕ → Bool) (i j : ℕ) (l : Leaf) (page : ℕ) : Leaf :=
  ⟨page, fun k => if copied skip i j l k then cowPte (l.entries k) else .zero⟩

/-- `l0_has_entry`. -/
def hasEntry (skip : ℕ → Bool) (i j : ℕ) (l : Leaf) : Bool :=
  (List.range pmtSize).any (copied skip i j l)

/-- The state of the loop of `copyPMT` on tables of level 1. -/
structure MidCopy (σ : Type*) where
  ph : Phys σ
  src : Mid
  dst : Mid
  /-- `l1_has_entry`. -/
  hasEntry : Bool

/-- The body of the loop of `copyPMT` on tables of level 1. -/
def copyMidStep (skip : ℕ → Bool) (i j : ℕ) (s : MidCopy σ) : Outcome (MidCopy σ) :=
  match s.src.entries j with
  | none => .ok s
  | some l =>
    match kallocPage P s.ph with
    | (none, ph) => .fail { s with ph := kfreePage P ph s.dst.page }
    | (some page, ph) =>
      let ph := shareLeaf skip i j l ph
      let src := s.src.set j (cowLeaf skip i j l)
      if hasEntry skip i j l then .ok ⟨ph, src, s.dst.set j (childLeaf skip i j l page), true⟩
      else .ok { s with ph := kfreePage P ph page, src := src }

/-- The state of the outermost loop of `copyPMT`. -/
structure Copy (σ : Type*) where
  ph : Phys σ
  src : PMT
  dst : PMT

/-- The body of the outermost loop of `copyPMT`. -/
def copyStep (skip : ℕ → Bool) (i : ℕ) (s : Copy σ) : Outcome (Copy σ) :=
  match s.src.entries i with
  | none => .ok s
  | some m =>
    match kallocPage P s.ph with
    | (none, ph) => .fail { s with ph := ph }
    | (some page, ph) =>
      match tryRange (copyMidStep P skip i) pmtSize ⟨ph, m, .new page, false⟩ with
      | .panic => .panic
      | .fail t => .fail { s with ph := t.ph, src := s.src.set i t.src }
      | .ok t =>
        let src := s.src.set i t.src
        if t.hasEntry then .ok ⟨t.ph, src, s.dst.set i t.dst⟩
        else .ok { s with ph := kfreePage P t.ph t.dst.page, src := src }

/-- `VM::copyPMT`. -/
def copyPMT (skip : ℕ → Bool) (s : Copy σ) : Outcome (Copy σ) :=
  tryRange (copyStep P skip) userThreshold s

/-! ## Faults -/

/-- `unmapPage` and `mapPage` at the same place; what they return is not looked at. -/
def remap (n : Vpn) (page : ℕ) (flags : Flags) (s : Phys σ × PMT) : Outcome (Phys σ × PMT) :=
  (PMT.mapPage n P page flags (s.1, (s.2.unmapPage n).2)).ignore

/-- `VM::handleCowFault`, for the page `n`. -/
def handleCowFault (n : Vpn) (s : Phys σ × PMT) : Outcome (Phys σ × PMT) :=
  let flags := s.2.getFlags n
  if !flags.cow then .fail s
  else
    let pa := s.2.translate n
    if pa = 0 then .fail s
    else
      let newFlags := { flags with cow := false, w := true }
      if s.1.refs.getRef pa ≤ 1 then
        (remap P n pa newFlags s).andThen fun s =>
          .ok ({ s.1 with refs := (s.1.refs.decRef pa).2 }, s.2)
      else
        match kallocPage P s.1 with
        | (none, ph) => .fail (ph, s.2)
        | (some newPage, ph) =>
          let ph := { ph with mem := Function.update ph.mem newPage (ph.mem pa) }
          (remap P n newPage newFlags (ph, s.2)).andThen fun s => .ok (release P pa s.1, s.2)

end VM

end HobbyOS
