import HobbyOS.MemLayout
import HobbyOS.Vm
import HobbyOS.Vm.Segment

/-!
# Regions

`Mmap` keeps the regions a process has mapped by `mmap`, in a list sorted by their
addresses, and maps and unmaps their pages.

* The pages of a private region are copied when the process forks; those of a shared
  one are mapped by both processes, and freed with the last reference to the
  `MmapSharedRef` of the region. Neither uses `PageRefCount`.
* `Mmap::protect` changes the entries for the pages of any range, and no region.
* A region records its file, too, which nothing looks at later on; this is left out.
  What the file gives for a page is an argument of `map`.
* Using an `MmapSharedRef` after it was deleted is a panic here.
-/

namespace HobbyOS

open Function

/-- The page in the round `i` of a loop over the pages of a range. -/
def pageAt (vaStart i : ℕ) : Vpn := vpn (vaStart + i * pageSize)

/-- `MMAP_BASE`. -/
def mmapBase : ℕ := 0x2000000000

/-- `MMAP_TOP`. -/
def mmapTop : ℕ := 0x3F00000000

/-- `MMAP_FAILED`, and the result `-1` of system calls. -/
def mmapFailed : ℕ := 2 ^ 64 - 1

/-- `Mmap::protToPte`. -/
def protToPte (prot : Access) : Flags :=
  { Flags.none with v := true, u := true, r := prot.r, w := prot.w, x := prot.x }

/-- `MmapRegion`. -/
structure MmapRegion where
  vaStart : ℕ
  vaEnd : ℕ
  prot : Access
  shared : Bool
  /-- The number of the `MmapSharedRef`. -/
  sharedRef : Option ℕ
  deriving DecidableEq

/-- What `checkOperation` looks at. -/
def MmapRegion.desc (r : MmapRegion) : SegmentDesc := ⟨r.prot, r.vaStart, r.vaEnd⟩

/-- The objects `MmapSharedRef`: their counts, `0` for one which is deleted, and the
    number of the next one. -/
structure SharedRefs where
  refCount : ℕ → ℕ
  next : ℕ

/-- One more reference to an `MmapSharedRef`, if there is one. -/
def SharedRefs.acquire (shared : SharedRefs) : Option ℕ → Option SharedRefs
  | none => some shared
  | some ref =>
    let count := shared.refCount ref
    if count = 0 then none
    else some { shared with refCount := update shared.refCount ref (count + 1) }

/-- `Mmap`, but for the tables it refers to. -/
structure Mmap where
  regions : List MmapRegion
  nextHint : ℕ

/-- What the operations of `Mmap` work on. -/
structure Space (σ : Type*) where
  ph : Phys σ
  pmt : PMT
  shared : SharedRefs

namespace Mmap

/-- The constructor of `Mmap`. -/
def new : Mmap := ⟨[], mmapTop⟩

variable {σ : Type*} (P : Pool σ ℕ)

/-! ## Unmapping -/

/-- `Mmap::unmapPhysical`. -/
def unmapPhysical (vaStart vaEnd : ℕ) (s : Phys σ × PMT) : Phys σ × PMT :=
  forRange (fun i s =>
    let (pa, pmt) := s.2.unmapPage (pageAt vaStart i)
    (if pa = 0 then s.1 else kfreePage P s.1 pa, pmt)) (pageCount vaStart vaEnd) s

/-- `Mmap::unmapPhysicalShared`. -/
def unmapPhysicalShared (vaStart vaEnd : ℕ) (s : Phys σ × PMT) : Phys σ × PMT :=
  forRange (fun i s => (s.1, (s.2.unmapPage (pageAt vaStart i)).2)) (pageCount vaStart vaEnd) s

/-- Unmapping the pages of a region, as `Mmap::~Mmap` and `Mmap::unmap` do. -/
def dropRegion (r : MmapRegion) (s : Space σ) : Option (Space σ) :=
  match r.shared, r.sharedRef with
  | true, some ref =>
    let count := s.shared.refCount ref
    if count = 0 then none
    else
      let shared := { s.shared with refCount := update s.shared.refCount ref (count - 1) }
      let (ph, pmt) :=
        if count - 1 = 0 then unmapPhysical P r.vaStart r.vaEnd (s.ph, s.pmt)
        else unmapPhysicalShared r.vaStart r.vaEnd (s.ph, s.pmt)
      some ⟨ph, pmt, shared⟩
  | _, _ =>
    let (ph, pmt) := unmapPhysical P r.vaStart r.vaEnd (s.ph, s.pmt)
    some { s with ph := ph, pmt := pmt }

/-- `Mmap::~Mmap`. -/
def destroy (regions : List MmapRegion) (s : Space σ) : Option (Space σ) :=
  regions.foldlM (fun s r => dropRegion P r s) s

/-- What is left of a region without the addresses from `addr` to before `stop`. -/
def trim (addr stop : ℕ) (r : MmapRegion) : List MmapRegion :=
  (if r.vaStart < addr then [{ r with vaEnd := addr }] else []) ++
  if stop < r.vaEnd then
    -- The second half of a region split in two is a new one, without `MmapSharedRef`.
    [{ r with vaStart := stop, sharedRef := if r.vaStart < addr then none else r.sharedRef }]
  else []

/-- The loop of `Mmap::unmap`. -/
def unmapFrom (addr stop : ℕ) : List MmapRegion → Space σ → Option (List MmapRegion × Space σ)
  | [], s => some ([], s)
  | r :: rs, s =>
    if stop ≤ r.vaStart then some (r :: rs, s)
    else if r.vaEnd ≤ addr then do
      let (rs, s) ← unmapFrom addr stop rs s
      some (r :: rs, s)
    else do
      let s ← dropRegion P r s
      let (rs, s) ← unmapFrom addr stop rs s
      some (trim addr stop r ++ rs, s)

/-- `Mmap::unmap`. -/
def unmap (addr length : ℕ) (m : Mmap) (s : Space σ) : Option (ℕ × Mmap × Space σ) :=
  if length = 0 then some (mmapFailed, m, s)
  else if addr % pageSize ≠ 0 then some (mmapFailed, m, s)
  else do
    let (regions, s) ← unmapFrom P addr ((addr + pageRoundUp length) % 2 ^ 64) m.regions s
    some (0, { m with regions := regions }, s)

/-! ## Mapping -/

/-- `Mmap::isFree`. -/
def isFree (addr len : ℕ) : List MmapRegion → Bool
  | [] => true
  | r :: rs =>
    if (addr + len) % 2 ^ 64 ≤ r.vaStart then true
    else if addr < r.vaEnd then false
    else isFree addr len rs

/-- The loop of `Mmap::allocVA`. -/
def allocFrom (regions : List MmapRegion) (len candidate : ℕ) : Option ℕ :=
  if candidate < mmapBase then none
  else if isFree candidate len regions then some candidate
  else if candidate < pageSize then none
  else allocFrom regions len (candidate - pageSize)
  termination_by candidate
  decreasing_by
    simp only [mmapBase, pageSize] at *
    omega

/-- `Mmap::allocVA`: the address, and the next hint. -/
def allocVA (m : Mmap) (hint pages : ℕ) (fixed : Bool) : Option (ℕ × Mmap) :=
  let len := pages * pageSize
  if fixed then
    if hint = 0 then none
    else if hint % pageSize ≠ 0 then none
    else if hint < mmapBase || mmapTop < (hint + len) % 2 ^ 64 then none
    else some (hint, m)
  else if hint ≠ 0 && hint % pageSize = 0 && mmapBase ≤ hint && (hint + len) % 2 ^ 64 ≤ mmapTop &&
      isFree hint len m.regions then some (hint, m)
  else if m.nextHint < (len + mmapBase) % 2 ^ 64 then none
  else
    let candidate := sub64 m.nextHint len / pageSize * pageSize
    (allocFrom m.regions len candidate).map fun va => (va, { m with nextHint := va })

/-- Undoing `Mmap::mapPages` after `i` rounds. -/
def rollback (vaStart i : ℕ) (s : Phys σ × PMT) : Phys σ × PMT :=
  forRange (fun j s =>
    let pa := s.2.translate (pageAt vaStart j)
    let pmt := (s.2.unmapPage (pageAt vaStart j)).2
    (if pa = 0 then s.1 else kfreePage P s.1 pa, pmt)) i s

/-- The body of the loop of `Mmap::mapPages`. -/
def mapPagesStep (vaStart : ℕ) (pteFlags : Flags) (i : ℕ) (s : Phys σ × PMT) :
    Outcome (Phys σ × PMT) :=
  match kallocPage P s.1 with
  | (none, ph) => .fail (rollback P vaStart i (ph, s.2))
  | (some page, ph) =>
    let ph := { ph with mem := update ph.mem page fun _ => 0 }
    match PMT.mapPage (pageAt vaStart i) P page pteFlags (ph, s.2) with
    | .ok s => .ok s
    | .fail s => .fail (rollback P vaStart i (kfreePage P s.1 page, s.2))
    | .panic => .panic

/-- `Mmap::mapPages`. -/
def mapPages (vaStart pages : ℕ) (pteFlags : Flags) (s : Phys σ × PMT) : Outcome (Phys σ × PMT) :=
  tryRange (mapPagesStep P vaStart pteFlags) pages s

/-- The bytes of a page, the first of which are read from a file. -/
def overwrite (bytes : List UInt8) (page : ℕ → UInt8) (off : ℕ) : UInt8 :=
  (bytes[off]?).getD (page off)

/-- The body of the loop of `Mmap::fillFromFile`; the state is the memory and
    `remaining`, and `file i toRead` what is read for the page `i`, unless seeking or
    reading fails. -/
def fillStep (file : ℕ → ℕ → Option (List UInt8)) (pmt : PMT) (vaStart i : ℕ) (s : Phys σ × ℕ) :
    Outcome (Phys σ × ℕ) :=
  if s.2 = 0 then .ok s
  else
    let pa := pmt.translate (pageAt vaStart i)
    if pa = 0 then .fail s
    else
      match file i (min s.2 pageSize) with
      | none => .fail s
      | some bytes =>
        let mem := update s.1.mem pa (overwrite bytes (s.1.mem pa))
        .ok ({ s.1 with mem := mem }, s.2 - bytes.length)

/-- `Mmap::fillFromFile`; there may be no file. -/
def fillFromFile (file : Option (ℕ → ℕ → Option (List UInt8))) (pmt : PMT)
    (vaStart pages fileLen : ℕ) (ph : Phys σ) : Outcome (Phys σ × ℕ) :=
  match file with
  | none => .fail (ph, fileLen)
  | some file => tryRange (fillStep file pmt vaStart) pages (ph, fileLen)

/-- `Mmap::insertRegion`. -/
def insertRegion (r : MmapRegion) : List MmapRegion → List MmapRegion
  | [] => [r]
  | c :: cs => if c.vaStart < r.vaStart then c :: insertRegion r cs else r :: c :: cs

/-- The flags of `mmap`. -/
structure MapFlags where
  shared : Bool
  priv : Bool
  fixed : Bool
  anonymous : Bool
  deriving DecidableEq

/-- The arguments of `mmap`, and the file `fd` refers to. -/
structure MapArgs where
  hint : ℕ
  length : ℕ
  prot : Access
  flags : MapFlags
  fd : ℤ
  file : Option (ℕ → ℕ → Option (List UInt8))

/-- The new region in `Mmap::map`, and its `MmapSharedRef`. -/
def newRegion (va : ℕ) (args : MapArgs) (shared : SharedRefs) : MmapRegion × SharedRefs :=
  let r : MmapRegion :=
    ⟨va, (va + pageRoundUp args.length) % 2 ^ 64, args.prot, args.flags.shared, none⟩
  if args.flags.shared then
    ({ r with sharedRef := some shared.next },
      ⟨update shared.refCount shared.next 1, shared.next + 1⟩)
  else (r, shared)

/-- `Mmap::map` from `mapPages` on. -/
def mapAt (va : ℕ) (args : MapArgs) (m : Mmap) (s : Space σ) : Option (ℕ × Mmap × Space σ) :=
  let pages := pageRoundUp args.length / pageSize
  match mapPages P va pages (protToPte args.prot) (s.ph, s.pmt) with
  | .panic => none
  | .fail (ph, pmt) => some (mmapFailed, m, { s with ph := ph, pmt := pmt })
  | .ok (ph, pmt) =>
    let filled :=
      if args.flags.anonymous then .ok (ph, 0)
      else fillFromFile args.file pmt va pages args.length ph
    match filled with
    | .panic => none
    | .fail (ph, _) =>
      let (ph, pmt) := unmapPhysical P va ((va + pageRoundUp args.length) % 2 ^ 64) (ph, pmt)
      some (mmapFailed, m, { s with ph := ph, pmt := pmt })
    | .ok (ph, _) =>
      let (r, shared) := newRegion va args s.shared
      some (va, { m with regions := insertRegion r m.regions }, ⟨ph, pmt, shared⟩)

/-- `Mmap::map`. -/
def map (args : MapArgs) (m : Mmap) (s : Space σ) : Option (ℕ × Mmap × Space σ) :=
  let flags := args.flags
  if args.length = 0 then some (mmapFailed, m, s)
  else if !flags.priv && !flags.shared then some (mmapFailed, m, s)
  else if flags.anonymous && args.fd ≠ -1 then some (mmapFailed, m, s)
  else if !flags.anonymous && args.fd < 0 then some (mmapFailed, m, s)
  else
    let roundedLen := pageRoundUp args.length
    match allocVA m args.hint (roundedLen / pageSize) flags.fixed with
    | none => some (mmapFailed, m, s)
    | some (va, m) =>
      if flags.fixed then do
        let (_, m, s) ← unmap P va roundedLen m s
        mapAt P va args m s
      else mapAt P va args m s

/-! ## Protection -/

/-- The body of the loop of `Mmap::protect`. -/
def protectStep (addr : ℕ) (pteFlags : Flags) (i : ℕ) (s : Phys σ × PMT) : Outcome (Phys σ × PMT) :=
  let pa := s.2.translate (pageAt addr i)
  if pa = 0 then .ok s else VM.remap P (pageAt addr i) pa pteFlags s

/-- `Mmap::protect`; it does not look at the regions. -/
def protect (addr length : ℕ) (prot : Access) (s : Phys σ × PMT) : Option (ℕ × Phys σ × PMT) :=
  if addr % pageSize ≠ 0 then some (mmapFailed, s)
  else if length = 0 then some (mmapFailed, s)
  else
    let pages := pageRoundUp length / pageSize
    let stop := (addr + pages * pageSize) % 2 ^ 64
    match tryRange (protectStep P addr (protToPte prot)) (pageCount addr stop) s with
    | .ok s => some (0, s)
    | _ => none

/-! ## Forks -/

/-- `Mmap::find`. -/
def find (m : Mmap) (va : ℕ) : Option MmapRegion :=
  m.regions.find? fun r => r.vaStart ≤ va && va < r.vaEnd

/-- The loop of `Mmap::clone` on the pages of a shared region. -/
def cloneShared (src : PMT) (r : MmapRegion) (s : Phys σ × PMT) : Outcome (Phys σ × PMT) :=
  tryRange (fun i s =>
    let pa := src.translate (pageAt r.vaStart i)
    if pa = 0 then .ok s
    else (PMT.mapPage (pageAt r.vaStart i) P pa (protToPte r.prot) s).ignore)
    ((r.vaEnd - r.vaStart) / pageSize) s

/-- The loop of `Mmap::clone` on the pages of a private region. -/
def clonePrivate (src : PMT) (r : MmapRegion) (s : Phys σ × PMT) : Outcome (Phys σ × PMT) :=
  tryRange (fun i s =>
    let srcPa := src.translate (pageAt r.vaStart i)
    if srcPa = 0 then .ok s
    else
      match kallocPage P s.1 with
      | (none, ph) => .fail (ph, s.2)
      | (some newPage, ph) =>
        let ph := { ph with mem := update ph.mem newPage (ph.mem srcPa) }
        (PMT.mapPage (pageAt r.vaStart i) P newPage (protToPte r.prot) (ph, s.2)).ignore)
    ((r.vaEnd - r.vaStart) / pageSize) s

/-- The pages of a region, for the child. -/
def cloneRegion (src : PMT) (r : MmapRegion) (s : Phys σ × PMT) : Outcome (Phys σ × PMT) :=
  if r.shared then cloneShared P src r s else clonePrivate P src r s

/-- The loop of `Mmap::clone`, `done` being the regions of the child so far; there are
    none after failure. -/
def cloneFrom (src : PMT) :
    List MmapRegion → List MmapRegion → Space σ → Option (Option (List MmapRegion) × Space σ)
  | [], done, s => some (some done, s)
  | r :: rs, done, s =>
    match cloneRegion P src r (s.ph, s.pmt) with
    | .panic => none
    | .fail (ph, pmt) => do
      let s ← destroy P done { s with ph := ph, pmt := pmt }
      some (none, s)
    | .ok (ph, pmt) =>
      (s.shared.acquire r.sharedRef).bind fun shared =>
        cloneFrom src rs (insertRegion r done) ⟨ph, pmt, shared⟩

/-- `Mmap::clone`, from the table `src` of the parent to that of the child. -/
def clone (src : PMT) (m : Mmap) (s : Space σ) : Option (Option Mmap × Space σ) := do
  let (regions, s) ← cloneFrom P src m.regions [] s
  some (regions.map fun rs => ⟨rs, m.nextHint⟩, s)

/-- `Mmap::checkOperation`. -/
def checkOperation (m : Mmap) (vaStart vaEnd : ℕ) (op : Access) : Bool :=
  checkRange (m.regions.map MmapRegion.desc) op vaStart vaEnd

end Mmap

end HobbyOS
