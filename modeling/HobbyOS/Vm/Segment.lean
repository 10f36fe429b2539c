import HobbyOS.Vm.Pmt

/-!
# Segments

The segment table of a process describes the parts of its address space which the
ELF loader, the stack and the heap take. It is consulted to validate the buffers of
system calls: `checkOperation` looks for the descriptor of the first address, and
goes on where that descriptor ends. The regions of `Mmap` are searched in the same
way (`checkRange`).
-/

namespace HobbyOS

/-- Kinds of access: the bits `SEG_R`, `SEG_W`, `SEG_X` of a segment, or `MMAP_PROT_READ`,
    `MMAP_PROT_WRITE`, `MMAP_PROT_EXEC` of a region. -/
structure Access where
  r : Bool
  w : Bool
  x : Bool
  deriving DecidableEq

namespace Access

/-- `SEG_R`. -/
def read : Access := ⟨true, false, false⟩

/-- `SEG_W`. -/
def write : Access := ⟨false, true, false⟩

/-- `SEG_R | SEG_W`. -/
def readWrite : Access := ⟨true, true, false⟩

/-- `flags & op`. -/
def meets (flags op : Access) : Bool := flags.r && op.r || flags.w && op.w || flags.x && op.x

end Access

/-- What `find` returns: a descriptor with its kinds of access, for the addresses
    from `start` to before `stop`. -/
structure SegmentDesc where
  flags : Access
  start : ℕ
  stop : ℕ
  deriving DecidableEq

/-- `SegmentDesc::contains`. -/
def SegmentDesc.contains (d : SegmentDesc) (va : ℕ) : Bool := d.start ≤ va && va < d.stop

/-- The loop of `checkOperation`, over the descriptors `ds`. -/
def checkRange (ds : List SegmentDesc) (op : Access) (vaStart vaEnd : ℕ) : Bool :=
  if vaStart < vaEnd then
    match _h : ds.find? (·.contains vaStart) with
    | none => false
    | some desc => desc.flags.meets op && checkRange ds op desc.stop vaEnd
  else true
  termination_by vaEnd - vaStart
  decreasing_by
    have hc := List.find?_some _h
    simp only [SegmentDesc.contains, Bool.and_eq_true, decide_eq_true_eq] at hc
    omega

/-- `SegmentTable`. -/
structure SegmentTable where
  text : Option SegmentDesc
  roData : Option SegmentDesc
  data : Option SegmentDesc
  bss : Option SegmentDesc
  heap : Option SegmentDesc
  stack : Option SegmentDesc

namespace SegmentTable

/-- The descriptors, in the order in which `SegmentTable::find` looks at them. -/
def descs (t : SegmentTable) : List SegmentDesc :=
  [t.text, t.roData, t.data, t.bss, t.heap, t.stack].reduceOption

/-- `SegmentTable::checkOperation`. -/
def checkOperation (t : SegmentTable) (vaStart vaEnd : ℕ) (op : Access) : Bool :=
  checkRange t.descs op vaStart vaEnd

/-- The table of a process without segments. -/
def empty : SegmentTable := ⟨none, none, none, none, none, none⟩

/-- `SegmentTable::setHeap`. -/
def setHeap (t : SegmentTable) (flags : Access) (vaStart vaEnd : ℕ) : SegmentTable :=
  { t with heap := some ⟨flags, vaStart, vaEnd⟩ }

end SegmentTable

end HobbyOS
