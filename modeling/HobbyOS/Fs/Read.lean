import HobbyOS.Fs.File

/-!
# Reading from files

`Ext2Inode::read` reads a file block by block; a block of the file which has none on the disk is read
as zeros. Up to the end of the file it reads what is there (`RegularFile.read_eq`).

`File::read` and `File::seek` are the same for all files: what an inode returns is an argument here.
-/

namespace HobbyOS

open List Nat

/-- `File::O_RDONLY`. -/
def oRdonly : ℕ := 0

/-- Bit 31 of a number is the sign of the `int` it is kept in. -/
theorem bmod_neg_iff (q : ℕ) : Int.bmod q (2 ^ 32) < 0 ↔ 2 ^ 31 ≤ q % 2 ^ 32 := by
  rw [Int.bmod_def]
  norm_num
  omega

/-! ## Regular files -/

namespace RegularFile

/-- The loop of `Ext2Inode::read`, which goes on `n` times at most; `blockMap` says which blocks of
    the file have one on the disk. -/
def readBlocks (blockSize : ℕ) (blockMap : ℕ → Bool) (data : ℕ → UInt8) : ℕ → ℕ → ℕ → List UInt8
  | 0, _, _ => []
  | n + 1, pos, remaining =>
    if remaining = 0 then []
    else
      let logical := pos / blockSize % 2 ^ 32
      let blockOffset := pos % blockSize
      let canRead := min (blockSize - blockOffset) remaining
      (List.range canRead).map (fun k =>
        if blockMap logical then data (logical * blockSize + blockOffset + k) else 0) ++
      readBlocks blockSize blockMap data n (pos + canRead) (remaining - canRead)

/-- `Ext2Inode::read`: the bytes which are read. -/
def read (r : RegularFile) (blockSize : ℕ) (blockMap : ℕ → Bool) (offset len : ℕ) : List UInt8 :=
  if len = 0 then []
  else if r.size ≤ offset then []
  else
    let len := if r.size < (offset + len) % 2 ^ 64 then r.size - offset else len
    readBlocks blockSize blockMap r.data len offset len

/-- The byte of a file at a position. -/
def byte (r : RegularFile) (blockSize : ℕ) (blockMap : ℕ → Bool) (pos : ℕ) : UInt8 :=
  if blockMap (pos / blockSize) then r.data pos else 0

variable {r : RegularFile} {blockSize : ℕ} {blockMap : ℕ → Bool}

/-- Block by block, the bytes from a position on are read. -/
theorem readBlocks_eq (hb : 0 < blockSize) (n pos remaining : ℕ) (hn : remaining ≤ n)
    (hpos : pos + remaining ≤ 2 ^ 32) : readBlocks blockSize blockMap r.data n pos remaining =
      (List.range remaining).map fun k => r.byte blockSize blockMap (pos + k) := by
  induction n generalizing pos remaining with
  | zero =>
    obtain rfl := le_zero.1 hn
    rfl
  | succ n ih =>
    rw [readBlocks]
    by_cases hz : remaining = 0
    · rw [if_pos hz, hz]
      rfl
    rw [if_neg hz]
    dsimp only
    have hoff := mod_lt pos hb
    generalize hc : min (blockSize - pos % blockSize) remaining = c
    rw [ih (pos + c) (remaining - c) (by omega) (by omega)]
    have hsplit : List.range remaining =
        List.range c ++ (List.range (remaining - c)).map (c + ·) := by
      rw [← range_add]
      congr 1
      omega
    rw [hsplit, map_append, map_map]
    congr 1
    · -- The bytes of this block.
      refine map_congr_left fun k hk => ?_
      have hk' := mem_range.1 hk
      have hlt : pos / blockSize < 2 ^ 32 := (Nat.div_le_self _ _).trans_lt (by omega)
      rw [byte, add_div_of_lt (by omega), mod_eq_of_lt hlt, div_add_mod']
    · refine map_congr_left fun k _ => ?_
      rw [Function.comp_apply, Nat.add_assoc]

/-- `Ext2Inode::read` reads up to the end of the file. -/
theorem read_eq (hb : 0 < blockSize) (hsize : r.size < 2 ^ 32) {offset len : ℕ}
    (hlen : offset + len < 2 ^ 64) : r.read blockSize blockMap offset len =
      (List.range (min len (r.size - offset))).map fun k =>
        r.byte blockSize blockMap (offset + k) := by
  rw [read]
  by_cases hz : len = 0
  · rw [if_pos hz, hz, Nat.zero_min]
    rfl
  by_cases hend : r.size ≤ offset
  · rw [if_neg hz, if_pos hend, Nat.sub_eq_zero_of_le hend, Nat.min_zero]
    rfl
  rw [if_neg hz, if_neg hend]
  have hmin : (if r.size < (offset + len) % 2 ^ 64 then r.size - offset else len) =
      min len (r.size - offset) := by
    rw [mod_eq_of_lt hlen]
    split_ifs <;> omega
  rw [hmin, readBlocks_eq hb _ _ _ le_rfl (by omega)]

end RegularFile

/-! ## Files -/

namespace File

/-- The file at another position. -/
def setOffset (f : File) (offset : ℕ) : File := { f with offset := offset }

/-- `File::seek` with `SEEK_SET`: a position which is negative as a signed number is refused. -/
def seek (f : File) (offset : ℕ) : File × ℤ :=
  let newOffset := offset % 2 ^ 64
  if newOffset < 2 ^ 63 then (f.setOffset newOffset, (newOffset : ℤ)) else (f, -1)

/-- `m_offset += n`. -/
def move (f : File) (n : ℤ) : File := f.setOffset ((f.offset + n) % 2 ^ 64).toNat

/-- The file is open for reading. -/
def Readable (f : File) : Prop := f.flags &&& 3 = oRdonly ∨ f.flags &&& 3 = oRdwr

instance (f : File) : Decidable f.Readable := inferInstanceAs (Decidable (_ ∨ _))

/-- `File::read`, on an inode which returns `inode offset len`. -/
def read (inode : ℕ → ℕ → ℤ) (f : File) (len : ℕ) : File × ℤ :=
  if ¬ f.Readable then (f, -1)
  else
    let n := inode f.offset len
    if n = -1 then (f, -1) else (f.move n, n)

/-- `File::write`, on an inode which returns `inode offset len`. -/
def write (inode : ℕ → ℕ → ℤ) (f : File) (len : ℕ) : File × ℤ :=
  if f.flags &&& 3 ≠ oWronly ∧ f.flags &&& 3 ≠ oRdwr then (f, -1)
  else
    let n := inode (if f.flags &&& oAppend ≠ 0 then 2 ^ 64 - 1 else f.offset) len
    (if 0 < n then f.move n else f, n)

variable {f : File} {offset : ℕ}

@[simp] theorem setOffset_offset : (f.setOffset offset).offset = offset := rfl

@[simp] theorem setOffset_self : f.setOffset f.offset = f := rfl

@[simp] theorem setOffset_readable : (f.setOffset offset).Readable ↔ f.Readable := Iff.rfl

theorem seek_of_lt (h : offset < 2 ^ 63) : f.seek offset = (f.setOffset offset, (offset : ℤ)) := by
  rw [seek, mod_eq_of_lt (h.trans (by norm_num))]
  exact if_pos h

theorem seek_of_le (h : 2 ^ 63 ≤ offset) (h' : offset < 2 ^ 64) : f.seek offset = (f, -1) := by
  rw [seek, mod_eq_of_lt h']
  exact if_neg (Nat.not_lt.2 h)

theorem read_of_not (h : ¬ f.Readable) (inode : ℕ → ℕ → ℤ) (len : ℕ) : f.read inode len = (f, -1) :=
  if_pos h

theorem read_of_readable (h : f.Readable) (inode : ℕ → ℕ → ℤ) (len : ℕ) : f.read inode len =
    if inode f.offset len = -1 then (f, -1)
    else (f.move (inode f.offset len), inode f.offset len) := if_neg (not_not.2 h)

end File

end HobbyOS
