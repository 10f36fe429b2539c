import HobbyOS.Fs.Position

/-!
# Writes which fail in the middle

`Ext2Inode::write` stores a buffer block by block, and returns -1 at the first block which cannot be
had. What was stored before that stays: in the file, or beyond its end, where it is found when a
later write makes the file longer. The size has 32 bits, as the number of a block has.

* A write has done what it says (`Reports`) if all blocks can be had and it ends below `2 ^ 32`; or
  if what it stores before it fails is there already.
-/

namespace HobbyOS

namespace RegularFile

/-- The arguments of `write`, and which blocks can be had. -/
structure Write where
  offset : Option ℕ
  src : List UInt8
  blockMapAlloc : ℕ → Bool

/-- The files look the same. -/
def Same (r r' : RegularFile) : Prop := r'.size = r.size ∧ ∀ i < r.size, r'.data i = r.data i

/-- Writes one after the other. -/
def writes (blockSize : ℕ) (r : RegularFile) (ws : List Write) : RegularFile :=
  ws.foldl (fun r w => (r.write blockSize w.blockMapAlloc w.offset w.src).1) r

/-- The number which is returned is that of the bytes which were stored; or the file looks as
    before, whatever is written to it later. -/
def Reports (blockSize : ℕ) (r : RegularFile) (w : Write) : Prop :=
  let (r', n) := r.write blockSize w.blockMapAlloc w.offset w.src
  (0 ≤ n → n ≤ w.src.length ∧ r'.size = max r.size (w.offset.getD r.size + n.toNat) ∧
    r'.data = putAt r.data (w.offset.getD r.size) (w.src.take n.toNat)) ∧
  (n < 0 → ∀ later, Same (r.writes blockSize later) (r'.writes blockSize later))

/-- All blocks can be had. -/
def Write.Fits (blockSize : ℕ) (r : RegularFile) (w : Write) : Prop :=
  ∀ j < w.src.length, Reached blockSize w.blockMapAlloc (w.offset.getD r.size) j

/-- What is stored before a block is missing is there already, as far as a file can be read. -/
def Write.Stays (blockSize : ℕ) (r : RegularFile) (w : Write) : Prop :=
  ∀ j b, w.src[j]? = some b → Reached blockSize w.blockMapAlloc (w.offset.getD r.size) j →
    (w.offset.getD r.size + j) % (blockSize * 2 ^ 32) < 2 ^ 32 - 1 →
      r.data ((w.offset.getD r.size + j) % (blockSize * 2 ^ 32)) = b

variable {blockSize : ℕ} {r r' : RegularFile} {w : Write}

/-! ## Later writes -/

/-- The files are the same, as far as a file can be read. -/
structure Agrees (r r' : RegularFile) : Prop where
  size : r'.size = r.size
  size_lt : r.size < 2 ^ 32
  data : ∀ i < 2 ^ 32 - 1, r'.data i = r.data i

theorem Agrees.same (h : Agrees r r') : Same r r' :=
  ⟨h.size, fun i hi => h.data i (by have := h.size_lt; omega)⟩

/-- What is stored does not depend on what was there. -/
theorem writeBlocks_congr (blockMapAlloc : ℕ → Bool) (n pos : ℕ) (src : List UInt8)
    (data data' : ℕ → UInt8) :
    (writeBlocks blockSize blockMapAlloc n pos src data').2 =
      (writeBlocks blockSize blockMapAlloc n pos src data).2 ∧
    ∀ i, data' i = data i → (writeBlocks blockSize blockMapAlloc n pos src data').1 i =
      (writeBlocks blockSize blockMapAlloc n pos src data).1 i := by
  induction n generalizing pos src data data' with
  | zero => exact ⟨rfl, fun _ h => h⟩
  | succ n ih =>
    rw [writeBlocks, writeBlocks]
    dsimp only
    split_ifs
    · exact ⟨rfl, fun _ h => h⟩
    · refine ⟨(ih ..).1, fun i hi => (ih ..).2 i ?_⟩
      rw [putAt, putAt, hi]
    · exact ⟨rfl, fun _ h => h⟩

theorem Agrees.write (h : Agrees r r') (w : Write) :
    Agrees (r.write blockSize w.blockMapAlloc w.offset w.src).1
      (r'.write blockSize w.blockMapAlloc w.offset w.src).1 := by
  obtain ⟨hsize, hlt, hdata⟩ := h
  rw [RegularFile.write, RegularFile.write, hsize]
  dsimp only
  obtain ⟨hok, hcongr⟩ := @writeBlocks_congr blockSize w.blockMapAlloc w.src.length
    (w.offset.getD r.size) w.src r.data r'.data
  rw [hok]
  have hmod : (w.src.length + w.offset.getD r.size) % 2 ^ 32 < 2 ^ 32 := Nat.mod_lt _ (by decide)
  split_ifs
  · exact ⟨hsize, hlt, hdata⟩
  · exact ⟨rfl, hmod, fun i hi => hcongr i (hdata i hi)⟩
  · exact ⟨rfl, hlt, fun i hi => hcongr i (hdata i hi)⟩
  · exact ⟨rfl, hlt, fun i hi => hcongr i (hdata i hi)⟩

theorem Agrees.writes (h : Agrees r r') (ws : List Write) :
    Agrees (r.writes blockSize ws) (r'.writes blockSize ws) := by
  induction ws generalizing r r' with
  | nil => exact h
  | cons w ws ih => exact ih (h.write w)

/-- One byte, as far behind `2 ^ 32` as the byte `i` is from the beginning. -/
def behind (i : ℕ) : Write := ⟨some (2 ^ 32 + i), [0], fun _ => true⟩

/-- After that the file ends with the byte `i`. -/
theorem writes_behind (hb : 1024 ≤ blockSize) (hsize : r.size < 2 ^ 32) {i : ℕ}
    (hi : i < 2 ^ 32 - 1) : (r.writes blockSize [behind i]).size = i + 1 ∧
    (r.writes blockSize [behind i]).data i = r.data i := by
  obtain ⟨hok, -, hkept⟩ := writeBlocks_spec (fun _ => true) (show 0 < blockSize by omega) 1
    (2 ^ 32 + i) [0] r.data le_rfl (by decide)
  have heq : r.writes blockSize [behind i] =
      ⟨(writeBlocks blockSize (fun _ => true) 1 (2 ^ 32 + i) [0] r.data).1, i + 1⟩ := by
    change (r.write blockSize (fun _ => true) (some (2 ^ 32 + i)) [0]).1 = _
    rw [RegularFile.write, if_neg (by decide)]
    dsimp only [Option.getD_some, List.length_singleton]
    rw [if_pos (hok.2 fun _ _ _ _ => rfl), if_pos (by omega),
      show (1 + (2 ^ 32 + i)) % 2 ^ 32 = i + 1 by omega]
  rw [heq]
  refine ⟨rfl, hkept i fun j hj _ => ?_⟩
  obtain rfl := Nat.lt_one_iff.1 hj
  rw [Nat.mod_eq_of_lt]
  · omega
  · calc 2 ^ 32 + i + 0 < 1024 * 2 ^ 32 := by omega
      _ ≤ blockSize * 2 ^ 32 := Nat.mul_le_mul_right _ hb

/-! ## What a write does -/

/-- Exactly then has a write done what it says. -/
theorem reports_iff (hb : 1024 ≤ blockSize) (hsize : r.size < 2 ^ 32)
    (hlen : w.src.length < 2 ^ 31) : r.Reports blockSize w ↔
      (w.src ≠ [] → w.Fits blockSize r → w.offset.getD r.size + w.src.length < 2 ^ 32) ∧
      (¬ w.Fits blockSize r → w.Stays blockSize r) := by
  have hb' : 0 < blockSize := by omega
  obtain ⟨hok, hput, hkept⟩ := writeBlocks_spec w.blockMapAlloc hb' w.src.length
    (w.offset.getD r.size) w.src r.data le_rfl (by omega)
  rw [Reports, RegularFile.write]
  by_cases hz : w.src = []
  · rw [if_pos (by rw [hz]; rfl)]
    refine iff_of_true ⟨fun h => absurd h (by decide), fun _ later => ⟨rfl, fun _ _ => rfl⟩⟩
      ⟨fun h => absurd hz h, fun h => absurd (fun j hj => ?_) h⟩
    rw [hz] at hj
    cases hj
  have hpos : 0 < w.src.length := List.length_pos_iff.2 hz
  rw [if_neg hpos.ne']
  dsimp only
  generalize writeBlocks _ _ _ _ _ _ = res at hok hput hkept
  by_cases hfits : w.Fits blockSize r
  · rw [if_pos (hok.2 hfits)]
    dsimp only
    rw [Int.bmod_eq_of_le (by omega) (by omega), Int.toNat_natCast, List.take_length]
    refine ⟨fun h => ⟨fun _ _ => ?_, fun h => absurd hfits h⟩,
      fun h => ⟨fun _ => ⟨le_rfl, ?_, ?_⟩, fun h => by omega⟩⟩
    · -- The size is kept in 32 bits.
      obtain ⟨-, hmax, -⟩ := h.1 (Int.natCast_nonneg _)
      split_ifs at hmax <;> omega
    · have := h.1 hz hfits
      rw [Nat.mod_eq_of_lt (by omega)]
      split_ifs <;> omega
    have hend := h.1 hz hfits
    funext i
    rw [putAt]
    split_ifs with hi
    · obtain ⟨j, rfl⟩ := Nat.exists_eq_add_of_le hi.1
      have hj : w.src[j]? = some w.src[j] := List.getElem?_eq_getElem (by omega)
      have hbyte := hput j _ hj (hfits j (by omega))
      rw [add_mod_eq hb' _ _ (by omega)] at hbyte
      rw [hbyte, Nat.add_sub_cancel_left, List.getD_eq_getElem?_getD, hj]
      rfl
    · refine hkept i fun j hj _ => ?_
      rw [add_mod_eq hb' _ _ (by omega)]
      omega
  · rw [if_neg fun h => hfits (hok.1 h)]
    dsimp only
    refine ⟨fun h => ⟨fun _ hf => absurd hf hfits, fun _ j b hj hr hlt => ?_⟩,
      fun h => ⟨fun h => absurd h (by decide), fun _ later => ?_⟩⟩
    · -- A later write shows the byte.
      obtain ⟨hs, hd⟩ := @writes_behind _ r hb hsize _ hlt
      have hd' := (@writes_behind _ ⟨res.1, r.size⟩ hb hsize _ hlt).2
      have hsame := (h.2 (by decide) [behind _]).2 _ (by rw [hs]; exact Nat.lt_succ_self _)
      rw [hd, hd'] at hsame
      rw [← hsame]
      exact hput j b hj hr
    have hagrees : Agrees r ⟨res.1, r.size⟩ := by
      refine ⟨rfl, hsize, fun i hi => ?_⟩
      by_cases hx : ∃ j < w.src.length,
          Reached blockSize w.blockMapAlloc (w.offset.getD r.size) j ∧
          (w.offset.getD r.size + j) % (blockSize * 2 ^ 32) = i
      · obtain ⟨j, hj, hr, rfl⟩ := hx
        have hj : w.src[j]? = some w.src[j] := List.getElem?_eq_getElem hj
        rw [h.2 hfits j _ hj hr hi]
        exact hput j _ hj hr
      · exact hkept i fun j hj hr he => hx ⟨j, hj, hr, he⟩
    exact (hagrees.writes later).same

/-- A file of one block, and no block is free. -/
def oneBlock : RegularFile := ⟨fun _ => 0, 1024⟩

/-- The second byte does not fit, and the first one is what was there. -/
theorem reports_iff_oneBlock : (oneBlock.write 1024 (· = 0) (some 1023) [0, 1]).2 = -1 ∧
    oneBlock.Reports 1024 ⟨some 1023, [0, 1], (· = 0)⟩ := by
  refine ⟨by decide +kernel, (reports_iff le_rfl (by decide) (by decide)).2
    ⟨fun _ _ => by decide, fun _ j b hj hr _ => ?_⟩⟩
  match j with
  | 0 => exact Option.some.inj hj
  | 1 => exact absurd (hr 1 le_rfl) (by decide)

/-- The second byte does not fit, but the first one is in the file. -/
theorem write_half : (oneBlock.write 1024 (· = 0) (some 1023) [1, 1]).2 = -1 ∧
    ¬ oneBlock.Reports 1024 ⟨some 1023, [1, 1], (· = 0)⟩ := by
  refine ⟨by decide +kernel, fun h => ?_⟩
  have := (h.2 (by decide +kernel) []).2 1023 (by decide)
  revert this
  decide +kernel

end RegularFile

end HobbyOS
