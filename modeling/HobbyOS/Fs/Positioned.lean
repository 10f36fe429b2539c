import HobbyOS.Fs.Read
import HobbyOS.Loop
import HobbyOS.MemLayout

/-!
# Positioned access

`pread64`, `pwrite64` and the filling of the pages of a mapped file go by `File::seek` to where they
read or write, although the position belongs to whoever uses the descriptor.

* The first two save the position and seek back to it. `File::seek` refuses a position which is
  negative as a signed number, so one from `2 ^ 63` on is not restored.
* `Mmap::fillFromFile` does not seek back at all.

What the inode returns, whether the buffer is valid, and whether the pages of the region can be had,
are the outcome of a call (`Positioned.Outcomes`). For which arguments the position is left alone,
whatever the outcome, is `leavesPosition_iff`.
-/

namespace HobbyOS

open File

/-- Calls which read or write at a position of their own; `offset` and the others are registers. -/
inductive Positioned
  | pread64 (offset count : ℕ)
  | pwrite64 (offset count : ℕ)
  | mmap (offset length : ℕ)

namespace Positioned

/-- What decides on how a call ends. -/
structure Outcomes where
  /-- The buffer may be used, or the pages of the region were mapped. -/
  valid : Bool
  /-- The page `i` of the region is found. -/
  translates : ℕ → Bool
  read : ℕ → ℕ → ℤ
  write : ℕ → ℕ → ℤ

/-- `sys_pread64` and `sys_pwrite64`, with the call of `File::read` or `File::write`. -/
def transferAt (valid : Bool) (offset count : ℕ) (transfer : File → ℕ → File × ℤ) (f : File) :
    File × ℤ :=
  if 2 ^ 63 ≤ offset % 2 ^ 64 then (f, -1)
  else if count = 0 then (f, 0)
  else if !valid then (f, -1)
  else
    let saved := f.offset
    let (f, seekret) := f.seek (offset % 2 ^ 64)
    let (f, ret) :=
      if 0 ≤ seekret then
        let (f, n) := transfer f count
        (f, if 0 ≤ n then n else -1)
      else (f, -1)
    ((f.seek saved).1, ret)

/-- The body of the loop of `Mmap::fillFromFile`; the state is the file and `remaining`. What
    `File::seek` returns is kept in an `int`. -/
def fillStep (o : Outcomes) (offset i : ℕ) (s : File × ℕ) : Outcome (File × ℕ) :=
  if s.2 = 0 then .ok s
  else if !o.translates i then .fail s
  else
    let (f, n) := s.1.seek ((offset + i * pageSize) % 2 ^ 64)
    if Int.bmod n (2 ^ 32) < 0 then .fail (f, s.2)
    else
      let (f, n) := f.read o.read (min s.2 pageSize)
      if n < 0 then .fail (f, s.2) else .ok (f, s.2 - n.toNat)

/-- The file after a call. -/
def run (o : Outcomes) : Positioned → File → File
  | pread64 offset count, f => (transferAt o.valid offset count (read o.read) f).1
  | pwrite64 offset count, f => (transferAt o.valid offset count (write o.write) f).1
  | mmap offset length, f =>
    if !o.valid then f
    else
      match tryRange (fillStep o offset) (pageRoundUp length / pageSize) (f, length) with
      | .ok s => s.1
      | .fail s => s.1
      | .panic => f

/-- A call leaves the position alone, whatever its outcome. -/
def LeavesPosition (c : Positioned) (f : File) : Prop := ∀ o, (c.run o f).offset = f.offset

/-- When it does: there is nothing to read or write, the offset is refused, or the position can be
    restored. A mapped file has to be where it is filled from, and nothing be read from it: it is
    not open for reading, or the position does not fit in an `int`. -/
def Restores (f : File) : Positioned → Prop
  | pread64 offset count => 2 ^ 63 ≤ offset % 2 ^ 64 ∨ count = 0 ∨ f.offset < 2 ^ 63
  | pwrite64 offset count => 2 ^ 63 ≤ offset % 2 ^ 64 ∨ count = 0 ∨ f.offset < 2 ^ 63
  | mmap offset length => pageRoundUp length / pageSize = 0 ∨ length = 0 ∨
      2 ^ 63 ≤ offset % 2 ^ 64 ∨
      f.offset = offset % 2 ^ 64 ∧ (¬ f.Readable ∨ 2 ^ 31 ≤ offset % 2 ^ 32)

variable {f : File} {o : Outcomes} {offset count length i : ℕ}

/-! ## Reading and writing -/

section Transfer

variable {transfer : File → ℕ → File × ℤ}

/-- The position is restored, unless it is negative as a signed number. -/
theorem transferAt_offset (hf : f.offset < 2 ^ 63) (valid : Bool) :
    (transferAt valid offset count transfer f).1.offset = f.offset := by
  rw [transferAt]
  split_ifs
  · rfl
  · rfl
  · rfl
  · dsimp only
    rw [seek_of_lt hf]
    exact setOffset_offset

/-- Otherwise it stays where the call has left it. -/
theorem transferAt_stays (hf : 2 ^ 63 ≤ f.offset) (hf' : f.offset < 2 ^ 64)
    (hoff : offset % 2 ^ 64 < 2 ^ 63) (hcount : count ≠ 0) :
    (transferAt true offset count transfer f).1 =
      (transfer (f.setOffset (offset % 2 ^ 64)) count).1 := by
  rw [transferAt, if_neg (Nat.not_le.2 hoff), if_neg hcount, if_neg (by decide), seek_of_lt hoff]
  dsimp only
  rw [if_pos (Int.natCast_nonneg _), seek_of_le hf hf']

end Transfer

theorem move_zero (hf : f.offset < 2 ^ 64) : (f.move 0).offset = f.offset := by
  rw [move, setOffset_offset]
  omega

/-- Nothing is read, and nothing is written. -/
def nothing : Outcomes := ⟨true, fun _ => true, fun _ _ => 0, fun _ _ => 0⟩

theorem read_nothing (hf : f.offset < 2 ^ 64) (len : ℕ) :
    (f.read nothing.read len).1.offset = f.offset := by
  by_cases hr : f.Readable
  · rw [read_of_readable hr]
    exact move_zero hf
  · rw [read_of_not hr]

theorem write_nothing (len : ℕ) : (f.write nothing.write len).1.offset = f.offset := by
  rw [write]
  by_cases hw : f.flags &&& 3 ≠ oWronly ∧ f.flags &&& 3 ≠ oRdwr
  · rw [if_pos hw]
  · rw [if_neg hw]
    rfl

/-! ## Mapping -/

section Fill

variable {pages q : ℕ}

section

variable (hq : offset % 2 ^ 64 = q) (hlt : q < 2 ^ 63) (hlength : length ≠ 0)
  (htrans : o.translates 0 = true)

include hq hlt hlength htrans

/-- Filling goes to the offset first. -/
theorem fillStep_zero : fillStep o offset 0 (f, length) =
      if Int.bmod q (2 ^ 32) < 0 then .fail (f.setOffset q, length)
      else
        let r := (f.setOffset q).read o.read (min length pageSize)
        if r.2 < 0 then .fail (r.1, length) else .ok (r.1, length - r.2.toNat) := by
  rw [fillStep, if_neg hlength, htrans, if_neg (by decide), Nat.zero_mul, Nat.add_zero, hq,
    seek_of_lt hlt]

/-- Nothing can be read: the file stays at the offset. -/
theorem fillStep_unread
    (hread : ¬ f.Readable ∨ Int.bmod q (2 ^ 32) < 0 ∨ ∀ len, o.read q len = -1) :
    fillStep o offset 0 (f, length) = .fail (f.setOffset q, length) := by
  rw [fillStep_zero hq hlt hlength htrans]
  by_cases hint : Int.bmod q (2 ^ 32) < 0
  · rw [if_pos hint]
  have hfails : (f.setOffset q).read o.read (min length pageSize) = (f.setOffset q, -1) := by
    rcases hread with h | h | h
    · exact read_of_not (mt setOffset_readable.1 h) _ _
    · exact absurd h hint
    · by_cases hr : f.Readable
      · rw [read_of_readable (setOffset_readable.2 hr), setOffset_offset, h,
          if_pos rfl]
      · exact read_of_not (mt setOffset_readable.1 hr) _ _
  rw [if_neg hint, hfails]
  rfl

end

/-- A byte is read for the first page, and the others are not found. -/
def oneByte : Outcomes := ⟨true, fun i => i = 0, fun _ _ => 1, fun _ _ => 0⟩

/-- Where filling ends then. -/
theorem fill_oneByte (hr : f.Readable) (hq : offset % 2 ^ 64 = q) (hlt : q < 2 ^ 63)
    (hint : ¬ Int.bmod q (2 ^ 32) < 0) (hlength : length ≠ 0) (hpages : pages ≠ 0) :
    (tryRange (fillStep oneByte offset) pages (f, length)).Holds
      (fun s => s.1.offset = q + 1) (fun s => s.1.offset = q + 1) False := by
  have hloop : (tryRange (fillStep oneByte offset) pages (f, length)).Holds
      (fun s => pages = 0 ∧ s = (f, length) ∨ pages ≠ 0 ∧ s.1.offset = q + 1)
      (fun s => s.1.offset = q + 1) False := by
    refine tryRange_induct (P := fun i (s : File × ℕ) =>
      i = 0 ∧ s = (f, length) ∨ i ≠ 0 ∧ s.1.offset = q + 1) (.inl ⟨rfl, rfl⟩) fun i s _ hs => ?_
    rcases hs with ⟨rfl, rfl⟩ | ⟨hi, hs⟩
    · have hmove : ((f.setOffset q).move 1).offset = q + 1 := by
        rw [move, setOffset_offset, setOffset_offset]
        omega
      rw [fillStep_zero hq hlt hlength rfl, if_neg hint, read_of_readable (setOffset_readable.2 hr)]
      exact .inr ⟨Nat.one_ne_zero, hmove⟩
    · -- The file stays where it is.
      rw [fillStep]
      by_cases hz : s.2 = 0
      · rw [if_pos hz]
        exact .inr ⟨Nat.succ_ne_zero i, hs⟩
      · rwa [if_neg hz, if_pos (by simp [oneByte, hi])]
  exact hloop.imp (fun s hs => (hs.resolve_left fun h => hpages h.1).2) fun s hs => hs

/-- If the first round fails, and the file is where it was, then filling leaves it there. -/
theorem fill_keeps (h0 : length ≠ 0 → fillStep o offset 0 (f, length) = .fail (f, length)) :
    (tryRange (fillStep o offset) pages (f, length)).Holds (fun s => s.1 = f) (fun s => s.1 = f)
      True := by
  refine (tryRange_induct (P := fun i (s : File × ℕ) => s.1 = f ∧ (i = 0 ∧ s.2 = length ∨ s.2 = 0))
    ⟨rfl, .inl ⟨rfl, rfl⟩⟩ fun i s _ hs => ?_).imp (fun s hs => hs.1) fun s hs => hs
  obtain ⟨g, remaining⟩ := s
  obtain ⟨rfl, hs⟩ := hs
  by_cases hz : remaining = 0
  · rw [fillStep, if_pos hz]
    exact ⟨rfl, .inr hz⟩
  · obtain ⟨rfl, rfl⟩ := hs.resolve_right hz
    rw [h0 hz]
    rfl

end Fill

theorem run_mmap {P : File → Prop} (hvalid : o.valid = true)
    (h : (tryRange (fillStep o offset) (pageRoundUp length / pageSize) (f, length)).Holds
      (fun s => P s.1) (fun s => P s.1) (P f)) : P ((mmap offset length).run o f) := by
  rw [run, hvalid]
  generalize tryRange _ _ _ = r at h ⊢
  cases r with
  | ok s => exact h
  | fail s => exact h
  | panic => exact h

/-- Nothing can be read. -/
def unreadable : Outcomes := ⟨true, fun _ => true, fun _ _ => -1, fun _ _ => 0⟩

/-- Filling leaves the position alone if it ends before it starts, or nothing is read. -/
theorem leavesPosition_mmap :
    (mmap offset length).LeavesPosition f ↔ Restores f (mmap offset length) := by
  generalize hq : offset % 2 ^ 64 = q
  have hint : 2 ^ 31 ≤ offset % 2 ^ 32 ↔ Int.bmod q (2 ^ 32) < 0 := by
    rw [bmod_neg_iff, ← hq, Nat.mod_mod_of_dvd _ (by norm_num)]
  rw [Restores, hq, hint]
  constructor
  · intro h
    by_contra hnot
    simp only [not_or, not_le] at hnot
    obtain ⟨hpages, hlength, hlt, hnot⟩ := hnot
    -- If nothing can be read, the file stays at the offset, which therefore is its position …
    have hstart : q = f.offset := by
      rw [← h unreadable]
      refine (run_mmap (P := fun g => g.offset = q) rfl ?_).symm
      have hfirst : tryRange (fillStep unreadable offset) 1 (f, length) =
          .fail (f.setOffset q, length) :=
        fillStep_unread hq hlt hlength rfl (.inr (.inr fun _ => rfl))
      rw [tryRange_stop (fun _ => rfl) (Nat.one_le_iff_ne_zero.2 hpages) hfirst]
      rfl
    -- … and if a byte can be read, it is behind it.
    obtain ⟨hr, hpos⟩ := not_or.1 (not_and.1 hnot hstart.symm)
    have hend : ((mmap offset length).run oneByte f).offset = q + 1 := by
      refine run_mmap (P := fun g => g.offset = q + 1) rfl ?_
      exact (fill_oneByte (not_not.1 hr) hq hlt hpos hlength hpages).mono_panic False.elim
    rw [h oneByte] at hend
    omega
  · intro h o
    cases hvalid : o.valid with
    | false => rw [run, hvalid]; rfl
    | true =>
      refine run_mmap (P := fun g => g.offset = f.offset) hvalid ?_
      by_cases hpages : pageRoundUp length / pageSize = 0
      · rw [hpages]
        rfl
      refine ((fill_keeps fun hlength => ?_).imp (fun s hs => by rw [hs]) fun s hs => by
        rw [hs]).mono_panic fun _ => rfl
      cases htrans : o.translates 0 with
      | false => rw [fillStep, if_neg hlength, htrans]; rfl
      | true =>
        by_cases hlarge : 2 ^ 63 ≤ q
        · rw [fillStep, if_neg hlength, htrans, if_neg (by decide), Nat.zero_mul, Nat.add_zero, hq,
            seek_of_le hlarge (hq ▸ Nat.mod_lt _ (by norm_num))]
          rfl
        · obtain ⟨hstart, hread⟩ :=
            ((h.resolve_left hpages).resolve_left hlength).resolve_left hlarge
          rw [fillStep_unread hq (Nat.not_le.1 hlarge) hlength htrans (hread.imp_right .inl),
            ← hstart, setOffset_self]

section Transfer

variable (transfer : Outcomes → File → ℕ → File × ℤ)

theorem transferAt_refused (h : 2 ^ 63 ≤ offset % 2 ^ 64 ∨ count = 0) :
    (transferAt o.valid offset count (transfer o) f).1 = f := by
  rw [transferAt]
  by_cases hoff : 2 ^ 63 ≤ offset % 2 ^ 64
  · rw [if_pos hoff]
  · rw [if_neg hoff, if_pos (h.resolve_left hoff)]

/-- `pread64` and `pwrite64` leave the position alone if they do nothing, or can restore it. -/
theorem leavesPosition_transfer (hf : f.offset < 2 ^ 64)
    (hkeep : ∀ g : File, g.offset < 2 ^ 64 → (transfer nothing g count).1.offset = g.offset) :
    (∀ o, (transferAt o.valid offset count (transfer o) f).1.offset = f.offset) ↔
      2 ^ 63 ≤ offset % 2 ^ 64 ∨ count = 0 ∨ f.offset < 2 ^ 63 := by
  constructor
  · intro h
    by_contra hnot
    simp only [not_or, not_le, not_lt] at hnot
    obtain ⟨hoff, hcount, hlarge⟩ := hnot
    have hn : (transferAt true offset count (transfer nothing) f).1.offset = f.offset := h nothing
    rw [transferAt_stays hlarge hf hoff hcount,
      hkeep _ (by rw [setOffset_offset]; exact hoff.trans (by norm_num)),
      setOffset_offset] at hn
    omega
  · intro h o
    rcases or_assoc.2 h with h | h
    · rw [transferAt_refused transfer h]
    · exact transferAt_offset h _

end Transfer

/-- Whatever the outcome, a call leaves the position of a descriptor alone, if and only if it can
    restore it. -/
theorem leavesPosition_iff (c : Positioned) (hf : f.offset < 2 ^ 64) :
    c.LeavesPosition f ↔ Restores f c := by
  cases c with
  | pread64 offset count =>
    exact leavesPosition_transfer (fun o => read o.read) hf fun g hg =>
      read_nothing hg count
  | pwrite64 offset count =>
    exact leavesPosition_transfer (fun o => write o.write) hf fun g _ =>
      write_nothing count
  | mmap offset length => exact leavesPosition_mmap

/-- A file which is read at position `100`. -/
def middle : File := ⟨0, .regular 12, oRdonly, 100⟩

theorem leavesPosition_iff_middle : (pread64 0 5).LeavesPosition middle ∧
    ¬ (mmap 0 5).LeavesPosition middle := by
  refine ⟨(leavesPosition_iff _ (by decide)).2 (by simp [Restores, middle]), fun h => ?_⟩
  have hr := (leavesPosition_iff _ (by decide)).1 h
  simp [Restores, middle, pageRoundUp, pageSize] at hr

/-- Five bytes are mapped: the next `read` starts behind them. -/
theorem mmap_moves : ∃ o : Outcomes, (∀ offset len, o.read offset len = len) ∧
    middle.offset = 100 ∧ ((mmap 0 5).run o middle).offset = 5 :=
  ⟨⟨true, fun _ => true, fun _ len => len, fun _ _ => -1⟩, fun _ _ => rfl, rfl, by decide +kernel⟩

end Positioned

end HobbyOS
