import HobbyOS.Fs.File

/-!
# Positions of duplicated descriptors

A descriptor which is duplicated by `dup`, `dup3`, `fcntl` or `fork` has a `File` of its own, with an
`m_offset` of its own, which starts where the other one is. What is written through one of them moves
the position of this one only, so that the next write through another one overwrites it. The buffers
follow each other in the file if every write is at the end of the last one (`InTurn`): the file is
open for appending, or `m_offset` of the descriptor happens to be there.
-/

namespace HobbyOS

open Function List Nat Option

/-! ## Writing -/

namespace RegularFile

/-- The bytes from a position on. -/
def content (r : RegularFile) (base n : ℕ) : List UInt8 := (List.range n).map fun i => r.data (base + i)

variable {blockSize pos : ℕ} {blockMapAlloc : ℕ → Bool} {data : ℕ → UInt8} {src : List UInt8}

theorem putAt_add {j : ℕ} {b : UInt8} (hj : src[j]? = some b) :
    putAt data pos src (pos + j) = b := by
  obtain ⟨hlt, -⟩ := List.getElem?_eq_some_iff.1 hj
  rw [putAt, if_pos ⟨Nat.le_add_right .., Nat.add_lt_add_left hlt _⟩, Nat.add_sub_cancel_left,
    getD_eq_getElem?_getD, hj]
  rfl

/-- Where a byte of a block is stored: the number of the block has 32 bits. -/
theorem add_mod_of_lt {k : ℕ} (hk : pos % blockSize + k < blockSize) :
    pos / blockSize % 2 ^ 32 * blockSize + pos % blockSize + k = (pos + k) % (blockSize * 2 ^ 32) := by
  have hmod : (pos + k) % blockSize = pos % blockSize + k := by
    rw [← mod_add_mod, mod_eq_of_lt hk]
  rw [mod_mul, hmod, add_div_of_lt hk, Nat.mul_comm]
  omega

/-- The bytes of a buffer are stored in different places. -/
theorem add_mod_inj (hb : 0 < blockSize) {i j : ℕ} (hi : i < 2 ^ 32) (hj : j < 2 ^ 32)
    (h : (pos + i) % (blockSize * 2 ^ 32) = (pos + j) % (blockSize * 2 ^ 32)) : i = j := by
  have hle := Nat.le_mul_of_pos_left (2 ^ 32) hb
  exact (Nat.ModEq.add_left_cancel' pos h).eq_of_lt_of_lt (hi.trans_le hle) (hj.trans_le hle)

/-- The blocks of a buffer which goes to the file at `pos` can be had, up to its byte `j`. -/
def Reached (blockSize : ℕ) (blockMapAlloc : ℕ → Bool) (pos j : ℕ) : Prop :=
  ∀ i ≤ j, blockMapAlloc ((pos + i) / blockSize % 2 ^ 32) = true

/-- What the loop of `write` does: the bytes are stored up to the first block which cannot be had. -/
structure Stored (blockSize : ℕ) (blockMapAlloc : ℕ → Bool) (pos : ℕ) (src : List UInt8)
    (data : ℕ → UInt8) (w : (ℕ → UInt8) × Bool) : Prop where
  ok : w.2 = true ↔ ∀ j < src.length, Reached blockSize blockMapAlloc pos j
  put : ∀ j b, src[j]? = some b → Reached blockSize blockMapAlloc pos j →
    w.1 ((pos + j) % (blockSize * 2 ^ 32)) = b
  kept : ∀ x, (∀ j < src.length, Reached blockSize blockMapAlloc pos j →
    (pos + j) % (blockSize * 2 ^ 32) ≠ x) → w.1 x = data x

theorem writeBlocks_spec (blockMapAlloc : ℕ → Bool) (hb : 0 < blockSize) (n pos : ℕ)
    (src : List UInt8) (data : ℕ → UInt8) (hn : src.length ≤ n) (hlen : src.length ≤ 2 ^ 32) :
    Stored blockSize blockMapAlloc pos src data
      (writeBlocks blockSize blockMapAlloc n pos src data) := by
  induction n generalizing pos src data with
  | zero =>
    obtain rfl : src = [] := length_eq_zero_iff.1 (le_zero.1 hn)
    exact ⟨iff_of_true rfl nofun, nofun, fun _ _ => rfl⟩
  | succ n ih =>
    rw [writeBlocks]
    by_cases hz : src.length = 0
    · rw [if_pos hz]
      obtain rfl : src = [] := length_eq_zero_iff.1 hz
      exact ⟨iff_of_true rfl nofun, nofun, fun _ _ => rfl⟩
    rw [if_neg hz]
    by_cases ha : blockMapAlloc (pos / blockSize % 2 ^ 32) = true
    · have hoff := mod_lt pos hb
      rw [if_pos ha]
      generalize hc : min (blockSize - pos % blockSize) src.length = c
      obtain ⟨hok, hput, hkept⟩ := ih (pos + c) (src.drop c)
        (putAt data (pos / blockSize % 2 ^ 32 * blockSize + pos % blockSize) (src.take c))
        (by rw [length_drop]; omega) (by rw [length_drop]; omega)
      rw [length_drop] at hok hkept
      -- The bytes of this block are stored; the others are those of the next blocks.
      have hfirst {j : ℕ} (hj : j < c) : Reached blockSize blockMapAlloc pos j := fun i hi => by
        rwa [add_div_of_lt (by omega)]
      have hnext (j : ℕ) : Reached blockSize blockMapAlloc pos (c + j) ↔
          Reached blockSize blockMapAlloc (pos + c) j := by
        refine ⟨fun h i hi => ?_, fun h i hi => ?_⟩
        · rw [Nat.add_assoc]
          exact h _ (Nat.add_le_add_left hi c)
        · by_cases hic : i < c
          · exact hfirst hic i le_rfl
          · have := h (i - c) (by omega)
            rwa [show pos + c + (i - c) = pos + i by omega] at this
      refine ⟨hok.trans ⟨fun h j hj => ?_, fun h j hj => (hnext j).1 (h _ (by omega))⟩,
        fun j b hjb hr => ?_, fun x hx => ?_⟩
      · by_cases hjc : j < c
        · exact hfirst hjc
        · obtain ⟨i, rfl⟩ := Nat.exists_eq_add_of_le (Nat.not_lt.1 hjc)
          exact (hnext i).2 (h i (by omega))
      · obtain ⟨hj, -⟩ := List.getElem?_eq_some_iff.1 hjb
        by_cases hjc : j < c
        · rw [hkept, ← add_mod_of_lt (by omega)]
          · exact putAt_add (by rw [List.getElem?_take_of_lt hjc, hjb])
          · intro i hi _ he
            rw [Nat.add_assoc] at he
            have := add_mod_inj hb (by omega) (by omega) he
            omega
        · obtain ⟨i, rfl⟩ := Nat.exists_eq_add_of_le (Nat.not_lt.1 hjc)
          rw [← Nat.add_assoc]
          exact hput i b (by rw [List.getElem?_drop, hjb]) ((hnext i).1 hr)
      · rw [hkept]
        · refine if_neg fun h => ?_
          rw [length_take] at h
          obtain ⟨i, hi⟩ := Nat.exists_eq_add_of_le h.1
          refine hx i (by omega) (hfirst (by omega)) ?_
          rw [← add_mod_of_lt (by omega), hi]
        · intro i hi hr
          rw [Nat.add_assoc]
          exact hx (c + i) (by omega) ((hnext i).2 hr)
    · rw [if_neg ha]
      have hno (j : ℕ) : ¬ Reached blockSize blockMapAlloc pos j := fun h => ha (h 0 (Nat.zero_le _))
      exact ⟨iff_of_false nofun fun h => hno 0 (h 0 (Nat.pos_of_ne_zero hz)),
        fun j _ _ h => absurd h (hno j), fun _ _ => rfl⟩

/-- A file may have `2 ^ 32` bytes at least. -/
theorem add_mod_eq (hb : 0 < blockSize) (pos j : ℕ) (h : pos + j < 2 ^ 32) :
    (pos + j) % (blockSize * 2 ^ 32) = pos + j :=
  mod_eq_of_lt (h.trans_le (Nat.le_mul_of_pos_left _ hb))

/-- What a call of `write` does. -/
theorem write_spec {r r' : RegularFile} {offset : Option ℕ} {src : List UInt8} {n : ℤ} {pos : ℕ}
    (hb : 0 < blockSize) (h : r.write blockSize blockMapAlloc offset src = (r', n))
    (hoff : offset.getD r.size = pos) (hlen : src.length < 2 ^ 31)
    (hpos : pos + src.length < 2 ^ 32) :
    (∀ i < pos, r'.data i = r.data i) ∧ (n = -1 ∧ r'.size = r.size ∨
      n = src.length ∧ 0 < src.length ∧ (∀ j b, src[j]? = some b → r'.data (pos + j) = b) ∧
        r'.size = max r.size (pos + src.length)) := by
  rw [write] at h
  by_cases hz : src.length = 0
  · rw [if_pos hz] at h
    cases h
    exact ⟨fun _ _ => rfl, .inl ⟨rfl, rfl⟩⟩
  rw [if_neg hz, hoff] at h
  obtain ⟨hall, hput, hkept⟩ := writeBlocks_spec blockMapAlloc hb src.length pos src r.data le_rfl
    (by omega)
  have hlt (i : ℕ) (hi : i < pos) := hkept i fun j hj _ => by
    rw [add_mod_eq hb _ _ (by omega)]
    omega
  by_cases hok : (writeBlocks blockSize blockMapAlloc src.length pos src r.data).2 = true
  · rw [if_pos hok] at h
    cases h
    refine ⟨hlt, .inr ⟨Int.bmod_eq_of_le (by omega) (by omega), Nat.pos_of_ne_zero hz, ?_, ?_⟩⟩
    · intro j b hj
      obtain ⟨hjl, -⟩ := List.getElem?_eq_some_iff.1 hj
      rw [← add_mod_eq hb pos j (by omega)]
      exact hput j b hj (hall.1 hok j hjl)
    · dsimp only
      rw [mod_eq_of_lt (by omega)]
      split_ifs <;> omega
  · rw [if_neg hok] at h
    cases h
    exact ⟨hlt, .inl ⟨rfl, rfl⟩⟩

theorem content_append {r r' : RegularFile} {base : ℕ} {l : List UInt8}
    (hr : r.content base l.length = l) (hlt : ∀ i < base + l.length, r'.data i = r.data i)
    (hput : ∀ j b, src[j]? = some b → r'.data (base + l.length + j) = b) :
    r'.content base (l ++ src).length = l ++ src := by
  rw [content, length_append, range_add, map_append, List.map_map]
  congr 1
  · refine Eq.trans (map_congr_left fun i hi => ?_) hr
    exact hlt _ (Nat.add_lt_add_left (mem_range.1 hi) _)
  · refine ext_getElem? fun j => ?_
    rw [List.getElem?_map]
    by_cases hj : j < src.length
    · rw [List.getElem?_range hj, List.getElem?_eq_getElem hj, map_some, comp_apply,
        ← Nat.add_assoc, hput j _ (List.getElem?_eq_getElem hj)]
    · rw [List.getElem?_eq_none (by simpa using hj), List.getElem?_eq_none (by simpa using hj)]
      rfl

end RegularFile

/-! ## Duplicates -/

/-- The file is not one of the regular file `num`, or has these flags. -/
def File.Kind (num flags : ℕ) (f : File) : Prop := f.inode = .regular num → f.flags = flags

theorem File.Kind.congr {num flags : ℕ} {f g : File} (h : f.Kind num flags) (hi : g.inode = f.inode)
    (hf : g.flags = f.flags) : g.Kind num flags := fun hg => hf.trans (h (hi ▸ hg))

namespace FileHeap

variable {h h' h'' : FileHeap} {f g : File}

theorem copy_regular (hc : h.copy f = some (h', g)) :
    h'.regular = h.regular ∧ g.inode = f.inode ∧ g.flags = f.flags := by
  rw [copy] at hc
  split at hc
  next p hi =>
    obtain ⟨pipe, -, ⟨⟩⟩ := map_eq_some_iff.1 hc
    exact ⟨rfl, rfl, rfl⟩
  · cases hc
    exact ⟨rfl, rfl, rfl⟩

theorem close_regular (hc : h.close f = some h') : h'.regular = h.regular := by
  rw [close] at hc
  split at hc
  next p hi =>
    obtain ⟨pipe, -, rfl⟩ := map_eq_some_iff.1 hc
    split_ifs <;> rfl
  · cases hc
    rfl

/-- A write is refused, or is one to a regular file. -/
theorem exists_of_write {blockMapAlloc : ℕ → Bool} {src : List UInt8} {n : ℤ}
    (hw : h.write blockMapAlloc f src = some (h', g, n)) :
    (g.inode = f.inode ∧ g.flags = f.flags) ∧ (h' = h ∧ n = -1 ∨
      ∃ num r, f.inode = .regular num ∧ (h.regular num).write h.blockSize blockMapAlloc
        (if f.flags &&& oAppend ≠ 0 then none else some f.offset) src = (r, n) ∧
          h' = { h with regular := update h.regular num r }) := by
  rw [write] at hw
  split at hw
  · cases hw
    exact ⟨⟨rfl, rfl⟩, .inl ⟨rfl, rfl⟩⟩
  split at hw
  next num hi =>
    cases hw
    exact ⟨(f.advance_spec _).2, .inr ⟨num, _, hi, rfl, rfl⟩⟩
  · cases hw

end FileHeap

namespace FdTable

variable {num flags fd : ℕ} {t t' c c' : FdTable} {h h' h₀ : FileHeap} {f : File} {n : ℤ}

/-- All descriptors of the file have these flags. -/
def Every (num flags : ℕ) (t : FdTable) : Prop := ∀ fd f, t.fds fd = some f → f.Kind num flags

variable (ht : t.Every num flags)

include ht

theorem Every.set {o : Option File} (ho : ∀ f ∈ o, f.Kind num flags) :
    (t.set fd o).Every num flags := by
  intro i f hf
  by_cases hi : i = fd
  · rw [hi, set_fds_self] at hf
    exact ho f hf
  · rw [set_fds_of_ne hi] at hf
    exact ht i f hf

theorem Every.fill (hf : f.Kind num flags) :
    (t.set fd (some f)).Every num flags := ht.set fun _ hg => Option.some.inj hg ▸ hf

theorem Every.clear : (t.set fd none).Every num flags :=
  ht.set fun _ hg => by cases hg

theorem Every.get (hf : t.get n = some f) : f.Kind num flags := by
  rw [FdTable.get] at hf
  split_ifs at hf
  exact ht _ f hf

/-- What a call may do, apart from writing. -/
def Passes (num flags : ℕ) (h₀ : FileHeap) (r : Option (FdTable × FileHeap × ℤ)) : Prop :=
  ∀ t h n, r = some (t, h, n) → t.Every num flags ∧ h.regular = h₀.regular

theorem passes_self (hc : h.regular = h₀.regular) (n : ℤ) : Passes num flags h₀ (some (t, h, n)) := by
  rintro t h n he
  cases he
  exact ⟨ht, hc⟩

/-- A file is closed, and that is all. -/
theorem passes_close {k : ℤ} (hc : h.regular = h₀.regular) :
    Passes num flags h₀ ((h.close f).map fun h => (t, h, k)) := by
  intro t' h' n' he
  obtain ⟨h₁, hh, ⟨⟩⟩ := map_eq_some_iff.1 he
  exact ⟨ht, (FileHeap.close_regular hh).trans hc⟩

theorem allocOrClose_passes {min : ℕ} (hf : f.Kind num flags)
    (hc : h.regular = h₀.regular) : Passes num flags h₀ (t.allocOrClose f min h) := by
  rw [allocOrClose]
  split
  · exact passes_self (ht.fill hf) hc _
  · exact passes_close ht hc

theorem close_passes : Passes num flags h (t.close n h) := by
  rw [FdTable.close]
  split
  · exact passes_close ht.clear rfl
  · exact passes_self ht rfl _

theorem allocAt_passes (hf : f.Kind num flags) (hc : h.regular = h₀.regular) :
    Passes num flags h₀ (t.allocAt fd f h) := by
  rw [allocAt]
  split
  · exact passes_close (ht.fill hf) hc
  · exact passes_self (ht.fill hf) hc _

theorem withCopy_passes {k : File → FileHeap → Option (FdTable × FileHeap × ℤ)}
    (hk : ∀ f h', f.Kind num flags → h'.regular = h.regular → Passes num flags h (k f h')) :
    Passes num flags h (t.withCopy n h k) := by
  rw [withCopy]
  split
  next f hf =>
    intro t' h' n' he
    obtain ⟨⟨h₁, g⟩, hcopy, he⟩ := bind_eq_some_iff.1 he
    obtain ⟨hc, hi, hfl⟩ := FileHeap.copy_regular hcopy
    exact hk g h₁ ((ht.get hf).congr hi hfl) hc t' h' n' he
  · exact passes_self ht rfl _

theorem pipe2_passes {buf : ℕ → UInt8} {writable : Bool} :
    Passes num flags h (t.pipe2 buf writable h) := by
  have hend (id p w : ℕ) : File.Kind num flags ⟨id, .pipe p, w, 0⟩ := fun hi => by cases hi
  -- Both ends are closed if there is no slot for one of them.
  have hclose {t' : FdTable} {h' : FileHeap} {f g : File} (ht' : t'.Every num flags)
      (hc : h'.regular = h.regular) : Passes num flags h
        ((h'.close f).bind fun h => (h.close g).map fun h => (t', h, -24)) := by
    intro t1 h₁ n1 he
    obtain ⟨h₂, hh, he⟩ := bind_eq_some_iff.1 he
    exact passes_close ht' ((FileHeap.close_regular hh).trans hc) t1 h₁ n1 he
  rw [pipe2]
  split_ifs
  · dsimp only [FileHeap.openFile]
    split
    · exact hclose ht rfl
    · split
      · exact hclose (ht.fill (hend _ _ _)).clear rfl
      · exact passes_self ((ht.fill (hend _ _ _)).fill (hend _ _ _)) rfl _
  · exact passes_self ht rfl _

/-- Every call which does not write, nor open the file once more. -/
theorem call_passes {c : FdCall} (hw : ∀ fd src blockMapAlloc, c ≠ .write fd src blockMapAlloc)
    (ho : ∀ flags, c ≠ .openRegular num flags) : Passes num flags h (t.call h c) := by
  cases c with
  | pipe2 buf writable => exact pipe2_passes ht
  | dup | dupFd => exact withCopy_passes ht fun f h hf hc => allocOrClose_passes ht hf hc
  | dup3 oldfd newfd =>
    rw [call, dup3]
    split_ifs
    · exact passes_self ht rfl _
    · exact passes_self ht rfl _
    · exact withCopy_passes ht fun f h hf hc => allocAt_passes ht hf hc
  | close n => exact close_passes ht
  | openRegular num' flags' =>
    refine allocOrClose_passes ht (fun hi => ?_) rfl
    cases hi
    exact absurd rfl (ho flags')
  | write n src blockMapAlloc => exact absurd rfl (hw n src blockMapAlloc)

theorem cloneRest_passes {n : ℕ} (hc : c.Every num flags)
    (hs : cloneRest n fd t c h = some (c', h')) : c'.Every num flags ∧ h'.regular = h.regular := by
  induction n generalizing fd c h with
  | zero =>
    cases hs
    exact ⟨hc, rfl⟩
  | succ n ih =>
    rw [cloneRest] at hs
    split at hs
    next f hf =>
      obtain ⟨⟨h₁, g⟩, hcopy, hs⟩ := bind_eq_some_iff.1 hs
      obtain ⟨hreg, hi, hfl⟩ := FileHeap.copy_regular hcopy
      obtain ⟨he, hreg'⟩ := ih (hc.fill ((ht fd f hf).congr hi hfl)) hs
      exact ⟨he, hreg'.trans hreg⟩
    · exact ih hc hs

omit ht

theorem closeRest_passes {n : ℕ} (hs : closeRest n fd t h = some (t', h')) : h'.regular = h.regular := by
  induction n generalizing fd t h with
  | zero =>
    cases hs
    rfl
  | succ n ih =>
    rw [closeRest] at hs
    split at hs
    next f hf =>
      obtain ⟨h₁, hclose, hs⟩ := bind_eq_some_iff.1 hs
      exact (ih hs).trans (FileHeap.close_regular hclose)
    · exact ih hs

end FdTable

/-! ## Runs -/

/-- The regular file which is opened. -/
def FilesEvent.opens : FilesEvent → Option ℕ
  | .call _ (.openRegular num _) => some num
  | _ => none

/-- The files, one which is open, where it was when it was opened, and what has been written since
    then. -/
structure Written where
  files : Files
  num : ℕ
  base : ℕ
  written : List UInt8

namespace Written

variable (s : Written)

/-- The file through which a step writes to the regular file, and the buffer. -/
def target : FilesEvent → Option (File × List UInt8)
  | .call t (.write fd src _) => (((s.files.table t).get fd).filter
      fun f => f.inode = .regular s.num).map fun f => (f, src)
  | _ => none

/-- One step, in which a buffer may be written. -/
def step (ev : FilesEvent) : Option (Written × ℤ) :=
  (s.files.step ev).map fun (r : Files × ℤ) => ({ s with
    files := r.1
    written := if 0 < r.2 then s.written ++ ((s.target ev).map Prod.snd).getD [] else s.written },
    r.2)

/-- The end of what has been written. -/
def last : ℕ := s.base + s.written.length

/-- The file is not opened once more. -/
def Once (ev : FilesEvent) : Prop := ev.opens ≠ some s.num

/-- Every write is at the end of the last one, and `i_size` and what it returns are not too large. -/
def InTurn (ev : FilesEvent) : Prop :=
  s.Once ev ∧ ∀ w ∈ s.target ev, (w.1.flags &&& oAppend ≠ 0 ∨ w.1.offset = s.last) ∧
    w.2.length < 2 ^ 31 ∧ s.last + w.2.length < 2 ^ 32

/-- The file is open as `f`. -/
def opened (files : Files) (num : ℕ) (f : File) : Written where
  files := files
  num := num
  base := if f.flags &&& oAppend ≠ 0 then (files.heap.regular num).size else f.offset
  written := []

instance (ev : FilesEvent) : Decidable (s.Once ev) := inferInstanceAs (Decidable (_ ≠ _))

instance (ev : FilesEvent) : Decidable (s.InTurn ev) := inferInstanceAs (Decidable (_ ∧ _))

/-- The buffers follow each other in the file. All descriptors of it have the same flags. -/
structure Sound (flags : ℕ) (s : Written) : Prop where
  every : ∀ t ∈ s.files.live, (s.files.table t).Every s.num flags
  content : (s.files.heap.regular s.num).content s.base s.written.length = s.written
  size : s.written ≠ [] → s.last ≤ (s.files.heap.regular s.num).size
  append : flags &&& oAppend ≠ 0 → (s.files.heap.regular s.num).size = s.last

variable {s} {s' : Written} {flags : ℕ} {ev : FilesEvent} {n : ℤ} {f : Files}

theorem target_eq_none (hev : ∀ t fd src blockMapAlloc, ev ≠ .call t (.write fd src blockMapAlloc)) :
    s.target ev = none := by
  unfold target
  split
  next t fd src blockMapAlloc => exact absurd rfl (hev t fd src blockMapAlloc)
  · rfl

/-- Nothing is written to the file. -/
theorem Sound.calm (h : s.Sound flags) (hev : ∀ t ∈ f.live, (f.table t).Every s.num flags)
    (hr : f.heap.regular s.num = s.files.heap.regular s.num) :
    Sound flags { s with files := f } where
  every := hev
  content := by
    rw [hr]
    exact h.content
  size := by
    rw [hr]
    exact h.size
  append := by
    rw [hr]
    exact h.append

/-- The table `t` is changed. -/
theorem Sound.every_set {t : ℕ} {tbl : FdTable} (h' : FileHeap) (h : s.Sound flags)
    (ht : tbl.Every s.num flags) : ∀ q ∈ (s.files.set t tbl h').live,
      ((s.files.set t tbl h').table q).Every s.num flags := by
  intro q hq
  by_cases hqt : q = t
  · rwa [hqt, Files.set_table_self]
  · rw [Files.set_table_of_ne _ hqt]
    exact h.every q hq

/-- What is not a write. -/
theorem Sound.other (h : s.Sound flags) (hev : s.Once ev)
    (hw : ∀ t fd src blockMapAlloc, ev ≠ .call t (.write fd src blockMapAlloc))
    (hs : s.files.step ev = some (f, n)) : Sound flags { s with files := f } := by
  cases ev with
  | call t c =>
    rw [Files.step] at hs
    split_ifs at hs with ht
    obtain ⟨⟨tbl, h', n'⟩, hc, ⟨⟩⟩ := map_eq_some_iff.1 hs
    obtain ⟨hE, hreg⟩ := FdTable.call_passes (h.every t ht)
      (fun fd src a hc => hw t fd src a (hc ▸ rfl)) (fun fl hc => hev (hc ▸ rfl)) tbl h' _ hc
    exact h.calm (h.every_set _ hE) (congrFun hreg _)
  | clone t copy =>
    rw [Files.step] at hs
    split_ifs at hs with ht
    obtain ⟨⟨tbl, h'⟩, hc, ⟨⟩⟩ := map_eq_some_iff.1 hs
    obtain ⟨hE, hreg⟩ := FdTable.cloneRest_passes (h.every t ht.1)
      (fun _ _ hf => absurd hf.symm (some_ne_none _)) hc
    refine h.calm (fun q hq => ?_) (congrFun hreg _)
    by_cases hqc : q = copy
    · rwa [hqc, Files.add_table_self]
    · rw [Files.add_table_of_ne _ hqc]
      exact h.every q ((Finset.mem_insert.1 hq).resolve_left hqc)
  | acquire t =>
    rw [Files.step] at hs
    split_ifs at hs with ht
    cases hs
    exact h.calm (h.every_set _ (h.every t ht)) rfl
  | release t =>
    rw [Files.step] at hs
    split_ifs at hs with ht
    obtain ⟨s1, hs1, ⟨⟩⟩ := map_eq_some_iff.1 hs
    rw [Files.release] at hs1
    split_ifs at hs1
    · obtain ⟨⟨tbl, h'⟩, hc, rfl⟩ := map_eq_some_iff.1 hs1
      exact h.calm (fun q hq => h.every q (Finset.mem_of_mem_erase hq))
        (congrFun (FdTable.closeRest_passes hc) _)
    · cases hs1
      exact h.calm (h.every_set _ (h.every t ht)) rfl

/-- A buffer is written, or nothing is. -/
theorem Sound.write {g : File} {blockMapAlloc : ℕ → Bool} {src : List UInt8} {r : RegularFile}
    (h : s.Sound flags) (hg : g.flags = flags)
    (hturn : g.flags &&& oAppend ≠ 0 ∨ g.offset = s.last) (hlen : src.length < 2 ^ 31)
    (hend : s.last + src.length < 2 ^ 32)
    (hr : (s.files.heap.regular s.num).write s.files.heap.blockSize blockMapAlloc
      (if g.flags &&& oAppend ≠ 0 then none else some g.offset) src = (r, n))
    (hev : ∀ t ∈ f.live, (f.table t).Every s.num flags) (hf : f.heap.regular s.num = r) :
    Sound flags ⟨f, s.num, s.base, if 0 < n then s.written ++ src else s.written⟩ := by
  have hpos : (if g.flags &&& oAppend ≠ 0 then none else some g.offset).getD
      (s.files.heap.regular s.num).size = s.last := by
    split_ifs with ha
    · exact h.append (hg ▸ ha)
    · exact hturn.resolve_left ha
  have hb : 0 < s.files.heap.blockSize := by
    rw [FileHeap.blockSize, shiftLeft_eq]
    positivity
  obtain ⟨hlt, ⟨rfl, hsize⟩ | ⟨rfl, hsrc, hput, hsize⟩⟩ := RegularFile.write_spec hb hr hpos hlen hend
  · -- Only bytes behind the end have changed.
    rw [if_neg (by decide)]
    refine ⟨hev, ?_, ?_, ?_⟩
    · rw [hf]
      refine Eq.trans (map_congr_left fun i hi => ?_) h.content
      exact hlt _ (Nat.add_lt_add_left (mem_range.1 hi) _)
    · rw [hf, hsize]
      exact h.size
    · rw [hf, hsize]
      exact h.append
  · rw [if_pos (by omega)]
    have hlast : last ⟨f, s.num, s.base, s.written ++ src⟩ = s.last + src.length := by
      rw [last, last, length_append, Nat.add_assoc]
    refine ⟨hev, ?_, fun _ => ?_, fun ha => ?_⟩
    · rw [hf]
      exact RegularFile.content_append h.content hlt hput
    · rw [hlast]
      rw [hf, hsize]
      exact le_max_right _ _
    · rw [hlast]
      rw [hf, hsize, h.append ha]
      exact max_eq_right (Nat.le_add_right _ _)

theorem Sound.step (h : s.Sound flags) (hev : s.InTurn ev) (hs : s.step ev = some (s', n)) :
    s'.Sound flags := by
  obtain ⟨⟨f, n'⟩, hf, ⟨⟩⟩ := map_eq_some_iff.1 hs
  by_cases hw : ∃ t fd src blockMapAlloc, ev = .call t (.write fd src blockMapAlloc)
  · obtain ⟨t, fd, src, blockMapAlloc, rfl⟩ := hw
    rw [Files.step] at hf
    split_ifs at hf with ht
    obtain ⟨⟨tbl, h', n''⟩, hc, ⟨⟩⟩ := map_eq_some_iff.1 hf
    have hturn := hev.2
    rw [target] at hturn ⊢
    rw [FdTable.call, FdTable.write] at hc
    cases hg : (s.files.table t).get fd with
    | none =>
      rw [hg] at hc
      cases hc
      exact h.calm (h.every_set _ (h.every t ht)) rfl
    | some g =>
      rw [hg] at hc hturn
      obtain ⟨⟨h₁, g', n1⟩, hwrite, ⟨⟩⟩ := map_eq_some_iff.1 hc
      have hkind := (h.every t ht).get hg
      obtain ⟨⟨hi, hfl⟩, ⟨rfl, rfl⟩ | ⟨num, r, hnum, hr, rfl⟩⟩ :=
        FileHeap.exists_of_write hwrite
      · exact h.calm (h.every_set _ ((h.every t ht).fill (hkind.congr hi hfl))) rfl
      have hset : ((s.files.table t).set fd.toNat (some g')).Every s.num flags :=
        (h.every t ht).fill (hkind.congr hi hfl)
      have hE := h.every_set (t := t) { s.files.heap with
        regular := update s.files.heap.regular num r } hset
      by_cases hn : num = s.num
      · rw [hn] at hnum hr hE ⊢
        rw [filter_some_pos (p := fun f : File => decide (f.inode = .regular s.num))
          (decide_eq_true hnum)] at hturn ⊢
        obtain ⟨hturn, hlen, hend⟩ := hturn _ rfl
        exact h.write (hkind hnum) hturn hlen hend hr hE (update_self ..)
      · rw [filter_some_neg (by rw [hnum]; simpa using hn)]
        have hcalm := h.calm hE (update_of_ne (Ne.symm hn) _ _)
        split_ifs
        · rwa [map_none, map_none, getD_none, append_nil]
        · exact hcalm
  · have hw' : ∀ t fd src blockMapAlloc, ev ≠ .call t (.write fd src blockMapAlloc) :=
      fun t fd src a he => hw ⟨t, fd, src, a, he⟩
    rw [target_eq_none hw', map_none, getD_none, append_nil, ite_self]
    exact h.other hev.1 hw' hf

/-- In every run from a state in which one descriptor of the file is open, and in which every write
    is at the end of the last one: the buffers which were written are in the file from where it was
    open on, one after the other. -/
theorem reachable_content {files : Files} {num : ℕ} {f : File}
    (hf : ∀ t ∈ files.live, ∀ fd g, (files.table t).fds fd = some g → g.inode = .regular num → g = f)
    (hrun : Reaches (fun s : Written => s.step) InTurn (opened files num f) s) :
    (s.files.heap.regular s.num).content s.base s.written.length = s.written ∧
    (s.written ≠ [] → s.base + s.written.length ≤ (s.files.heap.regular s.num).size) := by
  have h : s.Sound f.flags := by
    refine hrun.inv (I := Sound f.flags) (fun _ _ _ _ hI hev hs => hI.step hev hs)
      ⟨fun t ht fd g hg hi => ?_, rfl, fun hne => absurd rfl hne, fun ha => ?_⟩
    · rw [hf t ht fd g hg hi]
    · rw [last, opened, if_pos ha]
      rfl
  exact ⟨h.content, h.size⟩

/-- The regular file `0` is open for writing. -/
def writable : Files :=
  lastState (guarded (fun s : Files => s.step) fun _ _ => True) (.start 0 fun _ => ⟨fun _ => 0, 0⟩)
    [.call 0 (.openRegular 0 oWronly)]

/-- Its descriptor. -/
def writer : File := ⟨3, .regular 0, oWronly, 0⟩

/-- A descriptor is duplicated after the first write, and the first one is not used any more. -/
def duplicated : Written :=
  lastState (guarded (fun s : Written => s.step) InTurn) (opened writable 0 writer)
    [.call 0 (.write 3 [1, 2] fun _ => true), .call 0 (.dup 3), .call 0 (.write 4 [3] fun _ => true)]

/-- The only descriptor of the file. -/
theorem writable_only : ∀ t ∈ writable.live, ∀ fd g, (writable.table t).fds fd = some g →
    g.inode = .regular 0 → g = writer := by
  intro t ht fd g hg hi
  obtain rfl : t = 0 := Finset.mem_singleton.1 ht
  change ((((FdTable.new.set 0 _).set 1 _).set 2 _).set 3 _).fds fd = _ at hg
  simp only [FdTable.set, FdTable.new, update_apply] at hg
  split_ifs at hg
  · exact (Option.some.inj hg).symm
  all_goals
    cases hg
    cases hi

/-- Both writes are in the file. -/
theorem reachable_content_duplicated : duplicated.written = [1, 2, 3] ∧
    (duplicated.files.heap.regular duplicated.num).content duplicated.base duplicated.written.length =
      duplicated.written :=
  ⟨by decide +kernel, (reachable_content writable_only (Reaches.lastState _ _)).1⟩

/-- A descriptor is duplicated before both are written to. -/
def overwritten : Written :=
  lastState (guarded (fun s : Written => s.step) Once) (opened writable 0 writer)
    [.call 0 (.dup 3), .call 0 (.write 3 [1] fun _ => true), .call 0 (.write 4 [2] fun _ => true)]

/-- The second write overwrites what the first one wrote. -/
theorem overwritten_content :
    Reaches (fun s : Written => s.step) Once (opened writable 0 writer) overwritten ∧
    overwritten.written = [1, 2] ∧ (overwritten.files.heap.regular 0).size = 1 ∧
    (overwritten.files.heap.regular 0).content 0 2 = [2, 0] :=
  ⟨.lastState _ _, by decide +kernel, by decide +kernel, by decide +kernel⟩

end Written

end HobbyOS
