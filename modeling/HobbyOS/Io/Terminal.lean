import Mathlib

/-!
# The terminal

`TTYInode::read`. In canonical mode a line is edited in `m_lineBuffer` as it is typed, and a read
takes what it has space for from the front of the line, or waits for a line if there is none. What
will be typed is known from the start here, and a read which waits for more than that does not
return. What is echoed is left out.

The reference is `TTYInode.lines`: what is typed, cut where a line ends, and every part edited on
its own. Each read takes from one line (`Taken`), whatever its length.
-/

namespace HobbyOS

open List

/-- The fields of `m_termios` which `read` looks at, and `m_fgPgid`. -/
structure Termios where
  lflag : ℕ
  cc : ℕ → UInt8
  fgPgid : ℤ

namespace Termios

/-- `ISIG`. -/
def isig : ℕ := 1

/-- `ICANON`. -/
def icanon : ℕ := 2

variable (t : Termios) (c : UInt8)

/-- The character sends a signal: it is `VINTR`, `VQUIT` or `VSUSP`. -/
def Signals : Prop :=
  t.lflag &&& isig ≠ 0 ∧ 0 < t.fgPgid ∧ (c = t.cc 0 ∨ c = t.cc 1 ∨ c = t.cc 10)

/-- The character is `VEOF`. -/
def EndsFile : Prop := t.lflag &&& icanon ≠ 0 ∧ c = t.cc 4

/-- The character is `VERASE`, a backspace or 127. -/
def Erases : Prop := c = t.cc 2 ∨ c = 8 ∨ c = 127

instance : Decidable (t.Signals c) := inferInstanceAs (Decidable (_ ∧ _))

instance : Decidable (t.EndsFile c) := inferInstanceAs (Decidable (_ ∧ _))

instance : Decidable (t.Erases c) := inferInstanceAs (Decidable (_ ∨ _))

end Termios

/-- The terminal: the first `m_lineLen` bytes of `m_lineBuffer`, and what will be typed. -/
structure TTYInode where
  termios : Termios
  line : List UInt8
  input : List UInt8

namespace TTYInode

/-- `BUFFER_SIZE`. -/
def bufferSize : ℕ := 1024

/-- `TTYInode::TTYInode`. -/
def new (input : List UInt8) : TTYInode where
  termios.lflag := 0b111011
  termios.cc i := [3, 28, 127, 21, 4, 0, 1, 0, 17, 19, 26].getD i 0
  termios.fgPgid := 0
  line := []
  input := input

/-- A byte is put at the end of the line if there is space for it. -/
def put (line : List UInt8) (c : UInt8) : List UInt8 :=
  if line.length < bufferSize then line ++ [c] else line

/-- The inner loop of `TTYInode::read`: the line, whether the end of the file ended it, and what is
    typed after it. -/
def readLine (t : Termios) : List UInt8 → List UInt8 → Option (List UInt8 × Bool × List UInt8)
  | _, [] => none
  | line, c :: input =>
    if t.Signals c then readLine t [] input
    else if t.EndsFile c then some (line, true, input)
    else if t.Erases c then readLine t line.dropLast input
    else if c = 13 ∨ c = 10 then some (put line 10, false, input)
    else readLine t (put line c) input

/-- What is left of the line, and the bytes which are copied. -/
def copyLine (s : TTYInode) (len : ℕ) : TTYInode × List UInt8 :=
  ({ s with line := s.line.drop len }, s.line.take len)

/-- `TTYInode::read`. `m_canonical` says whether `ICANON` is set. -/
def read (s : TTYInode) (len : ℕ) : Option (TTYInode × List UInt8) :=
  if len = 0 then some (s, [])
  else if s.termios.lflag &&& Termios.icanon ≠ 0 then
    if s.line = [] then
      -- The outer loop ends here: a line is not empty, unless the end of the file ended it.
      (readLine s.termios [] s.input).map fun r => copyLine ⟨s.termios, r.1, r.2.2⟩ len
    else some (s.copyLine len)
  else if len ≤ s.input.length then some ({ s with input := s.input.drop len }, s.input.take len)
  else none

/-- What reads of these lengths return, as far as they return. -/
def reads : TTYInode → List ℕ → List (List UInt8)
  | _, [] => []
  | s, len :: lens => (s.read len).elim [] fun r => r.2 :: reads r.1 lens

/-! ## The reference -/

/-- One character of a line. -/
def edit (t : Termios) (line : List UInt8) (c : UInt8) : List UInt8 :=
  if t.Erases c then line.dropLast else put line c

/-- A line, from the characters which are typed before it ends. -/
def editLine (t : Termios) (typed : List UInt8) : List UInt8 := typed.foldl (edit t) []

/-- The lines, and whether the end of the file ended them, when the first one has begun already. -/
def lines (t : Termios) : List UInt8 → List UInt8 → List (List UInt8 × Bool)
  | _, [] => []
  | typed, c :: input =>
    if t.EndsFile c then (editLine t typed, true) :: lines t [] input
    else if ¬ t.Erases c ∧ (c = 13 ∨ c = 10) then
      (put (editLine t typed) 10, false) :: lines t [] input
    else lines t (typed ++ [c]) input

/-- What reads may return: each of them takes bytes from the front of one line, or returns nothing
    for a line which is empty when the file ends. -/
inductive Taken : List (List UInt8 × Bool) → List (List UInt8) → Prop
  | nil (lines) : Taken lines []
  | eof {lines reads} : Taken lines reads → Taken (([], true) :: lines) ([] :: reads)
  | part {a b e lines reads} : a ≠ [] → b ≠ [] → Taken ((b, e) :: lines) reads →
    Taken ((a ++ b, e) :: lines) (a :: reads)
  | rest {a e lines reads} : a ≠ [] → Taken lines reads → Taken ((a, e) :: lines) (a :: reads)

/-- What is returned is a prefix of the lines. -/
theorem Taken.flatten_prefix {lines reads} (h : Taken lines reads) :
    reads.flatten <+: (lines.map Prod.fst).flatten := by
  induction h with
  | nil => exact nil_prefix
  | eof _ ih => exact ih
  | @part a b _ _ _ _ _ _ ih =>
    rw [map_cons, flatten_cons, flatten_cons, append_assoc]
    exact (prefix_append_right_inj a).2 ih
  | @rest a _ _ _ _ _ ih => exact (prefix_append_right_inj a).2 ih

variable {t : Termios} {s : TTYInode} {L : List (List UInt8 × Bool)} {line typed input : List UInt8}

theorem put_ne_nil (c : UInt8) : put line c ≠ [] := by
  rw [put]
  split_ifs with h
  · exact append_ne_nil_of_right_ne_nil _ (cons_ne_nil _ _)
  · rintro rfl
    exact h (by decide)

theorem editLine_concat (c : UInt8) : editLine t (typed ++ [c]) = edit t (editLine t typed) c :=
  foldl_append ..

/-- The loop reads the first of these lines if there is one, and the others are typed after it. -/
def ReadsFirst (t : Termios) (line input typed : List UInt8) (L : List (List UInt8 × Bool)) :
    Prop :=
  readLine t line input = none ∧ L = [] ∨
    ∃ first e rest, readLine t line input = some (first, e, rest) ∧
      L = (first, e) :: lines t [] rest ∧ (first = [] → e = true) ∧ rest <:+ typed

theorem readLine_spec (hs : ∀ c ∈ input, ¬ t.Signals c) :
    ReadsFirst t (editLine t typed) input input (lines t typed input) := by
  induction input generalizing typed with
  | nil => exact .inl ⟨rfl, rfl⟩
  | cons c input ih =>
    have hsuffix : input <:+ c :: input := suffix_cons c input
    -- The character may not end the line; then what has been typed goes on with it.
    have hmore : ReadsFirst t (edit t (editLine t typed) c) input (c :: input)
        (lines t (typed ++ [c]) input) := by
      rw [← editLine_concat]
      rcases @ih (typed ++ [c]) fun c hc => hs c (hsuffix.subset hc) with h | h
      · exact .inl h
      · obtain ⟨first, e, rest, h, hl, he, hr⟩ := h
        exact .inr ⟨first, e, rest, h, hl, he, hr.trans hsuffix⟩
    rw [edit] at hmore
    rw [ReadsFirst, readLine, if_neg (hs c mem_cons_self), lines]
    by_cases heof : t.EndsFile c
    · rw [if_pos heof, if_pos heof]
      exact .inr ⟨_, _, _, rfl, rfl, fun _ => rfl, hsuffix⟩
    rw [if_neg heof, if_neg heof]
    by_cases herase : t.Erases c
    · rw [if_pos herase, if_neg fun h => h.1 herase]
      rwa [if_pos herase] at hmore
    rw [if_neg herase] at hmore ⊢
    by_cases hend : c = 13 ∨ c = 10
    · rw [if_pos hend, if_pos ⟨herase, hend⟩]
      exact .inr ⟨_, _, _, rfl, rfl, fun h => absurd h (put_ne_nil _), hsuffix⟩
    · rwa [if_neg hend, if_neg fun h => hend h.2]

/-- What is still to be read, when the front of a line may have been read already. -/
def Pending (s : TTYInode) (L : List (List UInt8 × Bool)) : Prop :=
  s.line = [] ∧ L = lines s.termios [] s.input ∨
    s.line ≠ [] ∧ ∃ e, L = (s.line, e) :: lines s.termios [] s.input

/-- A read from a line. -/
theorem taken_copyLine {len : ℕ} {e : Bool} {reads : List (List UInt8)} (hlen : 0 < len)
    (hline : s.line ≠ []) (hreads : ∀ L, Pending (s.copyLine len).1 L → Taken L reads) :
    Taken ((s.line, e) :: lines s.termios [] s.input) ((s.copyLine len).2 :: reads) := by
  have htake : s.line.take len ≠ [] := by
    rw [Ne, take_eq_nil_iff, not_or]
    exact ⟨hlen.ne', hline⟩
  by_cases hdrop : s.line.drop len = []
  · have hall : s.line.take len = s.line := by
      rw [← append_nil (s.line.take len), ← hdrop, take_append_drop]
    rw [copyLine, hall]
    exact .rest hline (hreads _ (.inl ⟨hdrop, rfl⟩))
  · have hrest := hreads _ (.inr ⟨hdrop, e, rfl⟩)
    nth_rewrite 1 [← take_append_drop len s.line]
    exact .part htake hdrop hrest

theorem reads_taken (hcanon : s.termios.lflag &&& Termios.icanon ≠ 0)
    (hs : ∀ c ∈ s.input, ¬ s.termios.Signals c) {lens : List ℕ} (hlens : ∀ len ∈ lens, 0 < len)
    (hL : s.Pending L) : Taken L (s.reads lens) := by
  induction lens generalizing s L with
  | nil => exact .nil L
  | cons len lens ih =>
    have hlen := hlens len mem_cons_self
    have ih {s' L'} (hL : Pending s' L') (ht : s'.termios = s.termios) (hi : s'.input <:+ s.input) :
        Taken L' (s'.reads lens) :=
      ih (by rwa [ht]) (by rw [ht]; exact fun c hc => hs c (hi.subset hc))
        (fun len h => hlens len (mem_cons_of_mem _ h)) hL
    rw [reads, read, if_neg hlen.ne', if_pos hcanon]
    rcases hL with ⟨hline, rfl⟩ | ⟨hline, e, rfl⟩
    · rw [if_pos hline]
      -- There is no line yet: the next one is read.
      obtain ⟨hnone, hl⟩ | ⟨line, e, rest, hsome, hl, he, hr⟩ :
          ReadsFirst s.termios [] s.input s.input _ := @readLine_spec _ [] _ hs
      · rw [hnone, hl]
        exact .nil _
      · rw [hsome, hl]
        by_cases hempty : line = []
        · obtain rfl := hempty
          obtain rfl := he rfl
          rw [Option.map_some, Option.elim_some, copyLine, drop_nil, take_nil]
          exact .eof (ih (.inl ⟨rfl, rfl⟩) rfl hr)
        · exact taken_copyLine (s := ⟨s.termios, line, rest⟩) hlen hempty fun L hL => ih hL rfl hr
    · rw [if_neg hline]
      exact taken_copyLine hlen hline fun L hL => ih hL rfl suffix_rfl

/-- **Canonical input.** What is returned is a prefix of the lines, and every read takes from one
    line, or is ended by the end of the file in an empty line. -/
theorem reads_lines (s : TTYInode) (hcanon : s.termios.lflag &&& Termios.icanon ≠ 0)
    (hline : s.line = []) (hs : ∀ c ∈ s.input, ¬ s.termios.Signals c) (lens : List ℕ)
    (hlens : ∀ len ∈ lens, 0 < len) :
    (s.reads lens).flatten <+: ((lines s.termios [] s.input).map Prod.fst).flatten ∧
      Taken (lines s.termios [] s.input) (s.reads lens) := by
  have h := reads_taken hcanon hs hlens (.inl ⟨hline, rfl⟩)
  exact ⟨h.flatten_prefix, h⟩

/-- `a`, `b`, an erasure, `c`, a carriage return, `d`, and the end of the file twice. -/
def erasing : TTYInode := new [97, 98, 127, 99, 13, 100, 4, 4]

theorem reads_lines_erasing : erasing.reads [1, 5, 5, 5, 5] = [[97], [99, 10], [100], []] ∧
    Taken (lines erasing.termios [] erasing.input) (erasing.reads [1, 5, 5, 5, 5]) :=
  ⟨by decide +kernel,
    (reads_lines erasing (by decide +kernel) rfl (by decide +kernel) _ (by decide)).2⟩

end TTYInode

end HobbyOS
