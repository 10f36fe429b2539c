import HobbyOS.Machine
import HobbyOS.Ring

/-!
# Pipes

`PipeInode::read` and `PipeInode::write`, called by any number of readers and writers. The rounds of
their loops are what is done with `m_lock` held: a call is suspended between them at most, where it
yields or elsewhere, and others go on.

The pipe is deleted with its last end, whether a call is suspended in it or not (`onClose`). Such a
call goes on with what the allocator leaves of the pipe: `kfree` writes the end of the list of free
slots (`FREE_END`) over the first word of the buffer, which is alone in its slab.
-/

namespace HobbyOS

open Function List Nat

/-- `PIPE_BUF_SIZE`. -/
def pipeBufSize : ℕ := 4096

/-- `File::O_WRONLY`. -/
def oWronly : ℕ := 1

structure PipeInode where
  buf : ℕ → UInt8
  head : ℕ
  tail : ℕ
  count : ℕ
  readers : ℕ
  writers : ℕ

namespace PipeInode

variable (p : PipeInode)

/-- `PipeInode::PipeInode`, with the buffer as it is allocated. -/
def new (buf : ℕ → UInt8) : PipeInode := ⟨buf, 0, 0, 0, 1, 1⟩

/-- The loop of `read`: `n` bytes are taken out. -/
def take : ℕ → PipeInode → PipeInode × List UInt8
  | 0, p => (p, [])
  | n + 1, p =>
    let r := take n { p with tail := (p.tail + 1) % pipeBufSize }
    (r.1, p.buf p.tail :: r.2)

/-- The loop of `write`: bytes are put in. -/
def put : List UInt8 → PipeInode → PipeInode
  | [], p => p
  | b :: src, p =>
    put src { p with buf := update p.buf p.head b, head := (p.head + 1) % pipeBufSize }

/-- A round of the loop of `PipeInode::read`: the bytes it returns, or nothing if it yields. -/
def readRound (len : ℕ) : PipeInode × Option (List UInt8) :=
  if 0 < p.count then
    let toRead := if len < p.count then len else p.count
    let r := p.take toRead
    ({ r.1 with count := r.1.count - toRead }, some r.2)
  else if p.writers = 0 then (p, some [])
  else (p, none)

/-- How many bytes a round of the loop of `PipeInode::write` puts in. -/
def toWrite (len total : ℕ) : ℕ := min ((len - total) % 2 ^ 32) (pipeBufSize - p.count)

/-- A round of the loop of `PipeInode::write`, with the bytes it puts in, and what it returns. -/
def writeRound (src : List UInt8) (total : ℕ) : PipeInode × List UInt8 × Option ℤ :=
  if p.readers = 0 then (p, [], some (if 0 < total then total else -1))
  else if pipeBufSize - p.count = 0 then (p, [], none)
  else
    let bytes := (src.drop total).take (p.toWrite src.length total)
    let q := p.put bytes
    ({ q with count := q.count + p.toWrite src.length total }, bytes,
      if total + p.toWrite src.length total < src.length then none
      else some ((total + p.toWrite src.length total : ℕ) : ℤ))

/-- `PipeInode::onOpen`. -/
def onOpen (flags : ℕ) : PipeInode :=
  if flags &&& 3 = oWronly then { p with writers := p.writers + 1 }
  else { p with readers := p.readers + 1 }

/-- `PipeInode::onClose`, before the pipe is deleted. -/
def onClose (flags : ℕ) : PipeInode :=
  if flags &&& 3 = oWronly then { p with writers := p.writers - 1 }
  else { p with readers := p.readers - 1 }

/-- `shouldDelete`. -/
def Unused : Prop := p.readers = 0 ∧ p.writers = 0

instance : Decidable p.Unused := inferInstanceAs (Decidable (_ ∧ _))

/-- What the allocator leaves of a pipe which is deleted. -/
def free : PipeInode := { p with buf := fun i => if i < 4 then 255 else p.buf i }

end PipeInode

/-- A call, in progress or over. -/
inductive PipeCall
  | reading (len : ℕ)
  | writing (src : List UInt8) (total : ℕ)
  | read (n : ℕ)
  | wrote (src : List UInt8) (r : ℤ)

/-- The call has not returned. -/
def PipeCall.Pending : PipeCall → Prop
  | .reading _ => True
  | .writing _ _ => True
  | _ => False

instance (c : PipeCall) : Decidable c.Pending := by
  cases c <;> unfold PipeCall.Pending <;> infer_instance

/-- A pipe, the calls, and the history: the bytes which were put in, with the calls which did so,
    and the bytes which reads returned. -/
structure Piped where
  pipe : PipeInode
  deleted : Bool
  calls : List PipeCall
  stored : List (ℕ × UInt8)
  returned : List UInt8

/-- What happens next. -/
inductive PipeEvent
  /-- `PipeInode::read` is called. -/
  | read (len : ℕ)
  /-- `PipeInode::write` is called. -/
  | write (src : List UInt8)
  /-- A call goes on. -/
  | go (i : ℕ)
  /-- `PipeInode::onOpen`. -/
  | onOpen (flags : ℕ)
  /-- `PipeInode::onClose`. -/
  | onClose (flags : ℕ)

/-- What a call returns. -/
inductive PipeOut
  | none
  | bytes (l : List UInt8)
  | count (r : ℤ)

namespace Piped

variable (s : Piped)

/-- Nobody has called anything yet. -/
def start (buf : ℕ → UInt8) : Piped := ⟨.new buf, false, [], [], []⟩

/-- A round of a call. -/
def round (i : ℕ) : PipeCall → Option (Piped × PipeOut)
  | .reading len =>
    let r := s.pipe.readRound len
    match r.2 with
    | some l => some ({ s with
        pipe := r.1
        calls := s.calls.set i (.read l.length)
        returned := s.returned ++ l }, .bytes l)
    | none => some ({ s with pipe := r.1 }, .none)
  | .writing src total =>
    let r := s.pipe.writeRound src total
    let stored := s.stored ++ r.2.1.map (i, ·)
    match r.2.2 with
    | some n => some ({ s with
        pipe := r.1
        calls := s.calls.set i (.wrote src n)
        stored := stored }, .count n)
    | none => some ({ s with
        pipe := r.1
        calls := s.calls.set i (.writing src (total + r.2.1.length))
        stored := stored }, .none)
  | _ => none

/-- A call begins. -/
def begin (c : PipeCall) : Option (Piped × PipeOut) :=
  if s.deleted then none else round { s with calls := s.calls ++ [c] } s.calls.length c

/-- One step. -/
def step : PipeEvent → Option (Piped × PipeOut)
  | .read len => if 0 < len ∧ len < 2 ^ 31 then s.begin (.reading len) else none
  | .write src =>
    if 0 < src.length ∧ src.length < 2 ^ 31 then s.begin (.writing src 0) else none
  | .go i => s.calls[i]?.bind (s.round i)
  | .onOpen flags =>
    if s.deleted then none else some ({ s with pipe := s.pipe.onOpen flags }, .none)
  | .onClose flags =>
    if s.deleted then none
    else if (s.pipe.onClose flags).Unused then
      some ({ s with pipe := (s.pipe.onClose flags).free, deleted := true }, .none)
    else some ({ s with pipe := s.pipe.onClose flags }, .none)

end Piped

/-! ## The buffer -/

namespace PipeInode

variable {p : PipeInode} {l1 l2 src l : List UInt8}

/-- The bytes in a pipe, in the order in which they are read. -/
def Contains (p : PipeInode) (l : List UInt8) : Prop :=
  Queued pipeBufSize pipeBufSize p.buf p.tail p.head l ∧ p.tail < pipeBufSize ∧
    p.count = l.length ∧ l.length ≤ pipeBufSize

theorem take_spec (h : Queued pipeBufSize pipeBufSize p.buf p.tail p.head (l1 ++ l2))
    (ht : p.tail < pipeBufSize) :
    ∃ tail < pipeBufSize, p.take l1.length = ({ p with tail := tail }, l1) ∧
      Queued pipeBufSize pipeBufSize p.buf tail p.head l2 := by
  induction l1 generalizing p with
  | nil => exact ⟨p.tail, ht, rfl, h⟩
  | cons b l ih =>
    obtain ⟨hb, hq⟩ := h.pop
    rw [mod_eq_of_lt ht] at hb
    obtain ⟨tail, htail, he, hq'⟩ :=
      ih (p := { p with tail := (p.tail + 1) % pipeBufSize }) hq (mod_lt _ (by decide))
    refine ⟨tail, htail, ?_, hq'⟩
    rw [length_cons, take, he, hb]

theorem put_spec (h : Queued pipeBufSize pipeBufSize p.buf p.tail p.head l1)
    (ht : p.tail < pipeBufSize) (hl : l1.length + src.length ≤ pipeBufSize) :
    ∃ buf head, p.put src = { p with buf := buf, head := head } ∧
      Queued pipeBufSize pipeBufSize buf p.tail head (l1 ++ src) := by
  induction src generalizing p l1 with
  | nil =>
    rw [append_nil]
    exact ⟨p.buf, p.head, rfl, h⟩
  | cons b src ih =>
    rw [length_cons] at hl
    have hq := h.push dvd_rfl (by omega) ht b
    rw [mod_eq_of_lt (h.write_lt ht)] at hq
    obtain ⟨buf, head, he, hq'⟩ := ih (p := { p with
      buf := update p.buf p.head b
      head := (p.head + 1) % pipeBufSize }) hq ht (by
        rw [length_append, length_singleton]
        omega)
    rw [append_assoc, singleton_append] at hq'
    exact ⟨buf, head, by rw [put, he], hq'⟩

theorem Contains.take_eq (h : p.Contains l) : (p.take p.count).2 = l := by
  obtain ⟨hq, ht, hc, -⟩ := h
  rw [← append_nil l] at hq
  obtain ⟨tail, -, he, -⟩ := take_spec hq ht
  rw [hc, he]

/-- A round of a read returns the first bytes of the pipe, or nothing at its end; or it yields. -/
theorem readRound_spec {len : ℕ} (h : p.Contains l) (hlen : 0 < len) :
    p.readRound len = (p, none) ∨ ∃ l1 l2 p', p.readRound len = (p', some l1) ∧ l = l1 ++ l2 ∧
      p'.Contains l2 ∧ (l1 = [] → l = [] ∧ p.writers = 0) := by
  obtain ⟨hq, ht, hc, hl⟩ := h
  by_cases hpos : 0 < p.count
  · right
    rw [readRound, if_pos hpos]
    have hn : 0 < (if len < p.count then len else p.count) ∧
        (if len < p.count then len else p.count) ≤ l.length := by
      split_ifs <;> omega
    generalize (if len < p.count then len else p.count) = n at hn
    rw [← take_append_drop n l] at hq
    obtain ⟨tail, htail, he, hq'⟩ := take_spec hq ht
    rw [length_take_of_le hn.2] at he
    dsimp only
    rw [he]
    refine ⟨l.take n, l.drop n, { p with tail := tail, count := p.count - n }, rfl,
      (take_append_drop n l).symm, ⟨hq', htail, ?_, ?_⟩, fun hnil => ?_⟩
    · rw [length_drop, ← hc]
    · rw [length_drop]
      omega
    · have hlen := length_take_of_le hn.2
      rw [hnil, length_nil] at hlen
      omega
  · rw [readRound, if_neg hpos]
    have hnil : l = [] := eq_nil_of_length_eq_zero (by omega)
    by_cases hw : p.writers = 0
    · rw [if_pos hw]
      exact .inr ⟨[], l, p, rfl, rfl, ⟨hq, ht, hc, hl⟩, fun _ => ⟨hnil, hw⟩⟩
    · rw [if_neg hw]
      exact .inl rfl

/-- A round of a write puts the next bytes in, and says how many there were when it returns. -/
theorem writeRound_spec {total : ℕ} (h : p.Contains l) (hlt : total < src.length)
    (hlen : src.length < 2 ^ 31) :
    ∃ bytes p' r, p.writeRound src total = (p', bytes, r) ∧ p'.Contains (l ++ bytes) ∧
      bytes <+: src.drop total ∧ (r = none → total + bytes.length < src.length) ∧
      ∀ n, r = some n → n.toNat = total + bytes.length := by
  obtain ⟨hq, ht, hc, hl⟩ := h
  have hself : p.Contains (l ++ []) := by
    rw [append_nil]
    exact ⟨hq, ht, hc, hl⟩
  by_cases hr : p.readers = 0
  · rw [writeRound, if_pos hr]
    refine ⟨[], p, _, rfl, hself, nil_prefix, fun hnone => ?_, fun n hn => ?_⟩
    · cases hnone
    · rw [← Option.some.inj hn, length_nil]
      split_ifs <;> omega
  by_cases hfull : pipeBufSize - p.count = 0
  · rw [writeRound, if_neg hr, if_pos hfull]
    refine ⟨[], p, none, rfl, hself, nil_prefix, fun _ => hlt, fun n hn => ?_⟩
    cases hn
  rw [writeRound, if_neg hr, if_neg hfull]
  have hn : p.toWrite src.length total ≤ (src.drop total).length := by
    rw [toWrite, length_drop]
    omega
  have hroom : p.toWrite src.length total ≤ pipeBufSize - p.count := min_le_right _ _
  generalize p.toWrite src.length total = n at hn hroom
  have hbytes := length_take_of_le hn
  obtain ⟨buf, head, he, hq'⟩ := put_spec hq ht (by rw [hbytes]; omega)
  dsimp only
  rw [he]
  refine ⟨(src.drop total).take n, { p with buf := buf, head := head, count := p.count + n }, _,
    rfl, ⟨hq', ht, ?_, ?_⟩, take_prefix _ _, fun hnone => ?_, fun m hm => ?_⟩
  · rw [length_append, hbytes, hc]
  · rw [length_append, hbytes]
    omega
  · rw [hbytes]
    by_contra hmore
    rw [if_neg hmore] at hnone
    cases hnone
  · split_ifs at hm
    cases hm
    rw [hbytes]
    rfl

end PipeInode

/-! ## Runs -/

/-- The bytes which a call has put in. -/
def PipeCall.Stored : PipeCall → List UInt8 → Prop
  | .reading len, l => 0 < len ∧ l = []
  | .writing src total, l => total < src.length ∧ src.length < 2 ^ 31 ∧ l = src.take total
  | .read _, l => l = []
  | .wrote src r, l => l = src.take r.toNat

namespace Piped

variable {s s' : Piped} {ev : PipeEvent} {o : PipeOut} {i : ℕ} {c : PipeCall}

/-- The bytes which a call has put in. -/
def storedBy (s : Piped) (i : ℕ) : List UInt8 := (s.stored.filter (·.1 = i)).map Prod.snd

/-- The pipe is not deleted while a call is in progress. -/
def Spares (s : Piped) : PipeEvent → Prop
  | .onClose flags => (s.pipe.onClose flags).Unused → ∀ c ∈ s.calls, ¬ c.Pending
  | _ => True

instance (s : Piped) (ev : PipeEvent) : Decidable (s.Spares ev) := by
  cases ev <;> unfold Spares <;> infer_instance

/-- What every step keeps: what was put in was returned or is in the pipe, which contains it as long
    as it is there, and calls have put in what they say. -/
structure Sound (s : Piped) : Prop where
  contents : ∃ l, s.stored.map Prod.snd = s.returned ++ l ∧ (s.deleted = false → s.pipe.Contains l)
  ended : s.deleted = true → ∀ c ∈ s.calls, ¬ c.Pending
  stored : ∀ i (c : PipeCall), s.calls[i]? = some c → c.Stored (s.storedBy i)
  unborn : ∀ i, s.calls.length ≤ i → s.storedBy i = []

theorem start_sound (buf : ℕ → UInt8) : (start buf).Sound where
  contents := ⟨[], rfl, fun _ => ⟨rfl, zero_lt_succ _, rfl, Nat.zero_le _⟩⟩
  ended h := by cases h
  stored i c hc := by simp [start] at hc
  unborn _ _ := rfl

theorem storedBy_append {l : List UInt8} (hs : s'.stored = s.stored ++ l.map (i, ·)) (j : ℕ) :
    s'.storedBy j = s.storedBy j ++ if j = i then l else [] := by
  rw [storedBy, storedBy, hs, filter_append, map_append]
  congr 1
  split_ifs with h
  · subst h
    simp [filter_map, comp_def]
  · simp [filter_map, comp_def, Ne.symm h]

/-- A call goes on, and has put some bytes in. -/
theorem Sound.set {c' : PipeCall} {bytes : List UInt8} (h : s.Sound) (hi : i < s.calls.length)
    (hc : c'.Stored (s.storedBy i ++ bytes)) (hcalls : s'.calls = s.calls.set i c')
    (hstored : s'.stored = s.stored ++ bytes.map (i, ·)) (hd : s'.deleted = false)
    (hcont : ∃ l, s'.stored.map Prod.snd = s'.returned ++ l ∧ s'.pipe.Contains l) : s'.Sound where
  contents := by
    obtain ⟨l, hl, hp⟩ := hcont
    exact ⟨l, hl, fun _ => hp⟩
  ended h := by
    rw [hd] at h
    cases h
  stored j d hj := by
    rw [hcalls, List.getElem?_set] at hj
    rw [storedBy_append hstored]
    split_ifs at hj with hij
    · rw [if_pos hij.symm, ← hij]
      cases hj
      exact hc
    · rw [if_neg (Ne.symm hij), append_nil]
      exact h.stored j d hj
  unborn j hj := by
    rw [hcalls, length_set] at hj
    rw [storedBy_append hstored, if_neg (by omega), append_nil]
    exact h.unborn j hj

section

variable (h : s.Sound) (hd : s.deleted = false)

include h hd

/-- A round of a call in progress keeps what holds, and a read which returns nothing is at the end
    of everything that was put in. -/
theorem Sound.round (hc : s.calls[i]? = some c) (hr : s.round i c = some (s', o)) :
    s'.Sound ∧ s'.deleted = false ∧ ∀ l, o = .bytes l → s'.returned = s.returned ++ l ∧
      (l = [] → s.stored.map Prod.snd = s.returned ∧ s.pipe.writers = 0) := by
  obtain ⟨l, hl, hcont⟩ := h.contents
  have hcont := hcont hd
  have hi : i < s.calls.length := (List.getElem?_eq_some_iff.1 hc).1
  cases c with
  | reading len =>
    obtain ⟨hlen, hnil⟩ := h.stored i _ hc
    rw [Piped.round] at hr
    obtain he | ⟨l1, l2, p', he, rfl, hp', hend⟩ := s.pipe.readRound_spec hcont hlen
    · rw [he] at hr
      cases hr
      refine ⟨h, hd, fun l ho => ?_⟩
      cases ho
    rw [he] at hr
    cases hr
    have hsame : s.stored = s.stored ++ ([] : List UInt8).map (i, ·) := (append_nil _).symm
    refine ⟨h.set hi (by rw [append_nil]; exact hnil) rfl hsame hd
      ⟨l2, by rw [hl, append_assoc], hp'⟩, hd, fun l ho => ?_⟩
    cases ho
    refine ⟨rfl, fun hnil => ?_⟩
    obtain ⟨he, hw⟩ := hend hnil
    rw [hl, he, append_nil]
    exact ⟨rfl, hw⟩
  | writing src total =>
    obtain ⟨hlt, hlen, hst⟩ := h.stored i _ hc
    obtain ⟨bytes, p', r, he, hp', hpre, hmore, hret⟩ := s.pipe.writeRound_spec hcont hlt hlen
    have hcont' : ∃ l', (s.stored ++ bytes.map (i, ·)).map Prod.snd = s.returned ++ l' ∧
        p'.Contains l' := ⟨l ++ bytes, by simp [hl, comp_def], hp'⟩
    have htake : src.take total ++ bytes = src.take (total + bytes.length) := by
      rw [take_add, ← prefix_iff_eq_take.1 hpre]
    rw [Piped.round, he] at hr
    cases r with
    | none =>
      cases hr
      have hc' : (PipeCall.writing src (total + bytes.length)).Stored (s.storedBy i ++ bytes) :=
        ⟨hmore rfl, hlen, by rw [hst, htake]⟩
      refine ⟨h.set hi hc' rfl rfl hd hcont', hd, fun l ho => ?_⟩
      cases ho
    | some n =>
      cases hr
      refine ⟨h.set hi ?_ rfl rfl hd hcont', hd, fun l ho => ?_⟩
      · rw [PipeCall.Stored, hst, htake, hret n rfl]
      · cases ho
  | read => cases hr
  | wrote => cases hr

/-- A call begins. -/
theorem Sound.append (hc : c.Stored []) : Sound { s with calls := s.calls ++ [c] } where
  contents := h.contents
  ended hd' := by
    rw [show s.deleted = true from hd'] at hd
    cases hd
  stored j d hj := by
    obtain hlt | rfl | hgt := lt_trichotomy j s.calls.length
    · rw [List.getElem?_append_left hlt] at hj
      exact h.stored j d hj
    · rw [List.getElem?_concat_length] at hj
      cases hj
      rw [show Piped.storedBy { s with calls := s.calls ++ [c] } s.calls.length = [] from
        h.unborn _ le_rfl]
      exact hc
    · rw [List.getElem?_eq_none (by simpa using hgt)] at hj
      cases hj
  unborn j hj := h.unborn j (by simp at hj; omega)

/-- The ends do not matter to what is in the pipe. -/
theorem Sound.ends {p : PipeInode} (hp : ∀ l, s.pipe.Contains l → p.Contains l) :
    Sound { s with pipe := p } where
  contents := by
    obtain ⟨l, hl, hcont⟩ := h.contents
    exact ⟨l, hl, fun _ => hp l (hcont hd)⟩
  ended := h.ended
  stored := h.stored
  unborn := h.unborn

end

/-- What a step returns to a reader. -/
def Reads (s s' : Piped) (o : PipeOut) : Prop :=
  ∀ l, o = .bytes l → s'.returned = s.returned ++ l ∧
    (l = [] → s.stored.map Prod.snd = s.returned ∧ s.pipe.writers = 0)

theorem Sound.begin (h : s.Sound) (hc : c.Stored []) (hs : s.begin c = some (s', o)) :
    s'.Sound ∧ s.Reads s' o := by
  rw [Piped.begin] at hs
  split_ifs at hs with hd
  have hd : s.deleted = false := Bool.eq_false_of_not_eq_true hd
  obtain ⟨hs', -, ho⟩ := (h.append hd hc).round hd (by simp) hs
  exact ⟨hs', ho⟩

theorem Sound.step (h : s.Sound) (hev : s.Spares ev) (hs : s.step ev = some (s', o)) :
    s'.Sound ∧ s.Reads s' o := by
  -- The ends are opened and closed without a result.
  have hsilent : ∀ t, s.Reads t .none := fun t l ho => by cases ho
  cases ev with
  | read len =>
    rw [Piped.step] at hs
    split_ifs at hs with hlen
    exact h.begin (c := .reading len) ⟨hlen.1, rfl⟩ hs
  | write src =>
    rw [Piped.step] at hs
    split_ifs at hs with hlen
    exact h.begin (c := .writing src 0) ⟨hlen.1, hlen.2, rfl⟩ hs
  | go i =>
    obtain ⟨c, hc, hr⟩ := Option.bind_eq_some_iff.1 hs
    cases hd : s.deleted with
    | false =>
      obtain ⟨hs', -, ho⟩ := h.round hd hc hr
      exact ⟨hs', ho⟩
    | true =>
      have hp := h.ended hd c (mem_of_getElem? hc)
      cases c with
      | reading | writing => exact absurd trivial hp
      | read => cases hr
      | wrote => cases hr
  | onOpen flags =>
    rw [Piped.step] at hs
    split_ifs at hs with hd
    cases hs
    refine ⟨h.ends (Bool.eq_false_of_not_eq_true hd) fun l hl => ?_, hsilent _⟩
    rw [PipeInode.onOpen]
    split_ifs
    · exact hl
    · exact hl
  | onClose flags =>
    rw [Piped.step] at hs
    split_ifs at hs with hd hu
    · cases hs
      obtain ⟨l, hl, -⟩ := h.contents
      refine ⟨⟨⟨l, hl, fun hd' => ?_⟩, fun _ => hev hu, h.stored, h.unborn⟩, hsilent _⟩
      cases hd'
    · cases hs
      refine ⟨h.ends (Bool.eq_false_of_not_eq_true hd) fun l hl => ?_, hsilent _⟩
      rw [PipeInode.onClose]
      split_ifs
      · exact hl
      · exact hl

/-- In every run in which the pipe is not deleted while a call is in progress: what reads returned
    is the beginning of what was put in, in the order in which it was, and the rest is in the pipe,
    as many bytes as `m_count` says. Calls of `write` have put in as much as they say, from the
    beginning. A read returns nothing only if everything has been read and there is no writer. -/
theorem reachable_stream (buf : ℕ → UInt8)
    (hrun : Reaches (fun s : Piped => s.step) Spares (start buf) s) :
    s.returned <+: s.stored.map Prod.snd ∧
    (s.deleted = false → s.stored.map Prod.snd = s.returned ++ (s.pipe.take s.pipe.count).2 ∧
      s.returned.length + s.pipe.count = s.stored.length ∧ s.pipe.count ≤ pipeBufSize) ∧
    (∀ i src total, s.calls[i]? = some (.writing src total) → s.storedBy i = src.take total) ∧
    (∀ i src r, s.calls[i]? = some (.wrote src r) → s.storedBy i = src.take r.toNat) ∧
    ∀ ev s' l, s.Spares ev → s.step ev = some (s', .bytes l) → s'.returned = s.returned ++ l ∧
      (l = [] → s.stored.map Prod.snd = s.returned ∧ s.pipe.writers = 0) := by
  have h : s.Sound := hrun.inv (I := Sound) (fun _ _ _ _ hI hev hs => (hI.step hev hs).1)
    (start_sound buf)
  obtain ⟨l, hl, hcont⟩ := h.contents
  refine ⟨⟨l, hl.symm⟩, fun hd => ?_, fun i src total hc => (h.stored i _ hc).2.2,
    fun i src r hc => h.stored i _ hc, fun ev s' l hev hs => (h.step hev hs).2 l rfl⟩
  have hp := hcont hd
  have hlen := congrArg List.length hl
  rw [length_map, length_append] at hlen
  rw [hp.take_eq, hlen, hp.2.2.1]
  exact ⟨hl, rfl, hp.2.2.2⟩

/-- A reader and a writer, and the writer closes its end. -/
def copied : Piped :=
  lastState (guarded (fun s : Piped => s.step) Spares) (start fun _ => 0)
    [.read 4, .write [1, 2, 3], .go 0, .onClose oWronly]

/-- Everything was read. -/
theorem reachable_stream_copied : copied.returned = [1, 2, 3] ∧
    copied.stored.map Prod.snd = copied.returned ++ (copied.pipe.take copied.pipe.count).2 :=
  ⟨by decide +kernel, ((reachable_stream (fun _ => 0) (Reaches.lastState _ _)).2.1
    (by decide +kernel)).1⟩

/-- A reader is suspended, and both ends are closed before it goes on. -/
def torn : Piped :=
  lastState (guarded (fun s : Piped => s.step) fun _ _ => True) (start fun _ => 0)
    [.read 8, .write [1, 2, 3, 4, 5, 6, 7, 8], .onClose oWronly, .onClose 0, .go 0]

/-- What it reads was not put in. -/
theorem torn_returned : Reaches (fun s : Piped => s.step) (fun _ _ => True) (start fun _ => 0) torn ∧
    torn.returned = [255, 255, 255, 255, 5, 6, 7, 8] ∧
    torn.stored.map Prod.snd = [1, 2, 3, 4, 5, 6, 7, 8] ∧
    ¬ torn.returned <+: torn.stored.map Prod.snd :=
  ⟨.lastState _ _, by decide +kernel, by decide +kernel, by decide +kernel⟩

end Piped

end HobbyOS
