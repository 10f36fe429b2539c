import HobbyOS.Machine
import HobbyOS.Ring
import HobbyOS.Sched

/-!
# The console

`Console::interruptHandler` puts characters into a ring and signals a semaphore for each of them;
`Console::kgetc` waits for the semaphore and takes one. `Process::kill` makes a reader ready which
was not signalled. A reader which finds the ring empty waits again, so that the value of the
semaphore and the number of characters are not the same.

* There are not more characters than signals: those which nobody has waited for yet, and the readers
  which are ready (`Served`). If a reader blocks, then the first are none.
-/

namespace HobbyOS

open Function List

/-- `Console`, the readers which are past the semaphore, and which characters were typed, put into
    the ring and returned so far. -/
structure Console where
  buffer : ℕ → UInt8
  head : ℕ
  tail : ℕ
  sem : Semaphore
  ready : List ℕ
  typed : List UInt8
  stored : List UInt8
  returned : List UInt8

/-- What happens next. -/
inductive ConsoleEvent
  /-- These characters are received. -/
  | interrupt (cs : List UInt8)
  /-- `Console::kgetc` is called. -/
  | kgetc (pid : ℕ)
  /-- A reader which is ready goes on. -/
  | resume (pid : ℕ)
  /-- `Process::kill`. -/
  | kill (pid : ℕ)

namespace Console

/-- `BUFFER_SIZE`. -/
def bufferSize : ℕ := 4096

/-- Nothing has been typed. -/
def start (buffer : ℕ → UInt8) : Console := ⟨buffer, 0, 0, ⟨0, []⟩, [], [], [], []⟩

variable (s : Console)

/-- `Semaphore::signal`. -/
def signal : Console :=
  match s.sem.blocked with
  | [] => { s with sem := ⟨s.sem.value + 1, []⟩ }
  | pid :: pids => { s with sem := ⟨s.sem.value, pids⟩, ready := pid :: s.ready }

/-- `Semaphore::wait`. -/
def wait (pid : ℕ) : Console :=
  if s.sem.value = 0 then { s with sem := ⟨0, s.sem.blocked ++ [pid]⟩ }
  else { s with sem := ⟨s.sem.value - 1, s.sem.blocked⟩, ready := pid :: s.ready }

/-- One character in `Console::interruptHandler`. -/
def receive (c : UInt8) : Console :=
  let s := { s with typed := s.typed ++ [c] }
  if (s.tail + 1) % bufferSize ≠ s.head then
    { s with
      buffer := update s.buffer s.tail c
      tail := (s.tail + 1) % bufferSize
      stored := s.stored ++ [c] }.signal
  else s

/-- `Console::kgetc` after `Semaphore::wait`. -/
def resume (pid : ℕ) : Console :=
  let s := { s with ready := s.ready.erase pid }
  if s.head = s.tail then s.wait pid
  else { s with
    head := (s.head + 1) % bufferSize
    returned := s.returned ++ [s.buffer s.head] }

/-- `Process::kill`, for a process which blocks in `Console::kgetc` or does not. -/
def kill (pid : ℕ) : Console :=
  if pid ∈ s.sem.blocked then
    { s with sem := ⟨s.sem.value, s.sem.blocked.erase pid⟩, ready := pid :: s.ready }
  else s

/-- One step. -/
def step : ConsoleEvent → Option (Console × Unit)
  | .interrupt cs => some (cs.foldl receive s, ())
  | .kgetc pid => if pid ∈ s.sem.blocked ∨ pid ∈ s.ready then none else some (s.wait pid, ())
  | .resume pid => if pid ∈ s.ready then some (s.resume pid, ()) else none
  | .kill pid => some (s.kill pid, ())

/-- These characters are in the ring, and there is a signal for each of them. -/
structure Served (queue : List UInt8) : Prop where
  queued : Queued bufferSize bufferSize s.buffer s.head s.tail queue
  head_lt : s.head < bufferSize
  length_lt : queue.length < bufferSize
  typed : s.stored <+ s.typed
  order : s.returned ++ queue = s.stored
  signals : queue.length ≤ s.sem.value + s.ready.length
  value : s.sem.blocked ≠ [] → s.sem.value = 0

/-- A signal is kept, or makes a reader ready. -/
theorem signal_eq : ∃ value blocked ready,
    s.signal = { s with sem := ⟨value, blocked⟩, ready := ready } ∧
    value + ready.length = s.sem.value + s.ready.length + 1 ∧
    ((s.sem.blocked ≠ [] → s.sem.value = 0) → blocked ≠ [] → value = 0) := by
  rw [signal]
  split
  · exact ⟨_, _, _, rfl, by omega, fun _ hb => absurd rfl hb⟩
  next hb => exact ⟨_, _, _, rfl, rfl, fun hv _ => hv (by rw [hb]; exact cons_ne_nil _ _)⟩

variable {s} {s' : Console} {queue : List UInt8} {pid : ℕ} {e : ConsoleEvent}

theorem start_served (buffer : ℕ → UInt8) : (start buffer).Served [] :=
  ⟨rfl, show 0 < bufferSize by decide, by decide, nil_sublist _, rfl, le_rfl,
    fun h => absurd rfl h⟩

section

variable (h : s.Served queue)

include h

theorem Served.wait (pid : ℕ) : (s.wait pid).Served queue := by
  rw [Console.wait]
  split_ifs with hv
  · exact { h with signals := by simpa [hv] using h.signals, value := fun _ => rfl }
  · refine { h with signals := ?_, value := fun hb => absurd (h.value hb) hv }
    have := h.signals
    dsimp only
    rw [length_cons]
    omega

/-- A character is put into the ring, unless it is full. -/
theorem Served.receive (c : UInt8) : ∃ queue', (s.receive c).Served queue' ∧
    ((s.receive c).stored = s.stored ++ [c] ∨ queue.length = bufferSize - 1) := by
  have hhead := h.head_lt
  have htail := h.queued.write_lt hhead
  have hwrite := h.queued.write_eq hhead
  have hlt := h.length_lt
  rw [Console.receive]
  by_cases hfull : (s.tail + 1) % bufferSize = s.head
  · rw [if_neg (not_not.2 hfull)]
    refine ⟨queue, { h with typed := h.typed.trans (sublist_append_left _ _) }, .inr ?_⟩
    simp only [bufferSize] at *
    omega
  rw [if_pos hfull]
  obtain ⟨value, blocked, ready, he, hsum, hvalue⟩ := signal_eq { s with
    typed := s.typed ++ [c]
    buffer := update s.buffer s.tail c
    tail := (s.tail + 1) % bufferSize
    stored := s.stored ++ [c] }
  rw [he]
  -- There is room for one more, and one more signal.
  have hroom : queue.length + 1 < bufferSize := by
    simp only [bufferSize] at *
    omega
  have hpush := h.queued.push dvd_rfl hlt hhead c
  rw [Nat.mod_eq_of_lt htail] at hpush
  have hsignals := h.signals
  refine ⟨queue ++ [c], ⟨hpush, hhead, ?_, h.typed.append_right _, ?_, ?_, hvalue h.value⟩,
    .inl rfl⟩
  · rwa [length_append]
  · rw [← append_assoc, h.order]
  · rw [length_append, hsum]
    exact Nat.succ_le_succ hsignals

theorem Served.resume (hpid : pid ∈ s.ready) : ∃ queue', (s.resume pid).Served queue' := by
  have hready := length_erase_of_mem hpid
  have hpos := length_pos_of_mem hpid
  have hempty := h.queued.eq_nil h.head_lt h.length_lt
  rw [Console.resume]
  cases queue with
  | nil =>
    -- Somebody else was faster, or there was no signal.
    rw [if_pos (hempty.2 rfl)]
    have h' : Served { s with ready := s.ready.erase pid } [] := { h with signals := Nat.zero_le _ }
    exact ⟨[], h'.wait pid⟩
  | cons c queue =>
    rw [if_neg fun he => cons_ne_nil _ _ (hempty.1 he)]
    obtain ⟨hc, hq⟩ := h.queued.pop
    rw [Nat.mod_eq_of_lt h.head_lt] at hc
    have hsignals := h.signals
    refine ⟨queue, { h with
      queued := hq, head_lt := Nat.mod_lt _ (by decide)
      length_lt := Nat.lt_of_succ_lt h.length_lt, order := ?_, signals := ?_ }⟩
    · rw [← h.order, hc, append_assoc]
      rfl
    · dsimp only
      rw [length_cons] at hsignals
      omega

theorem Served.kill (pid : ℕ) : (s.kill pid).Served queue := by
  rw [Console.kill]
  split_ifs with hpid
  · refine { h with signals := ?_, value := fun _ => h.value (ne_nil_of_mem hpid) }
    exact h.signals.trans (Nat.le_succ _)
  · exact h

omit h

theorem step_served (h : ∃ queue, s.Served queue) (hs : s.step e = some (s', ())) :
    ∃ queue, s'.Served queue := by
  obtain ⟨queue, h⟩ := h
  cases e with
  | interrupt cs =>
    cases hs
    induction cs generalizing s queue with
    | nil => exact ⟨queue, h⟩
    | cons c cs ih =>
      obtain ⟨queue', h', -⟩ := h.receive c
      exact ih queue' h'
  | kgetc pid =>
    rw [step] at hs
    split_ifs at hs
    cases hs
    exact ⟨queue, h.wait pid⟩
  | resume pid =>
    rw [step] at hs
    split_ifs at hs with hpid
    cases hs
    exact h.resume hpid
  | kill pid =>
    cases hs
    exact ⟨queue, h.kill pid⟩

end

/-- **The queue of the console.** Characters are returned in the order in which they were typed; one
    is dropped only if 4095 are in the ring; and if a reader blocks, there are not more of them than
    readers which are ready. -/
theorem runs_served {buffer : ℕ → UInt8} {es : List ConsoleEvent} {os : List Unit}
    (hr : runs step (start buffer) es = some (s, os)) :
    ∃ queue, Queued bufferSize bufferSize s.buffer s.head s.tail queue ∧
      s.returned ++ queue = s.stored ∧ s.stored <+ s.typed ∧
      (∀ c, (s.receive c).stored = s.stored ++ [c] ∨ queue.length = 4095) ∧
      (s.sem.blocked ≠ [] → queue.length ≤ s.ready.length) := by
  obtain ⟨queue, h⟩ := runs_inv (fun s e s' _ h (_ : True) hs => step_served h hs)
    ⟨[], start_served buffer⟩ (fun _ _ => trivial) hr
  refine ⟨queue, h.queued, h.order, h.typed, fun c => ?_, fun hb => ?_⟩
  · obtain ⟨-, -, hc⟩ := h.receive c
    exact hc
  · have hsignals := h.signals
    rwa [h.value hb, Nat.zero_add] at hsignals

/-- Two readers wait, and the second one is killed: it takes the first character. -/
def twoReaders : List ConsoleEvent :=
  [.kgetc 1, .kgetc 2, .kill 2, .interrupt [97, 98], .resume 2]

theorem runs_served_twoReaders :
    (lastState step (start fun _ => 0) twoReaders).returned = [97] ∧
      ∃ queue, [97] ++ queue = (lastState step (start fun _ => 0) twoReaders).stored := by
  obtain ⟨queue, -, horder, -⟩ := runs_served (show runs step (start fun _ => 0) twoReaders =
    some (lastState step (start fun _ => 0) twoReaders, [(), (), (), (), ()]) from rfl)
  exact ⟨rfl, queue, horder⟩

end Console

end HobbyOS
