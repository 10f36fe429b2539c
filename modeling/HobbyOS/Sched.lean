import HobbyOS.Machine
import HobbyOS.MemLayout

/-!
# The scheduler, semaphores and futexes

One process runs at a time, and goes on until it yields: it blocks on a semaphore or a
futex, sleeps, or is preempted on its way back to the user. This is the part of the
kernel which decides who runs next.

* `Scheduler`: the list of ready processes and the list of sleeping ones, with times
  relative to the one before.
* `Semaphore`: a value and a queue. A process which is woken holds what it waited for
  by the time it runs again.
* `Futex`: queues by physical address, made on demand, and freed when nobody is in
  `Futex::wait` with them.
* `Process::kill` takes a process which blocks or sleeps out of all queues and makes it
  ready.

A process which yielded inside of the kernel goes on where it was (`Frame`). The lists
are threaded through the processes in the source. A process put into a list it is in
already would break the list; `HobbyOS.Sched.Tidy` is about this. The fields of `PCB`
for the user's registers and memory play no role here; a process has one thread.
-/

namespace HobbyOS

open Function Option

/-- `ProcState`. -/
inductive ProcState
  | ready
  | running
  | blocked
  | sleeping
  | stopped
  | zombie
  deriving DecidableEq

/-- `Semaphore`: the value, and the blocked processes. -/
structure Semaphore where
  value : ℕ
  blocked : List ℕ
  deriving DecidableEq

/-- `FutexQueue`. -/
structure FutexQueue where
  waiters : List ℕ
  refCount : ℕ
  deriving DecidableEq

/-- The local variables of `Futex::wait`, and when it was called. -/
structure FutexWait where
  physKey : ℕ
  queue : ℕ
  val : ℕ
  timeout : ℕ
  since : ℕ
  deriving DecidableEq

/-- Where a process goes on after it yielded. -/
inductive Frame (ι : Type*)
  | user
  | sem (i : ι)
  | futex (w : FutexWait)
  deriving DecidableEq

/-- The kernel, with the semaphores `ι`. -/
structure Kernel (ι : Type*) where
  state : ℕ → ProcState
  /-- `m_waitingOn`. -/
  waitingOn : ℕ → Option ι
  /-- `m_waitingOnFutexKey`. -/
  futexKey : ℕ → ℕ
  frame : ℕ → Frame ι
  /-- `PCB::s_running`. -/
  running : ℕ
  /-- `Scheduler::m_list`. -/
  ready : List ℕ
  /-- The list of sleeping processes, with `m_relativeSleepTime`. -/
  sleep : List (ℕ × ℕ)
  sem : ι → Semaphore
  /-- `Futex::s_table`: the numbers of the queues. -/
  table : ℕ → Option ℕ
  /-- The queues which are allocated. -/
  queue : ℕ → Option FutexQueue
  /-- The number of the next queue. -/
  nextQueue : ℕ
  /-- The words in memory, by physical address. -/
  mem : ℕ → ℕ
  /-- The number of calls of `Futex::wait` so far. -/
  clock : ℕ

/-- What the running process does, or the timer. -/
inductive Call (ι : Type*)
  | semWait (i : ι)
  | semSignal (i : ι)
  | futexWait (physKey val timeout : ℕ)
  | futexWake (physKey count : ℕ)
  /-- A store to a word in memory. -/
  | store (physKey val : ℕ)
  | kill (pid : ℕ) (signum : ℤ)
  | sleep (sleepTime : ℕ)
  /-- The time slice is over. -/
  | preempt
  /-- A signal which stops the process is delivered. -/
  | stop
  /-- The end of `Process::exit`. -/
  | exit
  /-- A process is created, and put into the list. -/
  | start (pid : ℕ)
  /-- `Scheduler::awake`. -/
  | tick
  /-- The process goes on after `PCB::yield`. -/
  | resume
  deriving DecidableEq

/-- `FUTEX_EAGAIN`. -/
def futexEagain : ℤ := -11

/-- `FUTEX_EINVAL`. -/
def futexEinval : ℤ := -22

/-- `FUTEX_ETIMEDOUT`. -/
def futexEtimedout : ℤ := -110

/-- `SIGCONT`. -/
def sigcont : ℤ := 18

/-- `NSIG`. -/
def nsig : ℤ := 32

namespace Kernel

variable {ι : Type*} (k : Kernel ι)

/-! ## The scheduler -/

/-- `PCB::setState`. -/
def setState (pid : ℕ) (state : ProcState) : Kernel ι :=
  { k with state := update k.state pid state }

/-- `Scheduler::put`. -/
def put (pid : ℕ) : Kernel ι := { k with ready := k.ready ++ [pid] }

/-- The running process is put into the list if it does not block. -/
def putRunning : Kernel ι :=
  if k.state k.running = .running then (k.setState k.running .ready).put k.running else k

/-- The loop of `PCB::dispatch`, which drops processes which are not ready. -/
def takeReady : List ℕ → Option (ℕ × List ℕ)
  | [] => none
  | pid :: pids => if k.state pid = .ready then some (pid, pids) else takeReady pids

/-- `PCB::dispatch`; it panics if no process is ready. -/
def dispatch : Option (Kernel ι) :=
  if k.ready = [] ∧ k.state k.running = .running then some k
  else
    (k.putRunning.takeReady k.putRunning.ready).map fun r =>
      { k.putRunning.setState r.1 .running with ready := r.2, running := r.1 }

/-- The loop of `Scheduler::putSleep`, `time` being what is left of the time. -/
def insertSleep (pid : ℕ) : ℕ → List (ℕ × ℕ) → List (ℕ × ℕ)
  | time, [] => [(pid, time)]
  | time, (cur, relative) :: rest =>
    if relative ≤ time then (cur, relative) :: insertSleep pid (time - relative) rest
    else (pid, time) :: (cur, relative - time) :: rest

/-- `Scheduler::putSleep`. -/
def putSleep (pid sleepTime : ℕ) : Kernel ι := { k with sleep := insertSleep pid sleepTime k.sleep }

/-- The loop of `Scheduler::awake`. -/
def expire : List (ℕ × ℕ) → Kernel ι → Kernel ι
  | [], k => { k with sleep := [] }
  | (pid, time) :: rest, k =>
    if time = 0 then expire rest ((k.setState pid .ready).put pid)
    else { k with sleep := (pid, time) :: rest }

/-- `Scheduler::awake`. -/
def awake : Kernel ι :=
  match k.sleep with
  | [] => k
  | (pid, time) :: rest => expire ((pid, sub64 time 1) :: rest) k

/-- The list of sleeping processes without one, as `Scheduler::wakeUp` leaves it: the time is
    added to that of the next process at the head of the list only. -/
def removeSleep (pid : ℕ) : List (ℕ × ℕ) → List (ℕ × ℕ)
  | [] => []
  | (cur, time) :: rest =>
    if cur = pid then
      match rest with
      | [] => []
      | (next, relative) :: rest => (next, relative + time) :: rest
    else (cur, time) :: rest.eraseP fun entry => entry.1 = pid

/-- `Scheduler::wakeUp`. If the process does not sleep, the lock is not released, and the
    kernel hangs when it is acquired the next time. -/
def wakeUp (pid : ℕ) : Option (Kernel ι) :=
  if pid ∈ k.sleep.map Prod.fst then some { k with sleep := removeSleep pid k.sleep } else none

/-! ## Semaphores -/

section Semaphores

variable [DecidableEq ι]

/-- `Semaphore::signal`. -/
def semSignal (i : ι) : Kernel ι :=
  match (k.sem i).blocked with
  | [] => { k with sem := update k.sem i ⟨(k.sem i).value + 1, []⟩ }
  | pid :: pids =>
    ({ k with
      sem := update k.sem i ⟨(k.sem i).value, pids⟩
      waitingOn := update k.waitingOn pid none }.setState pid .ready).put pid

/-- `Semaphore::block` up to `PCB::yield`. -/
def pushBlocked (i : ι) : Kernel ι :=
  { k.setState k.running .blocked with
    waitingOn := update k.waitingOn k.running (some i)
    sem := update k.sem i ⟨(k.sem i).value, (k.sem i).blocked ++ [k.running]⟩
    frame := update k.frame k.running (.sem i) }

/-- `Semaphore::wait`. -/
def semWait (i : ι) : Option (Kernel ι) :=
  if (k.sem i).value = 0 then (k.pushBlocked i).dispatch
  else some { k with
    sem := update k.sem i ⟨(k.sem i).value - 1, (k.sem i).blocked⟩ }

/-- `Semaphore::forceRemove`. -/
def semForceRemove (i : ι) (pid : ℕ) : Kernel ι :=
  { k with sem := update k.sem i ⟨(k.sem i).value, (k.sem i).blocked.erase pid⟩ }

end Semaphores

/-! ## Futexes -/

/-- `Futex::getQueue`. -/
def getQueue (physKey : ℕ) : ℕ × Kernel ι :=
  match k.table physKey with
  | some q => (q, k)
  | none => (k.nextQueue, { k with
      table := update k.table physKey (some k.nextQueue)
      queue := update k.queue k.nextQueue (some ⟨[], 0⟩)
      nextQueue := k.nextQueue + 1 })

/-- `Futex::tryFreeQueue`. -/
def tryFreeQueue (physKey : ℕ) : Kernel ι :=
  match k.table physKey with
  | none => k
  | some q =>
    if k.queue q = some ⟨[], 0⟩ then
      { k with
        table := update k.table physKey none
        queue := update k.queue q none }
    else k

/-- The running process is put into the queue `q`, which has been `fq`. -/
def pushWaiter (physKey val timeout q : ℕ) (fq : FutexQueue) : Kernel ι :=
  { k.setState k.running .blocked with
    queue := update k.queue q (some ⟨fq.waiters ++ [k.running], fq.refCount + 1⟩)
    futexKey := update k.futexKey k.running physKey
    frame := update k.frame k.running (.futex ⟨physKey, q, val, timeout, k.clock⟩)
    clock := k.clock + 1 }

/-- The running process is to sleep if there is a timeout. -/
def startTimeout (timeout : ℕ) : Kernel ι :=
  if 0 < timeout then (k.setState k.running .sleeping).putSleep k.running timeout else k

/-- The running process blocks on the queue `q`; a queue which is freed cannot be used. -/
def suspend (physKey val timeout q : ℕ) : Option (Kernel ι) :=
  (k.queue q).bind fun fq =>
    ((k.pushWaiter physKey val timeout q fq).startTimeout timeout).dispatch

/-- `Futex::wait` up to `PCB::yield`. -/
def futexWait (physKey val timeout : ℕ) : Option (Kernel ι × ℤ) :=
  if k.mem physKey ≠ val then some (k, futexEagain)
  else
    ((k.getQueue physKey).2.suspend physKey val timeout (k.getQueue physKey).1).map fun k => (k, 0)

/-- The running process is done with the queue `q`, which has been `fq`. -/
def leaveQueue (q : ℕ) (fq : FutexQueue) : Kernel ι :=
  { k with
    futexKey := update k.futexKey k.running 0
    frame := update k.frame k.running .user
    queue := update k.queue q (some ⟨fq.waiters, fq.refCount - 1⟩) }

/-- `Futex::wait` after `PCB::yield`. -/
def futexResume (w : FutexWait) : Option (Kernel ι × ℤ) :=
  (k.queue w.queue).map fun fq =>
    ((k.leaveQueue w.queue fq).tryFreeQueue w.physKey,
      if 0 < w.timeout ∧ k.mem w.physKey = w.val then futexEtimedout else 0)

/-- `FutexQueue::pop`, what is left being `fq`. -/
def popWaiter (q : ℕ) (fq : FutexQueue) : Kernel ι :=
  { k with queue := update k.queue q (some fq) }

/-- A process which was taken from a queue is woken. If it sleeps, then it is taken from the
    list of sleeping processes, but its state is not set. -/
def wakeWaiter (pid : ℕ) : Option (Kernel ι) :=
  (if k.state pid = .sleeping then k.wakeUp pid else some (k.setState pid .ready)).map
    fun k => k.put pid

/-- The loop of `Futex::wake`, which runs `count` times at most: how many are woken. -/
def wakeLoop (q : ℕ) : ℕ → Kernel ι → Option (ℕ × Kernel ι)
  | 0, k => some (0, k)
  | count + 1, k =>
    match k.queue q with
    | none => none
    | some ⟨[], _⟩ => some (0, k)
    | some ⟨pid :: pids, refCount⟩ =>
      ((k.popWaiter q ⟨pids, refCount⟩).wakeWaiter pid).bind fun k =>
        (wakeLoop q count k).map fun r => (r.1 + 1, r.2)

/-- `Futex::wake`. -/
def futexWake (physKey count : ℕ) : Option (Kernel ι × ℤ) :=
  match k.table physKey with
  | none => some (k, 0)
  | some q => (wakeLoop q count k).map fun r => (r.2.tryFreeQueue physKey, r.1)

/-- `Futex::forceRemove`. -/
def futexForceRemove (physKey pid : ℕ) : Kernel ι :=
  match k.table physKey with
  | none => k
  | some q =>
    match k.queue q with
    | none => k
    | some fq =>
      { k with queue := update k.queue q (some { fq with waiters := fq.waiters.erase pid }) }

/-! ## Signals -/

variable [DecidableEq ι]

/-- The part of `Process::kill` which takes a process from the semaphore it waits for. -/
def unlinkSem (pid : ℕ) : Kernel ι :=
  match k.waitingOn pid with
  | none => k
  | some i => { k.semForceRemove i pid with waitingOn := update k.waitingOn pid none }

/-- The part of `Process::kill` which takes a process from the futex it waits for. -/
def unlinkFutex (pid : ℕ) : Kernel ι :=
  if k.futexKey pid = 0 then k
  else { k.futexForceRemove (k.futexKey pid) pid with futexKey := update k.futexKey pid 0 }

/-- The part of `Process::kill` which takes a process from the list of sleeping ones. -/
def unlinkSleep (pid : ℕ) : Option (Kernel ι) :=
  if k.state pid = .sleeping then k.wakeUp pid else some k

/-- The part of `Process::kill` for a process which blocks or sleeps. -/
def interrupt (pid : ℕ) : Option (Kernel ι) :=
  (((k.unlinkSem pid).unlinkFutex pid).unlinkSleep pid).map fun k => (k.setState pid .ready).put pid

/-- `Process::wakeStoppedThreads`. -/
def wakeStopped (pid : ℕ) : Kernel ι :=
  if k.state pid = .stopped then (k.setState pid .ready).put pid else k

/-- `Process::kill`. -/
def kill (pid : ℕ) (signum : ℤ) : Option (Kernel ι × ℤ) :=
  if signum < 0 ∨ nsig ≤ signum then some (k, -1)
  else if signum = 0 then some (k, 0)
  else
    let k := if signum = sigcont then k.wakeStopped pid else k
    if k.state pid = .sleeping ∨ k.state pid = .blocked then
      (k.interrupt pid).map fun k => (k, 0)
    else some (k, 0)

/-! ## Steps -/

/-- The running process goes on after it yielded. -/
def resume : Option (Kernel ι × ℤ) :=
  match k.frame k.running with
  | .user => none
  | .sem _ => some ({ k with
      waitingOn := update k.waitingOn k.running none
      frame := update k.frame k.running .user }, 0)
  | .futex w => k.futexResume w

/-- A call by the running process, which is back from the one before. -/
def call : Call ι → Option (Kernel ι × ℤ)
  | .semWait i => (k.semWait i).map fun k => (k, 0)
  | .semSignal i => some (k.semSignal i, 0)
  | .futexWait physKey val timeout =>
    if physKey = 0 then some (k, futexEinval) else k.futexWait physKey val timeout
  | .futexWake physKey count =>
    if physKey = 0 then some (k, futexEinval) else k.futexWake physKey count
  | .store physKey val => some ({ k with mem := update k.mem physKey val }, 0)
  | .kill pid signum => k.kill pid signum
  | .sleep sleepTime =>
    ((k.setState k.running .sleeping).putSleep k.running sleepTime).dispatch.map fun k => (k, 0)
  | .preempt => k.dispatch.map fun k => (k, 0)
  | .stop => (k.setState k.running .stopped).dispatch.map fun k => (k, 0)
  | .exit => (k.setState k.running .zombie).dispatch.map fun k => (k, 0)
  | .start pid =>
    -- A number is given away again after the process which had it has ended.
    if k.state pid = .zombie ∧ k.frame pid = .user then
      some ((k.setState pid .ready).put pid, pid)
    else none
  | .tick => some (k.awake, 0)
  | .resume => none

/-- One step; there is none if the kernel panics or hangs. -/
def step (c : Call ι) : Option (Kernel ι × ℤ) :=
  match k.frame k.running, c with
  | .user, c => k.call c
  | _, .tick => some (k.awake, 0)
  | _, .resume => k.resume
  | _, _ => none

/-- What a step can do, from one kernel to the next. -/
inductive Does (k : Kernel ι) : Call ι → Kernel ι → Prop
  | nothing {c} : Does k c k
  | semWait {i k'} : k.frame k.running = .user → k.semWait i = some k' → Does k (.semWait i) k'
  | semSignal {i} : Does k (.semSignal i) (k.semSignal i)
  | futexWait {physKey val timeout k' o} : k.frame k.running = .user → physKey ≠ 0 →
    k.futexWait physKey val timeout = some (k', o) → Does k (.futexWait physKey val timeout) k'
  | futexWake {physKey count k' o} : k.futexWake physKey count = some (k', o) →
    Does k (.futexWake physKey count) k'
  | store {physKey val} :
    Does k (.store physKey val) { k with mem := update k.mem physKey val }
  | kill {pid signum k' o} : k.kill pid signum = some (k', o) → Does k (.kill pid signum) k'
  | sleep {time k'} : k.frame k.running = .user →
    ((k.setState k.running .sleeping).putSleep k.running time).dispatch = some k' →
    Does k (.sleep time) k'
  | preempt {k'} : k.dispatch = some k' → Does k .preempt k'
  | stop {k'} : (k.setState k.running .stopped).dispatch = some k' → Does k .stop k'
  | exit {k'} : (k.setState k.running .zombie).dispatch = some k' → Does k .exit k'
  | start {pid} : k.state pid = .zombie → Does k (.start pid) ((k.setState pid .ready).put pid)
  | tick : Does k .tick k.awake
  | resume {k' o} : k.resume = some (k', o) → Does k .resume k'

section

variable {ι : Type*} {k k' k1 k2 k3 : Kernel ι} {pid count : ℕ} {o : ℤ}

/-- Processes may have been made ready. -/
def Wakes (k k' : Kernel ι) : Prop := ∀ p, k'.state p = k.state p ∨ k'.state p = .ready

theorem Wakes.refl (k : Kernel ι) : k.Wakes k := fun _ => .inl rfl

theorem Wakes.trans (h : k1.Wakes k2) (h' : k2.Wakes k3) : k1.Wakes k3 := by
  intro p
  rcases h' p with hp | hp
  · rw [hp]
    exact h p
  · exact .inr hp

theorem wakes_setState (k : Kernel ι) (pid : ℕ) : k.Wakes (k.setState pid .ready) := by
  intro p
  by_cases hp : p = pid
  · exact .inr (hp ▸ update_self ..)
  · exact .inl (update_of_ne hp _ _)

/-! ## What the functions leave as it is -/

theorem putRunning_eq (k : Kernel ι) :
    ∃ st rd, k.putRunning = { k with state := st, ready := rd } := by
  unfold putRunning
  split <;> exact ⟨_, _, rfl⟩

/-- If no other process is in the list, the running one is put there and taken again. -/
theorem dispatch_eq_map (k : Kernel ι) :
    k.dispatch = (k.putRunning.takeReady k.putRunning.ready).map fun r =>
      { k.putRunning.setState r.1 .running with ready := r.2, running := r.1 } := by
  unfold dispatch
  split_ifs with he
  · obtain ⟨hnil, hrun⟩ := he
    have hput : k.putRunning = { k.setState k.running .ready with ready := [k.running] } := by
      rw [putRunning, if_pos hrun, put, setState, hnil]
      rfl
    have htake : k.putRunning.takeReady k.putRunning.ready = some (k.running, []) := by
      rw [hput]
      exact if_pos (update_self ..)
    have hstate : update (update k.state k.running .ready) k.running .running = k.state := by
      rw [update_idem, ← hrun, update_eq_self]
    rw [htake, hput, map_some, setState, setState]
    dsimp only
    rw [hstate, ← hnil]
  · rfl

theorem dispatch_eq (h : k.dispatch = some k') :
    ∃ st rd me, k' = { k with state := st, ready := rd, running := me } := by
  rw [dispatch_eq_map] at h
  obtain ⟨r, -, rfl⟩ := map_eq_some_iff.1 h
  obtain ⟨st, rd, he⟩ := putRunning_eq k
  rw [he]
  exact ⟨_, _, _, rfl⟩

theorem expire_eq (l : List (ℕ × ℕ)) (k : Kernel ι) : k.Wakes (expire l k) ∧
    ∃ st rd sl, expire l k = { k with state := st, ready := rd, sleep := sl } := by
  induction l generalizing k with
  | nil => exact ⟨.refl _, _, _, _, rfl⟩
  | cons e l ih =>
    obtain ⟨pid, time⟩ := e
    unfold expire
    split
    · obtain ⟨hw, st, rd, sl, h⟩ := ih ((k.setState pid .ready).put pid)
      exact ⟨(wakes_setState k pid).trans hw, st, rd, sl, h⟩
    · exact ⟨.refl _, _, _, _, rfl⟩

theorem awake_eq (k : Kernel ι) : k.Wakes k.awake ∧
    ∃ st rd sl, k.awake = { k with state := st, ready := rd, sleep := sl } := by
  unfold awake
  split
  · exact ⟨.refl k, _, _, _, rfl⟩
  · exact expire_eq _ k

theorem wakeUp_eq (h : k.wakeUp pid = some k') : ∃ sl, k' = { k with sleep := sl } := by
  unfold wakeUp at h
  split_ifs at h
  cases h
  exact ⟨_, rfl⟩

theorem wakeWaiter_eq (h : k.wakeWaiter pid = some k') : k.Wakes k' ∧
    ∃ st rd sl, k' = { k with state := st, ready := rd, sleep := sl } := by
  obtain ⟨k1, hk1, rfl⟩ := map_eq_some_iff.1 h
  split at hk1
  · obtain ⟨sl, rfl⟩ := wakeUp_eq hk1
    exact ⟨.refl k, _, _, _, rfl⟩
  · cases hk1
    exact ⟨wakes_setState k pid, _, _, _, rfl⟩

theorem wakeLoop_eq {q n : ℕ} (h : wakeLoop q count k = some (n, k')) : k.Wakes k' ∧
    ∃ st rd sl qu, k' = { k with state := st, ready := rd, sleep := sl, queue := qu } := by
  induction count generalizing k n with
  | zero =>
    cases h
    exact ⟨.refl _, _, _, _, _, rfl⟩
  | succ count ih =>
    unfold wakeLoop at h
    split at h
    · cases h
    · cases h
      exact ⟨.refl _, _, _, _, _, rfl⟩
    next pid pids refCount hq =>
      obtain ⟨k1, hk1, h⟩ := bind_eq_some_iff.1 h
      obtain ⟨⟨m, k2⟩, hk2, ⟨⟩⟩ := map_eq_some_iff.1 h
      obtain ⟨hw, st, rd, sl, rfl⟩ := wakeWaiter_eq hk1
      obtain ⟨hw', st, rd, sl, qu, rfl⟩ := ih hk2
      exact ⟨Wakes.trans hw hw', _, _, _, _, rfl⟩

theorem tryFreeQueue_eq (k : Kernel ι) (physKey : ℕ) :
    ∃ tb qu, k.tryFreeQueue physKey = { k with table := tb, queue := qu } := by
  unfold tryFreeQueue
  split
  · exact ⟨_, _, rfl⟩
  · split <;> exact ⟨_, _, rfl⟩

theorem futexWake_eq {physKey : ℕ} (h : k.futexWake physKey count = some (k', o)) : k.Wakes k' ∧
    ∃ st rd sl tb qu, k' = { k with
      state := st, ready := rd, sleep := sl, table := tb, queue := qu } := by
  unfold futexWake at h
  split at h
  · cases h
    exact ⟨.refl k, _, _, _, _, _, rfl⟩
  obtain ⟨⟨n, k1⟩, hk1, ⟨⟩⟩ := map_eq_some_iff.1 h
  obtain ⟨hw, st, rd, sl, qu, rfl⟩ := wakeLoop_eq hk1
  obtain ⟨tb, qu', he⟩ := tryFreeQueue_eq
    { k with state := st, ready := rd, sleep := sl, queue := qu } physKey
  rw [he]
  exact ⟨hw, _, _, _, _, _, rfl⟩

theorem futexForceRemove_eq (k : Kernel ι) (physKey pid : ℕ) :
    ∃ qu, k.futexForceRemove physKey pid = { k with queue := qu } := by
  unfold futexForceRemove
  split
  · exact ⟨_, rfl⟩
  · split <;> exact ⟨_, rfl⟩

theorem getQueue_eq (k : Kernel ι) (physKey : ℕ) : ∃ tb qu nq,
    (k.getQueue physKey).2 = { k with table := tb, queue := qu, nextQueue := nq } := by
  unfold getQueue
  split <;> exact ⟨_, _, _, rfl⟩

theorem startTimeout_eq (k : Kernel ι) (timeout : ℕ) :
    ∃ st sl, k.startTimeout timeout = { k with state := st, sleep := sl } := by
  unfold startTimeout
  split <;> exact ⟨_, _, rfl⟩

theorem wakeStopped_eq (k : Kernel ι) (pid : ℕ) :
    ∃ st rd, k.wakeStopped pid = { k with state := st, ready := rd } := by
  unfold wakeStopped
  split <;> exact ⟨_, _, rfl⟩

theorem unlinkFutex_eq (k : Kernel ι) (pid : ℕ) :
    ∃ fk qu, k.unlinkFutex pid = { k with futexKey := fk, queue := qu } := by
  unfold unlinkFutex
  split
  · exact ⟨_, _, rfl⟩
  · obtain ⟨qu, he⟩ := futexForceRemove_eq k (k.futexKey pid) pid
    rw [he]
    exact ⟨_, _, rfl⟩

theorem unlinkSleep_eq (h : k.unlinkSleep pid = some k') : ∃ sl, k' = { k with sleep := sl } := by
  unfold unlinkSleep at h
  split at h
  · exact wakeUp_eq h
  · cases h
    exact ⟨_, rfl⟩

variable [DecidableEq ι]

theorem semSignal_eq (k : Kernel ι) (i : ι) : ∃ st wo rd sm,
    k.semSignal i = { k with state := st, waitingOn := wo, ready := rd, sem := sm } := by
  unfold semSignal
  split <;> exact ⟨_, _, _, _, rfl⟩

theorem unlinkSem_eq (k : Kernel ι) (pid : ℕ) :
    ∃ wo sm, k.unlinkSem pid = { k with waitingOn := wo, sem := sm } := by
  unfold unlinkSem
  split <;> exact ⟨_, _, rfl⟩

theorem interrupt_eq (h : k.interrupt pid = some k') : ∃ wo fk sl sm qu, k' = ({ k with
      waitingOn := wo, futexKey := fk, sleep := sl, sem := sm, queue := qu }.setState
        pid .ready).put pid := by
  obtain ⟨k1, hk1, rfl⟩ := map_eq_some_iff.1 h
  obtain ⟨wo, sm, he⟩ := unlinkSem_eq k pid
  obtain ⟨fk, qu, he'⟩ := unlinkFutex_eq { k with waitingOn := wo, sem := sm } pid
  rw [he, he'] at hk1
  obtain ⟨sl, rfl⟩ := unlinkSleep_eq hk1
  exact ⟨_, _, _, _, _, rfl⟩

/-- A process which is stopped may be woken, and then one which blocks or sleeps is interrupted. -/
theorem kill_cases {signum : ℤ} (h : k.kill pid signum = some (k', o)) :
    ∃ k1, (k1 = k ∨ k1 = k.wakeStopped pid) ∧ (k' = k1 ∨
      (k1.state pid = .sleeping ∨ k1.state pid = .blocked) ∧ k1.interrupt pid = some k') := by
  unfold kill at h
  split at h
  · cases h
    exact ⟨k, .inl rfl, .inl rfl⟩
  split at h
  · cases h
    exact ⟨k, .inl rfl, .inl rfl⟩
  have h1 := ite_eq_or_eq (signum = sigcont) (k.wakeStopped pid) k
  generalize (if signum = sigcont then k.wakeStopped pid else k) = k1 at h h1
  refine ⟨k1, h1.symm, ?_⟩
  dsimp only at h
  split at h
  next hs =>
    obtain ⟨k2, hk2, ⟨⟩⟩ := map_eq_some_iff.1 h
    exact .inr ⟨hs, hk2⟩
  · cases h
    exact .inl rfl

theorem kill_eq {signum : ℤ} (h : k.kill pid signum = some (k', o)) :
    ∃ st wo fk rd sl sm qu, k' = { k with
      state := st, waitingOn := wo, futexKey := fk, ready := rd, sleep := sl, sem := sm
      queue := qu } := by
  obtain ⟨k1, hk1, hk⟩ := kill_cases h
  have hcont : ∃ st rd, k1 = { k with state := st, ready := rd } := by
    rcases hk1 with rfl | rfl
    · exact ⟨_, _, rfl⟩
    · exact wakeStopped_eq k pid
  obtain ⟨st, rd, rfl⟩ := hcont
  rcases hk with rfl | ⟨-, hk⟩
  · exact ⟨_, _, _, _, _, _, _, rfl⟩
  · obtain ⟨wo, fk, sl, sm, qu, rfl⟩ := interrupt_eq hk
    exact ⟨_, _, _, _, _, _, _, rfl⟩

theorem step_does {c : Call ι} (h : k.step c = some (k', o)) : k.Does c k' := by
  unfold step at h
  split at h
  next c _ _ hu =>
    cases c with
    | semWait i =>
      obtain ⟨k1, hk1, ⟨⟩⟩ := map_eq_some_iff.1 h
      exact .semWait hu hk1
    | futexWait physKey val timeout =>
      rw [call] at h
      split_ifs at h with hkey
      · cases h
        exact .nothing
      · exact .futexWait hu hkey h
    | futexWake physKey count =>
      rw [call] at h
      split_ifs at h
      · cases h
        exact .nothing
      · exact .futexWake h
    | kill pid signum => exact .kill h
    | sleep time =>
      obtain ⟨k1, hk1, ⟨⟩⟩ := map_eq_some_iff.1 h
      exact .sleep hu hk1
    | preempt =>
      obtain ⟨k1, hk1, ⟨⟩⟩ := map_eq_some_iff.1 h
      exact .preempt hk1
    | stop =>
      obtain ⟨k1, hk1, ⟨⟩⟩ := map_eq_some_iff.1 h
      exact .stop hk1
    | exit =>
      obtain ⟨k1, hk1, ⟨⟩⟩ := map_eq_some_iff.1 h
      exact .exit hk1
    | start pid =>
      rw [call] at h
      split_ifs at h with hz
      cases h
      exact .start hz.1
    | semSignal i =>
      cases h
      exact .semSignal
    | store physKey val =>
      cases h
      exact .store
    | tick =>
      cases h
      exact .tick
    | resume => cases h
  · cases h
    exact .tick
  · exact .resume h
  · cases h

end

end Kernel

end HobbyOS
