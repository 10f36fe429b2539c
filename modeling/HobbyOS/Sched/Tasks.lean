import HobbyOS.Sched.Family

/-!
# Threads, and what is left of them

A process may have threads besides itself; all of them are processes for the scheduler.
One which ends cannot free its own kernel stack: it is put into a list (`PCBGarbage`), and
freed at a later tick of the timer, once it is linked nowhere any more.

* `Thread::exit` unlinks a thread from its process, and yields. `Process::exitGroup` calls
  it for all threads of a process, wherever these are, and yields after each of them
  (`Closing`); `Process::clear` does so, too.
* A process which has ended is kept until its parent waits for it.
* `PCBGarbage::isSafeToDelete` looks at `m_next`, `m_nextSleep` and, for a process, at
  `m_nextSibling`.

What else is freed together with a process, and locks, play no role here; a process which
spins on a lock hangs the kernel. Nobody waits for `m_waitSem`.
-/

namespace HobbyOS

open Function

/-- The semaphores: `m_selfSem` of each process, and others. -/
inductive TaskSem
  | self (pid : ℕ)
  | other (i : ℕ)
  deriving DecidableEq

/-- Where a process which ends threads goes on: the thread which is next. -/
inductive Closing
  /-- In `Process::exitGroup`. -/
  | group (next : Option ℕ)
  /-- In `Process::clear`, for the process `pid`. -/
  | clear (pid : ℕ) (next : Option ℕ)
  deriving DecidableEq

/-- The processes and their threads. -/
structure Tasks where
  kernel : Kernel TaskSem
  /-- `PCB::owner`: the process of a thread, and a process itself. -/
  owner : ℕ → ℕ
  /-- `m_threads` and `m_nextThread`. -/
  threads : ℕ → List ℕ
  /-- `m_clearTidAddr`, by its physical address, or `0`. -/
  clearTid : ℕ → ℕ
  /-- `m_tidAddress`, by its physical address, or `0`. -/
  tidAddress : ℕ → ℕ
  /-- `m_parent` of a process. -/
  parent : ℕ → Option ℕ
  /-- `m_firstChild` and `m_nextSibling`. -/
  children : ℕ → List ℕ
  /-- `m_reaped`, and the `m_nextSibling` a process was left with. -/
  reaped : ℕ → Option (Option ℕ)
  /-- Which child the call of `Process::wait` in progress asks for; `none` is `-1`. -/
  asked : ℕ → Option ℕ
  closing : ℕ → Option Closing
  /-- `PCBGarbage::m_list`. -/
  garbage : List ℕ
  /-- What has been deleted. -/
  deleted : List ℕ
  /-- The kernel stacks which are allocated, `m_kstack`. -/
  kstacks : List ℕ
  /-- The page tables which are allocated, `m_pmt` of a process. -/
  pmts : List ℕ
  /-- `PCB::s_pid`. -/
  nextPid : ℕ

/-- What the running process does, or the timer. -/
inductive TaskCall
  | fork
  | clone (clearTid : ℕ)
  | setTidAddress (physKey : ℕ)
  | semWait (i : ℕ)
  | semSignal (i : ℕ)
  | futexWait (physKey val timeout : ℕ)
  | futexWake (physKey count : ℕ)
  | store (physKey val : ℕ)
  | sleep (time : ℕ)
  | wait (pid : Option ℕ) (nohang : Bool)
  | exit
  | exitGroup
  /-- The process goes on after `PCB::yield`. -/
  | resume
  /-- The timer; the process yields if its time slice is over. -/
  | tick (yields : Bool)

/-- What comes after an object in a list. -/
def follow (l : List ℕ) (a : ℕ) : Option ℕ := (l.dropWhile (· ≠ a))[1]?

namespace Tasks

variable (s : Tasks)

/-- `PCBGarbage::isSafeToDelete`. -/
def isSafeToDelete (pid : ℕ) : Bool :=
  follow s.kernel.ready pid = none && follow (s.kernel.sleep.map Prod.fst) pid = none &&
    pid ≠ s.kernel.running && (s.owner pid ≠ pid || s.reaped pid = some none)

/-- `PCBGarbage::clear`, with `PCB::~PCB` and `Process::~Process`. -/
def clearGarbage : Tasks :=
  let gone := s.garbage.filter s.isSafeToDelete
  { s with
    garbage := s.garbage.filter fun pid => !s.isSafeToDelete pid
    deleted := gone ++ s.deleted
    kstacks := s.kstacks.filter (· ∉ gone)
    pmts := s.pmts.filter (· ∉ gone) }

/-- `Scheduler::awake`. -/
def awake : Tasks := { s with kernel := s.kernel.awake }

/-- `TrapHandler::handleTrap` for the timer. -/
def tick (yields : Bool) : Option Tasks :=
  let s := s.awake.clearGarbage
  if yields then s.kernel.dispatch.map fun k => { s with kernel := k } else some s

/-- A step which concerns the scheduler only. -/
def elsewhere (c : Call TaskSem) : Option (Tasks × ℤ) :=
  (s.kernel.step c).map fun r => ({ s with kernel := r.1 }, r.2)

/-! ## Creation -/

/-- `Process::fork`. -/
def fork : Option (Tasks × ℤ) :=
  let me := s.owner s.kernel.running
  let pid := s.nextPid
  (s.kernel.call (.start pid)).map fun r => ({ s with
    kernel := r.1
    owner := update s.owner pid pid
    parent := update s.parent pid (some me)
    children := update s.children me (pid :: s.children me)
    kstacks := pid :: s.kstacks
    pmts := pid :: s.pmts
    nextPid := pid + 1 }, pid)

/-- `Process::cloneThread`. -/
def cloneThread (clearTid : ℕ) : Option (Tasks × ℤ) :=
  let me := s.owner s.kernel.running
  let pid := s.nextPid
  (s.kernel.call (.start pid)).map fun r => ({ s with
    kernel := r.1
    owner := update s.owner pid me
    threads := update s.threads me (pid :: s.threads me)
    clearTid := update s.clearTid pid clearTid
    kstacks := pid :: s.kstacks
    nextPid := pid + 1 }, pid)

/-! ## Waiting -/

/-- The first child which has ended and is asked for. -/
def findZombie (me : ℕ) (pid : Option ℕ) : Option ℕ :=
  (s.children me).find? fun c => s.kernel.state c = .zombie && Family.asksFor pid c

/-- `Process::wait` after the semaphore. -/
def reap (me : ℕ) (pid : Option ℕ) : Tasks × ℤ :=
  match s.findZombie me pid with
  | none => (s, -1)
  | some c => ({ s with
      children := update s.children me ((s.children me).erase c)
      reaped := update s.reaped c (some (follow (s.children me) c)) }, c)

/-- `Process::wait`. -/
def wait (pid : Option ℕ) (nohang : Bool) : Option (Tasks × ℤ) :=
  let me := s.owner s.kernel.running
  if s.children me = [] then some (s, -1)
  else if ∃ c ∈ pid, c ∉ s.children me then some (s, -1)
  else if nohang ∧ s.findZombie me pid = none then some (s, 0)
  else (s.kernel.semWait (.self me)).map fun k =>
    if (s.kernel.sem (.self me)).value = 0 then
      ({ s with kernel := k, asked := update s.asked s.kernel.running pid }, 0)
    else { s with kernel := k }.reap me pid

/-! ## Exit -/

/-- `*addr = 0`, unless there is no address. -/
def clearWord (physKey : ℕ) : Tasks :=
  if physKey = 0 then s
  else { s with kernel := { s.kernel with mem := update s.kernel.mem physKey 0 } }

/-- Those who wait for the end of a thread are woken. -/
def wakeJoiners (t : ℕ) : Option Tasks :=
  if s.clearTid t = 0 then some s
  else ((s.clearWord (s.clearTid t)).kernel.futexWake (s.clearTid t) (2 ^ 32 - 1)).map fun r =>
    { s with kernel := r.1 }

/-- A thread, or a process without threads, has ended; then the running process yields. -/
def retire (pid : ℕ) : Option Tasks :=
  (s.kernel.setState pid .zombie).dispatch.map fun k =>
    { s with kernel := k, garbage := s.garbage ++ [pid] }

/-- `Thread::exit`. -/
def endThread (t : ℕ) : Option Tasks :=
  (s.wakeJoiners t).bind fun s =>
    let s := s.clearWord (s.tidAddress t)
    let siblings := (s.threads (s.owner t)).erase t
    { s with threads := update s.threads (s.owner t) siblings }.retire t

/-- The children of a process which ends are given to `s_init`. -/
def adopt : List ℕ → Tasks → Tasks
  | [], s => s
  | c :: cs, s => adopt cs
    { s with
      parent := update s.parent c (some 0)
      children := update s.children 0 (c :: s.children 0)
      kernel := if s.kernel.state c = .zombie then s.kernel.semSignal (.self 0) else s.kernel }

/-- The parent of a process which ends is told. -/
def notify (me : ℕ) : Option Tasks :=
  match s.parent me with
  | none => some s
  | some p => ((s.kernel.semSignal (.self p)).kill p sigchld).map fun r => { s with kernel := r.1 }

/-- The running process is to go on there. -/
def goOn (c : Closing) : Tasks :=
  { s with closing := update s.closing s.kernel.running (some c) }

/-- The loop of `Process::clear`, and the end of `Process::exit`. -/
def clearThreads (pid : ℕ) : Option ℕ → Option Tasks
  | none => s.retire pid
  | some t =>
    -- The thread has been freed.
    if t ∈ s.deleted then none
    else (s.goOn (.clear pid (follow (s.threads pid) t))).endThread t

/-- `Process::exit`. -/
def endProcess (pid : ℕ) : Option Tasks :=
  let s := adopt (s.children pid) s
  ({ s with children := update s.children pid [] }.clearWord (s.tidAddress pid)
    |>.notify pid).bind fun s =>
      { s with kernel := s.kernel.setState pid .zombie }.clearThreads pid (s.threads pid).head?

/-- The loop of `Process::exitGroup`, and its end. -/
def closeGroup : Option ℕ → Option Tasks
  | none => { s with closing := update s.closing s.kernel.running none }.endProcess
      (s.owner s.kernel.running)
  | some t =>
    if t ∈ s.deleted then none
    else if s.kernel.state t = .zombie then
      -- The thread has ended in the meantime, and there is no `m_nextThread`.
      { s with closing := update s.closing s.kernel.running none }.endProcess
        (s.owner s.kernel.running)
    else (s.goOn (.group (follow (s.threads (s.owner s.kernel.running)) t))).endThread t

/-- `SyscallHandler::sys_exit`. -/
def exit : Option Tasks :=
  let me := s.kernel.running
  if s.owner me = me then s.endProcess me else s.endThread me

/-- `Process::exitGroup`. -/
def exitGroup : Option Tasks := s.closeGroup (s.threads (s.owner s.kernel.running)).head?

/-! ## Steps -/

/-- A call by the running process, which is back from the one before. -/
def call : TaskCall → Option (Tasks × ℤ)
  | .fork => s.fork
  | .clone clearTid => s.cloneThread clearTid
  | .setTidAddress physKey =>
    some ({ s with tidAddress := update s.tidAddress s.kernel.running physKey }, 0)
  | .semWait i => s.elsewhere (.semWait (.other i))
  | .semSignal i => s.elsewhere (.semSignal (.other i))
  | .futexWait physKey val timeout => s.elsewhere (.futexWait physKey val timeout)
  | .futexWake physKey count => s.elsewhere (.futexWake physKey count)
  | .store physKey val => s.elsewhere (.store physKey val)
  | .sleep time => s.elsewhere (.sleep time)
  | .wait pid nohang => s.wait pid nohang
  | .exit => s.exit.map fun s => (s, 0)
  | .exitGroup => s.exitGroup.map fun s => (s, 0)
  | .resume => none
  | .tick yields => (s.tick yields).map fun s => (s, 0)

/-- The running process goes on after it yielded. -/
def resume : Option (Tasks × ℤ) :=
  match s.closing s.kernel.running with
  | some (.group next) => (s.closeGroup next).map fun s => (s, 0)
  | some (.clear pid next) => (s.clearThreads pid next).map fun s => (s, 0)
  | none =>
    match s.kernel.frame s.kernel.running with
    | .sem (.self me) => s.kernel.resume.map fun r =>
      { s with kernel := r.1 }.reap me (s.asked s.kernel.running)
    | _ => s.elsewhere .resume

/-- One step; there is none if the kernel panics or hangs, or uses what has been freed. -/
def step (c : TaskCall) : Option (Tasks × ℤ) :=
  match c with
  | .tick yields => (s.tick yields).map fun s => (s, 0)
  | .resume => s.resume
  | c =>
    if s.closing s.kernel.running = none ∧ s.kernel.frame s.kernel.running = .user then s.call c
    else none

/-- `s_init` alone. -/
def boot : Tasks where
  kernel := .boot 0 fun _ => 0
  owner pid := pid
  threads _ := []
  clearTid _ := 0
  tidAddress _ := 0
  parent _ := none
  children _ := []
  reaped _ := none
  asked _ := none
  closing _ := none
  garbage := []
  deleted := []
  kstacks := [0]
  pmts := [0]
  nextPid := 1

end Tasks

end HobbyOS
