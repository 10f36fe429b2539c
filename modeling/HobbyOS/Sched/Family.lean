import HobbyOS.Sched.Step

/-!
# Processes and their children

A process has one semaphore, `m_selfSem`, for all of its children: each of them signals it
when it exits, and `Process::wait` waits for it before it looks for a child which has
ended. Children of a process which ends become children of `s_init`, and those which have
ended already count there.

What a process closes when it ends, and the threads it has, play no role here; it does
not block while it ends.
-/

namespace HobbyOS

open Function

/-- The processes with their children: the semaphore `i` is `m_selfSem` of the process `i`. -/
structure Family where
  kernel : Kernel ℕ
  /-- `m_firstChild` and `m_nextSibling`. -/
  children : ℕ → List ℕ
  /-- `m_parent`. -/
  parent : ℕ → Option ℕ
  /-- Which child the call of `Process::wait` in progress asks for; `none` is `-1`. -/
  asked : ℕ → Option ℕ

/-- What the running process does, or the timer. -/
inductive FamilyCall
  | fork (pid : ℕ)
  | exit
  | wait (pid : Option ℕ) (nohang : Bool)
  /-- `Process::wait` goes on after the semaphore. -/
  | resume
  | sleep (time : ℕ)
  | preempt
  | tick

/-- `SIGCHLD`. -/
def sigchld : ℤ := 17

namespace Family

variable (s : Family)

/-- The process is one which `wait(pid)` asks for. -/
def asksFor (pid : Option ℕ) (c : ℕ) : Bool := pid.all (· = c)

/-- The first child which has ended and is asked for. -/
def findZombie (me : ℕ) (pid : Option ℕ) : Option ℕ :=
  (s.children me).find? fun c => s.kernel.state c = .zombie && asksFor pid c

/-- `Process::wait` after the semaphore. -/
def reap (me : ℕ) (pid : Option ℕ) : Family × ℤ :=
  match s.findZombie me pid with
  | none => (s, -1)
  | some c => ({ s with children := update s.children me ((s.children me).erase c) }, c)

/-- `Process::wait`. -/
def wait (pid : Option ℕ) (nohang : Bool) : Option (Family × ℤ) :=
  let me := s.kernel.running
  if s.children me = [] then some (s, -1)
  else if ∃ c ∈ pid, c ∉ s.children me then some (s, -1)
  else if nohang ∧ s.findZombie me pid = none then some (s, 0)
  else (s.kernel.semWait me).map fun k =>
    if (s.kernel.sem me).value = 0 then
      ({ s with kernel := k, asked := update s.asked me pid }, 0)
    else { s with kernel := k }.reap me pid

/-- The children of a process which ends are given to `s_init`. -/
def adopt : List ℕ → Family → Family
  | [], s => s
  | c :: cs, s => adopt cs
    { s with
      parent := update s.parent c (some 0)
      children := update s.children 0 (c :: s.children 0)
      kernel := if s.kernel.state c = .zombie then s.kernel.semSignal 0 else s.kernel }

/-- The parent of a process which ends is told. -/
def notify (me : ℕ) : Option Family :=
  match s.parent me with
  | none => some s
  | some p => ((s.kernel.semSignal p).kill p sigchld).map fun r => { s with kernel := r.1 }

/-- `Process::exit`. -/
def exit : Option Family :=
  let me := s.kernel.running
  let s := adopt (s.children me) s
  ({ s with children := update s.children me [] }.notify me).bind fun s =>
    ((s.kernel.setState me .zombie).dispatch).map fun k => { s with kernel := k }

/-- `Process::fork`, with the number of the child. -/
def fork (pid : ℕ) : Option Family :=
  let me := s.kernel.running
  if pid ≠ 0 ∧ s.parent pid = none then
    (s.kernel.call (.start pid)).map fun r => { s with
      kernel := r.1
      children := update s.children me (pid :: s.children me)
      parent := update s.parent pid (some me) }
  else none

/-- `Process::wait` goes on: it takes the token it was handed. -/
def resume : Option (Family × ℤ) :=
  let me := s.kernel.running
  s.kernel.resume.map fun r => { s with kernel := r.1 }.reap me (s.asked me)

/-- A step which has nothing to do with children. -/
def elsewhere (c : Call ℕ) : Option (Family × ℤ) :=
  (s.kernel.step c).map fun r => ({ s with kernel := r.1 }, r.2)

/-- One step. -/
def step (c : FamilyCall) : Option (Family × ℤ) :=
  match s.kernel.frame s.kernel.running, c with
  | .user, .fork pid => s.fork pid |>.map fun s => (s, pid)
  | .user, .exit => s.exit.map fun s => (s, 0)
  | .user, .wait pid nohang => s.wait pid nohang
  | .sem _, .resume => s.resume
  | .user, .sleep time => s.elsewhere (.sleep time)
  | .user, .preempt => s.elsewhere .preempt
  | _, .tick => s.elsewhere .tick
  | _, _ => none

/-- `s_init` alone. -/
def boot : Family := ⟨.boot 0 fun _ => 0, fun _ => [], fun _ => none, fun _ => none⟩

/-- The children which have ended and were not waited for. -/
def zombies (p : ℕ) : ℕ := (s.children p).countP fun c => s.kernel.state c = .zombie

/-- A call of `Process::wait` which gets a token finds the child it asks for. Without such a child
    it never gets to the semaphore with `WNOHANG`, nor if it asks for a process which is no child. -/
def Matched : FamilyCall → Prop
  | .wait pid nohang => s.children s.kernel.running = [] ∨ (∃ c ∈ pid, c ∉ s.children s.kernel.running) ∨
    nohang ∨ (s.kernel.sem s.kernel.running).value = 0 ∨ s.findZombie s.kernel.running pid ≠ none
  | .resume => s.findZombie s.kernel.running (s.asked s.kernel.running) ≠ none
  | _ => True

instance (c : FamilyCall) : Decidable (s.Matched c) := by
  unfold Matched
  split <;> infer_instance

end Family

end HobbyOS
