import HobbyOS.Sched.Tidy

/-!
# Steps of a tidy kernel

Every step keeps the kernel tidy (`step_tidy`), with two exceptions (`Polite`):

* `Scheduler::awake` makes a process ready whose timeout is over, but does not take it
  from the queue of the futex it waits for;
* `Futex::wake` takes a process which waits with a timeout from the list of sleeping
  ones, but does not make it ready.

If the processes which are woken wait without a timeout, then `Futex::wake` takes them
from the queue in order, and puts them into the list of ready processes (`futexWake_spec`).
-/

namespace HobbyOS

open Function List Option

namespace Kernel

variable {ι : Type*} {k k' : Kernel ι} {pid p q count physKey : ℕ} {o : ℤ} {st : ProcState}
  {fq : FutexQueue} {c : Call ι}

/-! ## States -/

/-- The state of a process which is neither of those from which one wakes up, nor that in which
    one does, is kept. -/
theorem state_of_ready {st' old : ProcState} (hold : k.state p = old) (h : old ≠ st)
    (h' : st' ≠ st) : (k.setState p st').state q = st ↔ k.state q = st := by
  unfold setState
  dsimp only
  rw [update_apply]
  split
  next hq =>
    subst hq
    rw [hold]
    exact iff_of_false h' h
  · exact Iff.rfl

theorem takeReady_state {l : List ℕ} {r : ℕ × List ℕ} (h : k.takeReady l = some r) :
    k.state r.1 = .ready := by
  induction l with
  | nil => cases h
  | cons pid pids ih =>
    unfold takeReady at h
    split_ifs at h with hst
    · cases h
      exact hst
    · exact ih h

/-- Dispatching changes the states of processes which are ready or run only. -/
theorem dispatch_state (h : k.dispatch = some k') (hr : st ≠ .ready) (hrun : st ≠ .running) :
    k'.state p = st ↔ k.state p = st := by
  have hput : k.putRunning.state p = st ↔ k.state p = st := by
    unfold putRunning
    split
    next hst => exact state_of_ready hst hrun.symm hr.symm
    · exact Iff.rfl
  rw [dispatch_eq_map] at h
  obtain ⟨r, ht, rfl⟩ := map_eq_some_iff.1 h
  exact (state_of_ready (takeReady_state ht) hr.symm hrun.symm).trans hput

theorem expire_state {l : List (ℕ × ℕ)} (h : ∀ p ∈ l.map Prod.fst, k.state p = .sleeping)
    (hnd : (l.map Prod.fst).Nodup) (hr : st ≠ .ready) (hs : st ≠ .sleeping) :
    (expire l k).state p = st ↔ k.state p = st := by
  induction l generalizing k with
  | nil => exact Iff.rfl
  | cons e l ih =>
    obtain ⟨pid, time⟩ := e
    unfold expire
    split
    · have hnd' := nodup_cons.1 hnd
      refine (ih (fun q hq => ?_) hnd'.2).trans
        (state_of_ready (h pid (.head _)) hs.symm hr.symm)
      refine (update_of_ne ?_ _ _).trans (h q (.tail _ hq))
      rintro rfl
      exact hnd'.1 hq
    · exact Iff.rfl

/-- `Scheduler::awake` changes the states of processes which sleep only. -/
theorem awake_state (h : ∀ p ∈ k.sleep.map Prod.fst, k.state p = .sleeping)
    (hnd : (k.sleep.map Prod.fst).Nodup) (hr : st ≠ .ready) (hs : st ≠ .sleeping) :
    k.awake.state p = st ↔ k.state p = st := by
  unfold awake
  split
  · exact Iff.rfl
  next pid time rest hsl =>
    rw [hsl] at h hnd
    exact expire_state h hnd hr hs

/-! ## Waking -/

/-- Who waits for a futex, by its physical address. -/
def waiters (k : Kernel ι) (physKey : ℕ) : List ℕ :=
  (((k.table physKey).bind k.queue).map FutexQueue.waiters).getD []

section

variable (h : k.Tidy none)

include h

/-- A process is taken from a queue and made ready. -/
theorem Tidy.wakeWaiter (hq : k.queue q = some fq) (hp : pid ∈ fq.waiters)
    (hs : k.state pid ≠ .sleeping) :
    Tidy none (((k.popWaiter q ⟨fq.waiters.erase pid, fq.refCount⟩).setState pid .ready).put pid) := by
  obtain ⟨⟨w, hw, -⟩, hsus⟩ := h.linked q fq pid hq hp
  refine (h.dequeue hq pid).wake ⟨fun hm => ?_, fun hm => ?_, fun i hm => ?_, fun q' fq' hq' => ?_⟩
  · unfold Suspended at hsus
    rw [h.ready pid hm] at hsus
    exact absurd hsus (by decide)
  · exact hs (h.sleep pid hm)
  · have := h.waitingOn pid i (h.blocked i pid hm).2
    rw [hw] at this
    cases this
  · exact h.notMem_dequeue hq hp hq'

/-- `Futex::wake` takes the first `count` processes from the queue, and puts them into the list of
    ready ones in the same order. -/
theorem wakeLoop_spec (hq : k.queue q = some fq)
    (hs : ∀ pid ∈ fq.waiters.take count, k.state pid ≠ .sleeping) :
    ∃ k', wakeLoop q count k = some (min count fq.waiters.length, k') ∧ k'.Tidy none ∧
      k'.queue = update k.queue q (some ⟨fq.waiters.drop count, fq.refCount⟩) ∧
      k'.ready = k.ready ++ fq.waiters.take count ∧ k'.sleep = k.sleep ∧
      ∀ pid, k'.state pid = if pid ∈ fq.waiters.take count then .ready else k.state pid := by
  induction count generalizing k fq with
  | zero =>
    refine ⟨k, by simp [wakeLoop], h, ?_, by simp, rfl, by simp⟩
    rw [drop_zero, ← hq, update_eq_self]
  | succ count ih =>
    obtain ⟨ws, refCount⟩ := fq
    cases ws with
    | nil =>
      refine ⟨k, by simp [wakeLoop, hq], h, ?_, by simp, rfl, by simp⟩
      rw [drop_nil, ← hq, update_eq_self]
    | cons pid ws =>
      have hpid : k.state pid ≠ .sleeping := hs pid (by simp)
      have hnd := nodup_cons.1 (h.waiters_nodup q _ hq)
      have h₁ := h.wakeWaiter hq mem_cons_self hpid
      rw [erase_cons_head] at h₁
      set k1 := ((k.popWaiter q ⟨ws, refCount⟩).setState pid .ready).put pid
      have hstep : (k.popWaiter q ⟨ws, refCount⟩).wakeWaiter pid = some k1 := by
        unfold wakeWaiter
        rw [if_neg (show (k.popWaiter q ⟨ws, refCount⟩).state pid ≠ .sleeping from hpid)]
        rfl
      have hstate (p : ℕ) : k1.state p = if p = pid then .ready else k.state p := update_apply ..
      have hq1 : k1.queue q = some ⟨ws, refCount⟩ := update_self ..
      obtain ⟨k', hk', ht, hqueue, hready, hsleep, hst⟩ := ih h₁ hq1 fun p hp => by
        rw [hstate]
        split
        · exact nofun
        · exact hs p (by simp [hp])
      refine ⟨k', ?_, ht, ?_, ?_, hsleep, fun p => ?_⟩
      · simp [wakeLoop, hq, hstep, hk', Nat.succ_min_succ]
      · rw [hqueue]
        exact update_idem ..
      · rw [hready]
        simp [k1, Kernel.put, Kernel.setState, popWaiter]
      · rw [hst, hstate]
        grind

/-- `Futex::wake` wakes the first `count` of those who wait for the futex. -/
theorem futexWake_spec (hs : ∀ pid ∈ (k.waiters physKey).take count, k.state pid ≠ .sleeping) :
    ∃ k' : Kernel ι, k.futexWake physKey count = some (k', ((min count (k.waiters physKey).length : ℕ) : ℤ)) ∧
      k'.Tidy none ∧ k'.waiters physKey = (k.waiters physKey).drop count ∧
      k'.ready = k.ready ++ (k.waiters physKey).take count ∧ k'.sleep = k.sleep ∧
      k'.running = k.running ∧
      ∀ pid, k'.state pid = if pid ∈ (k.waiters physKey).take count then .ready else k.state pid := by
  cases ht : k.table physKey with
  | none =>
    have hw : k.waiters physKey = [] := by simp [waiters, ht]
    exact ⟨k, by simp [futexWake, ht, hw], h, by simp [hw], by simp [hw], rfl, rfl, by simp [hw]⟩
  | some q =>
    obtain ⟨fq, hq⟩ := ne_none_iff_exists'.1 (h.table physKey q ht)
    have hw : k.waiters physKey = fq.waiters := by simp [waiters, ht, hq]
    rw [hw] at hs ⊢
    obtain ⟨k1, hk1, h₁, hqueue, hready, hsleep, hst⟩ := wakeLoop_spec h hq hs
    obtain ⟨-, st, rd, sl, qu, he⟩ := wakeLoop_eq hk1
    have htable : k1.table = k.table := by rw [he]
    obtain ⟨tb, qu', he'⟩ := tryFreeQueue_eq k1 physKey
    refine ⟨k1.tryFreeQueue physKey, by simp [futexWake, ht, hk1], h₁.tryFreeQueue physKey, ?_, ?_⟩
    · -- The queue is freed if it is empty then.
      unfold tryFreeQueue
      rw [htable, ht]
      dsimp only
      have hq1 : k1.queue q = some ⟨fq.waiters.drop count, fq.refCount⟩ := by
        rw [hqueue, update_self]
      split
      next hfree =>
        rw [hq1] at hfree
        simp only [Option.some.injEq, FutexQueue.mk.injEq] at hfree
        simp [waiters, hfree.1]
      · simp [waiters, htable, ht, hq1]
    · rw [he']
      exact ⟨hready, hsleep, by rw [he], hst⟩

/-! ## Signals -/

/-- A process is taken from the queue of the futex it waits for. -/
theorem Tidy.unlinkFutex (pid : ℕ) : (k.unlinkFutex pid).Tidy (some pid) ∧
    ∀ q fq, (k.unlinkFutex pid).queue q = some fq → pid ∉ fq.waiters := by
  unfold Kernel.unlinkFutex
  split
  next h0 =>
    refine ⟨h.weaken, fun q fq hq hm => ?_⟩
    obtain ⟨⟨w, hw, -⟩, hs⟩ := h.linked q fq pid hq hm
    rw [(h.waiting pid w nofun hw hs).1] at h0
    exact (h.frame pid w hw).1 h0
  next h0 =>
    obtain ⟨w, hw, hkey⟩ := h.futexKey pid h0
    obtain ⟨fq, hq⟩ := h.queue_of_frame hw
    have he : k.futexForceRemove (k.futexKey pid) pid =
        k.popWaiter w.queue ⟨fq.waiters.erase pid, fq.refCount⟩ := by
      simp [futexForceRemove, ← hkey, (h.frame pid w hw).2.1, hq, popWaiter]
    rw [he]
    have h₁ := h.dequeue hq pid
    refine ⟨{ h₁ with futexKey := fun p hp => ?_, waiting := fun p v hne hv hs => ?_ },
      fun q fq' hq' hm => ?_⟩
    · dsimp only at hp ⊢
      rw [update_apply] at hp ⊢
      split_ifs at hp with hne
      · exact absurd rfl hp
      · rw [if_neg hne]
        exact h.futexKey p hp
    · dsimp only
      rw [update_of_ne (by rintro rfl; exact hne rfl)]
      exact h₁.waiting p v hne hv hs
    by_cases hp : pid ∈ fq.waiters
    · exact h.notMem_dequeue hq hp hq' hm
    -- It has been taken from the queue already.
    have hq1 : (k.popWaiter w.queue ⟨fq.waiters.erase pid, fq.refCount⟩).queue = k.queue := by
      rw [erase_of_not_mem hp, popWaiter, ← hq, update_eq_self]
    rw [hq1] at hq'
    obtain ⟨⟨v, hv, rfl⟩, -⟩ := h.linked q fq' pid hq' hm
    rw [hw] at hv
    cases hv
    rw [hq] at hq'
    cases hq'
    exact hp hm

/-- A process which blocks or sleeps is taken from all lists, and made ready. -/
theorem Tidy.interrupt [DecidableEq ι] (hs : k.Suspended pid) (hi : k.interrupt pid = some k') :
    k'.Tidy none ∧ k'.running = k.running ∧
      ∀ p, k'.state p = if p = pid then .ready else k.state p := by
  obtain ⟨k1, hk1, rfl⟩ := map_eq_some_iff.1 hi
  obtain ⟨h₁, hsem⟩ := h.unlinkSem pid
  obtain ⟨h2, hfutex⟩ := h₁.unlinkFutex pid
  obtain ⟨h3, hsleep, he⟩ := h2.unlinkSleep hk1
  obtain ⟨wo, sm, he1⟩ := unlinkSem_eq k pid
  obtain ⟨fk, qu, he2⟩ := unlinkFutex_eq { k with waitingOn := wo, sem := sm } pid
  rw [he1] at hsem
  rw [he1, he2] at he hfutex
  refine ⟨h3.wake ⟨?_, hsleep, ?_, ?_⟩, ?_, fun p => ?_⟩
  · rw [he]
    intro hm
    unfold Suspended at hs
    rw [h.ready pid hm] at hs
    exact absurd hs (by decide)
  · rwa [he]
  · rwa [he]
  · show k1.running = _
    rw [he]
  · refine (update_apply ..).trans ?_
    rw [he]

theorem Tidy.wakeStopped (pid : ℕ) : (k.wakeStopped pid).Tidy none := by
  unfold Kernel.wakeStopped
  split
  next hst => exact h.weaken.wake (h.free_of_state hst (by decide))
  · exact h

/-! ## Steps -/

/-- Between two steps the kernel is tidy, and the running process has the state it should. -/
structure Orderly (k : Kernel ι) : Prop where
  tidy : k.Tidy none
  running : k.state k.running = .running

/-- No timeout of a futex is over, and no process which waits with a timeout is woken. -/
def Polite (k : Kernel ι) : Call ι → Prop
  | .tick => ∀ pid ∈ k.expiring, ∀ w, k.frame pid ≠ .futex w
  | .futexWake physKey count => ∀ pid ∈ (k.waiters physKey).take count, k.state pid ≠ .sleeping
  | _ => True

omit h in
/-- A process which was not running is made ready. -/
theorem Orderly.of_ready (hk : k.Orderly) (h : k'.Tidy none) (hr : k'.running = k.running)
    {ready : ℕ → Prop} [DecidablePred ready] (hready : ¬ ready k.running)
    (hst : ∀ p, k'.state p = if ready p then .ready else k.state p) : k'.Orderly := by
  refine ⟨h, ?_⟩
  rw [hr, hst, if_neg hready]
  exact hk.running

theorem Orderly.dispatch (hd : k.dispatch = some k') : k'.Orderly :=
  ⟨(h.dispatch hd).1, (h.dispatch hd).2⟩

end

variable (h : k.Orderly)

include h

/-- The running process yields, and need not be in a list. -/
theorem Orderly.yield (hst : st ≠ .blocked ∧ st ≠ .sleeping)
    (hd : (k.setState k.running st).dispatch = some k') : k'.Orderly :=
  .dispatch (h.tidy.weaken.setState (h.tidy.free_running h.running) hst) hd

theorem Orderly.ne_running (hst : k.state pid ≠ .running) : k.running ≠ pid := by
  rintro rfl
  exact hst h.running

theorem Orderly.semSignal [DecidableEq ι] (i : ι) : (k.semSignal i).Orderly := by
  refine ⟨h.tidy.semSignal i, ?_⟩
  unfold Kernel.semSignal
  split
  · exact h.running
  next pid pids hb =>
    have hst := (h.tidy.blocked i pid (by rw [hb]; exact (.head _))).1
    exact (update_of_ne (h.ne_running (by rw [hst]; decide)) _ _).trans h.running

theorem Orderly.wakeStopped (pid : ℕ) : (k.wakeStopped pid).Orderly := by
  refine ⟨h.tidy.wakeStopped pid, ?_⟩
  unfold Kernel.wakeStopped
  split
  next hst => exact (update_of_ne (h.ne_running (by rw [hst]; decide)) _ _).trans h.running
  · exact h.running

theorem Orderly.kill [DecidableEq ι] {signum : ℤ} (hk : k.kill pid signum = some (k', o)) :
    k'.Orderly := by
  obtain ⟨k1, hk1, hk⟩ := kill_cases hk
  have h₁ : k1.Orderly := by
    rcases hk1 with rfl | rfl
    · exact h
    · exact h.wakeStopped pid
  rcases hk with rfl | ⟨hs, hk⟩
  · exact h₁
  obtain ⟨ht, hr, hst⟩ := h₁.tidy.interrupt hs.symm hk
  refine h₁.of_ready ht hr ?_ hst
  refine h₁.ne_running ?_
  rcases hs with hs | hs <;> rw [hs] <;> decide

theorem Orderly.futexWait {val timeout : ℕ} (hu : k.frame k.running = .user) (hkey : physKey ≠ 0)
    (hw : k.futexWait physKey val timeout = some (k', o)) : k'.Orderly := by
  unfold Kernel.futexWait at hw
  split at hw
  · cases hw
    exact h
  obtain ⟨k1, hk1, ⟨⟩⟩ := map_eq_some_iff.1 hw
  obtain ⟨hg, ht⟩ := h.tidy.getQueue physKey
  have hsame : (k.getQueue physKey).2.state = k.state ∧ (k.getQueue physKey).2.frame = k.frame ∧
      (k.getQueue physKey).2.running = k.running := by
    obtain ⟨tb, qu, nq, he⟩ := getQueue_eq k physKey
    rw [he]
    exact ⟨rfl, rfl, rfl⟩
  generalize (k.getQueue physKey).2 = k2 at hg ht hsame hk1
  generalize (k.getQueue physKey).1 = q at ht hk1
  have hr2 : k2.state k2.running = .running := by
    rw [hsame.1, hsame.2.2]
    exact h.running
  have hu2 : k2.frame k2.running = .user := by
    rwa [hsame.2.1, hsame.2.2]
  obtain ⟨fq, hq, hk1⟩ := bind_eq_some_iff.1 hk1
  have hp : (k2.pushWaiter physKey val timeout q fq).Tidy none :=
    hg.pushWaiter hr2 hu2 hkey ht hq
  refine .dispatch ?_ hk1
  unfold startTimeout
  split
  next ht =>
    have hf := hg.free_running hr2
    refine hp.putSleep timeout hf.ready hf.sleep hf.blocked fun w hw =>
      ⟨.inl (update_self ..), ?_⟩
    cases (update_self ..).symm.trans hw
    exact ht
  · exact hp

theorem Orderly.futexResume {w : FutexWait} (hw : k.frame k.running = .futex w)
    (hk : k.futexResume w = some (k', o)) : k'.Orderly := by
  obtain ⟨fq, hq, ⟨⟩⟩ := map_eq_some_iff.1 hk
  have ht := (h.tidy.leaveQueue h.running hw hq).tryFreeQueue w.physKey
  obtain ⟨tb, qu, he⟩ := tryFreeQueue_eq (k.leaveQueue w.queue fq) w.physKey
  rw [he] at ht ⊢
  exact ⟨ht, h.running⟩

theorem Orderly.resume (hk : k.resume = some (k', o)) : k'.Orderly := by
  unfold Kernel.resume at hk
  split at hk
  · cases hk
  next i hi =>
    cases hk
    refine ⟨h.tidy.reframe (h.tidy.free_running h.running).blocked (fun w => ?_) nofun nofun,
      h.running⟩
    rw [hi]
    exact nofun
  next w hw => exact h.futexResume hw hk

theorem Orderly.futexWake (hs : ∀ pid ∈ (k.waiters physKey).take count, k.state pid ≠ .sleeping)
    (hk : k.futexWake physKey count = some (k', o)) : k'.Orderly := by
  obtain ⟨k1, hk1, ht, hw, -, -, hr, hst⟩ := futexWake_spec h.tidy hs
  rw [hk1] at hk
  cases hk
  refine h.of_ready ht hr ?_ hst
  intro hm
  replace hm := mem_of_mem_take hm
  unfold waiters at hm
  cases hq : (k.table physKey).bind k.queue with
  | none => simp [hq] at hm
  | some fq =>
    obtain ⟨q, -, hq'⟩ := bind_eq_some_iff.1 hq
    exact (h.tidy.free_running h.running).waiters q fq hq' (by simpa [hq] using hm)

/-- Every polite step keeps the kernel orderly. -/
theorem Orderly.step [DecidableEq ι] (hc : k.Polite c) (hk : k.step c = some (k', o)) :
    k'.Orderly := by
  have hf := h.tidy.free_running h.running
  cases step_does hk with
  | nothing => exact h
  | semWait hu hk =>
    obtain ⟨ht, hr⟩ := h.tidy.semWait h.running hu hk
    exact ⟨ht, hr⟩
  | semSignal => exact h.semSignal _
  | futexWait hu hkey hk => exact h.futexWait hu hkey hk
  | futexWake hk => exact h.futexWake hc hk
  | store => exact ⟨{ h.tidy with }, h.running⟩
  | kill hk => exact h.kill hk
  | sleep hu hk =>
    refine .dispatch (h.tidy.putSleep _ hf.ready hf.sleep hf.blocked fun w hw => ?_) hk
    rw [hu] at hw
    cases hw
  | preempt hk => exact .dispatch h.tidy hk
  | stop hk | exit hk => exact h.yield ⟨by decide, by decide⟩ hk
  | start hz =>
    refine ⟨h.tidy.weaken.wake (h.tidy.free_of_state hz (by decide)), ?_⟩
    exact (update_of_ne (h.ne_running (by rw [hz]; decide)) _ _).trans h.running
  | tick =>
    obtain ⟨ht, hr⟩ := h.tidy.awake h.running hc
    exact ⟨ht, hr⟩
  | resume hk => exact h.resume hk

omit h

/-- The kernel before the processes run: they are ready, and nothing is waited for. -/
structure Boot (k : Kernel ι) : Prop where
  running : k.state k.running = .running
  ready : ∀ pid ∈ k.ready, k.state pid = .ready
  ready_nodup : k.ready.Nodup
  state : ∀ pid, ¬ k.Suspended pid
  sleep : k.sleep = []
  blocked : ∀ i, (k.sem i).blocked = []
  waitingOn : ∀ pid, k.waitingOn pid = none
  futexKey : ∀ pid, k.futexKey pid = 0
  frame : ∀ pid, k.frame pid = .user
  table : ∀ key, k.table key = none
  queue : ∀ q, k.queue q = none

theorem Boot.orderly (h : k.Boot) : k.Orderly := by
  obtain ⟨hr, hready, hnd, hst, hsleep, hb, hw, hkey, hf, ht, hq⟩ := h
  refine ⟨⟨hready, hnd, ?_, ?_, ?_, ?_, ?_, ?_, ?_, ?_, ?_, ?_, ?_, ?_, ?_, ?_, ?_, ?_⟩, hr⟩ <;>
    simp [hsleep, hb, hw, hkey, hf, ht, hq]

/-- The processes `0, …, n`, of which `0` runs, and semaphores with these values. -/
def boot (n : ℕ) (value : ι → ℕ) : Kernel ι where
  state pid := if pid = 0 then .running else if pid ≤ n then .ready else .zombie
  waitingOn _ := none
  futexKey _ := 0
  frame _ := .user
  running := 0
  ready := List.range' 1 n
  sleep := []
  sem i := ⟨value i, []⟩
  table _ := none
  queue _ := none
  nextQueue := 0
  mem _ := 0
  clock := 0

theorem boot_boot (n : ℕ) (value : ι → ℕ) : (boot n value).Boot := by
  refine ⟨rfl, fun pid hpid => ?_, nodup_range', fun pid => ?_, rfl, fun _ => rfl, fun _ => rfl,
    fun _ => rfl, fun _ => rfl, fun _ => rfl, fun _ => rfl⟩
  · obtain ⟨h1, hn⟩ := mem_range'_1.1 hpid
    simp only [boot]
    rw [if_neg (by omega), if_pos (by omega)]
  · simp only [Suspended, boot]
    split_ifs <;> decide

/-- In every run whose steps are polite the kernel stays orderly. -/
theorem Orderly.reaches [DecidableEq ι] (h : k.Orderly)
    (hrun : Reaches (fun k => k.step) Polite k k') : k'.Orderly :=
  hrun.inv (fun _ _ _ _ h hc hs => h.step hc hs) h

end Kernel

end HobbyOS
