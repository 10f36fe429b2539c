import HobbyOS.Sched

/-!
# Tidy kernels

A process is in one list at most, and in the one its state says (`Tidy`):

* it is in the list of ready processes only if it is ready, and in that of sleeping ones
  only if it sleeps, and in each of them once;
* it is in the queue of a semaphore only if it blocks on it;
* it is in the queue of a futex exactly if it is suspended in `Futex::wait` on it.

The queue of a futex is there as long as a process is in `Futex::wait` with it: it counts
them.

Each function which moves a process takes it from one list, sets the state, and puts it
into another list. In between the process is in no list (`Free`), and it may be suspended
in `Futex::wait` without being in the queue; `Tidy` makes an exception for one process.
-/

namespace HobbyOS

open Function List Option

namespace Kernel

variable {ι : Type*} (k : Kernel ι) {k' : Kernel ι}

/-- The process blocks or sleeps. -/
def Suspended (pid : ℕ) : Prop := k.state pid = .blocked ∨ k.state pid = .sleeping

instance (pid : ℕ) : Decidable (k.Suspended pid) := inferInstanceAs (Decidable (_ ∨ _))

/-- The process is in `Futex::wait`, with this queue. -/
def Holds (pid q : ℕ) : Prop := ∃ w, k.frame pid = .futex w ∧ w.queue = q

/-- Processes are in the lists their states say, except that `ex` may have been taken from the
    queue of its futex. -/
structure Tidy (ex : Option ℕ) (k : Kernel ι) : Prop where
  ready : ∀ pid ∈ k.ready, k.state pid = .ready
  ready_nodup : k.ready.Nodup
  sleep : ∀ pid ∈ k.sleep.map Prod.fst, k.state pid = .sleeping
  sleep_nodup : (k.sleep.map Prod.fst).Nodup
  blocked : ∀ i, ∀ pid ∈ (k.sem i).blocked, k.state pid = .blocked ∧ k.waitingOn pid = some i
  blocked_nodup : ∀ i, (k.sem i).blocked.Nodup
  waitingOn : ∀ pid i, k.waitingOn pid = some i → k.frame pid = .sem i
  futexKey : ∀ pid, k.futexKey pid ≠ 0 → ∃ w, k.frame pid = .futex w ∧ w.physKey = k.futexKey pid
  table : ∀ key q, k.table key = some q → k.queue q ≠ none
  table_inj : ∀ key key' q, k.table key = some q → k.table key' = some q → key = key'
  frame : ∀ pid w, k.frame pid = .futex w →
    w.physKey ≠ 0 ∧ k.table w.physKey = some w.queue ∧ w.since < k.clock
  waiting : ∀ pid w, some pid ≠ ex → k.frame pid = .futex w → k.Suspended pid →
    k.futexKey pid = w.physKey ∧ ∃ fq, k.queue w.queue = some fq ∧ pid ∈ fq.waiters
  linked : ∀ q fq pid, k.queue q = some fq → pid ∈ fq.waiters → k.Holds pid q ∧ k.Suspended pid
  sorted : ∀ q fq, k.queue q = some fq → fq.waiters.Pairwise fun a b =>
    ∀ v w, k.frame a = .futex v → k.frame b = .futex w → v.since < w.since
  waiters_nodup : ∀ q fq, k.queue q = some fq → fq.waiters.Nodup
  refCount : ∀ q fq, k.queue q = some fq →
    ∃ l : List ℕ, l.Nodup ∧ l.length = fq.refCount ∧ ∀ pid, pid ∈ l ↔ k.Holds pid q
  nextQueue : ∀ q, k.nextQueue ≤ q → k.queue q = none
  timed : ∀ pid w, k.frame pid = .futex w → k.state pid = .sleeping → 0 < w.timeout

/-- The process is in no list. -/
structure Free (pid : ℕ) : Prop where
  ready : pid ∉ k.ready
  sleep : pid ∉ k.sleep.map Prod.fst
  blocked : ∀ i, pid ∉ (k.sem i).blocked
  waiters : ∀ q fq, k.queue q = some fq → pid ∉ fq.waiters

variable {k} {ex : Option ℕ} {pid q : ℕ} {w : FutexWait} {fq : FutexQueue}

/-- A process which is neither suspended nor in the list of ready ones is in no list. -/
theorem Tidy.free (h : k.Tidy ex) (hr : pid ∉ k.ready) (hs : ¬ k.Suspended pid) : k.Free pid :=
  ⟨hr, fun hm => hs (.inr (h.sleep pid hm)), fun i hm => hs (.inl (h.blocked i pid hm).1),
    fun q fq hq hm => hs (h.linked q fq pid hq hm).2⟩

theorem Tidy.free_of_state {st : ProcState} (h : k.Tidy ex) (hst : k.state pid = st)
    (hne : st ≠ .ready ∧ st ≠ .blocked ∧ st ≠ .sleeping) : k.Free pid := by
  subst hst
  exact h.free (fun hm => hne.1 (h.ready pid hm)) (not_or.2 hne.2)

theorem Tidy.free_running (h : k.Tidy ex) (hr : k.state pid = .running) : k.Free pid :=
  h.free_of_state hr (by decide)

/-- A process is given another state. Whether it has to be in the queue of its futex is left open. -/
theorem Tidy.setState_some {st : ProcState} (h : k.Tidy (some pid)) (hr : pid ∉ k.ready)
    (hs : pid ∉ k.sleep.map Prod.fst) (hb : ∀ i, pid ∉ (k.sem i).blocked)
    (hw : ∀ w, k.frame pid = .futex w → st = .sleeping → 0 < w.timeout)
    (hl : ∀ q fq, k.queue q = some fq → pid ∈ fq.waiters → st = .blocked ∨ st = .sleeping) :
    (k.setState pid st).Tidy (some pid) := by
  have hself : (k.setState pid st).state pid = st := update_self ..
  have hother {p : ℕ} (hp : p ≠ pid) : (k.setState pid st).state p = k.state p :=
    update_of_ne hp _ _
  refine { h with
    ready := fun p hp => ?_, sleep := fun p hp => ?_, blocked := fun i p hp => ?_
    waiting := fun p w hne hp hs => ?_
    linked := fun q fq p hq hp => ⟨(h.linked q fq p hq hp).1, ?_⟩, timed := fun p w hp hs => ?_ }
  · rw [hother (ne_of_mem_of_not_mem hp hr)]
    exact h.ready p hp
  · rw [hother (ne_of_mem_of_not_mem hp hs)]
    exact h.sleep p hp
  · rw [hother (ne_of_mem_of_not_mem hp (hb i))]
    exact h.blocked i p hp
  · rw [Suspended, hother fun he => hne (congrArg some he)] at hs
    exact h.waiting p w hne hp hs
  · by_cases hpid : p = pid
    · subst hpid
      rw [Suspended, hself]
      exact hl q fq hq hp
    · rw [Suspended, hother hpid]
      exact (h.linked q fq p hq hp).2
  · by_cases hpid : p = pid
    · subst hpid
      exact hw w hp (hself.symm.trans hs)
    · exact h.timed p w hp ((hother hpid).symm.trans hs)

/-- A process which is in no list may be given any state in which it need not be in one. -/
theorem Tidy.setState {st : ProcState} (h : k.Tidy (some pid)) (hf : k.Free pid)
    (hst : st ≠ .blocked ∧ st ≠ .sleeping) : (k.setState pid st).Tidy none := by
  have hset := h.setState_some hf.ready hf.sleep hf.blocked (fun _ _ he => absurd he hst.2)
    fun q fq hq hm => absurd hm (hf.waiters q fq hq)
  refine { hset with waiting := fun p w _ hw hs => hset.waiting p w ?_ hw hs }
  rintro ⟨⟩
  rw [Suspended, show (k.setState pid st).state pid = st from update_self ..] at hs
  exact hs.elim hst.1 hst.2

theorem Tidy.put (h : k.Tidy ex) (hst : k.state pid = .ready) (hpid : pid ∉ k.ready) :
    (k.put pid).Tidy ex := by
  refine { h with ready := ?_, ready_nodup := ?_ }
  · intro p hp
    rcases mem_append.1 hp with hp | hp
    · exact h.ready p hp
    · rwa [mem_singleton.1 hp]
  · exact nodup_append.2 ⟨h.ready_nodup, nodup_singleton _, by grind⟩

theorem Tidy.weaken (h : k.Tidy none) : k.Tidy ex :=
  { h with waiting := fun p w _ => h.waiting p w nofun }

/-- A process which is in no list is made ready. -/
theorem Tidy.wake (h : k.Tidy (some pid)) (hf : k.Free pid) :
    ((k.setState pid .ready).put pid).Tidy none := by
  have hset : (k.setState pid .ready).Tidy none := h.setState hf ⟨by decide, by decide⟩
  exact hset.put (update_self ..) hf.ready

/-! ## Dispatching -/

theorem Tidy.putRunning (h : k.Tidy none) : k.putRunning.Tidy none := by
  unfold Kernel.putRunning
  split
  next hr => exact h.weaken.wake (h.free_running hr)
  · exact h

/-- Only ready processes are in the list, so none is dropped. -/
theorem takeReady_eq {l : List ℕ} {r : ℕ × List ℕ} (h : ∀ pid ∈ l, k.state pid = .ready)
    (ht : k.takeReady l = some r) : l = r.1 :: r.2 := by
  cases l with
  | nil => cases ht
  | cons pid pids =>
    unfold takeReady at ht
    rw [if_pos (h pid (.head _))] at ht
    cases ht
    rfl

theorem Tidy.tail {pids : List ℕ} (h : k.Tidy ex) (hr : k.ready = pid :: pids) :
    Tidy ex { k with ready := pids, running := pid } := by
  have hnd := h.ready_nodup
  rw [hr, nodup_cons] at hnd
  exact { h with
    ready := fun p hp => h.ready p (hr ▸ mem_cons_of_mem pid hp)
    ready_nodup := hnd.2 }

/-- The process which is dispatched was ready, and is in no list. -/
theorem Tidy.dispatch (h : k.Tidy none) (hd : k.dispatch = some k') :
    k'.Tidy none ∧ k'.state k'.running = .running := by
  rw [dispatch_eq_map] at hd
  obtain ⟨⟨pid, pids⟩, ht, rfl⟩ := map_eq_some_iff.1 hd
  have h1 := h.putRunning
  have hr := takeReady_eq h1.ready ht
  have hst : k.putRunning.state pid = .ready := h1.ready pid (by rw [hr]; exact (.head _))
  have hns : ¬ k.putRunning.Suspended pid := by
    unfold Suspended
    rw [hst]
    decide
  have hnd := h1.ready_nodup
  rw [hr, nodup_cons] at hnd
  have h2 := h1.tail hr
  exact ⟨h2.weaken.setState (h2.free hnd.1 hns) ⟨by decide, by decide⟩, update_self ..⟩

/-! ## Semaphores -/

section Semaphores

variable [DecidableEq ι] {i : ι}

/-- A process is taken from the queue of the semaphore it waits for. -/
theorem Tidy.unlinkSem (h : k.Tidy ex) (pid : ℕ) :
    (k.unlinkSem pid).Tidy ex ∧ ∀ j, pid ∉ ((k.unlinkSem pid).sem j).blocked := by
  unfold Kernel.unlinkSem
  split
  next hw =>
    refine ⟨h, fun j hm => ?_⟩
    rw [(h.blocked j pid hm).2] at hw
    cases hw
  next i hw =>
    have hmem (j : ι) (p : ℕ) :
        p ∈ ((k.semForceRemove i pid).sem j).blocked ↔ p ≠ pid ∧ p ∈ (k.sem j).blocked := by
      simp only [semForceRemove, update_apply]
      split_ifs with hj
      · rw [hj, (h.blocked_nodup i).mem_erase_iff]
      refine (and_iff_right_of_imp fun hp => ?_).symm
      rintro rfl
      rw [(h.blocked j p hp).2] at hw
      exact hj (Option.some.inj hw)
    refine ⟨{ h with blocked := fun j p hp => ?_, blocked_nodup := fun j => ?_,
                     waitingOn := fun p j hp => ?_ }, fun j hm => ((hmem j pid).1 hm).1 rfl⟩
    · obtain ⟨hne, hp⟩ := (hmem j p).1 hp
      dsimp only [semForceRemove]
      rw [update_of_ne hne]
      exact h.blocked j p hp
    · simp only [semForceRemove, update_apply]
      split
      · exact (h.blocked_nodup i).erase pid
      · exact h.blocked_nodup j
    · dsimp only at hp
      rw [update_apply] at hp
      split at hp
      · cases hp
      · exact h.waitingOn p j hp

/-- The value of a semaphore does not matter. -/
theorem Tidy.setValue (h : k.Tidy ex) (i : ι) (value : ℕ) :
    Tidy ex { k with sem := update k.sem i ⟨value, (k.sem i).blocked⟩ } := by
  have hsem (j : ι) : (update k.sem i ⟨value, (k.sem i).blocked⟩ j).blocked = (k.sem j).blocked := by
    rw [update_apply]
    split
    next hj => rw [hj]
    · rfl
  refine { h with blocked := fun j p hp => ?_, blocked_nodup := fun j => ?_ }
  · rw [hsem] at hp
    exact h.blocked j p hp
  · rw [hsem]
    exact h.blocked_nodup j

theorem Tidy.semSignal (h : k.Tidy none) (i : ι) : (k.semSignal i).Tidy none := by
  unfold Kernel.semSignal
  split
  next hb => exact hb ▸ h.setValue i ((k.sem i).value + 1)
  next pid pids hb =>
    obtain ⟨hst, hw⟩ := h.blocked i pid (by rw [hb]; exact (.head _))
    have he : { k with
        sem := update k.sem i ⟨(k.sem i).value, pids⟩
        waitingOn := update k.waitingOn pid none } = k.unlinkSem pid := by
      simp [Kernel.unlinkSem, hw, semForceRemove, hb]
    obtain ⟨h1, hfree⟩ := h.unlinkSem pid
    rw [he]
    refine h1.weaken.wake ⟨fun hm => ?_, fun hm => ?_, hfree, fun q fq hq hm => ?_⟩
    all_goals rw [← he] at *
    · have := h.ready pid hm
      rw [hst] at this
      cases this
    · have := h.sleep pid hm
      rw [hst] at this
      cases this
    · obtain ⟨⟨w, hf, -⟩, -⟩ := h.linked q fq pid hq hm
      rw [h.waitingOn pid i hw] at hf
      cases hf

omit [DecidableEq ι] in
/-- A process which is in no `Futex::wait` and in no queue of a semaphore goes on elsewhere. -/
theorem Tidy.reframe {f : Frame ι} {o : Option ι} (h : k.Tidy ex)
    (hb : ∀ j, pid ∉ (k.sem j).blocked) (hold : ∀ w, k.frame pid ≠ .futex w)
    (hnew : ∀ w, f ≠ .futex w) (how : ∀ j, o = some j → f = .sem j) : Tidy ex { k with
      frame := update k.frame pid f, waitingOn := update k.waitingOn pid o } := by
  have hframe (p : ℕ) (w : FutexWait) :
      update k.frame pid f p = .futex w ↔ k.frame p = .futex w := by
    rw [update_apply]
    split_ifs with hp
    · subst hp
      exact iff_of_false (hnew w) (hold w)
    · exact Iff.rfl
  refine { h with
    blocked := fun j p hp => ?_, waitingOn := fun p j hp => ?_, futexKey := ?_, frame := ?_
    waiting := ?_, linked := ?_, sorted := ?_, refCount := ?_, timed := ?_ }
  · dsimp only
    rw [update_of_ne (by rintro rfl; exact hb j hp)]
    exact h.blocked j p hp
  · dsimp only at hp ⊢
    rw [update_apply] at hp ⊢
    split_ifs at hp with hpid
    · rw [if_pos hpid, how j hp]
    · rw [if_neg hpid, h.waitingOn p j hp]
  · simpa only [hframe] using h.futexKey
  · simpa only [hframe] using h.frame
  · simpa only [Suspended, hframe] using h.waiting
  · simpa only [Suspended, Holds, hframe] using h.linked
  · simpa only [hframe] using h.sorted
  · simpa only [Holds, hframe] using h.refCount
  · simpa only [hframe] using h.timed

/-- A process which is in no list, and goes on in the semaphore, is put into its queue. -/
theorem Tidy.block (h : k.Tidy none) (hf : k.Free pid) (hw : k.waitingOn pid = some i) :
    Tidy none { k.setState pid .blocked with
      sem := update k.sem i ⟨(k.sem i).value, (k.sem i).blocked ++ [pid]⟩ } := by
  have hmem (j : ι) (p : ℕ) : p ∈ (update k.sem i
      ⟨(k.sem i).value, (k.sem i).blocked ++ [pid]⟩ j).blocked ↔
      p ∈ (k.sem j).blocked ∨ j = i ∧ p = pid := by
    rw [update_apply]
    split_ifs with hj
    · simp [hj]
    · simp [hj]
  have hset : (k.setState pid .blocked).Tidy (some pid) :=
    h.weaken.setState_some hf.ready hf.sleep hf.blocked nofun fun _ _ _ _ => .inl rfl
  refine { hset with
    blocked := fun j p hp => ?_, blocked_nodup := fun j => ?_
    waiting := fun p w _ hp hs => hset.waiting p w ?_ hp hs }
  · rcases (hmem j p).1 hp with hp | ⟨rfl, rfl⟩
    · exact hset.blocked j p hp
    · exact ⟨update_self .., hw⟩
  · dsimp only
    rw [update_apply]
    split
    · exact nodup_append.2 ⟨h.blocked_nodup i, nodup_singleton _, by
        have := hf.blocked i
        grind⟩
    · exact h.blocked_nodup j
  · rintro ⟨⟩
    exact absurd ((h.waitingOn pid i hw).symm.trans hp) nofun

variable (h : k.Tidy none) (hr : k.state k.running = .running) (hu : k.frame k.running = .user)

include h hr hu

theorem Tidy.pushBlocked : (k.pushBlocked i).Tidy none := by
  have hf := h.free_running hr
  refine (h.reframe hf.blocked (f := .sem i) (o := some i) (fun w => ?_) nofun ?_).block
    ⟨hf.ready, hf.sleep, hf.blocked, hf.waiters⟩ (update_self ..)
  · rw [hu]
    exact nofun
  · rintro j ⟨⟩
    rfl

theorem Tidy.semWait (hw : k.semWait i = some k') :
    k'.Tidy none ∧ k'.state k'.running = .running := by
  unfold Kernel.semWait at hw
  split at hw
  · exact (h.pushBlocked hr hu).dispatch hw
  · cases hw
    exact ⟨h.setValue i _, hr⟩

end Semaphores

/-! ## Sleeping -/

theorem insertSleep_perm (pid time : ℕ) (l : List (ℕ × ℕ)) :
    ((insertSleep pid time l).map Prod.fst).Perm (pid :: l.map Prod.fst) := by
  induction l generalizing time with
  | nil => exact .refl _
  | cons e l ih =>
    obtain ⟨cur, relative⟩ := e
    unfold insertSleep
    split
    · exact ((ih (time - relative)).cons cur).trans (.swap ..)
    · exact .refl _

/-- A process which is in none of the other lists is put into that of sleeping ones. -/
theorem Tidy.putSleep (h : k.Tidy none) (time : ℕ) (hr : pid ∉ k.ready)
    (hs : pid ∉ k.sleep.map Prod.fst) (hb : ∀ i, pid ∉ (k.sem i).blocked)
    (hw : ∀ w, k.frame pid = .futex w → k.Suspended pid ∧ 0 < w.timeout) :
    ((k.setState pid .sleeping).putSleep pid time).Tidy none := by
  have hperm := insertSleep_perm pid time k.sleep
  have hset : (k.setState pid .sleeping).Tidy (some pid) :=
    h.weaken.setState_some hr hs hb (fun w hp _ => (hw w hp).2) fun _ _ _ _ => .inr rfl
  refine { hset with
    sleep := fun p hp => ?_, sleep_nodup := hperm.nodup_iff.2 (nodup_cons.2 ⟨hs, h.sleep_nodup⟩)
    waiting := fun p w _ hp hsp => ?_ }
  · by_cases hpid : p = pid
    · subst hpid
      exact update_self ..
    · exact hset.sleep p (mem_of_ne_of_mem hpid (hperm.mem_iff.1 hp))
  · by_cases hpid : p = pid
    · subst hpid
      exact h.waiting p w nofun hp (hw w hp).1
    · exact hset.waiting p w (fun he => hpid (Option.some.inj he)) hp hsp

/-- `Scheduler::wakeUp` takes the process from the list. -/
theorem map_removeSleep (pid : ℕ) (l : List (ℕ × ℕ)) :
    (removeSleep pid l).map Prod.fst = (l.map Prod.fst).erase pid := by
  have herase (l : List (ℕ × ℕ)) : (l.eraseP fun e => e.1 = pid).map Prod.fst =
      (l.map Prod.fst).erase pid := by
    induction l with
    | nil => rfl
    | cons e l ih =>
      by_cases he : e.1 = pid
      · simp [he]
      · simp [he, ih]
  cases l with
  | nil => rfl
  | cons e l =>
    obtain ⟨cur, time⟩ := e
    by_cases hc : cur = pid
    · subst hc
      cases l with
      | nil => simp [removeSleep]
      | cons e l => simp [removeSleep]
    · simp [removeSleep, hc, herase]

theorem Tidy.unlinkSleep (h : k.Tidy ex) (hu : k.unlinkSleep pid = some k') :
    k'.Tidy ex ∧ pid ∉ k'.sleep.map Prod.fst ∧ k' = { k with sleep := k'.sleep } := by
  unfold Kernel.unlinkSleep at hu
  split at hu
  · unfold wakeUp at hu
    split_ifs at hu
    cases hu
    refine ⟨{ h with sleep := fun p hp => ?_, sleep_nodup := ?_ }, ?_, rfl⟩
    · rw [map_removeSleep] at hp
      exact h.sleep p (mem_of_mem_erase hp)
    · rw [map_removeSleep]
      exact h.sleep_nodup.erase pid
    · rw [map_removeSleep]
      exact h.sleep_nodup.not_mem_erase
  next hs =>
    cases hu
    exact ⟨h, fun hm => hs (h.sleep pid hm), rfl⟩

/-- The processes whose time is over. -/
def expired (l : List (ℕ × ℕ)) : List ℕ := (l.takeWhile fun e => e.2 = 0).map Prod.fst

theorem Tidy.expire {l : List (ℕ × ℕ)} (h : Tidy none { k with sleep := l })
    (hr : k.state k.running = .running) (hw : ∀ pid ∈ expired l, ∀ w, k.frame pid ≠ .futex w) :
    (expire l k).Tidy none ∧ (expire l k).state (expire l k).running = .running := by
  induction l generalizing k with
  | nil => exact ⟨h, hr⟩
  | cons e l ih =>
    obtain ⟨pid, time⟩ := e
    unfold Kernel.expire
    split
    next ht =>
      subst ht
      have hpid : pid ∈ expired ((pid, 0) :: l) := by simp [expired]
      have hst : k.state pid = .sleeping := h.sleep pid (.head _)
      have hnd := nodup_cons.1 h.sleep_nodup
      have hrest : Tidy none { k with sleep := l } :=
        { h with sleep := fun p hp => h.sleep p (.tail _ hp), sleep_nodup := hnd.2 }
      have hfree : Free { k with sleep := l } pid := by
        refine ⟨fun hm => ?_, hnd.1, fun i hm => ?_, fun q fq hq hm => ?_⟩
        · have := h.ready pid hm
          rw [hst] at this
          cases this
        · have := (h.blocked i pid hm).1
          rw [hst] at this
          cases this
        · obtain ⟨⟨w, hf, -⟩, -⟩ := h.linked q fq pid hq hm
          exact hw pid hpid w hf
      refine ih (hrest.weaken.wake hfree) ?_ fun p hp w => hw p ?_ w
      · refine (update_of_ne ?_ _ _).trans hr
        rintro he
        rw [← he] at hst
        exact absurd (hr.symm.trans hst) (by decide)
      · simp only [expired, takeWhile_cons, decide_true, if_true, map_cons]
        exact mem_cons_of_mem _ hp
    · exact ⟨h, hr⟩

/-- The processes which the next tick makes ready. -/
def expiring (k : Kernel ι) : List ℕ :=
  match k.sleep with
  | [] => []
  | (pid, time) :: rest => expired ((pid, sub64 time 1) :: rest)

theorem Tidy.awake (h : k.Tidy none) (hr : k.state k.running = .running)
    (hw : ∀ pid ∈ k.expiring, ∀ w, k.frame pid ≠ .futex w) :
    k.awake.Tidy none ∧ k.awake.state k.awake.running = .running := by
  unfold Kernel.awake
  unfold expiring at hw
  split
  · exact ⟨h, hr⟩
  next pid time rest hs =>
    rw [hs] at hw
    refine Tidy.expire { h with sleep := ?_, sleep_nodup := ?_ } hr hw
    · have := h.sleep
      rwa [hs] at this
    · have := h.sleep_nodup
      rwa [hs] at this

/-! ## Futexes -/

theorem Tidy.queue_of_frame (h : k.Tidy ex) (hf : k.frame pid = .futex w) :
    ∃ fq, k.queue w.queue = some fq :=
  ne_none_iff_exists'.1 (h.table _ _ (h.frame pid w hf).2.1)

/-- The same queues are there when one of them is replaced. -/
theorem queue_eq_none_iff (hq : k.queue q = some fq) (fq' : FutexQueue) (q' : ℕ) :
    update k.queue q (some fq') q' = none ↔ k.queue q' = none := by
  by_cases he : q' = q
  · rw [he, update_self, hq]
    exact iff_of_false nofun nofun
  · rw [update_of_ne he]

/-- A process stays in its queue when one of the queues is replaced. -/
theorem exists_mem_queue (hq : k.queue q = some fq) {fq' : FutexQueue} {q' : ℕ}
    (hm : pid ∈ fq.waiters → pid ∈ fq'.waiters)
    (h : ∃ fq0, k.queue q' = some fq0 ∧ pid ∈ fq0.waiters) :
    ∃ fq0, update k.queue q (some fq') q' = some fq0 ∧ pid ∈ fq0.waiters := by
  obtain ⟨fq0, hq0, hm0⟩ := h
  by_cases he : q' = q
  · subst he
    rw [hq] at hq0
    cases hq0
    exact ⟨fq', update_self .., hm hm0⟩
  · exact ⟨fq0, (update_of_ne he _ _).trans hq0, hm0⟩

variable (h : k.Tidy none)

include h

theorem Tidy.getQueue (key : ℕ) : (k.getQueue key).2.Tidy none ∧
    (k.getQueue key).2.table key = some (k.getQueue key).1 := by
  unfold Kernel.getQueue
  split
  next q hq => exact ⟨h, hq⟩
  next hnone =>
    have hnew := h.nextQueue k.nextQueue le_rfl
    have htab (key' q : ℕ) (hq : k.table key' = some q) : q ≠ k.nextQueue := by
      rintro rfl
      exact h.table key' _ hq hnew
    have hno (p : ℕ) : ¬ k.Holds p k.nextQueue := by
      rintro ⟨w, hw, he⟩
      exact htab _ _ (h.frame p w hw).2.1 he
    have htable (key' q : ℕ) : update k.table key (some k.nextQueue) key' = some q ↔
        key' = key ∧ q = k.nextQueue ∨ k.table key' = some q := by
      rw [update_apply]
      grind
    have hqueue (q : ℕ) : update k.queue k.nextQueue (some ⟨[], 0⟩) q =
        if q = k.nextQueue then some ⟨[], 0⟩ else k.queue q := update_apply ..
    refine ⟨{ h with table := ?_, table_inj := ?_, frame := ?_, waiting := ?_, linked := ?_, sorted := ?_
                     waiters_nodup := ?_, refCount := ?_, nextQueue := ?_ }, update_self ..⟩
    · intro key' q hq
      dsimp only at hq ⊢
      rw [htable] at hq
      rw [hqueue]
      have := h.table key' q
      grind
    · intro key1 key2 q h1 h2
      rw [htable] at h1 h2
      have := h.table_inj key1 key2 q
      have := htab key1 q
      have := htab key2 q
      grind
    · intro p w hw
      obtain ⟨h0, ht, hc⟩ := h.frame p w hw
      exact ⟨h0, (htable _ _).2 (.inr ht), hc⟩
    · intro p w hne hw hs
      obtain ⟨hk, fq, hq, hm⟩ := h.waiting p w hne hw hs
      refine ⟨hk, fq, ?_, hm⟩
      dsimp only
      rwa [hqueue, if_neg (htab _ _ (h.frame p w hw).2.1)]
    all_goals
      intro q
      dsimp only
      rw [hqueue]
      split
    · rintro _ p ⟨⟩ hm
      cases hm
    · exact h.linked q
    · rintro _ ⟨⟩
      exact .nil
    · exact h.sorted q
    · rintro _ ⟨⟩
      exact .nil
    · exact h.waiters_nodup q
    · rintro _ ⟨⟩
      refine ⟨[], .nil, rfl, fun p => iff_of_false (by simp) ?_⟩
      subst q
      exact hno p
    · exact h.refCount q
    · intro hlt
      omega
    · exact fun hlt => h.nextQueue q (by omega)

/-- The running process is put into the queue of the futex. -/
theorem Tidy.pushWaiter {key val timeout : ℕ} (hr : k.state k.running = .running)
    (hu : k.frame k.running = .user) (hkey : key ≠ 0) (ht : k.table key = some q)
    (hq : k.queue q = some fq) : (k.pushWaiter key val timeout q fq).Tidy none := by
  set k' := k.pushWaiter key val timeout q fq
  have hf := h.free_running hr
  have hstate (p : ℕ) : k'.state p = if p = k.running then .blocked else k.state p := update_apply ..
  have hframe (p : ℕ) : k'.frame p =
      if p = k.running then .futex ⟨key, q, val, timeout, k.clock⟩ else k.frame p := update_apply ..
  have hqueue (q' : ℕ) : k'.queue q' =
      if q' = q then some ⟨fq.waiters ++ [k.running], fq.refCount + 1⟩ else k.queue q' :=
    update_apply ..
  have hfkey (p : ℕ) : k'.futexKey p = if p = k.running then key else k.futexKey p :=
    update_apply ..
  have hsus (p : ℕ) : k'.Suspended p ↔ p = k.running ∨ k.Suspended p := by
    unfold Suspended
    rw [hstate]
    grind
  have hholds (p q' : ℕ) : k'.Holds p q' ↔ p = k.running ∧ q' = q ∨ k.Holds p q' := by
    unfold Holds
    rw [hframe]
    grind
  have hmem {q' : ℕ} {fq' : FutexQueue} {p : ℕ} (hq' : k'.queue q' = some fq')
      (hp : p ∈ fq'.waiters) :
      q' = q ∧ p = k.running ∨ ∃ fq0, k.queue q' = some fq0 ∧ p ∈ fq0.waiters := by
    rw [hqueue] at hq'
    grind
  have hne {q' : ℕ} {fq' : FutexQueue} {p : ℕ} (hq' : k.queue q' = some fq')
      (hp : p ∈ fq'.waiters) : p ≠ k.running := by
    rintro rfl
    exact hf.waiters q' fq' hq' hp
  have hset : (k.setState k.running .blocked).Tidy (some k.running) :=
    h.weaken.setState_some hf.ready hf.sleep hf.blocked nofun fun _ _ _ _ => .inl rfl
  refine { hset with
    waitingOn := fun p j hp => ?_, futexKey := fun p hp => ?_
    table := fun key' q' hq' => mt (queue_eq_none_iff hq _ q').1 (h.table key' q' hq')
    frame := fun p w hp => ?_, waiting := fun p w _ hp hs => ?_
    linked := fun q' fq' p hq' hp => ?_, sorted := fun q' fq' hq' => ?_
    waiters_nodup := fun q' fq' hq' => ?_, refCount := fun q' fq' hq' => ?_
    nextQueue := fun q' hle => (queue_eq_none_iff hq _ q').2 (h.nextQueue q' hle)
    timed := fun p w hp hs => ?_ }
  · have := h.waitingOn p j hp
    rwa [hframe, if_neg (by rintro rfl; rw [hu] at this; cases this)]
  · rw [hfkey] at hp ⊢
    rw [hframe]
    split_ifs at hp with hpid
    · rw [if_pos hpid, if_pos hpid]
      exact ⟨_, rfl, rfl⟩
    · rw [if_neg hpid, if_neg hpid]
      exact h.futexKey p hp
  · rw [hframe] at hp
    split at hp
    · cases hp
      exact ⟨hkey, ht, Nat.lt_succ_self _⟩
    · obtain ⟨h0, ht', hc⟩ := h.frame p w hp
      exact ⟨h0, ht', Nat.lt_succ_of_lt hc⟩
  · rw [hframe] at hp
    rw [hfkey]
    split at hp
    next hpid =>
      cases hp
      rw [if_pos hpid]
      exact ⟨rfl, _, update_self .., by simp [hpid]⟩
    next hpid =>
      rw [if_neg hpid]
      obtain ⟨hk, hm⟩ := h.waiting p w nofun hp (((hsus p).1 hs).resolve_left hpid)
      exact ⟨hk, exists_mem_queue hq (mem_append_left _) hm⟩
  · rcases hmem hq' hp with ⟨rfl, rfl⟩ | ⟨fq0, hq0, hp0⟩
    · exact ⟨(hholds _ _).2 (.inl ⟨rfl, rfl⟩), (hsus _).2 (.inl rfl)⟩
    · obtain ⟨hh, hs⟩ := h.linked q' fq0 p hq0 hp0
      exact ⟨(hholds _ _).2 (.inr hh), (hsus _).2 (.inr hs)⟩
  · -- The process comes last, and its call is the latest one.
    have hold {q' : ℕ} {fq' : FutexQueue} (hq' : k.queue q' = some fq') :
        fq'.waiters.Pairwise fun a b =>
          ∀ v w, k'.frame a = .futex v → k'.frame b = .futex w → v.since < w.since := by
      refine (h.sorted q' fq' hq').imp_of_mem fun ha hb hab v w hv hw => ?_
      rw [hframe, if_neg (hne hq' ha)] at hv
      rw [hframe, if_neg (hne hq' hb)] at hw
      exact hab v w hv hw
    rw [hqueue] at hq'
    split at hq'
    · cases hq'
      refine pairwise_append.2 ⟨hold hq, pairwise_singleton .., fun a ha b hb v w hv hw => ?_⟩
      rw [mem_singleton] at hb
      rw [hframe, if_neg (hne hq ha)] at hv
      rw [hframe, if_pos hb] at hw
      cases hw
      exact (h.frame a v hv).2.2
    · exact hold hq'
  · rw [hqueue] at hq'
    split at hq'
    · cases hq'
      refine nodup_append.2 ⟨h.waiters_nodup q fq hq, nodup_singleton _, fun a ha b hb => ?_⟩
      rw [mem_singleton.1 hb]
      exact hne hq ha
    · exact h.waiters_nodup q' fq' hq'
  · rw [hqueue] at hq'
    split at hq'
    next he =>
      cases hq'
      obtain ⟨l, hnd, hlen, hl⟩ := h.refCount q fq hq
      have hrun : ¬ k.Holds k.running q := by
        rintro ⟨w, hw, -⟩
        rw [hu] at hw
        cases hw
      refine ⟨k.running :: l, nodup_cons.2 ⟨fun hm => hrun ((hl _).1 hm), hnd⟩, ?_, fun p => ?_⟩
      · rw [length_cons, hlen]
      · rw [mem_cons, hl, hholds, he, and_iff_left rfl]
    next he =>
      obtain ⟨l, hnd, hlen, hl⟩ := h.refCount q' fq' hq'
      refine ⟨l, hnd, hlen, fun p => ?_⟩
      rw [hl, hholds, or_iff_right (fun hp => he hp.2)]
  · rw [hstate] at hs
    split_ifs at hs with hpid
    rw [hframe, if_neg hpid] at hp
    exact h.timed p w hp hs

/-- The process which goes on in `Futex::wait` does not count any more. -/
theorem Tidy.leaveQueue (hr : k.state k.running = .running) (hw : k.frame k.running = .futex w)
    (hq : k.queue w.queue = some fq) : (k.leaveQueue w.queue fq).Tidy none := by
  set k' := k.leaveQueue w.queue fq
  have hf := h.free_running hr
  have hframe (p : ℕ) : k'.frame p = if p = k.running then .user else k.frame p := update_apply ..
  have hqueue (q : ℕ) : k'.queue q =
      if q = w.queue then some ⟨fq.waiters, fq.refCount - 1⟩ else k.queue q :=
    update_apply ..
  have hfkey (p : ℕ) : k'.futexKey p = if p = k.running then 0 else k.futexKey p :=
    update_apply ..
  have hfutex (p : ℕ) (v : FutexWait) : k'.frame p = .futex v ↔ p ≠ k.running ∧ k.frame p = .futex v := by
    rw [hframe]
    grind
  have hholds (p q : ℕ) : k'.Holds p q ↔ p ≠ k.running ∧ k.Holds p q := by
    unfold Holds
    simp only [hfutex]
    grind
  -- A queue has the same processes as before.
  have hsame {q : ℕ} {fq' : FutexQueue} (hq' : k'.queue q = some fq') : ∃ fq0,
      k.queue q = some fq0 ∧ fq0.waiters = fq'.waiters := by
    rw [hqueue] at hq'
    grind
  refine { h with
    waitingOn := fun p j hp => ?_, futexKey := fun p hp => ?_
    table := fun key q hkey => mt (queue_eq_none_iff hq _ q).1 (h.table key q hkey)
    frame := fun p v hp => h.frame p v ((hfutex p v).1 hp).2
    waiting := fun p v _ hp hs => ?_, linked := fun q fq' p hq' hp => ?_
    sorted := fun q fq' hq' => ?_, waiters_nodup := fun q fq' hq' => ?_
    refCount := fun q fq' hq' => ?_
    nextQueue := fun q hle => (queue_eq_none_iff hq _ q).2 (h.nextQueue q hle)
    timed := fun p v hp hs => h.timed p v ((hfutex p v).1 hp).2 hs }
  · have := h.waitingOn p j hp
    rwa [hframe, if_neg (by rintro rfl; rw [hw] at this; cases this)]
  · rw [hfkey] at hp ⊢
    split_ifs at hp with hpid
    · exact absurd rfl hp
    · obtain ⟨v, hv, he⟩ := h.futexKey p hp
      exact ⟨v, (hfutex p v).2 ⟨hpid, hv⟩, by rw [if_neg hpid, he]⟩
  · obtain ⟨hpid, hp⟩ := (hfutex p v).1 hp
    obtain ⟨hk, hm⟩ := h.waiting p v nofun hp hs
    rw [hfkey, if_neg hpid]
    exact ⟨hk, exists_mem_queue hq id hm⟩
  · obtain ⟨fq0, hq0, he⟩ := hsame hq'
    rw [← he] at hp
    obtain ⟨hh, hs⟩ := h.linked q fq0 p hq0 hp
    refine ⟨(hholds p q).2 ⟨?_, hh⟩, hs⟩
    rintro rfl
    exact hf.waiters q fq0 hq0 hp
  · obtain ⟨fq0, hq0, he⟩ := hsame hq'
    rw [← he]
    exact (h.sorted q fq0 hq0).imp fun hab v v' hv hv' =>
      hab v v' ((hfutex _ _).1 hv).2 ((hfutex _ _).1 hv').2
  · obtain ⟨fq0, hq0, he⟩ := hsame hq'
    rw [← he]
    exact h.waiters_nodup q fq0 hq0
  rw [hqueue] at hq'
  split at hq'
  next he =>
    cases hq'
    obtain ⟨l, hnd, hlen, hl⟩ := h.refCount w.queue fq hq
    refine ⟨l.erase k.running, hnd.erase _, ?_, fun p => ?_⟩
    · rw [length_erase_of_mem ((hl _).2 ⟨w, hw, rfl⟩), hlen]
    · rw [hnd.mem_erase_iff, hl, hholds, he]
  next he =>
    obtain ⟨l, hnd, hlen, hl⟩ := h.refCount q fq' hq'
    refine ⟨l, hnd, hlen, fun p => ?_⟩
    rw [hl, hholds, iff_and_self]
    rintro ⟨v, hv, rfl⟩ rfl
    rw [hw] at hv
    cases hv
    exact he rfl

/-- A queue is freed only if no process is in `Futex::wait` with it. -/
theorem Tidy.tryFreeQueue (key : ℕ) : (k.tryFreeQueue key).Tidy none := by
  unfold Kernel.tryFreeQueue
  split
  · exact h
  next q ht =>
    split
    next hq =>
      have hno (p : ℕ) : ¬ k.Holds p q := by
        obtain ⟨l, -, hlen, hl⟩ := h.refCount q _ hq
        rw [← hl, length_eq_zero_iff.1 hlen]
        exact not_mem_nil
      have htable (key' q' : ℕ) : update k.table key none key' = some q' ↔
          key' ≠ key ∧ k.table key' = some q' := by
        rw [update_apply]
        grind
      have hqueue (q' : ℕ) (fq : FutexQueue) : update k.queue q none q' = some fq ↔
          q' ≠ q ∧ k.queue q' = some fq := by
        rw [update_apply]
        grind
      refine { h with
        table := fun key' q' hq' => ?_, table_inj := fun key1 key2 q' h1 h2 => ?_
        frame := fun p w hw => ?_, waiting := fun p w hne hw hs => ?_
        linked := fun q' fq p hq' => h.linked q' fq p ((hqueue q' fq).1 hq').2
        sorted := fun q' fq hq' => h.sorted q' fq ((hqueue q' fq).1 hq').2
        waiters_nodup := fun q' fq hq' => h.waiters_nodup q' fq ((hqueue q' fq).1 hq').2
        refCount := fun q' fq hq' => h.refCount q' fq ((hqueue q' fq).1 hq').2
        nextQueue := fun q' hle => ?_ }
      · obtain ⟨hne, ht'⟩ := (htable key' q').1 hq'
        obtain ⟨fq, hfq⟩ := ne_none_iff_exists'.1 (h.table key' q' ht')
        dsimp only
        rw [(hqueue q' fq).2 ⟨?_, hfq⟩]
        · exact nofun
        · rintro rfl
          exact hne (h.table_inj _ _ _ ht' ht)
      · exact h.table_inj key1 key2 q' ((htable _ _).1 h1).2 ((htable _ _).1 h2).2
      · obtain ⟨h0, ht', hc⟩ := h.frame p w hw
        refine ⟨h0, (htable _ _).2 ⟨?_, ht'⟩, hc⟩
        rintro rfl
        rw [ht] at ht'
        cases ht'
        exact hno p ⟨w, hw, rfl⟩
      · obtain ⟨hk, fq, hfq, hm⟩ := h.waiting p w hne hw hs
        refine ⟨hk, fq, (hqueue _ _).2 ⟨?_, hfq⟩, hm⟩
        rintro rfl
        exact hno p ⟨w, hw, rfl⟩
      · dsimp only
        rw [update_apply]
        split
        · rfl
        · exact h.nextQueue q' hle
    · exact h

/-- A process is taken from the queue of its futex. -/
theorem Tidy.dequeue (hq : k.queue q = some fq) (pid : ℕ) :
    (k.popWaiter q ⟨fq.waiters.erase pid, fq.refCount⟩).Tidy (some pid) := by
  set fq₁ : FutexQueue := ⟨fq.waiters.erase pid, fq.refCount⟩
  set k' := k.popWaiter q fq₁
  have hqueue (q' : ℕ) : k'.queue q' = if q' = q then some fq₁ else k.queue q' :=
    update_apply ..
  have hsub {q' : ℕ} {fq' : FutexQueue} (hq' : k'.queue q' = some fq') : ∃ fq0,
      k.queue q' = some fq0 ∧ fq'.waiters.Sublist fq0.waiters ∧ fq'.refCount = fq0.refCount := by
    rw [hqueue] at hq'
    split at hq'
    next he =>
      cases hq'
      exact ⟨fq, by rw [he, hq], erase_sublist, rfl⟩
    · exact ⟨fq', hq', .refl _, rfl⟩
  refine { h with
    table := fun key q' hq' => mt (queue_eq_none_iff hq _ q').1 (h.table key q' hq')
    waiting := fun p w hne hw hs => ?_
    linked := fun q' fq' p hq' hp => ?_, sorted := fun q' fq' hq' => ?_
    waiters_nodup := fun q' fq' hq' => ?_, refCount := fun q' fq' hq' => ?_
    nextQueue := fun q' hle => (queue_eq_none_iff hq _ q').2 (h.nextQueue q' hle) }
  · obtain ⟨hk, hm⟩ := h.waiting p w nofun hw hs
    have hpid : p ≠ pid := fun he => hne (congrArg some he)
    exact ⟨hk, exists_mem_queue hq (mem_erase_of_ne hpid).2 hm⟩
  · obtain ⟨fq0, hq0, hs, -⟩ := hsub hq'
    exact h.linked q' fq0 p hq0 (hs.subset hp)
  · obtain ⟨fq0, hq0, hs, -⟩ := hsub hq'
    exact (h.sorted q' fq0 hq0).sublist hs
  · obtain ⟨fq0, hq0, hs, -⟩ := hsub hq'
    exact (h.waiters_nodup q' fq0 hq0).sublist hs
  · obtain ⟨fq0, hq0, -, hc⟩ := hsub hq'
    rw [hc]
    exact h.refCount q' fq0 hq0

/-- It is then in the queue of no futex. -/
theorem Tidy.notMem_dequeue {q' : ℕ} {fq' : FutexQueue} (hq : k.queue q = some fq)
    (hp : pid ∈ fq.waiters)
    (hq' : (k.popWaiter q ⟨fq.waiters.erase pid, fq.refCount⟩).queue q' = some fq') :
    pid ∉ fq'.waiters := by
  intro hm
  simp only [popWaiter, update_apply] at hq'
  split at hq'
  · cases hq'
    exact (h.waiters_nodup q fq hq).not_mem_erase hm
  next he =>
    obtain ⟨w, hw, rfl⟩ := (h.linked q fq pid hq hp).1
    obtain ⟨v, hv, rfl⟩ := (h.linked q' fq' pid hq' hm).1
    rw [hw] at hv
    cases hv
    exact he rfl

end Kernel

end HobbyOS
