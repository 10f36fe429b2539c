import HobbyOS.Sched.Step

/-!
# Futexes

What holds of the queues of the futexes in every state which is reached, if no timeout is
over and no process which waits with a timeout is woken (`Polite`), or if there are no
timeouts at all (`Untimed`):

* the processes in a queue are those which are suspended in `Futex::wait` on it
  (`reachable_mem_waiters`);
* those which are woken will run (`reachable_wake_ready`);
* they are the ones which have waited longest, as many as asked for
  (`reachable_futexWake`).

With a timeout neither of the first two holds: `expired_in_queue`, `timed_wake_lost`.
-/

namespace HobbyOS

open Function List Option

namespace Kernel

variable {ι : Type*} {k k0 : Kernel ι} {pid physKey : ℕ}

/-- The process is suspended in `Futex::wait` on this address. -/
def WaitsOn (k : Kernel ι) (pid physKey : ℕ) : Prop :=
  (∃ w, k.frame pid = .futex w ∧ w.physKey = physKey) ∧ k.Suspended pid

theorem Tidy.mem_waiters (h : k.Tidy none) : pid ∈ k.waiters physKey ↔ k.WaitsOn pid physKey := by
  constructor
  · intro hm
    unfold waiters at hm
    cases hq : (k.table physKey).bind k.queue with
    | none => simp [hq] at hm
    | some fq =>
      obtain ⟨q, ht, hq'⟩ := bind_eq_some_iff.1 hq
      obtain ⟨⟨w, hw, rfl⟩, hs⟩ := h.linked q fq pid hq' (by simpa [hq] using hm)
      exact ⟨⟨w, hw, h.table_inj _ _ _ (h.frame pid w hw).2.1 ht⟩, hs⟩
  · rintro ⟨⟨w, hw, rfl⟩, hs⟩
    obtain ⟨-, fq, hq, hm⟩ := h.waiting pid w nofun hw hs
    simpa [waiters, (h.frame pid w hw).2.1, hq] using hm

theorem Tidy.waiters_pairwise (h : k.Tidy none) (physKey : ℕ) : (k.waiters physKey).Nodup ∧
    (k.waiters physKey).Pairwise fun a b =>
      ∀ v w, k.frame a = .futex v → k.frame b = .futex w → v.since < w.since := by
  unfold waiters
  cases hq : (k.table physKey).bind k.queue with
  | none => exact ⟨.nil, .nil⟩
  | some fq =>
    obtain ⟨q, -, hq'⟩ := bind_eq_some_iff.1 hq
    exact ⟨h.waiters_nodup q fq hq', h.sorted q fq hq'⟩

variable [DecidableEq ι]

/-- In every run in which no timeout of a futex is over and no process which waits with a timeout
    is woken, the processes in the queue of a futex are those which are suspended in `Futex::wait`
    on it. A process which has returned is in no queue. -/
theorem reachable_mem_waiters (hboot : k0.Boot) (hrun : Reaches (fun k => k.step) Polite k0 k) :
    (∀ pid physKey, pid ∈ k.waiters physKey ↔ k.WaitsOn pid physKey) ∧
    ∀ pid q fq, (∀ w, k.frame pid ≠ .futex w) → k.queue q = some fq → pid ∉ fq.waiters := by
  have h := (hboot.orderly.reaches hrun).tidy
  refine ⟨fun pid physKey => h.mem_waiters, fun pid q fq hf hq hm => ?_⟩
  obtain ⟨⟨w, hw, -⟩, -⟩ := h.linked q fq pid hq hm
  exact hf w hw

omit [DecidableEq ι] in
theorem forall_ne_futex (f : Frame ι) : (f matches .futex _) = false ↔ ∀ w, f ≠ .futex w := by
  cases f <;> simp

omit [DecidableEq ι] in
instance (f : Frame ι) : Decidable (∀ w, f ≠ .futex w) := decidable_of_iff _ (forall_ne_futex f)

omit [DecidableEq ι] in
instance (k : Kernel ι) (c : Call ι) : Decidable (k.Polite c) := by
  unfold Polite
  split <;> infer_instance

/-- Three processes wait for a futex, the second one with a timeout. A tick later it is interrupted
    by a signal. -/
def interrupted : Kernel Unit := lastState (guarded (fun k => k.step) Polite) (boot 3 fun _ => 0)
  [.futexWait 4096 0 0, .futexWait 4096 0 5, .futexWait 4096 0 0, .tick, .kill 1 10]

theorem reaches_interrupted : Reaches (fun k => k.step) Polite (boot 3 fun _ => 0) interrupted :=
  .lastState _ _

/-- The two others wait still. -/
theorem reachable_mem_waiters_interrupted : interrupted.running = 3 ∧ interrupted.WaitsOn 0 4096 ∧
    ¬ interrupted.WaitsOn 1 4096 ∧ interrupted.WaitsOn 2 4096 := by
  obtain ⟨h, -⟩ := reachable_mem_waiters (boot_boot 3 fun _ => 0) reaches_interrupted
  rw [← h, ← h, ← h]
  decide +kernel

/-- **Links.** In every polite run, the lists which share a link of the processes have no process in
    common, and none twice: neither the semaphores, over `m_semNext`, nor the futexes, over
    `m_futexNext`. A process is not ready and asleep at once, and the running one is in no list. -/
theorem reachable_links (hboot : k0.Boot) (hrun : Reaches (fun k => k.step) Polite k0 k) :
    (k.ready ++ k.sleep.map Prod.fst).Nodup ∧
    (∀ i, (k.sem i).blocked.Nodup ∧ ∀ j, i ≠ j → (k.sem i).blocked.Disjoint (k.sem j).blocked) ∧
    (∀ q fq, k.queue q = some fq → fq.waiters.Nodup ∧
      ∀ q' fq', k.queue q' = some fq' → q ≠ q' → fq.waiters.Disjoint fq'.waiters) ∧
    k.Free k.running := by
  obtain ⟨h, hr⟩ := hboot.orderly.reaches hrun
  refine ⟨?_, fun i => ⟨h.blocked_nodup i, fun j hij pid hi hj => ?_⟩,
    fun q fq hq => ⟨h.waiters_nodup q fq hq, fun q' fq' hq' hne pid hm hm' => ?_⟩,
    h.free_running hr⟩
  · refine nodup_append.2 ⟨h.ready_nodup, h.sleep_nodup, fun pid hpid _ hs e => ?_⟩
    have := h.sleep pid (e ▸ hs)
    rw [h.ready pid hpid] at this
    cases this
  · have := (h.blocked j pid hj).2
    rw [(h.blocked i pid hi).2] at this
    exact hij (Option.some_inj.1 this)
  · obtain ⟨⟨v, hv, rfl⟩, -⟩ := h.linked q fq pid hq hm
    obtain ⟨⟨w, hw, rfl⟩, -⟩ := h.linked q' fq' pid hq' hm'
    rw [hv] at hw
    cases hw
    exact hne rfl

/-- One process waits for a semaphore and another for a futex, and a third one runs. -/
theorem reachable_links_three : (lastState (guarded (fun k => k.step) Polite)
    (boot 2 fun _ : Unit => 0) [.semWait (), .futexWait 4096 0 0]).Free 2 :=
  (reachable_links (boot_boot 2 fun _ => 0)
    (.lastState _ [.semWait (), .futexWait 4096 0 0])).2.2.2

/-- A process waits with a timeout, which is over: it returns with `FUTEX_ETIMEDOUT`, is in the
    queue still, and is counted by `FUTEX_WAKE`. -/
theorem expired_in_queue : ∃ (k : Kernel Unit) (os : List ℤ),
    runs (fun k => k.step) (boot 1 fun _ => 0)
      [.futexWait 4096 0 1, .tick, .preempt, .resume] = some (k, os) ∧
    os.getLast? = some futexEtimedout ∧ 0 ∈ k.waiters 4096 ∧ ¬ k.WaitsOn 0 4096 ∧
    (k.futexWake 4096 1).map Prod.snd = some 1 := by
  obtain ⟨k, os, hk, hlast, hm, hf, hwake⟩ : ∃ (k : Kernel Unit) (os : List ℤ),
      runs (fun k => k.step) (boot 1 fun _ => 0)
        [.futexWait 4096 0 1, .tick, .preempt, .resume] = some (k, os) ∧
      os.getLast? = some futexEtimedout ∧ 0 ∈ k.waiters 4096 ∧ k.frame 0 = .user ∧
      (k.futexWake 4096 1).map Prod.snd = some 1 := by
    decide +kernel
  refine ⟨k, os, hk, hlast, hm, ?_, hwake⟩
  rintro ⟨⟨w, hw, -⟩, -⟩
  rw [hf] at hw
  cases hw

/-- In every run in which no timeout of a futex is over and no process which waits with a timeout
    is woken, the processes which `FUTEX_WAKE` takes from the queue are ready, in the list of
    ready processes once, and do not sleep. No process in this list would be dropped. -/
theorem reachable_wake_ready (hboot : k0.Boot) (hrun : Reaches (fun k => k.step) Polite k0 k)
    {physKey count : ℕ} (hpolite : k.Polite (.futexWake physKey count)) :
    ∃ k' n, k.futexWake physKey count = some (k', n) ∧
      k'.waiters physKey = (k.waiters physKey).drop count ∧
      (∀ pid ∈ (k.waiters physKey).take count,
        k'.state pid = .ready ∧ k'.ready.count pid = 1 ∧ pid ∉ k'.sleep.map Prod.fst) ∧
      ∀ pid ∈ k'.ready, k'.state pid = .ready := by
  have h := (hboot.orderly.reaches hrun).tidy
  obtain ⟨k', hk', ht, hw, hready, hsleep, -, hst⟩ := futexWake_spec h hpolite
  refine ⟨k', _, hk', hw, fun pid hpid => ?_, ht.ready⟩
  refine ⟨by rw [hst, if_pos hpid], count_eq_one_of_mem ht.ready_nodup ?_, fun hm => ?_⟩
  · rw [hready]
    exact mem_append_right _ hpid
  · rw [hsleep] at hm
    exact hpolite pid hpid (h.sleep pid hm)

/-- One of two processes is woken, and the other one stays in the queue. -/
theorem reachable_wake_ready_interrupted : ∃ k' n, interrupted.futexWake 4096 1 = some (k', n) ∧
    k'.waiters 4096 = [2] ∧ k'.state 0 = .ready ∧ k'.ready.count 0 = 1 := by
  obtain ⟨k', n, hk', hw, hpid, -⟩ := reachable_wake_ready (boot_boot 3 fun _ : Unit => 0)
    reaches_interrupted (show Polite _ (.futexWake 4096 1) by decide +kernel)
  obtain ⟨hst, hcount, -⟩ := hpid 0 (by decide +kernel)
  have hrest : (interrupted.waiters 4096).drop 1 = [2] := by decide +kernel
  exact ⟨k', n, hk', hw.trans hrest, hst, hcount⟩

/-- A process waits with a timeout, and is woken before it is over: it is put into the list of
    ready processes with the state `SLEEPING`. The next dispatch drops it, and it is in no list. -/
theorem timed_wake_lost : ∃ (k : Kernel Unit) (os : List ℤ),
    runs (fun k => k.step) (boot 1 fun _ => 0) [.futexWait 4096 0 5] = some (k, os) ∧
    k.waiters 4096 = [0] ∧ ∃ k1, k.step (.futexWake 4096 1) = some (k1, 1) ∧
    k1.state 0 = .sleeping ∧ k1.ready = [0] ∧ ∃ k2 o,
    k1.step .preempt = some (k2, o) ∧ k2.running = 1 ∧ k2.ready = [] ∧ k2.sleep = [] := by
  decide +kernel

/-! ## Without timeouts -/

/-- The call does not wait for a futex with a timeout. -/
def Untimed : Call ι → Prop
  | .futexWait _ _ timeout => timeout = 0
  | _ => True

instance (c : Call ι) : Decidable (Untimed c) := by
  unfold Untimed
  split <;> infer_instance

variable {k' : Kernel ι} {c : Call ι} {o : ℤ} {val timeout : ℕ} {w : FutexWait}

omit [DecidableEq ι] in
theorem futexWait_eq (h : k.futexWait physKey val timeout = some (k', o)) :
    k' = k ∨ ∃ w, w.timeout = timeout ∧ k'.frame = update k.frame k.running (.futex w) ∧
      k'.sem = k.sem := by
  unfold Kernel.futexWait at h
  split at h
  · cases h
    exact .inl rfl
  obtain ⟨k1, hk1, ⟨⟩⟩ := map_eq_some_iff.1 h
  obtain ⟨tb, qu, nq, hget⟩ := getQueue_eq k physKey
  rw [hget] at hk1
  obtain ⟨fq, -, hk1⟩ := bind_eq_some_iff.1 hk1
  obtain ⟨st, sl, hstart⟩ := startTimeout_eq (pushWaiter { k with
    table := tb, queue := qu, nextQueue := nq } physKey val timeout (k.getQueue physKey).1 fq) timeout
  rw [hstart] at hk1
  obtain ⟨st', rd, me, rfl⟩ := dispatch_eq hk1
  exact .inr ⟨_, rfl, rfl, rfl⟩

omit [DecidableEq ι] in
theorem futexWait_frame (h : k.futexWait physKey val timeout = some (k', o))
    (hw : k'.frame pid = .futex w) : k.frame pid = .futex w ∨ w.timeout = timeout := by
  obtain rfl | ⟨w', ht, hf, -⟩ := futexWait_eq h
  · exact .inl hw
  rw [hf, update_apply] at hw
  split at hw
  · cases hw
    exact .inr ht
  · exact .inl hw

omit [DecidableEq ι] in
theorem frame_of_dispatch {k1 : Kernel ι} (h : k1.dispatch = some k') (hf : k1.frame = k.frame) :
    k'.frame = k.frame := by
  obtain ⟨st, rd, me, rfl⟩ := dispatch_eq h
  exact hf

omit [DecidableEq ι] in
theorem resume_frame (h : k.resume = some (k', o)) (hw : k'.frame pid = .futex w) :
    k.frame pid = .futex w := by
  have hupdate {k1 : Kernel ι} (hf : k1.frame = update k.frame k.running .user)
      (hw : k1.frame pid = .futex w) : k.frame pid = .futex w := by
    rw [hf, update_apply] at hw
    split at hw
    · cases hw
    · exact hw
  unfold resume at h
  split at h
  · cases h
  · cases h
    exact hupdate rfl hw
  next v _ =>
    obtain ⟨fq, -, ⟨⟩⟩ := map_eq_some_iff.1 h
    obtain ⟨tb, qu, he⟩ := tryFreeQueue_eq (k.leaveQueue v.queue fq) v.physKey
    rw [he] at hw
    exact hupdate rfl hw

/-- A process gets into `Futex::wait` by calling it. -/
theorem step_frame (h : k.step c = some (k', o)) (hw : k'.frame pid = .futex w) :
    k.frame pid = .futex w ∨ ∃ physKey val, c = .futexWait physKey val w.timeout := by
  cases step_does h with
  | nothing | store | start => exact .inl hw
  | semWait hu hk =>
    left
    unfold semWait at hk
    split at hk
    · obtain ⟨st, rd, me, rfl⟩ := dispatch_eq hk
      simp only [pushBlocked, Kernel.setState, update_apply] at hw
      split at hw
      · cases hw
      · exact hw
    · cases hk
      exact hw
  | @semSignal i =>
    obtain ⟨st, wo, rd, sm, he⟩ := semSignal_eq k i
    rw [he] at hw
    exact .inl hw
  | futexWait hu hkey hk => exact (futexWait_frame hk hw).imp_right fun he => ⟨_, _, by rw [he]⟩
  | futexWake hk =>
    obtain ⟨-, st, rd, sl, tb, qu, rfl⟩ := futexWake_eq hk
    exact .inl hw
  | kill hk =>
    obtain ⟨st, wo, fk, rd, sl, sm, qu, rfl⟩ := kill_eq hk
    exact .inl hw
  | sleep _ hk | preempt hk | stop hk | exit hk => exact .inl (frame_of_dispatch hk rfl ▸ hw)
  | tick =>
    obtain ⟨-, st, rd, sl, he⟩ := awake_eq k
    rw [he] at hw
    exact .inl hw
  | resume hk => exact .inl (resume_frame hk hw)

/-- No process waits with a timeout. -/
def Timeless (k : Kernel ι) : Prop := ∀ pid w, k.frame pid = .futex w → w.timeout = 0

theorem Timeless.step (h : k.Timeless) (hc : Untimed c) (hs : k.step c = some (k', o)) :
    k'.Timeless := by
  intro pid w hw
  rcases step_frame hs hw with hw | ⟨physKey, val, rfl⟩
  · exact h pid w hw
  · exact hc

omit [DecidableEq ι] in
/-- Without timeouts, who waits for a futex does not sleep. -/
theorem Timeless.not_sleeping (h : k.Timeless) (ht : k.Tidy none) (hw : k.frame pid = .futex w) :
    k.state pid ≠ .sleeping := by
  intro hs
  have := ht.timed pid w hw hs
  rw [h pid w hw] at this
  exact lt_irrefl 0 this

omit [DecidableEq ι] in
theorem Timeless.polite (h : k.Timeless) (ht : k.Tidy none) (c : Call ι) : k.Polite c := by
  unfold Polite
  split
  · intro pid hpid w hw
    refine h.not_sleeping ht hw (ht.sleep pid ?_)
    unfold expiring at hpid
    split at hpid
    · cases hpid
    next p time rest hsl =>
      have hmem : pid ∈ ((p, sub64 time 1) :: rest).map Prod.fst :=
        ((takeWhile_sublist _).map Prod.fst).subset hpid
      rwa [hsl]
  next physKey count =>
    intro pid hpid
    obtain ⟨⟨w, hw, -⟩, -⟩ := ht.mem_waiters.1 (mem_of_mem_take hpid)
    exact h.not_sleeping ht hw
  · trivial

/-- In every run without timeouts `FUTEX_WAKE` wakes as many of those who wait for the futex as it
    is asked to, if there are so many, and those first who have waited longest. `FUTEX_WAIT` does
    not block if the word is not the expected one. The queue of a futex is there, and in the
    table, as long as a process is in `Futex::wait` with it. -/
theorem reachable_futexWake (hboot : k0.Boot)
    (hrun : Reaches (fun k => k.step) (fun _ c => Untimed c) k0 k) :
    (∀ physKey count, ∃ (l : List ℕ) (k' : Kernel ι),
      (∀ pid, pid ∈ l ↔ k.WaitsOn pid physKey) ∧ l.Nodup ∧
      l.Pairwise (fun a b => ∀ v w, k.frame a = .futex v → k.frame b = .futex w → v.since < w.since) ∧
      k.futexWake physKey count = some (k', ((min count l.length : ℕ) : ℤ)) ∧
      k'.ready = k.ready ++ l.take count ∧
      (∀ pid ∈ l.take count, k'.state pid = .ready) ∧
      ∀ pid, k'.WaitsOn pid physKey ↔ pid ∈ l.drop count) ∧
    (∀ physKey val timeout, k.mem physKey ≠ val →
      k.futexWait physKey val timeout = some (k, futexEagain)) ∧
    ∀ pid w, k.frame pid = .futex w →
      k.table w.physKey = some w.queue ∧ ∃ fq, k.queue w.queue = some fq := by
  have h : k.Orderly ∧ k.Timeless := by
    refine hrun.inv (I := fun k => k.Orderly ∧ k.Timeless) (fun k c k' o h hc hs => ?_)
      ⟨hboot.orderly, fun pid w hw => ?_⟩
    · exact ⟨h.1.step (h.2.polite h.1.tidy c) hs, h.2.step hc hs⟩
    · rw [hboot.frame] at hw
      cases hw
  obtain ⟨⟨ht, -⟩, htime⟩ := h
  refine ⟨fun physKey count => ?_, fun physKey val timeout hne => if_pos hne, fun pid w hw => ?_⟩
  · obtain ⟨k', hk', ht', hwaiters, hready, -, -, hst⟩ :=
      futexWake_spec ht (htime.polite ht (.futexWake physKey count))
    refine ⟨k.waiters physKey, k', fun pid => ht.mem_waiters, (ht.waiters_pairwise physKey).1,
      (ht.waiters_pairwise physKey).2, hk', hready, fun pid hpid => by rw [hst, if_pos hpid],
      fun pid => ?_⟩
    rw [← hwaiters, ht'.mem_waiters]
  · exact ⟨(ht.frame pid w hw).2.1, ht.queue_of_frame hw⟩

/-- Two processes wait, and the third one wakes one of them. -/
theorem reachable_futexWake_two :
    (lastState (guarded (fun k => k.step) fun _ c => Untimed c) (boot 2 fun _ : Unit => 0)
      [.futexWait 4096 0 0, .futexWait 4096 0 0]).running = 2 ∧
    ∃ k', (lastState (guarded (fun k => k.step) fun _ c => Untimed c) (boot 2 fun _ : Unit => 0)
      [.futexWait 4096 0 0, .futexWait 4096 0 0]).futexWake 4096 1 = some (k', 1) ∧
        k'.ready = [0] := by
  refine ⟨by decide +kernel, ?_⟩
  obtain ⟨l, k', -, -, -, hk', hready, -⟩ := (reachable_futexWake (boot_boot 2 fun _ : Unit => 0)
    (.lastState _ [.futexWait 4096 0 0, .futexWait 4096 0 0])).1 4096 1
  have hdec : ((lastState (guarded (fun k => k.step) fun _ c => Untimed c) (boot 2 fun _ : Unit => 0)
      [.futexWait 4096 0 0, .futexWait 4096 0 0]).futexWake 4096 1).map
        (fun r => (r.2, r.1.ready)) = some (1, [0]) := by decide +kernel
  rw [hk'] at hdec
  simp only [map_some, Option.some.injEq, Prod.mk.injEq] at hdec
  exact ⟨k', by rw [hk', hdec.1], hdec.2⟩

end Kernel

end HobbyOS
