import HobbyOS.Sched.Futex

/-!
# Processes which have ended

A process which is ended by another one may be in the list of ready processes, and stays
there until `PCB::dispatch` drops it. Such a kernel is not tidy; it is what a tidy kernel
would be without these processes (`living`), which take no part in anything else:

* the functions of the kernel put processes behind those in the list of ready ones, and
  do not look at the list (`Appends`);
* dispatching takes the first process which is ready, with or without them
  (`dispatch_living`).

If a process which has ended is in the list, then it is not the last one (`Sound`): the one
which ended it is behind.
-/

namespace HobbyOS

open Function List Option

namespace Kernel

variable {ι : Type*} {k k' k1 k2 k3 : Kernel ι} {pid p q count n physKey val : ℕ} {o signum : ℤ}
  {state : ℕ → ProcState} {l : List ℕ} {st : ProcState} {c : Call ι}

/-- Those of the processes which have not ended. -/
def alive (state : ℕ → ProcState) (l : List ℕ) : List ℕ := l.filter fun p => state p ≠ .zombie

/-- The kernel without the processes which have ended in the list of ready ones. -/
def living (k : Kernel ι) : Kernel ι := { k with ready := alive k.state k.ready }

/-- Those which have ended aside the kernel is orderly, and none of them is the last one in the
    list of ready processes. Nobody waits with a timeout. -/
structure Sound (k : Kernel ι) : Prop where
  orderly : k.living.Orderly
  last : ∀ p ∈ k.ready.getLast?, k.state p ≠ .zombie
  timeless : k.Timeless

/-- The kernel is sound, the same processes have ended, and none of them has got into the list of
    ready processes. -/
structure Upholds (k k' : Kernel ι) : Prop where
  sound : k'.Sound
  zombie : ∀ p, k'.state p = .zombie ↔ k.state p = .zombie
  ready : ∀ p ∈ k'.ready, k.state p = .zombie → p ∈ k.ready

theorem Sound.upholds (h : k.Sound) : k.Upholds k := ⟨h, fun _ => Iff.rfl, fun _ hp _ => hp⟩

theorem Upholds.trans (h : k1.Upholds k2) (h' : k2.Upholds k3) : k1.Upholds k3 :=
  ⟨h'.sound, fun p => (h'.zombie p).trans (h.zombie p),
    fun p hp hz => h.ready p (h'.ready p hp ((h.zombie p).2 hz)) hz⟩

/-- The function puts the processes `l` into the list of ready ones, whatever is in there. -/
def Appends (f : Kernel ι → Option (Kernel ι)) (l : List ℕ) (k k' : Kernel ι) : Prop :=
  ∀ ready, f { k with ready := ready } = some { k' with ready := ready ++ l }

theorem Sound.free (h : k.Sound) (hz : k.state pid = .zombie) : k.living.Free pid :=
  h.orderly.tidy.free_of_state (show k.living.state pid = _ from hz) (by decide)

/-- A process which has ended and has no `m_next` is in no list. -/
theorem Sound.free_of_last (h : k.Sound) (hz : k.state pid = .zombie)
    (hl : pid ∈ k.ready → k.ready.getLast? = some pid) : k.Free pid := by
  obtain ⟨-, hsleep, hblocked, hwaiters⟩ := h.free hz
  refine ⟨fun hm => ?_, hsleep, hblocked, hwaiters⟩
  exact h.last pid (hl hm) hz

theorem alive_congr {state' : ℕ → ProcState} (h : ∀ p ∈ l, state' p = .zombie ↔ state p = .zombie) :
    alive state' l = alive state l := by
  refine filter_congr fun p hp => ?_
  rw [decide_eq_decide]
  exact not_congr (h p hp)

theorem alive_append {l' : List ℕ} (h : ∀ p ∈ l', state p ≠ .zombie) :
    alive state (l ++ l') = alive state l ++ l' := by
  have hl' : alive state l' = l' := filter_eq_self.2 fun p hp => decide_eq_true (h p hp)
  exact (filter_append ..).trans (congrArg _ hl')

theorem Timeless.of_frame (h : k.Timeless) (hf : k'.frame = k.frame) : k'.Timeless := by
  intro p w hw
  rw [hf] at hw
  exact h p w hw

/-- What such a function does with an orderly kernel it does with a sound one. -/
theorem Sound.appends {f : Kernel ι → Option (Kernel ι)} (h : k.Sound)
    (hf : ∃ l, Appends f l k k') (hk : f k = some k') (ht : k'.Timeless)
    (ho : ∀ k1, f k.living = some k1 →
      k1.Orderly ∧ ∀ p, k1.state p = .zombie ↔ k.living.state p = .zombie) : k.Upholds k' := by
  obtain ⟨l, hf⟩ := hf
  have hready : k'.ready = k.ready ++ l := by
    have hf' : f k = some { k' with ready := k.ready ++ l } := hf k.ready
    rw [hk, Option.some.injEq] at hf'
    rw [hf']
  obtain ⟨ho1, hz⟩ := ho _ (hf _)
  have hl (p : ℕ) (hp : p ∈ l) : k'.state p ≠ .zombie := by
    have hst : k'.state p = .ready := ho1.tidy.ready p (mem_append_right _ hp)
    rw [hst]
    decide
  have hliving : k'.living = { k' with ready := alive k.state k.ready ++ l } := by
    rw [living, hready, alive_append hl, alive_congr fun p _ => hz p]
    rfl
  refine ⟨⟨?_, ?_, ht⟩, hz, fun p hp hst => ?_⟩
  · rwa [hliving]
  · intro p hp
    rw [hready, List.getLast?_append] at hp
    -- The last one is that of `l`, if there is one.
    rcases hlast : l.getLast? with - | q
    · rw [hlast, none_or] at hp
      exact fun hst => h.last p hp ((hz p).1 hst)
    · rw [hlast, some_or, mem_some_iff] at hp
      subst hp
      exact hl q (mem_of_getLast? hlast)
  · rw [hready] at hp
    rcases mem_append.1 hp with hp | hp
    · exact hp
    · exact absurd ((hz p).2 hst) (hl p hp)

/-! ## Dispatching -/

theorem takeReady_alive (l : List ℕ) : k.takeReady (alive k.state l) =
    (k.takeReady l).map fun r => (r.1, alive k.state r.2) := by
  induction l with
  | nil => rfl
  | cons p l ih =>
    by_cases hz : k.state p = .zombie
    · rwa [alive, filter_cons_of_neg (by simp [hz]), takeReady, if_neg (by rw [hz]; decide)]
    · rw [alive, filter_cons_of_pos (by simp [hz]), takeReady, takeReady]
      split
      · rfl
      · exact ih

theorem living_takeReady (l : List ℕ) : k.living.takeReady l = k.takeReady l := by
  induction l with
  | nil => rfl
  | cons p l ih =>
    rw [takeReady, takeReady, ih]
    rfl

theorem takeReady_suffix {r : ℕ × List ℕ} (h : k.takeReady l = some r) : r.1 :: r.2 <:+ l := by
  induction l with
  | nil => cases h
  | cons p l ih =>
    rw [takeReady] at h
    split at h
    · cases h
      exact suffix_rfl
    · exact (ih h).trans (suffix_cons p l)

theorem putRunning_living : k.living.putRunning = k.putRunning.living := by
  by_cases hr : k.state k.running = .running
  · have hz (p : ℕ) : (k.setState k.running .ready).state p = .zombie ↔ k.state p = .zombie :=
      state_of_ready hr (by decide) (by decide)
    have halive : alive (k.setState k.running .ready).state (k.ready ++ [k.running]) =
        alive k.state k.ready ++ [k.running] := by
      rw [alive_append, alive_congr fun p _ => hz p]
      intro p hp
      rw [mem_singleton.1 hp, Ne, hz, hr]
      decide
    have hk : k.putRunning = (k.setState k.running .ready).put k.running := if_pos hr
    rw [hk, living]
    refine (if_pos (show k.living.state k.living.running = .running from hr)).trans ?_
    exact congrArg (fun l => ({ k.setState k.running .ready with ready := l } : Kernel ι))
      halive.symm
  · have hk : k.putRunning = k := if_neg hr
    rw [hk]
    exact if_neg hr

/-- Dispatching is the same without those which have ended. -/
theorem dispatch_living (h : k.dispatch = some k') : k.living.dispatch = some k'.living := by
  rw [dispatch_eq_map] at h ⊢
  obtain ⟨r, hr, rfl⟩ := map_eq_some_iff.1 h
  have hr' : k.putRunning.takeReady (alive k.putRunning.state k.putRunning.ready) =
      some (r.1, alive k.putRunning.state r.2) := by
    rw [takeReady_alive, hr]
    rfl
  have hz (p : ℕ) : (k.putRunning.setState r.1 .running).state p = .zombie ↔
      k.putRunning.state p = .zombie :=
    state_of_ready (takeReady_state hr) (by decide) (by decide)
  have hliving : living { k.putRunning.setState r.1 .running with ready := r.2, running := r.1 } =
      { k.putRunning.setState r.1 .running with
        ready := alive k.putRunning.state r.2, running := r.1 } := by
    rw [living, alive_congr fun p _ => hz p]
  rw [hliving, putRunning_living, living_takeReady]
  exact congrArg (Option.map _) hr'

theorem dispatch_suffix (h : k.dispatch = some k') : k'.ready <:+ k.putRunning.ready := by
  rw [dispatch_eq_map] at h
  obtain ⟨r, hr, rfl⟩ := map_eq_some_iff.1 h
  exact (suffix_cons r.1 r.2).trans (takeReady_suffix hr)

/-- No process which has ended is put behind. -/
theorem dispatch_ready (h : k.dispatch = some k') (hp : p ∈ k'.ready) (hz : k.state p = .zombie) :
    p ∈ k.ready := by
  have hput := (dispatch_suffix h).subset hp
  rw [putRunning] at hput
  split at hput
  next hr =>
    rcases mem_append.1 hput with hput | hput
    · exact hput
    · rw [mem_singleton.1 hput, hr] at hz
      cases hz
  · exact hput

/-- If the one which runs is put behind, or none which has ended was the last one before, then none
    is after dispatching. -/
theorem dispatch_last (h : k.dispatch = some k') (hlast : k.state k.running = .running ∨
    ∀ p ∈ k.ready.getLast?, k.state p ≠ .zombie) :
    ∀ p ∈ k'.ready.getLast?, k'.state p ≠ .zombie := by
  have hz (p : ℕ) : k'.state p = .zombie ↔ k.state p = .zombie :=
    dispatch_state h (by decide) (by decide)
  have hput : ∀ p ∈ k.putRunning.ready.getLast?, k.state p ≠ .zombie := by
    intro p hp
    rw [putRunning] at hp
    split at hp
    next hr =>
      have hp' : p = k.running := by
        simpa [put] using hp.symm
      rw [hp', hr]
      decide
    next hr => exact hlast.resolve_left hr p hp
  intro p hp
  rw [Ne, hz]
  refine hput p ?_
  obtain ⟨pre, hpre⟩ := dispatch_suffix h
  rw [← hpre, List.getLast?_append, mem_def.1 hp]
  rfl

theorem living_of_ready (hready : k1.ready = k.ready)
    (hz : ∀ p, k1.state p = .zombie ↔ k.state p = .zombie) :
    k1.living = { k1 with ready := k.living.ready } := by
  rw [living, hready, alive_congr fun p _ => hz p]
  rfl

/-- The running process yields, being put behind or not. -/
theorem Sound.yield (h : k.Sound) (hd : k1.dispatch = some k') (hready : k1.ready = k.ready)
    (hz : ∀ p, k1.state p = .zombie ↔ k.state p = .zombie) (ht : k'.Timeless)
    (ho : ∀ k2, { k1 with ready := k.living.ready }.dispatch = some k2 → k2.Orderly) :
    k.Upholds k' := by
  have hz' (p : ℕ) : k'.state p = .zombie ↔ k1.state p = .zombie :=
    dispatch_state hd (by decide) (by decide)
  refine ⟨⟨ho _ ?_, dispatch_last hd (.inr fun p hp => ?_), ht⟩, fun p => (hz' p).trans (hz p),
    fun p hp hst => ?_⟩
  · rw [← living_of_ready hready hz]
    exact dispatch_living hd
  · rw [hready] at hp
    exact fun hst => h.last p hp ((hz p).1 hst)
  · rw [← hready]
    exact dispatch_ready hd hp ((hz p).2 hst)

/-! ## Waking -/

theorem expire_appends (l : List (ℕ × ℕ)) (k : Kernel ι) :
    ∃ l', Appends (fun k => some (expire l k)) l' k (expire l k) := by
  induction l generalizing k with
  | nil => exact ⟨[], fun ready => by rw [append_nil]; rfl⟩
  | cons e l ih =>
    obtain ⟨pid, time⟩ := e
    by_cases ht : time = 0
    · obtain ⟨l', h⟩ := ih ((k.setState pid .ready).put pid)
      refine ⟨pid :: l', fun ready => ?_⟩
      dsimp only
      rw [expire, expire, if_pos ht, if_pos ht, append_cons]
      exact h (ready ++ [pid])
    · refine ⟨[], fun ready => ?_⟩
      dsimp only
      rw [expire, expire, if_neg ht, if_neg ht, append_nil]

theorem awake_of_sleep {time : ℕ} {rest : List (ℕ × ℕ)} (h : k.sleep = (pid, time) :: rest) :
    k.awake = expire ((pid, sub64 time 1) :: rest) k := by
  rw [awake, h]

theorem awake_appends (k : Kernel ι) : ∃ l, Appends (fun k => some k.awake) l k k.awake := by
  rcases hs : k.sleep with - | ⟨⟨pid, time⟩, rest⟩
  · refine ⟨[], fun ready => ?_⟩
    simp only [awake, hs, append_nil]
  obtain ⟨l, h⟩ := expire_appends ((pid, sub64 time 1) :: rest) k
  refine ⟨l, fun ready => ?_⟩
  dsimp only
  rw [awake_of_sleep hs, awake_of_sleep (k := { k with ready := ready }) hs]
  exact h ready

theorem Sound.awake (h : k.Sound) : k.Upholds k.awake := by
  refine h.appends (awake_appends k) rfl (h.timeless.of_frame ?_) fun k1 hk1 => ?_
  · obtain ⟨-, st, rd, sl, he⟩ := awake_eq k
    rw [he]
  · cases hk1
    have ht := h.orderly.tidy
    have hpolite : k.living.Polite .tick :=
      Timeless.polite (k := k.living) h.timeless ht .tick
    obtain ⟨ht', hr⟩ := ht.awake h.orderly.running hpolite
    exact ⟨⟨ht', hr⟩, fun p => awake_state ht.sleep ht.sleep_nodup (by decide) (by decide)⟩

theorem wakeWaiter_appends (h : k.wakeWaiter pid = some k') :
    Appends (fun k => k.wakeWaiter pid) [pid] k k' := by
  intro ready
  obtain ⟨k1, hk1, rfl⟩ := map_eq_some_iff.1 h
  dsimp only
  rw [wakeWaiter]
  by_cases hs : k.state pid = .sleeping
  · rw [if_pos hs] at hk1
    rw [if_pos hs]
    rw [wakeUp] at hk1 ⊢
    split_ifs at hk1 with hm
    cases hk1
    rw [if_pos hm]
    rfl
  · rw [if_neg hs] at hk1
    rw [if_neg hs]
    cases hk1
    rfl

theorem wakeLoop_of_queue {refCount : ℕ} {pids : List ℕ}
    (h : k.queue q = some ⟨pid :: pids, refCount⟩) : wakeLoop q (count + 1) k =
      ((k.popWaiter q ⟨pids, refCount⟩).wakeWaiter pid).bind fun k =>
        (wakeLoop q count k).map fun r => (r.1 + 1, r.2) := by
  rw [wakeLoop, h]

theorem wakeLoop_appends (h : wakeLoop q count k = some (n, k')) :
    ∃ l, Appends (fun k => (wakeLoop q count k).map Prod.snd) l k k' := by
  induction count generalizing k n with
  | zero =>
    cases h
    exact ⟨[], fun ready => by rw [append_nil]; rfl⟩
  | succ count ih =>
    rw [wakeLoop] at h
    split at h
    · cases h
    next refCount hq =>
      cases h
      refine ⟨[], fun ready => ?_⟩
      simp only [wakeLoop, hq, append_nil]
      rfl
    next p pids refCount hq =>
      obtain ⟨k1, hk1, h⟩ := bind_eq_some_iff.1 h
      obtain ⟨⟨m, k2⟩, hk2, ⟨⟩⟩ := map_eq_some_iff.1 h
      obtain ⟨l, hl⟩ := ih hk2
      refine ⟨p :: l, fun ready => ?_⟩
      obtain ⟨⟨m', k3⟩, hk3, he⟩ := map_eq_some_iff.1 (hl (ready ++ [p]))
      have hpop : ({ k with ready := ready }.popWaiter q ⟨pids, refCount⟩).wakeWaiter p =
          some { k1 with ready := ready ++ [p] } := wakeWaiter_appends hk1 ready
      dsimp only
      rw [wakeLoop_of_queue (k := { k with ready := ready }) hq, hpop, bind_some, hk3, append_cons]
      exact congrArg some he

theorem tryFreeQueue_ready (k : Kernel ι) (physKey : ℕ) (ready : List ℕ) :
    { k with ready := ready }.tryFreeQueue physKey =
      { k.tryFreeQueue physKey with ready := ready } := by
  rw [tryFreeQueue, tryFreeQueue]
  dsimp only
  split
  · rfl
  · split <;> rfl

theorem futexWake_appends (h : k.futexWake physKey count = some (k', o)) :
    ∃ l, Appends (fun k => (k.futexWake physKey count).map Prod.fst) l k k' := by
  rcases ht : k.table physKey with - | q
  · simp only [futexWake, ht] at h
    cases h
    refine ⟨[], fun ready => ?_⟩
    simp only [futexWake, ht, append_nil, map_some]
  · simp only [futexWake, ht] at h
    obtain ⟨⟨n, k1⟩, hk1, ⟨⟩⟩ := map_eq_some_iff.1 h
    obtain ⟨l, hl⟩ := wakeLoop_appends hk1
    refine ⟨l, fun ready => ?_⟩
    obtain ⟨⟨m, k2⟩, hk2, he⟩ := map_eq_some_iff.1 (hl ready)
    subst he
    simp only [futexWake, ht, hk2, map_some, tryFreeQueue_ready]

theorem Sound.futexWake (h : k.Sound) (hk : k.futexWake physKey count = some (k', o)) :
    k.Upholds k' := by
  refine h.appends (futexWake_appends hk) (by rw [hk]; rfl) (h.timeless.of_frame ?_)
    fun k1 hk1 => ?_
  · obtain ⟨-, st, rd, sl, tb, qu, rfl⟩ := futexWake_eq hk
    rfl
  obtain ⟨⟨k2, o2⟩, hk2, rfl⟩ := map_eq_some_iff.1 hk1
  have ht := h.orderly.tidy
  have hpolite : k.living.Polite (.futexWake physKey count) :=
    Timeless.polite (k := k.living) h.timeless ht _
  refine ⟨h.orderly.futexWake hpolite hk2, fun p => ?_⟩
  obtain ⟨k3, hk3, -, -, -, -, -, hst⟩ := futexWake_spec ht hpolite
  rw [hk2, Option.some.injEq, Prod.mk.injEq] at hk3
  rw [hk3.1, hst]
  split
  next hm =>
    -- Those who wait for a futex have not ended.
    have hs := (ht.mem_waiters.1 (mem_of_mem_take hm)).2
    refine iff_of_false (by decide) fun hz => ?_
    rw [Suspended, hz] at hs
    exact absurd hs (by decide)
  · exact Iff.rfl

variable {i : ι}

theorem semSignal_appends [DecidableEq ι] (k : Kernel ι) (i : ι) :
    ∃ l, Appends (fun k => some (k.semSignal i)) l k (k.semSignal i) := by
  rcases hb : (k.sem i).blocked with - | ⟨p, pids⟩
  · refine ⟨[], fun ready => ?_⟩
    simp only [semSignal, hb, append_nil]
  · refine ⟨[p], fun ready => ?_⟩
    simp only [semSignal, hb]
    rfl

theorem Sound.semSignal [DecidableEq ι] (h : k.Sound) (i : ι) : k.Upholds (k.semSignal i) := by
  refine h.appends (semSignal_appends k i) rfl (h.timeless.of_frame ?_) fun k1 hk1 => ?_
  · obtain ⟨st, wo, rd, sm, he⟩ := semSignal_eq k i
    rw [he]
  · cases hk1
    refine ⟨h.orderly.semSignal i, fun p => ?_⟩
    rcases hb : (k.living.sem i).blocked with - | ⟨q, pids⟩
    · simp only [Kernel.semSignal, hb]
    · simp only [Kernel.semSignal, hb]
      have hq := (h.orderly.tidy.blocked i q (by rw [hb]; exact (.head _))).1
      exact state_of_ready (k := k.living) hq (by decide) (by decide)

/-! ## Signals -/

theorem wakeStopped_appends (k : Kernel ι) (pid : ℕ) :
    ∃ l, Appends (fun k => some (k.wakeStopped pid)) l k (k.wakeStopped pid) := by
  by_cases hs : k.state pid = .stopped
  · refine ⟨[pid], fun ready => ?_⟩
    simp only [wakeStopped, hs]
    rfl
  · refine ⟨[], fun ready => ?_⟩
    simp only [wakeStopped, hs, append_nil]
    rfl

theorem unlinkFutex_ready (k : Kernel ι) (pid : ℕ) (ready : List ℕ) :
    { k with ready := ready }.unlinkFutex pid = { k.unlinkFutex pid with ready := ready } := by
  rw [unlinkFutex, unlinkFutex]
  split
  · rfl
  rw [futexForceRemove, futexForceRemove]
  rcases k.table (k.futexKey pid) with - | q
  · rfl
  · dsimp only
    rcases k.queue q with - | fq <;> rfl

theorem unlinkSem_ready [DecidableEq ι] (k : Kernel ι) (pid : ℕ) (ready : List ℕ) :
    { k with ready := ready }.unlinkSem pid = { k.unlinkSem pid with ready := ready } := by
  rw [unlinkSem, unlinkSem]
  dsimp only
  split <;> rfl

theorem interrupt_appends [DecidableEq ι] (h : k.interrupt pid = some k') :
    Appends (fun k => k.interrupt pid) [pid] k k' := by
  intro ready
  obtain ⟨k1, hk1, rfl⟩ := map_eq_some_iff.1 h
  dsimp only
  rw [interrupt, unlinkSem_ready, unlinkFutex_ready]
  generalize (k.unlinkSem pid).unlinkFutex pid = k2 at hk1
  rw [unlinkSleep] at hk1 ⊢
  split at hk1
  next hs =>
    rw [if_pos hs]
    rw [wakeUp] at hk1 ⊢
    split_ifs at hk1 with hm
    cases hk1
    rw [if_pos hm]
    rfl
  next hs =>
    cases hk1
    rw [if_neg hs]
    rfl

theorem Sound.wakeStopped (h : k.Sound) (pid : ℕ) : k.Upholds (k.wakeStopped pid) := by
  refine h.appends (wakeStopped_appends k pid) rfl (h.timeless.of_frame ?_) fun k1 hk1 => ?_
  · obtain ⟨st, rd, he⟩ := wakeStopped_eq k pid
    rw [he]
  · cases hk1
    refine ⟨h.orderly.wakeStopped pid, fun p => ?_⟩
    rw [Kernel.wakeStopped]
    split
    next hs => exact state_of_ready hs (by decide) (by decide)
    · exact Iff.rfl

theorem Sound.interrupt [DecidableEq ι] (h : k.Sound) (hs : k.Suspended pid)
    (hk : k.interrupt pid = some k') : k.Upholds k' := by
  refine h.appends ⟨[pid], interrupt_appends hk⟩ hk (h.timeless.of_frame ?_) fun k1 hk1 => ?_
  · obtain ⟨wo, fk, sl, sm, qu, rfl⟩ := interrupt_eq hk
    rfl
  obtain ⟨ht, hr, hst⟩ := h.orderly.tidy.interrupt hs hk1
  have hne : k.state pid ≠ .running ∧ k.state pid ≠ .zombie := by
    rcases hs with hs | hs <;> rw [hs] <;> decide
  have hrun : k.living.running ≠ pid := h.orderly.ne_running hne.1
  refine ⟨h.orderly.of_ready ht hr hrun hst, fun p => ?_⟩
  rw [hst]
  split_ifs with hp
  · rw [hp]
    exact iff_of_false (by decide) hne.2
  · exact Iff.rfl

theorem Sound.kill [DecidableEq ι] (h : k.Sound) (hk : k.kill pid signum = some (k', o)) :
    k.Upholds k' := by
  obtain ⟨k1, hk1, hk⟩ := kill_cases hk
  have h1 : k.Upholds k1 := by
    rcases hk1 with rfl | rfl
    · exact h.upholds
    · exact h.wakeStopped pid
  rcases hk with rfl | ⟨hs, hk⟩
  · exact h1
  · exact h1.trans (h1.sound.interrupt hs.symm hk)

/-! ## What may be done on the way -/

theorem semSignal_wakes [DecidableEq ι] (k : Kernel ι) (i : ι) : k.Wakes (k.semSignal i) := by
  rw [Kernel.semSignal]
  split
  · exact fun _ => .inl rfl
  · exact wakes_setState k _

theorem interrupt_wakes [DecidableEq ι] (h : k.interrupt pid = some k') : k.Wakes k' := by
  obtain ⟨wo, fk, sl, sm, qu, rfl⟩ := interrupt_eq h
  exact wakes_setState k pid

theorem kill_wakes [DecidableEq ι] (h : k.kill pid signum = some (k', o)) : k.Wakes k' := by
  obtain ⟨k1, hk1, hk⟩ := kill_cases h
  have h1 : k.Wakes k1 := by
    rcases hk1 with rfl | rfl
    · exact .refl _
    · rw [Kernel.wakeStopped]
      split_ifs
      · exact wakes_setState k pid
      · exact .refl k
  rcases hk with rfl | ⟨-, hk⟩
  · exact h1
  · exact h1.trans (interrupt_wakes hk)

/-- Processes may have been made ready, which keeps a sound kernel sound. -/
structure Stirs (k k' : Kernel ι) : Prop where
  wakes : k.Wakes k'
  upholds : k.Sound → k.Upholds k'

theorem Stirs.refl (k : Kernel ι) : k.Stirs k := ⟨.refl k, fun h => h.upholds⟩

theorem Stirs.trans (h : k1.Stirs k2) (h' : k2.Stirs k3) : k1.Stirs k3 :=
  ⟨h.wakes.trans h'.wakes, fun hk => (h.upholds hk).trans (h'.upholds (h.upholds hk).sound)⟩

/-- A process which neither blocked nor slept does not do so now. -/
theorem Stirs.suspended (h : k.Stirs k') (hs : ¬ k.Suspended p) : ¬ k'.Suspended p := by
  rw [Suspended] at hs ⊢
  rcases h.wakes p with hp | hp
  · rwa [hp]
  · rw [hp]
    decide

theorem stirs_semSignal [DecidableEq ι] (k : Kernel ι) (i : ι) : k.Stirs (k.semSignal i) :=
  ⟨semSignal_wakes k i, fun h => h.semSignal i⟩

theorem stirs_kill [DecidableEq ι] (h : k.kill pid signum = some (k', o)) : k.Stirs k' :=
  ⟨kill_wakes h, fun hk => hk.kill h⟩

theorem stirs_futexWake (h : k.futexWake physKey count = some (k', o)) : k.Stirs k' :=
  ⟨(futexWake_eq h).1, fun hk => hk.futexWake h⟩

/-! ## Steps -/

/-- The state of the running process is set, and it has not ended. -/
theorem Sound.setRunning (h : k.Sound) (hst : st ≠ .zombie) (p : ℕ) :
    (k.setState k.running st).state p = .zombie ↔ k.state p = .zombie :=
  state_of_ready (show k.state k.running = .running from h.orderly.running) (by decide) hst

/-- The running process goes on, and no list is touched but those in which processes wait. -/
theorem Sound.goOn (h : k.Sound) (hready : k'.ready = k.ready) (hst : k'.state = k.state)
    (ht : k'.Timeless) (ho : Orderly { k' with ready := k.living.ready }) : k.Upholds k' := by
  have hz (p : ℕ) : k'.state p = .zombie ↔ k.state p = .zombie := by rw [hst]
  refine ⟨⟨?_, ?_, ht⟩, hz, fun p hp _ => by rwa [hready] at hp⟩
  · rwa [living_of_ready hready hz]
  · rw [hready, hst]
    exact h.last

theorem Sound.semWait [DecidableEq ι] (h : k.Sound) (hu : k.frame k.running = .user)
    (hk : k.semWait i = some k') : k.Upholds k' := by
  have hstep : k.step (.semWait i) = some (k', 0) := by simp only [Kernel.step, hu, call, hk]; rfl
  have ht : k'.Timeless := h.timeless.step (c := .semWait i) trivial hstep
  have ho {k2 : Kernel ι} (hk2 : k.living.semWait i = some k2) : k2.Orderly := by
    obtain ⟨ht', hr⟩ := h.orderly.tidy.semWait h.orderly.running hu hk2
    exact ⟨ht', hr⟩
  by_cases hv : (k.sem i).value = 0
  · rw [Kernel.semWait, if_pos hv] at hk
    refine h.yield hk rfl (h.setRunning (by decide)) ht fun k2 hk2 => ?_
    exact ho ((if_pos hv).trans hk2)
  · rw [Kernel.semWait, if_neg hv] at hk
    cases hk
    exact h.goOn rfl rfl ht (ho (if_neg hv))

theorem getQueue_ready (k : Kernel ι) (physKey : ℕ) (ready : List ℕ) :
    { k with ready := ready }.getQueue physKey =
      ((k.getQueue physKey).1, { (k.getQueue physKey).2 with ready := ready }) := by
  rw [getQueue, getQueue]
  dsimp only
  split <;> rfl

theorem startTimeout_zero (k : Kernel ι) : k.startTimeout 0 = k := if_neg (lt_irrefl 0)

theorem Sound.futexWait (h : k.Sound) (hu : k.frame k.running = .user) (hkey : physKey ≠ 0)
    (hk : k.futexWait physKey val 0 = some (k', o)) : k.Upholds k' := by
  have ht : k'.Timeless := by
    intro p w hw
    rcases futexWait_frame hk hw with hw | hw
    · exact h.timeless p w hw
    · exact hw
  by_cases hm : k.mem physKey ≠ val
  · rw [Kernel.futexWait, if_pos hm] at hk
    cases hk
    exact h.upholds
  rw [Kernel.futexWait, if_neg hm] at hk
  obtain ⟨k1, hk1, ⟨⟩⟩ := map_eq_some_iff.1 hk
  obtain ⟨fq, hq, hd⟩ := bind_eq_some_iff.1 hk1
  rw [startTimeout_zero] at hd
  obtain ⟨tb, qu, nq, hget⟩ := getQueue_eq k physKey
  refine h.yield hd ?_ ?_ ht fun k2 hk2 => ?_
  · rw [hget]
    rfl
  · rw [hget]
    exact h.setRunning (by decide)
  · refine h.orderly.futexWait (o := 0) hu hkey (?_ : k.living.futexWait physKey val 0 = _)
    have hliving : k.living.getQueue physKey = _ := getQueue_ready k physKey k.living.ready
    rw [Kernel.futexWait, if_neg (show ¬ k.living.mem physKey ≠ val from hm), hliving, suspend]
    rw [hq, bind_some, startTimeout_zero]
    exact congrArg (Option.map fun k => (k, 0)) hk2

theorem Sound.resume (h : k.Sound) (hk : k.resume = some (k', o)) : k.Upholds k' := by
  have ht : k'.Timeless := fun p w hw => h.timeless p w (resume_frame hk hw)
  rw [Kernel.resume] at hk
  rcases hf : k.frame k.running with - | i | w
  · rw [hf] at hk
    cases hk
  · rw [hf] at hk
    cases hk
    refine h.goOn rfl rfl ht (h.orderly.resume (o := 0) ?_)
    rw [Kernel.resume, show k.living.frame k.living.running = .sem i from hf]
    rfl
  rw [hf] at hk
  obtain ⟨fq, hq, ⟨⟩⟩ := map_eq_some_iff.1 hk
  have hk2 : k.living.futexResume w = some
      (({ k.leaveQueue w.queue fq with ready := k.living.ready }).tryFreeQueue w.physKey,
        if 0 < w.timeout ∧ k.mem w.physKey = w.val then futexEtimedout else 0) := by
    rw [futexResume, show k.living.queue w.queue = some fq from hq]
    rfl
  have ho := h.orderly.futexResume hf hk2
  rw [tryFreeQueue_ready] at ho
  refine h.goOn ?_ ?_ ht ho
  all_goals
    obtain ⟨tb, qu, he⟩ := tryFreeQueue_eq (k.leaveQueue w.queue fq) w.physKey
    rw [he]
    rfl

theorem stirs_store (k : Kernel ι) (physKey val : ℕ) :
    k.Stirs { k with mem := update k.mem physKey val } := by
  refine ⟨fun _ => .inl rfl, fun h => h.goOn rfl rfl h.timeless ⟨{ h.orderly.tidy with }, ?_⟩⟩
  exact h.orderly.running

/-- Every step keeps the kernel sound; a process which ends or is created is another matter. -/
theorem Sound.step [DecidableEq ι] (h : k.Sound) (hc : Untimed c) (he : c ≠ .exit)
    (hs : ∀ p, c ≠ .start p) (hk : k.step c = some (k', o)) : k.Upholds k' := by
  have ht : k'.Timeless := h.timeless.step hc hk
  cases step_does hk with
  | nothing => exact h.upholds
  | semWait hu hk => exact h.semWait hu hk
  | semSignal => exact h.semSignal _
  | futexWait hu hkey hk =>
    cases hc
    exact h.futexWait hu hkey hk
  | futexWake hk => exact h.futexWake hk
  | store => exact (stirs_store k _ _).upholds h
  | kill hk => exact h.kill hk
  | @sleep time _ hu hd =>
    refine h.yield hd rfl (h.setRunning (by decide)) ht fun k2 hk2 => ?_
    have hsleep : k.living.step (.sleep time) = some (k2, 0) := by
      simp only [Kernel.step, show k.living.frame k.living.running = .user from hu]
      exact congrArg (Option.map fun k => (k, (0 : ℤ))) hk2
    exact h.orderly.step (c := .sleep time) trivial hsleep
  | preempt hd =>
    exact h.yield hd rfl (fun _ => Iff.rfl) ht fun k2 hk2 => .dispatch h.orderly.tidy hk2
  | stop hd =>
    exact h.yield hd rfl (h.setRunning (by decide)) ht fun k2 hk2 =>
      h.orderly.yield ⟨by decide, by decide⟩ hk2
  | exit => exact absurd rfl he
  | start => exact absurd rfl (hs _)
  | tick => exact h.awake
  | resume hk => exact h.resume hk

/-! ## Nothing else ends a process -/

theorem Wakes.zombie (h : k.Wakes k') (hz : k'.state p = .zombie) : k.state p = .zombie := by
  rcases h p with hp | hp
  · rwa [hp] at hz
  · rw [hp] at hz
    cases hz

theorem zombie_of_setState (hst : st ≠ .zombie) (hz : (k.setState pid st).state p = .zombie) :
    k.state p = .zombie := by
  by_cases hp : p = pid
  · subst hp
    exact absurd ((update_self ..).symm.trans hz) hst
  · exact (update_of_ne hp _ _).symm.trans hz

/-- The running process is given a state, and another one is dispatched. -/
theorem zombie_of_dispatch (hd : k1.dispatch = some k')
    (hk1 : k1.state = (k.setState k.running st).state) (hst : st ≠ .zombie)
    (hz : k'.state p = .zombie) : k.state p = .zombie := by
  rw [dispatch_state hd (by decide) (by decide), hk1] at hz
  exact zombie_of_setState hst hz

theorem semWait_zombie [DecidableEq ι] (hk : k.semWait i = some k') (hz : k'.state p = .zombie) :
    k.state p = .zombie := by
  rw [Kernel.semWait] at hk
  split at hk
  · exact zombie_of_dispatch hk rfl (by decide) hz
  · cases hk
    exact hz

theorem futexWait_zombie {timeout : ℕ} (hk : k.futexWait physKey val timeout = some (k', o))
    (hz : k'.state p = .zombie) : k.state p = .zombie := by
  rw [Kernel.futexWait] at hk
  split at hk
  · cases hk
    exact hz
  obtain ⟨k1, hk1, ⟨⟩⟩ := map_eq_some_iff.1 hk
  obtain ⟨fq, -, hd⟩ := bind_eq_some_iff.1 hk1
  obtain ⟨tb, qu, nq, hget⟩ := getQueue_eq k physKey
  rw [hget, startTimeout] at hd
  split at hd
  · refine zombie_of_dispatch hd ?_ (show ProcState.sleeping ≠ .zombie by decide) hz
    exact update_idem ..
  · exact zombie_of_dispatch hd rfl (by decide) hz

theorem resume_state (hk : k.resume = some (k', o)) : k'.state = k.state := by
  rw [Kernel.resume] at hk
  split at hk
  · cases hk
  · cases hk
    rfl
  next w _ =>
    obtain ⟨fq, -, ⟨⟩⟩ := map_eq_some_iff.1 hk
    obtain ⟨tb, qu, he⟩ := tryFreeQueue_eq (k.leaveQueue w.queue fq) w.physKey
    rw [he]
    rfl

/-- A step ends no process, unless it is the end of one. -/
theorem step_zombie [DecidableEq ι] (hk : k.step c = some (k', o)) (he : c ≠ .exit)
    (hz : k'.state p = .zombie) : k.state p = .zombie := by
  cases step_does hk with
  | nothing => exact hz
  | semWait _ hk => exact semWait_zombie hk hz
  | semSignal => exact (semSignal_wakes k _).zombie hz
  | futexWait _ _ hk => exact futexWait_zombie hk hz
  | futexWake hk => exact (futexWake_eq hk).1.zombie hz
  | store => exact hz
  | kill hk => exact (kill_wakes hk).zombie hz
  | sleep _ hd => exact zombie_of_dispatch hd rfl (show ProcState.sleeping ≠ .zombie by decide) hz
  | preempt hd => exact (dispatch_state hd (by decide) (by decide)).1 hz
  | stop hd => exact zombie_of_dispatch hd rfl (by decide) hz
  | exit => exact absurd rfl he
  | start => exact (wakes_setState k _).zombie hz
  | tick => exact (awake_eq k).1.zombie hz
  | resume hk => rwa [resume_state hk] at hz

/-! ## The end, and the beginning -/

/-- A process which is in no list but that of the ready ones is taken from it. -/
theorem Tidy.remove (h : k.Tidy none) (hs : ¬ k.Suspended pid) (hl : l = k.ready.filter (· ≠ pid)) :
    Tidy none { k.setState pid .zombie with ready := l } := by
  have hsub : l.Sublist k.ready := hl ▸ filter_sublist
  have h' : Tidy (some pid) { k with ready := l } := Tidy.weaken { h with
    ready := fun p hp => h.ready p (hsub.subset hp)
    ready_nodup := h.ready_nodup.sublist hsub }
  exact h'.setState (h'.free (by simp [hl]) hs) ⟨by decide, by decide⟩

theorem alive_update (state : ℕ → ProcState) (pid : ℕ) (l : List ℕ) :
    alive (update state pid .zombie) l = (alive state l).filter (· ≠ pid) := by
  rw [alive, alive, List.filter_filter]
  refine filter_congr fun p _ => ?_
  rw [← Bool.decide_and, decide_eq_decide, update_apply]
  by_cases hp : p = pid <;> simp [hp]

/-- A process which neither blocks nor sleeps is ended by the running one, which yields. -/
theorem Sound.retire (h : k.Sound) (hs : ¬ k.Suspended pid)
    (hd : (k.setState pid .zombie).dispatch = some k') :
    k'.Sound ∧ (∀ p, k'.state p = .zombie ↔ p = pid ∨ k.state p = .zombie) ∧
      ∀ p ∈ k'.ready, k.state p = .zombie → p ∈ k.ready := by
  have hstate (p : ℕ) : (k.setState pid .zombie).state p = if p = pid then .zombie else k.state p :=
    update_apply ..
  have hrun : k.state k.running = .running := h.orderly.running
  have ht : (k.setState pid .zombie).living.Tidy none :=
    h.orderly.tidy.remove hs (alive_update k.state pid k.ready)
  have hlast : (k.setState pid .zombie).state k.running = .running ∨
      ∀ p ∈ k.ready.getLast?, (k.setState pid .zombie).state p ≠ .zombie := by
    by_cases hpid : k.running = pid
    · -- The running process is in no list.
      refine .inr fun p hp => ?_
      have hfree := (h.orderly.tidy.free_running h.orderly.running).ready
      have halive : p ∈ alive k.state k.ready :=
        mem_filter.2 ⟨mem_of_getLast? hp, decide_eq_true (h.last p hp)⟩
      rw [hstate, if_neg]
      · exact h.last p hp
      · rintro rfl
        rw [← hpid] at halive
        exact hfree halive
    · left
      rwa [hstate, if_neg hpid]
  refine ⟨⟨.dispatch ht (dispatch_living hd), dispatch_last hd hlast, ?_⟩, fun p => ?_,
    fun p hp hz => ?_⟩
  · obtain ⟨st, rd, me, rfl⟩ := dispatch_eq hd
    exact h.timeless
  · rw [dispatch_state hd (by decide) (by decide), hstate]
    split_ifs with hp
    · exact iff_of_true rfl (.inl hp)
    · exact (or_iff_right hp).symm
  · have hz' : (k.setState pid .zombie).state p = .zombie := by rw [hstate, hz, ite_self]
    have hp' := dispatch_ready hd hp hz'
    exact hp'

/-- A process which is in no list is created. -/
theorem Sound.start [DecidableEq ι] (h : k.Sound) (hpid : pid ∉ k.ready)
    (hk : k.call (.start pid) = some
    (k', o)) : k'.Sound ∧ (∀ p, k'.state p = .zombie ↔ p ≠ pid ∧ k.state p = .zombie) ∧
      ∀ p ∈ k'.ready, p = pid ∨ p ∈ k.ready := by
  rw [Kernel.call] at hk
  split_ifs at hk with hz
  cases hk
  have hstate (p : ℕ) : ((k.setState pid .ready).put pid).state p =
      if p = pid then .ready else k.state p := update_apply ..
  have hzombie (p : ℕ) : ((k.setState pid .ready).put pid).state p = .zombie ↔
      p ≠ pid ∧ k.state p = .zombie := by
    rw [hstate]
    split_ifs with hp
    · exact iff_of_false (by decide) fun h => h.1 hp
    · exact (and_iff_right hp).symm
  have hliving : ((k.setState pid .ready).put pid).living =
      (k.living.setState pid .ready).put pid := by
    have halive : alive ((k.setState pid .ready).put pid).state (k.ready ++ [pid]) =
        alive k.state k.ready ++ [pid] := by
      rw [alive_append, alive_congr fun p hp => ?_]
      · rw [hzombie]
        exact and_iff_right (by rintro rfl; exact hpid hp)
      · intro p hp
        rw [mem_singleton.1 hp, Ne, hzombie]
        exact fun h => h.1 rfl
    exact congrArg (fun l => ({ k.setState pid .ready with ready := l } : Kernel ι)) halive
  refine ⟨⟨?_, fun p hp => ?_, h.timeless⟩, hzombie, fun p hp => ?_⟩
  · rw [hliving]
    have hf := h.free hz.1
    refine ⟨h.orderly.tidy.weaken.wake hf, ?_⟩
    refine (update_of_ne (h.orderly.ne_running ?_) _ _).trans h.orderly.running
    show k.state pid ≠ _
    rw [hz.1]
    decide
  · have hp' : p = pid := by
      simpa [put] using hp.symm
    rw [hp', hstate, if_pos rfl]
    decide
  · rcases mem_append.1 hp with hp | hp
    · exact .inr hp
    · exact .inl (mem_singleton.1 hp)

end Kernel

end HobbyOS
