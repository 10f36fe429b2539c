import HobbyOS.Sched.Futex

/-!
# Signals to a process with threads

`Process::kill` goes through the threads of the process, but looks at the process itself each
time. A thread which blocks or sleeps stays where it is, and `SIGKILL` wakes nobody who is
stopped. The process itself is taken from the lists which its fields name: it stays in the queue
of a futex in which a timeout has left it (`reached_iff`).
-/

namespace HobbyOS

open Function List Option

namespace Kernel

variable {ι : Type*} [DecidableEq ι]

/-- What `Process::kill` does once for the process, and again for each of its threads. -/
def interruptSuspended (k : Kernel ι) (pid : ℕ) : Option (Kernel ι) :=
  if k.state pid = .sleeping ∨ k.state pid = .blocked then k.interrupt pid else some k

/-- `Process::kill`, with the threads of the process. -/
def killGroup (k : Kernel ι) (pid : ℕ) (threads : List ℕ) (signum : ℤ) : Option (Kernel ι × ℤ) :=
  if signum < 0 ∨ nsig ≤ signum then some (k, -1)
  else if signum = 0 then some (k, 0)
  else
    let k := if signum = sigcont then (pid :: threads).foldl wakeStopped k else k
    ((pid :: threads).foldlM (fun (k : Kernel ι) _ => k.interruptSuspended pid) k).map fun k => (k, 0)

/-- The process is in the list of ready ones once, and in no other. -/
def Woken (k : Kernel ι) (t : ℕ) : Prop :=
  k.ready.count t = 1 ∧ t ∉ k.sleep.map Prod.fst ∧ (∀ i, t ∉ (k.sem i).blocked) ∧
    ∀ q fq, k.queue q = some fq → t ∉ fq.waiters

/-- The signal reaches the process and all of its threads. -/
def Reached (k : Kernel ι) (pid : ℕ) (threads : List ℕ) (signum : ℤ) : Prop :=
  ∃ k', k.killGroup pid threads signum = some (k', 0) ∧
    (∀ t ∈ pid :: threads, k.Suspended t → k'.state t = .ready ∧ k'.Woken t) ∧
    (signum = 9 → ∀ t ∈ pid :: threads, k'.state t ≠ .stopped)

/-- The process is in the lists which its state and its fields name, in each of them once, and in
    no others; a process which sleeps is in the list of sleeping ones. -/
structure Placed (k : Kernel ι) (pid : ℕ) : Prop where
  ready : pid ∉ k.ready
  sleep : (k.sleep.map Prod.fst).count pid = if k.state pid = .sleeping then 1 else 0
  blocked : ∀ i, (k.sem i).blocked.count pid ≤ if k.waitingOn pid = some i then 1 else 0
  waiters : ∀ q fq, k.queue q = some fq → fq.waiters.count pid ≤
    if k.futexKey pid ≠ 0 ∧ k.table (k.futexKey pid) = some q then 1 else 0

variable {k k' : Kernel ι} {pid : ℕ} {threads l : List ℕ} {signum : ℤ}

/-- This is so in a tidy kernel. -/
theorem Tidy.placed (h : k.Tidy none) (hsus : k.Suspended pid)
    (hs : k.state pid = .sleeping → pid ∈ k.sleep.map Prod.fst) : k.Placed pid := by
  refine ⟨fun hm => ?_, ?_, fun i => ?_, fun q fq hq => ?_⟩
  · rw [Suspended, h.ready pid hm] at hsus
    exact absurd hsus (by decide)
  · split_ifs with hst
    · exact count_eq_one_of_mem h.sleep_nodup (hs hst)
    · exact count_eq_zero.2 fun hm => hst (h.sleep pid hm)
  · by_cases hm : pid ∈ (k.sem i).blocked
    · rw [if_pos (h.blocked i pid hm).2, count_eq_one_of_mem (h.blocked_nodup i) hm]
    · rw [count_eq_zero.2 hm]
      exact Nat.zero_le _
  · by_cases hm : pid ∈ fq.waiters
    · obtain ⟨⟨w, hw, rfl⟩, -⟩ := h.linked q fq pid hq hm
      obtain ⟨hne, htable, -⟩ := h.frame pid w hw
      obtain ⟨hkey, -⟩ := h.waiting pid w (by simp) hw hsus
      rw [hkey, if_pos ⟨hne, htable⟩, count_eq_one_of_mem (h.waiters_nodup _ fq hq) hm]
    · rw [count_eq_zero.2 hm]
      exact Nat.zero_le _

/-! ## What is done to the lists -/

omit [DecidableEq ι] in
/-- `Process::wakeStoppedThreads`. -/
theorem foldl_wakeStopped (k : Kernel ι) (l : List ℕ) : ∃ st rd,
    l.foldl wakeStopped k = { k with state := st, ready := k.ready ++ rd } ∧
      (∀ t ∈ rd, k.state t = .stopped) ∧
      ∀ t, st t = if t ∈ l ∧ k.state t = .stopped then .ready else k.state t := by
  induction l generalizing k with
  | nil => exact ⟨k.state, [], by simp, by simp, by simp⟩
  | cons p l ih =>
    obtain ⟨st, rd, he, hrd, hst⟩ := ih (k.wakeStopped p)
    rw [foldl_cons, he]
    unfold wakeStopped at hrd hst ⊢
    split at hrd
    next hp =>
      have hset (t : ℕ) : ((k.setState p .ready).put p).state t =
          if t = p then .ready else k.state t := update_apply ..
      rw [if_pos hp] at hst ⊢
      refine ⟨st, p :: rd, ?_, fun t ht => ?_, fun t => ?_⟩
      · simp [put, setState]
      · have := hrd t
        grind
      · rw [hst, hset]
        grind
    next hp =>
      rw [if_neg hp] at hst ⊢
      refine ⟨st, rd, rfl, hrd, fun t => ?_⟩
      rw [hst]
      grind

/-- Once the process is not suspended any more the loop does nothing. -/
theorem foldlM_interrupt (hs : ¬ (k.state pid = .sleeping ∨ k.state pid = .blocked)) :
    l.foldlM (fun (k : Kernel ι) _ => k.interruptSuspended pid) k = some k := by
  induction l with
  | nil => rfl
  | cons p l ih =>
    rw [foldlM_cons, interruptSuspended, if_neg hs]
    exact ih

theorem unlinkSem_blocked (k : Kernel ι) (pid : ℕ) (i : ι) : ((k.unlinkSem pid).sem i).blocked =
    if k.waitingOn pid = some i then (k.sem i).blocked.erase pid else (k.sem i).blocked := by
  unfold unlinkSem
  split
  next hw => rw [if_neg (by simp [hw])]
  next j hw =>
    dsimp only [semForceRemove]
    rw [hw, update_apply]
    by_cases hj : i = j
    · rw [hj, if_pos rfl, if_pos rfl]
    · rw [if_neg hj, if_neg fun he => hj (Option.some.inj he).symm]

omit [DecidableEq ι] in
theorem unlinkFutex_waiters (k : Kernel ι) (pid q : ℕ) :
    ((k.unlinkFutex pid).queue q).map FutexQueue.waiters = (k.queue q).map fun fq =>
      if k.futexKey pid ≠ 0 ∧ k.table (k.futexKey pid) = some q then fq.waiters.erase pid
      else fq.waiters := by
  unfold unlinkFutex
  split
  next hkey => simp [hkey]
  next hkey =>
    dsimp only [futexForceRemove]
    cases ht : k.table (k.futexKey pid) with
    | none => simp
    | some r =>
      dsimp only
      by_cases hr : r = q
      · subst hr
        cases hq : k.queue r with
        | none => simp [hq]
        | some fq => simp [hkey]
      · cases hq : k.queue r with
        | none => simp [hr]
        | some fq => simp [hr, Ne.symm hr]

/-- A process which sleeps is in the list, so that it is found there. -/
theorem interrupt_ne_none (hs : k.state pid = .sleeping → pid ∈ k.sleep.map Prod.fst) :
    k.interrupt pid ≠ none := by
  obtain ⟨wo, sm, he⟩ := unlinkSem_eq k pid
  obtain ⟨fk, qu, he'⟩ := unlinkFutex_eq { k with waitingOn := wo, sem := sm } pid
  rw [interrupt, he, he', unlinkSleep]
  split
  next hst =>
    rw [wakeUp, if_pos (hs hst)]
    exact nofun
  · exact nofun

/-- The process is taken once from the lists its fields name, and made ready. -/
theorem interrupt_lists (h : k.interrupt pid = some k') : k'.ready = k.ready ++ [pid] ∧
    (∀ t, k'.state t = if t = pid then .ready else k.state t) ∧
    (k.state pid = .sleeping → pid ∈ k.sleep.map Prod.fst) ∧ k'.sleep.map Prod.fst = (if k.state pid = .sleeping then (k.sleep.map Prod.fst).erase pid
      else k.sleep.map Prod.fst) ∧
    (∀ i, (k'.sem i).blocked = if k.waitingOn pid = some i then (k.sem i).blocked.erase pid
      else (k.sem i).blocked) ∧
    ∀ q, (k'.queue q).map FutexQueue.waiters = (k.queue q).map fun fq =>
      if k.futexKey pid ≠ 0 ∧ k.table (k.futexKey pid) = some q then fq.waiters.erase pid
      else fq.waiters := by
  obtain ⟨k1, hk1, rfl⟩ := map_eq_some_iff.1 h
  have hsem := unlinkSem_blocked k pid
  have hfutex := unlinkFutex_waiters (k.unlinkSem pid) pid
  obtain ⟨wo, sm, he⟩ := unlinkSem_eq k pid
  obtain ⟨fk, qu, he'⟩ := unlinkFutex_eq (k.unlinkSem pid) pid
  rw [he'] at hk1 hfutex
  rw [he] at hk1 hfutex hsem
  have hsleep : (k.state pid = .sleeping → pid ∈ k.sleep.map Prod.fst) ∧ k1.sleep.map Prod.fst =
      if k.state pid = .sleeping then (k.sleep.map Prod.fst).erase pid else k.sleep.map Prod.fst := by
    unfold unlinkSleep wakeUp at hk1
    split_ifs at hk1 ⊢ with hst hm
    · cases hk1
      exact ⟨fun _ => hm, map_removeSleep pid k.sleep⟩
    · cases hk1
      exact ⟨fun he => absurd he hst, rfl⟩
  obtain ⟨sl, rfl⟩ := unlinkSleep_eq hk1
  exact ⟨rfl, fun t => update_apply .., hsleep.1, hsleep.2, hsem, hfutex⟩

omit [DecidableEq ι] in
theorem notMem_iff_count {c : Prop} [Decidable c] :
    pid ∉ (if c then l.erase pid else l) ↔ l.count pid ≤ if c then 1 else 0 := by
  rw [← count_eq_zero]
  split_ifs
  · rw [count_erase_self]
    omega
  · omega

/-- The process is ready then, and in no other list, iff it was where its fields say. -/
theorem placed_iff (h : k.interrupt pid = some k') : k'.Woken pid ↔ k.Placed pid := by
  obtain ⟨hready, -, hmem, hsleep, hsem, hqueue⟩ := interrupt_lists h
  have hr : k'.ready.count pid = 1 ↔ pid ∉ k.ready := by
    rw [hready, count_append, count_singleton_self, ← count_eq_zero]
    omega
  have hs : pid ∉ k'.sleep.map Prod.fst ↔
      (k.sleep.map Prod.fst).count pid = if k.state pid = .sleeping then 1 else 0 := by
    rw [hsleep, notMem_iff_count]
    split_ifs with hst
    · have := count_pos_iff.2 (hmem hst)
      omega
    · omega
  have hq : (∀ q fq, k'.queue q = some fq → pid ∉ fq.waiters) ↔ ∀ q fq, k.queue q = some fq →
      fq.waiters.count pid ≤
        if k.futexKey pid ≠ 0 ∧ k.table (k.futexKey pid) = some q then 1 else 0 := by
    refine forall_congr' fun q => ?_
    have hq := hqueue q
    simp only [← notMem_iff_count]
    cases hk : k.queue q with
    | none =>
      rw [hk, Option.map_none, map_eq_none_iff] at hq
      simp [hq]
    | some fq =>
      rw [hk, map_some] at hq
      obtain ⟨fq', hfq', he⟩ := map_eq_some_iff.1 hq
      simp [hfq', he]
  simp only [Woken, hr, hs, hq, hsem, notMem_iff_count]
  exact ⟨fun ⟨h1, h2, h3, h4⟩ => ⟨h1, h2, h3, h4⟩, fun ⟨h1, h2, h3, h4⟩ => ⟨h1, h2, h3, h4⟩⟩

/-- What `Process::kill` does: it wakes those which are stopped, if it is `SIGCONT`, and the process
    itself, unless it sleeps and is not in the list. -/
theorem killGroup_spec (k : Kernel ι) (pid : ℕ) (threads : List ℕ)
    (hsig : 0 < signum ∧ signum < nsig) :
    (k.killGroup pid threads signum = none ∧ k.Suspended pid ∧ ¬ k.Placed pid) ∨
    ∃ k', k.killGroup pid threads signum = some (k', 0) ∧ (∀ t, k'.state t =
        if t = pid ∧ k.Suspended pid ∨
          signum = sigcont ∧ t ∈ pid :: threads ∧ k.state t = .stopped then .ready
        else k.state t) ∧
      (k.Suspended pid → (k'.Woken pid ↔ k.Placed pid)) := by
  obtain ⟨st, rd, hk1, hrd, hst⟩ : ∃ st rd,
      (if signum = sigcont then (pid :: threads).foldl wakeStopped k else k) =
        { k with state := st, ready := k.ready ++ rd } ∧ (∀ t ∈ rd, k.state t = .stopped) ∧
      ∀ t, st t = if signum = sigcont ∧ t ∈ pid :: threads ∧ k.state t = .stopped then .ready
        else k.state t := by
    split_ifs with hc
    · obtain ⟨st, rd, he, hrd, hst⟩ := foldl_wakeStopped k (pid :: threads)
      exact ⟨st, rd, he, hrd, by simpa only [hc, true_and] using hst⟩
    · exact ⟨k.state, [], by simp, by simp, fun t => by rw [if_neg fun h => hc h.1]⟩
  rw [killGroup, if_neg (by omega), if_neg (by omega), hk1]
  dsimp only
  rw [foldlM_cons, interruptSuspended]
  dsimp only
  have hpid := hst pid
  by_cases hp : k.Suspended pid
  · -- The process is none of those which are stopped.
    have hsame : st pid = k.state pid := by
      rw [Suspended] at hp
      grind
    have hplaced : Placed { k with state := st, ready := k.ready ++ rd } pid ↔ k.Placed pid := by
      have hready : pid ∈ k.ready ++ rd ↔ pid ∈ k.ready := by
        have := hrd pid
        rw [Suspended] at hp
        grind
      exact ⟨fun h => ⟨mt hready.2 h.ready, by simpa only [hsame] using h.sleep, h.blocked, h.waiters⟩,
        fun h => ⟨mt hready.1 h.ready, by simpa only [hsame] using h.sleep, h.blocked, h.waiters⟩⟩
    rw [if_pos (by rw [hsame]; exact hp.symm)]
    cases hi : interrupt { k with state := st, ready := k.ready ++ rd } pid with
    | none =>
      refine .inl ⟨rfl, hp, fun h => interrupt_ne_none (fun hs => ?_) hi⟩
      have hsleep := (hplaced.2 h).sleep
      rw [if_pos hs] at hsleep
      exact count_pos_iff.1 (hsleep ▸ one_pos)
    | some k' =>
      have hstate := (interrupt_lists hi).2.1
      refine .inr ⟨k', ?_, fun t => ?_, fun _ => (placed_iff hi).trans hplaced⟩
      · refine congrArg (Option.map fun k => (k, (0 : ℤ))) (foldlM_interrupt ?_)
        rw [hstate, if_pos rfl]
        decide
      · rw [hstate]
        dsimp only
        rw [hst]
        grind
  · have hn : ¬ (st pid = .sleeping ∨ st pid = .blocked) := by
      rw [Suspended] at hp
      grind
    rw [if_neg hn]
    refine .inr ⟨_, congrArg (Option.map fun k => (k, (0 : ℤ))) (foldlM_interrupt hn), fun t => ?_,
      fun h => absurd h hp⟩
    refine (hst t).trans ?_
    grind

/-- **Signals to threads.** Exactly then does a signal reach all threads of a process: none but the
    process itself blocks or sleeps, the process is in the lists its fields name only, and if the
    signal is `SIGKILL` then nobody is stopped. -/
theorem reached_iff (hsig : 0 < signum ∧ signum < nsig) :
    k.Reached pid threads signum ↔ (∀ t ∈ threads, k.Suspended t → t = pid) ∧
      (k.Suspended pid → k.Placed pid) ∧
      (signum = 9 → ∀ t ∈ pid :: threads, k.state t ≠ .stopped) := by
  obtain ⟨hnone, hsus, hnot⟩ | ⟨k', hk', hst, hwoken⟩ := killGroup_spec k pid threads hsig
  · refine iff_of_false (fun ⟨k', hk', _⟩ => ?_) fun hc => hnot (hc.2.1 hsus)
    rw [hnone] at hk'
    cases hk'
  refine ⟨fun ⟨k1, hk1, hr, h9⟩ => ?_, fun hc => ⟨k', hk', fun t hm hsus => ?_, fun h9 t hm => ?_⟩⟩
  · cases hk'.symm.trans hk1
    refine ⟨fun t hm hsus => ?_, fun hsus => (hwoken hsus).1 (hr pid mem_cons_self hsus).2,
      fun hs9 t hm hstop => h9 hs9 t hm ?_⟩
    · have := (hr t (mem_cons_of_mem _ hm) hsus).1
      rw [hst] at this
      rw [Suspended] at hsus
      grind
    · rw [hst, if_neg, hstop]
      rw [hs9, Suspended]
      rintro (⟨rfl, hsus⟩ | ⟨hsc, -⟩)
      · rw [hstop] at hsus
        exact absurd hsus (by decide)
      · exact absurd hsc (by decide)
  · obtain rfl : t = pid := (mem_cons.1 hm).elim id fun hm => hc.1 t hm hsus
    exact ⟨by rw [hst, if_pos (.inl ⟨rfl, hsus⟩)], (hwoken hsus).2 (hc.2.1 hsus)⟩
  · have hne := hc.2.2 h9 t hm
    rw [hst]
    grind

/-- The first of two processes waits for a futex, for five ticks at most. -/
def oneWaits : Kernel Unit :=
  lastState (guarded (fun k => k.step) Polite) (boot 1 fun _ => 0) [.futexWait 4 0 5]

/-- The process, which is in two lists, is woken if the other one is its thread. -/
theorem reached_process : oneWaits.sleep = [(0, 5)] ∧ oneWaits.waiters 4 = [0] ∧
    oneWaits.Reached 0 [1] 10 := by
  have htidy : oneWaits.Tidy none := ((boot_boot 1 fun _ => 0).orderly.reaches (.lastState _ _)).tidy
  refine ⟨by decide +kernel, by decide +kernel, (reached_iff (by decide)).2
    ⟨by decide +kernel, fun hs => htidy.placed hs fun _ => ?_, by decide⟩⟩
  decide +kernel

/-- The process is not woken if it is the thread of the other one. -/
theorem not_reached_thread : ¬ oneWaits.Reached 1 [0] 10 := by
  rintro ⟨k', hk, hr, -⟩
  have hst : (oneWaits.killGroup 1 [0] 10).map (fun r => r.1.state 0) = some .sleeping := by
    decide +kernel
  have hready := (hr 0 (by decide) (by decide +kernel)).1
  rw [hk, map_some, hready] at hst
  cases hst

end Kernel

end HobbyOS
