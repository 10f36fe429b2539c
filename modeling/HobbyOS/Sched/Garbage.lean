import HobbyOS.Sched.Ended
import HobbyOS.Sched.Tasks

/-!
# Deleting what has ended

`PCBGarbage::clear` deletes a thread which has ended once `m_next` and `m_nextSleep` are
null. These are null, too, for the last one in a list, and for one in the queue of a
semaphore or of a futex.

* If only threads which are ready or run are ended, if a process ends only after its
  threads, and if there are no futexes with a timeout, then nothing is deleted while it is
  in a list (`reachable_free`): who is ended in the list of ready processes is not the
  last one there.
* A process which was waited for is deleted exactly if it was the last child of its parent
  then (`reachable_deleted_iff`): `Process::wait` does not clear `m_nextSibling`.

`Effect` says once what a step can do.
-/

namespace HobbyOS

open Function Kernel List Nat Option

/-- Without a next one it is the last one of the list, or not in there. -/
theorem getLast?_of_follow {l : List ℕ} {a : ℕ} (h : follow l a = none) (ha : a ∈ l) :
    l.getLast? = some a := by
  induction l with
  | nil => cases ha
  | cons b l ih =>
    rw [List.getLast?_cons]
    by_cases hb : b = a
    · subst hb
      rcases l with - | ⟨c, l⟩
      · rfl
      · simp [follow] at h
    · have hf : follow (b :: l) a = follow l a := by simp [follow, hb]
      rw [hf] at h
      rw [ih h ((mem_cons.1 ha).resolve_left (Ne.symm hb))]
      rfl

/-- What is ended: a thread, or a process. -/
inductive Ending
  | thread (t : ℕ)
  | process (pid : ℕ)
  deriving DecidableEq

def Ending.pid : Ending → ℕ
  | thread t => t
  | process pid => pid

namespace Tasks

section

variable (s : Tasks)

/-- What `Process::exitGroup` ends next. -/
def groupEnds : Option ℕ → Ending
  | none => .process (s.owner s.kernel.running)
  | some t =>
    if s.kernel.state t = .zombie then .process (s.owner s.kernel.running) else .thread t

/-- What a step ends. -/
def ends : TaskCall → Option Ending
  | .exit =>
    if s.owner s.kernel.running = s.kernel.running then some (.process s.kernel.running)
    else some (.thread s.kernel.running)
  | .exitGroup => some (s.groupEnds (s.threads (s.owner s.kernel.running)).head?)
  | .resume =>
    match s.closing s.kernel.running with
    | some (.group next) => some (s.groupEnds next)
    | some (.clear pid none) => some (.process pid)
    | some (.clear _ (some t)) => some (.thread t)
    | none => none
  | _ => none

/-- A process ends only after its threads. -/
def Lone (c : TaskCall) : Prop := ∀ pid, s.ends c = some (.process pid) → s.threads pid = []

end

/-- There is no timeout. -/
def Untimed : TaskCall → Prop
  | .futexWait _ _ timeout => timeout = 0
  | _ => True

/-- Only what is ready or runs is ended, a process only after its threads, and nobody waits for a
    futex with a timeout. -/
def Careful (s : Tasks) (c : TaskCall) : Prop :=
  s.Lone c ∧ Untimed c ∧
    ∀ e, s.ends c = some e → s.kernel.state e.pid = .ready ∨ s.kernel.state e.pid = .running

/-! ## What a step does -/

/-- The thread or process `pid` is ended, and the running one yields. -/
def Ends (s : Tasks) (pid : ℕ) (s' : Tasks) : Prop :=
  ∃ k k' threads parent children, s.kernel.Stirs k ∧ (k.setState pid .zombie).dispatch = some k' ∧
    (∀ q, ∀ c ∈ children q, ∃ q', c ∈ s.children q') ∧
    s' = { s with
      kernel := k', threads := threads, parent := parent, children := children
      garbage := s.garbage ++ [pid] }

/-- The kernel does something else, which ends nothing. -/
structure Moves (k : Kernel TaskSem) (c : TaskCall) (k' : Kernel TaskSem) : Prop where
  upholds : Untimed c → k.Sound → k.Upholds k'
  zombie : ∀ p, k'.state p = .zombie → k.state p = .zombie

/-- A thread or a process is created. -/
def Starts : TaskCall → Prop
  | .fork | .clone _ => True
  | _ => False

/-- What a step can do. -/
inductive Effect (s : Tasks) (c : TaskCall) : Tasks → Prop
  | ends {e : Ending} {closing : ℕ → Option Closing} {s' : Tasks} (he : s.ends c = some e)
      (h : Ends { s with closing := closing } e.pid s') : Effect s c s'
  | starts {k : Kernel TaskSem} {o : ℤ} {owner : ℕ} {threads children : ℕ → List ℕ}
      {clearTid : ℕ → ℕ} {parent : ℕ → Option ℕ} {kstacks pmts : List ℕ}
      (hc : Starts c) (hk : s.kernel.call (.start s.nextPid) = some (k, o))
      (hchildren : ∀ q, ∀ p ∈ children q, p ∈ s.children q ∨ p = s.nextPid ∧ owner = s.nextPid) :
      Effect s c { s with
        kernel := k, owner := update s.owner s.nextPid owner, threads := threads
        clearTid := clearTid, parent := parent, children := children, kstacks := kstacks
        pmts := pmts, nextPid := s.nextPid + 1 }
  | moves {k : Kernel TaskSem} {tidAddress : ℕ → ℕ} {asked : ℕ → Option ℕ} {children : ℕ → List ℕ}
      {reaped : ℕ → Option (Option ℕ)} (hk : Moves s.kernel c k)
      (hchildren : ∀ q, ∀ p ∈ children q, p ∈ s.children q)
      (hreaped : ∀ p, reaped p ≠ none → s.reaped p ≠ none ∨
        s.kernel.state p = .zombie ∧ ∃ q, p ∈ s.children q) :
      Effect s c { s with
        kernel := k, tidAddress := tidAddress, asked := asked, children := children
        reaped := reaped }
  | ticks : Effect s c s.awake.clearGarbage
  | yields {k : Kernel TaskSem} (hk : s.awake.kernel.dispatch = some k) :
      Effect s c { s.awake.clearGarbage with kernel := k }

variable {s s' : Tasks} {c : TaskCall} {o : ℤ} {pid t : ℕ} {k : Kernel TaskSem}
  {closing : ℕ → Option Closing}

theorem clearWord_eq (s : Tasks) (physKey : ℕ) :
    ∃ k, s.clearWord physKey = { s with kernel := k } ∧ s.kernel.Stirs k := by
  rw [clearWord]
  split
  · exact ⟨s.kernel, rfl, .refl s.kernel⟩
  · exact ⟨_, rfl, stirs_store s.kernel physKey 0⟩

theorem wakeJoiners_eq (h : s.wakeJoiners t = some s') :
    ∃ k, s' = { s with kernel := k } ∧ s.kernel.Stirs k := by
  rw [wakeJoiners] at h
  split at h
  · cases h
    exact ⟨s.kernel, rfl, .refl s.kernel⟩
  · obtain ⟨⟨k, o⟩, hk, rfl⟩ := map_eq_some_iff.1 h
    obtain ⟨k1, he, hk1⟩ := clearWord_eq s (s.clearTid t)
    rw [he] at hk
    exact ⟨k, rfl, hk1.trans (stirs_futexWake hk)⟩

theorem notify_eq (h : s.notify pid = some s') :
    ∃ k, s' = { s with kernel := k } ∧ s.kernel.Stirs k := by
  rw [notify] at h
  split at h
  · cases h
    exact ⟨s.kernel, rfl, .refl s.kernel⟩
  next p hp =>
    obtain ⟨⟨k, o⟩, hk, rfl⟩ := map_eq_some_iff.1 h
    exact ⟨k, rfl, (stirs_semSignal s.kernel _).trans (stirs_kill hk)⟩

theorem adopt_eq (cs : List ℕ) (s : Tasks) : ∃ k parent children,
    adopt cs s = { s with kernel := k, parent := parent, children := children } ∧
      s.kernel.Stirs k ∧ ∀ q, ∀ c ∈ children q, c ∈ cs ∨ c ∈ s.children q := by
  induction cs generalizing s with
  | nil => exact ⟨_, _, _, rfl, .refl s.kernel, fun q c hc => .inr hc⟩
  | cons c cs ih =>
    obtain ⟨k, parent, children, he, hk, hc⟩ := ih { s with
      parent := update s.parent c (some 0)
      children := update s.children 0 (c :: s.children 0)
      kernel := if s.kernel.state c = .zombie then s.kernel.semSignal (.self 0) else s.kernel }
    refine ⟨k, parent, children, he, Kernel.Stirs.trans ?_ hk, fun q d hd => ?_⟩
    · split
      · exact stirs_semSignal s.kernel _
      · exact .refl s.kernel
    rcases hc q d hd with hd' | hd'
    · exact .inl (mem_cons_of_mem c hd')
    · simp only [update_apply] at hd'
      split at hd'
      next hq =>
        rcases mem_cons.1 hd' with rfl | hd'
        · exact .inl (.head _)
        · exact .inr (hq ▸ hd')
      · exact .inr hd'

theorem endThread_ends (h : s.endThread t = some s') : s.Ends t s' := by
  obtain ⟨s1, hs1, h⟩ := bind_eq_some_iff.1 h
  obtain ⟨k1, rfl, hk1⟩ := wakeJoiners_eq hs1
  obtain ⟨k2, he, hk2⟩ := clearWord_eq { s with kernel := k1 } (s.tidAddress t)
  rw [he] at h
  obtain ⟨k', hk', rfl⟩ := map_eq_some_iff.1 h
  exact ⟨k2, k', _, _, _, hk1.trans hk2, hk', fun q c hc => ⟨q, hc⟩, rfl⟩

/-- A process without threads is ended at once, and the threads of others are left alone. -/
theorem endProcess_eq (hlone : s.threads pid = []) (h : s.endProcess pid = some s') :
    ∃ k k' parent children, s.kernel.Stirs k ∧ (k.setState pid .zombie).dispatch = some k' ∧
      (∀ q, ∀ c ∈ children q, ∃ q', c ∈ s.children q') ∧
      s' = { s with
        kernel := k', parent := parent, children := children, garbage := s.garbage ++ [pid] } := by
  obtain ⟨s2, hs2, h⟩ := bind_eq_some_iff.1 h
  obtain ⟨k1, parent, children, he1, hk1, hc⟩ := adopt_eq (s.children pid) s
  rw [he1] at hs2
  obtain ⟨k2, he2, hk2⟩ := clearWord_eq { s with
    kernel := k1, parent := parent, children := update children pid [] } (s.tidAddress pid)
  have hs2' : notify { s with
      kernel := k2, parent := parent, children := update children pid [] } pid = some s2 := by
    rw [← hs2]
    exact congrArg (fun s => notify s pid) he2.symm
  obtain ⟨k3, rfl, hk3⟩ := notify_eq hs2'
  rw [hlone] at h
  obtain ⟨k', hk', rfl⟩ := map_eq_some_iff.1 h
  refine ⟨k3, k', _, _, (hk1.trans hk2).trans hk3, ?_, fun q c hcq => ?_, rfl⟩
  · rw [← hk']
    exact congrArg dispatch (congrArg (fun st => ({ k3 with state := st } : Kernel TaskSem))
      (update_idem ..).symm)
  · dsimp only at hcq
    rw [update_apply] at hcq
    split at hcq
    · cases hcq
    · rcases hc q c hcq with hc | hc
      · exact ⟨pid, hc⟩
      · exact ⟨q, hc⟩

theorem endProcess_ends (hlone : s.threads pid = []) (h : s.endProcess pid = some s') :
    s.Ends pid s' := by
  obtain ⟨k, k', parent, children, hk, hd, hc, rfl⟩ := endProcess_eq hlone h
  exact ⟨k, k', _, parent, children, hk, hd, hc, rfl⟩

theorem closeGroup_ends {next : Option ℕ}
    (hlone : ∀ pid, s.groupEnds next = .process pid → s.threads pid = [])
    (h : s.closeGroup next = some s') :
    ∃ closing, Ends { s with closing := closing } (s.groupEnds next).pid s' := by
  have hprocess {p : ℕ} (he : s.groupEnds next = .process p)
      (h : { s with closing := update s.closing s.kernel.running none }.endProcess p =
        some s') : ∃ closing, Ends { s with closing := closing } (s.groupEnds next).pid s' := by
    rw [he]
    exact ⟨_, endProcess_ends (s := { s with
      closing := update s.closing s.kernel.running none }) (hlone p he) h⟩
  rcases next with - | t
  · exact hprocess rfl h
  rw [closeGroup] at h
  split at h
  · cases h
  split_ifs at h with hz
  · exact hprocess (if_pos hz) h
  · have he : s.groupEnds (some t) = .thread t := if_neg hz
    rw [he]
    exact ⟨_, endThread_ends h⟩

theorem moves_refl (k : Kernel TaskSem) : Moves k c k := ⟨fun _ h => h.upholds, fun _ hz => hz⟩

/-- What the scheduler alone does. -/
theorem elsewhere_effect (kc : Call TaskSem) (hc : Untimed c → Kernel.Untimed kc) (he : kc ≠ .exit)
    (hs : ∀ p, kc ≠ .start p) (h : s.elsewhere kc = some (s', o)) : Effect s c s' := by
  obtain ⟨⟨k, o'⟩, hk, ⟨⟩⟩ := map_eq_some_iff.1 h
  exact .moves ⟨fun hu hsound => hsound.step (hc hu) he hs hk, fun p => step_zombie hk he⟩
    (fun _ _ hp => hp) fun _ hp => .inl hp

theorem reap_effect (me : ℕ) (asked : Option ℕ) (hk : Moves s.kernel c k) :
    Effect s c ({ s with kernel := k }.reap me asked).1 := by
  rw [reap]
  split
  · exact .moves hk (fun _ _ hp => hp) fun _ hp => .inl hp
  next z hz =>
    have hmem : z ∈ s.children me := mem_of_find?_eq_some hz
    have hst := List.find?_some hz
    rw [Bool.and_eq_true, decide_eq_true_eq] at hst
    refine .moves hk (fun q p hp => ?_) fun p hp => ?_
    · rw [update_apply] at hp
      split at hp
      next hq => exact hq ▸ mem_of_mem_erase hp
      · exact hp
    · by_cases hpz : p = z
      · exact .inr ⟨hpz ▸ hk.zombie z hst.1, me, hpz ▸ hmem⟩
      · rw [update_of_ne hpz] at hp
        exact .inl hp

theorem wait_effect {asked : Option ℕ} {nohang : Bool}
    (hu : s.kernel.frame s.kernel.running = .user) (h : s.wait asked nohang = some (s', o)) : Effect s c s' := by
  have hsame : Effect s c s := .moves (moves_refl s.kernel) (fun _ _ hp => hp) fun _ hp => .inl hp
  have hmoves {k : Kernel TaskSem} {i : TaskSem} (hk : s.kernel.semWait i = some k) :
      Moves s.kernel c k :=
    ⟨fun _ hsound => hsound.semWait hu hk, fun p => semWait_zombie hk⟩
  rw [wait] at h
  split_ifs at h
  · cases h
    exact hsame
  · cases h
    exact hsame
  · cases h
    exact hsame
  · obtain ⟨k, hk, ⟨⟩⟩ := map_eq_some_iff.1 h
    exact .moves (hmoves hk) (fun _ _ hp => hp) fun _ hp => .inl hp
  · obtain ⟨k, hk, he⟩ := map_eq_some_iff.1 h
    have heffect := reap_effect (s.owner s.kernel.running) asked (hmoves hk)
    rwa [he] at heffect

theorem resume_effect (hlone : s.Lone .resume) (h : s.resume = some (s', o)) :
    Effect s .resume s' := by
  rw [resume] at h
  rcases hcl : s.closing s.kernel.running with - | ⟨next⟩ | ⟨pid, next⟩
  · rw [hcl] at h
    dsimp only at h
    split at h
    next me hf =>
      obtain ⟨⟨k, o'⟩, hk, he⟩ := map_eq_some_iff.1 h
      have hmoves : Moves s.kernel .resume k :=
        ⟨fun _ hsound => hsound.resume hk, fun p hz => by rwa [resume_state hk] at hz⟩
      have heffect := reap_effect me (s.asked s.kernel.running) hmoves
      rwa [he] at heffect
    · exact elsewhere_effect .resume (fun _ => trivial) nofun nofun h
  · rw [hcl] at h
    obtain ⟨s1, hs1, ⟨⟩⟩ := map_eq_some_iff.1 h
    have hends : s.ends .resume = some (s.groupEnds next) := by rw [ends, hcl]
    obtain ⟨closing, hE⟩ := closeGroup_ends (fun p hp => hlone p (by rw [hends, hp])) hs1
    exact .ends hends hE
  · rw [hcl] at h
    obtain ⟨s1, hs1, ⟨⟩⟩ := map_eq_some_iff.1 h
    rcases next with - | t
    · obtain ⟨k, hk, rfl⟩ := map_eq_some_iff.1 hs1
      have hends : s.ends .resume = some (.process pid) := by rw [ends, hcl]
      exact .ends hends ⟨s.kernel, k, _, _, _, .refl s.kernel, hk, fun q c hc => ⟨q, hc⟩, rfl⟩
    · rw [clearThreads] at hs1
      split_ifs at hs1
      have hends : s.ends .resume = some (.thread t) := by rw [ends, hcl]
      exact .ends hends (endThread_ends hs1)

theorem exit_effect (hlone : s.Lone .exit) (h : s.exit = some s') : Effect s .exit s' := by
  rw [exit] at h
  split_ifs at h with he
  · have hends : s.ends .exit = some (.process s.kernel.running) := if_pos he
    exact .ends hends (endProcess_ends (hlone _ hends) h)
  · exact .ends (if_neg he) (endThread_ends h)

theorem fork_effect (h : s.fork = some (s', o)) : Effect s .fork s' := by
  obtain ⟨⟨k, o'⟩, hk, ⟨⟩⟩ := map_eq_some_iff.1 h
  refine .starts trivial hk fun q p hp => ?_
  rw [update_apply] at hp
  split at hp
  next hq =>
    rcases mem_cons.1 hp with rfl | hp
    · exact .inr ⟨rfl, rfl⟩
    · exact .inl (hq ▸ hp)
  · exact .inl hp

theorem cloneThread_effect {clearTid : ℕ} (h : s.cloneThread clearTid = some (s', o)) :
    Effect s (.clone clearTid) s' := by
  obtain ⟨⟨k, o'⟩, hk, ⟨⟩⟩ := map_eq_some_iff.1 h
  exact .starts trivial hk fun q p hp => .inl hp

theorem tick_effect {yields : Bool} (h : s.tick yields = some s') : Effect s c s' := by
  rw [tick] at h
  split at h
  · obtain ⟨k, hk, rfl⟩ := map_eq_some_iff.1 h
    exact .yields hk
  · cases h
    exact .ticks

/-- Every step does one of these, if a process ends only after its threads. -/
theorem step_effect (hlone : s.Lone c) (h : s.step c = some (s', o)) : Effect s c s' := by
  have hcall (h : (if s.closing s.kernel.running = none ∧
      s.kernel.frame s.kernel.running = .user then s.call c else none) = some (s', o)) :
      s.kernel.frame s.kernel.running = .user ∧ s.call c = some (s', o) := by
    split at h
    next hu => exact ⟨hu.2, h⟩
    · cases h
  cases c with
  | fork => exact fork_effect (hcall h).2
  | clone clearTid => exact cloneThread_effect (hcall h).2
  | setTidAddress physKey =>
    cases (hcall h).2
    exact .moves (moves_refl s.kernel) (fun _ _ hp => hp) fun _ hp => .inl hp
  | semWait i =>
    exact elsewhere_effect (.semWait (.other i)) (fun _ => trivial) nofun nofun (hcall h).2
  | semSignal i =>
    exact elsewhere_effect (.semSignal (.other i)) (fun _ => trivial) nofun nofun (hcall h).2
  | futexWait physKey val timeout =>
    exact elsewhere_effect (.futexWait physKey val timeout) id nofun nofun (hcall h).2
  | futexWake physKey count =>
    exact elsewhere_effect (.futexWake physKey count) (fun _ => trivial) nofun nofun (hcall h).2
  | store physKey val =>
    exact elsewhere_effect (.store physKey val) (fun _ => trivial) nofun nofun (hcall h).2
  | sleep time => exact elsewhere_effect (.sleep time) (fun _ => trivial) nofun nofun (hcall h).2
  | wait asked nohang => exact wait_effect (hcall h).1 (hcall h).2
  | exit =>
    obtain ⟨s1, hs1, ⟨⟩⟩ := map_eq_some_iff.1 (hcall h).2
    exact exit_effect hlone hs1
  | exitGroup =>
    obtain ⟨s1, hs1, ⟨⟩⟩ := map_eq_some_iff.1 (hcall h).2
    obtain ⟨closing, hE⟩ := closeGroup_ends (fun p hp => hlone p (congrArg some hp)) hs1
    exact .ends rfl hE
  | resume => exact resume_effect hlone h
  | tick yields =>
    obtain ⟨s1, hs1, ⟨⟩⟩ := map_eq_some_iff.1 h
    exact tick_effect hs1

/-! ## Nothing which is linked is deleted -/

/-- What has ended stays so, what has been deleted is in no list, and a number is given away once. -/
structure Safe (s : Tasks) : Prop where
  sound : s.kernel.Sound
  ended : ∀ p, p ∈ s.garbage ∨ p ∈ s.deleted → s.kernel.state p = .zombie ∧ p < s.nextPid
  deleted : ∀ p ∈ s.deleted, p ∉ s.kernel.ready
  fresh : ∀ p, s.nextPid ≤ p → s.kernel.state p = .zombie ∧ p ∉ s.kernel.ready

theorem Safe.upholds (h : s.Safe) (hk : s.kernel.Upholds k) : Safe { s with kernel := k } := by
  refine ⟨hk.sound, fun p hp => ?_, fun p hp hr => ?_, fun p hp => ?_⟩
  · exact ⟨(hk.zombie p).2 (h.ended p hp).1, (h.ended p hp).2⟩
  · exact h.deleted p hp (hk.ready p hr (h.ended p (.inr hp)).1)
  · obtain ⟨hz, hr⟩ := h.fresh p hp
    exact ⟨(hk.zombie p).2 hz, fun hr' => hr (hk.ready p hr' hz)⟩

/-- What `PCBGarbage::clear` may delete is in no list. -/
theorem Safe.free (h : s.Safe) (hg : pid ∈ s.garbage) (hs : s.isSafeToDelete pid = true) :
    s.kernel.Free pid := by
  refine h.sound.free_of_last (h.ended pid (.inl hg)).1 fun hm => ?_
  rw [isSafeToDelete] at hs
  simp only [Bool.and_eq_true, decide_eq_true_eq] at hs
  exact getLast?_of_follow hs.1.1.1 hm

theorem Safe.clearGarbage (h : s.Safe) : s.clearGarbage.Safe := by
  refine ⟨h.sound, fun p hp => h.ended p ?_, fun p hp => ?_, h.fresh⟩
  · rcases hp with hp | hp
    · exact .inl (mem_of_mem_filter hp)
    · rcases mem_append.1 hp with hp | hp
      · exact .inl (mem_of_mem_filter hp)
      · exact .inr hp
  · rcases mem_append.1 hp with hp | hp
    · obtain ⟨hg, hs⟩ := mem_filter.1 hp
      exact (h.free hg hs).ready
    · exact h.deleted p hp

theorem Safe.ends (h : s.Safe) (hst : s.kernel.state pid = .ready ∨ s.kernel.state pid = .running)
    (he : Ends { s with closing := closing } pid s') : s'.Safe := by
  obtain ⟨k, k', threads, parent, children, hk, hd, -, rfl⟩ := he
  have hup := hk.upholds h.sound
  have hs : ¬ s.kernel.Suspended pid := by
    rw [Kernel.Suspended]
    rcases hst with hst | hst <;> rw [hst] <;> decide
  have hpid : pid < s.nextPid := by
    by_contra hlt
    have hz := (h.fresh pid (not_lt.1 hlt)).1
    rcases hst with hst | hst <;> rw [hst] at hz <;> cases hz
  obtain ⟨hsound, hz, hready⟩ := hup.sound.retire (hk.suspended hs) hd
  have h' := h.upholds hup
  refine ⟨hsound, fun p hp => ?_, fun p hp hr => ?_, fun p hp => ?_⟩
  · by_cases hp' : p = pid
    · exact ⟨(hz p).2 (.inl hp'), hp' ▸ hpid⟩
    · have hold : p ∈ s.garbage ∨ p ∈ s.deleted := by simpa [hp'] using hp
      exact ⟨(hz p).2 (.inr (h'.ended p hold).1), (h.ended p hold).2⟩
  · exact h'.deleted p hp (hready p hr (h'.ended p (.inr hp)).1)
  · obtain ⟨hz', hr⟩ := h'.fresh p hp
    exact ⟨(hz p).2 (.inr hz'), fun hr' => hr (hready p hr' hz')⟩

theorem Safe.starts (h : s.Safe) (hk : s.kernel.call (.start s.nextPid) = some (k, o)) :
    Safe { s with kernel := k, nextPid := s.nextPid + 1 } := by
  obtain ⟨hsound, hz, hready⟩ := h.sound.start (h.fresh s.nextPid le_rfl).2 hk
  refine ⟨hsound, fun p hp => ?_, fun p hp hr => ?_, fun p hp => ?_⟩
  · obtain ⟨hst, hlt⟩ := h.ended p hp
    exact ⟨(hz p).2 ⟨hlt.ne, hst⟩, hlt.trans (lt_succ_self _)⟩
  · have hlt := (h.ended p (.inr hp)).2
    exact h.deleted p hp ((hready p hr).resolve_left hlt.ne)
  · have hlt : s.nextPid < p := hp
    obtain ⟨hst, hr⟩ := h.fresh p hlt.le
    exact ⟨(hz p).2 ⟨hlt.ne', hst⟩, fun hr' => hr ((hready p hr').resolve_left hlt.ne')⟩

theorem Safe.effect (h : s.Safe) (hc : s.Careful c) (he : Effect s c s') : s'.Safe := by
  rcases he with ⟨he, hE⟩ | ⟨-, hk, -⟩ | ⟨hk, -, -⟩ | - | ⟨hk⟩
  · exact h.ends (hc.2.2 _ he) hE
  · exact { h.starts hk with }
  · exact { h.upholds (hk.upholds hc.2.1 h.sound) with }
  · exact (h.upholds h.sound.awake).clearGarbage
  · have hawake := (h.upholds h.sound.awake).clearGarbage
    refine hawake.upholds (hawake.sound.yield hk rfl (fun _ => Iff.rfl) ?_ fun k2 hk2 => ?_)
    · obtain ⟨st, rd, me, rfl⟩ := dispatch_eq hk
      exact hawake.sound.timeless
    · exact .dispatch hawake.sound.orderly.tidy hk2

theorem boot_safe : boot.Safe := by
  refine ⟨⟨?_, nofun, nofun⟩, nofun, nofun, fun p hp => ⟨?_, nofun⟩⟩
  · exact (boot_boot 0 fun _ => 0).orderly
  · have hp' : p ≠ 0 := one_le_iff_ne_zero.1 hp
    simp [boot, Kernel.boot, hp']

/-- In every run in which only what is ready or runs is ended, a process only after its threads,
    and nobody waits for a futex with a timeout: what `PCBGarbage::clear` deletes at the next tick
    of the timer is in no list, neither that of ready processes nor that of sleeping ones, nor the
    queue of a semaphore or of a futex. What has been deleted is in none now. -/
theorem reachable_free (hrun : Reaches (fun s => s.step) Careful boot s) :
    (∀ pid ∈ s.garbage, s.awake.isSafeToDelete pid = true → s.awake.kernel.Free pid) ∧
      ∀ pid ∈ s.deleted, s.kernel.Free pid := by
  have h : s.Safe := hrun.inv (fun s c s' o h hc hs => h.effect hc (step_effect hc.1 hs)) boot_safe
  refine ⟨fun pid hg hs => ?_, fun pid hd => ?_⟩
  · exact Safe.free (s := s.awake) (h.upholds h.sound.awake) hg hs
  · refine h.sound.free_of_last (h.ended pid (.inr hd)).1 fun hm => ?_
    exact absurd hm (h.deleted pid hd)

instance (c : TaskCall) : Decidable (Untimed c) := by
  cases c <;> unfold Untimed <;> infer_instance

instance (s : Tasks) (c : TaskCall) : Decidable (s.Lone c) :=
  match h : s.ends c with
  | none => isTrue fun pid hp => by rw [h] at hp; cases hp
  | some (.thread t) => isTrue fun pid hp => by rw [h] at hp; cases hp
  | some (.process pid) =>
    decidable_of_iff (s.threads pid = [])
      ⟨fun ht p hp => by rw [h] at hp; cases hp; exact ht, fun hl => hl pid h⟩

instance (s : Tasks) (c : TaskCall) : Decidable (s.Careful c) :=
  inferInstanceAs (Decidable (_ ∧ _ ∧ ∀ e ∈ s.ends c, _))

/-- A thread which is ready is ended by `Process::exitGroup`. It is dropped from the list by the
    time it may be deleted. -/
def groupLeft : Tasks :=
  lastState (guarded (fun s => s.step) Careful) boot
    [.fork, .tick true, .clone 0, .exitGroup, .tick true]

theorem reachable_free_groupLeft : 2 ∈ groupLeft.garbage ∧
    groupLeft.awake.isSafeToDelete 2 = true ∧ groupLeft.awake.kernel.Free 2 := by
  have hsafe : 2 ∈ groupLeft.garbage ∧ groupLeft.awake.isSafeToDelete 2 = true := by decide +kernel
  exact ⟨hsafe.1, hsafe.2, (reachable_free (.lastState boot _)).1 2 hsafe.1 hsafe.2⟩

/-- A thread blocks on a semaphore, and is ended by `Process::exitGroup`: the next tick of the timer
    deletes it, and it is in the queue of the semaphore still. -/
theorem blocked_deleted : ∃ (s : Tasks) (os : List ℤ), runs (fun s => s.step) boot
      [.fork, .tick true, .clone 0, .tick true, .tick true, .semWait 5, .exitGroup] = some (s, os) ∧
    2 ∈ s.garbage ∧ s.awake.isSafeToDelete 2 = true ∧
    2 ∈ (s.awake.kernel.sem (.other 5)).blocked ∧
    ∃ s', s.tick false = some s' ∧ 2 ∈ s'.deleted ∧ 2 ∈ (s'.kernel.sem (.other 5)).blocked := by
  decide +kernel

/-! ## What was waited for -/

/-- A process which has ended is in the list of `PCBGarbage`, or has been deleted. -/
structure Collected (s : Tasks) : Prop where
  children : ∀ q, ∀ p ∈ s.children q, s.owner p = p ∧ p < s.nextPid
  ended : ∀ p, p < s.nextPid → s.owner p = p → s.kernel.state p = .zombie →
    p ∈ s.garbage ∨ p ∈ s.deleted
  reaped : ∀ p, s.reaped p ≠ none →
    (s.owner p = p ∧ p < s.nextPid) ∧ (p ∈ s.garbage ∨ p ∈ s.deleted)

theorem Collected.of_zombie (h : s.Collected)
    (hz : ∀ p, k.state p = .zombie → s.kernel.state p = .zombie) :
    Collected { s with kernel := k } :=
  { h with ended := fun p hp ho hst => h.ended p hp ho (hz p hst) }

theorem mem_clearGarbage (p : ℕ) : p ∈ s.clearGarbage.garbage ∨ p ∈ s.clearGarbage.deleted ↔
    p ∈ s.garbage ∨ p ∈ s.deleted := by
  simp only [clearGarbage, mem_filter, mem_append]
  rcases s.isSafeToDelete p <;> simp

theorem Collected.clearGarbage (h : s.Collected) : s.clearGarbage.Collected := by
  refine ⟨h.children, fun p hp ho hst => ?_, fun p hp => ?_⟩
  · rw [mem_clearGarbage]
    exact h.ended p hp ho hst
  · rw [mem_clearGarbage]
    exact h.reaped p hp

theorem Collected.ends (h : s.Collected) (he : Ends { s with closing := closing } pid s') :
    s'.Collected := by
  obtain ⟨k, k', threads, parent, children, hk, hd, hc, rfl⟩ := he
  have hgarbage {p : ℕ} (hp : p ∈ s.garbage ∨ p ∈ s.deleted) :
      p ∈ s.garbage ++ [pid] ∨ p ∈ s.deleted := hp.imp_left (mem_append_left _)
  refine ⟨fun q p hp => ?_, fun p hp ho hst => ?_, fun p hp => ?_⟩
  · obtain ⟨q', hp'⟩ := hc q p hp
    exact h.children q' p hp'
  · rw [dispatch_state hd (by decide) (by decide)] at hst
    by_cases hpid : p = pid
    · exact .inl (mem_append_right _ (mem_singleton.2 hpid))
    · have hst' : k.state p = .zombie := (update_of_ne hpid _ _).symm.trans hst
      exact hgarbage (h.ended p hp ho (hk.wakes.zombie hst'))
  · exact ⟨(h.reaped p hp).1, hgarbage (h.reaped p hp).2⟩

theorem start_zombie {k' : Kernel TaskSem} {p : ℕ} (hk : k.call (.start pid) = some (k', o))
    (hz : k'.state p = .zombie) : p ≠ pid ∧ k.state p = .zombie := by
  rw [Kernel.call] at hk
  split_ifs at hk
  cases hk
  have hne : p ≠ pid := by
    rintro rfl
    exact absurd ((update_self ..).symm.trans hz) (by decide)
  exact ⟨hne, (update_of_ne hne _ _).symm.trans hz⟩

theorem Collected.effect (h : s.Collected) (he : Effect s c s') : s'.Collected := by
  rcases he with ⟨-, hE⟩ | ⟨-, hk, hc⟩ | ⟨hk, hc, hr⟩ | - | ⟨hk⟩
  · exact h.ends hE
  · -- The number is a new one, so nothing is known by it.
    rename_i owner _ _ _ _ _ _
    have howner {p : ℕ} (hp : p < s.nextPid) :
        update s.owner s.nextPid owner p = s.owner p := update_of_ne hp.ne _ _
    refine ⟨fun q p hp => ?_, fun p hp ho hst => ?_, fun p hp => ?_⟩
    · rcases hc q p hp with hp | ⟨rfl, rfl⟩
      · obtain ⟨ho, hlt⟩ := h.children q p hp
        exact ⟨(howner hlt).trans ho, hlt.trans (lt_succ_self _)⟩
      · exact ⟨update_self .., lt_succ_self _⟩
    · obtain ⟨hne, hst⟩ := start_zombie hk hst
      have hlt : p < s.nextPid := (Nat.lt_succ_iff_lt_or_eq.1 hp).resolve_right hne
      exact h.ended p hlt ((howner hlt).symm.trans ho) hst
    · obtain ⟨⟨ho, hlt⟩, hg⟩ := h.reaped p hp
      exact ⟨⟨(howner hlt).trans ho, hlt.trans (lt_succ_self _)⟩, hg⟩
  · refine ⟨fun q p hp => h.children q p (hc q p hp), (h.of_zombie hk.zombie).ended, fun p hp => ?_⟩
    rcases hr p hp with hp | ⟨hst, q, hq⟩
    · exact h.reaped p hp
    · obtain ⟨ho, hlt⟩ := h.children q p hq
      exact ⟨⟨ho, hlt⟩, h.ended p hlt ho hst⟩
  · exact (h.of_zombie fun p => (awake_eq s.kernel).1.zombie).clearGarbage
  · refine Collected.of_zombie
      (h.of_zombie fun p => (awake_eq s.kernel).1.zombie).clearGarbage fun p hst => ?_
    exact (dispatch_state hk (by decide) (by decide)).1 hst

theorem boot_collected : boot.Collected := by
  refine ⟨nofun, fun p hp _ hst => ?_, fun p hp => absurd rfl hp⟩
  obtain rfl : p = 0 := lt_one_iff.1 hp
  cases hst

theorem follow_of_notMem {l : List ℕ} {a : ℕ} (h : a ∉ l) : follow l a = none := by
  have hnil : l.dropWhile (· ≠ a) = [] := dropWhile_eq_nil_iff.2 fun b hb => by
    rw [decide_eq_true_eq]
    rintro rfl
    exact h hb
  rw [follow, hnil]
  rfl

/-- In every run in which a process ends only after its threads: a process which was waited for,
    does not run and is in no list of the scheduler may be deleted exactly if it was the last child
    of its parent when it was waited for. Then the next tick of the timer deletes it, with its
    kernel stack and its page tables, and otherwise it does not. -/
theorem reachable_deleted_iff (hrun : Reaches (fun s => s.step) Lone boot s)
    (hr : s.reaped pid ≠ none) (hne : pid ≠ s.awake.kernel.running)
    (hready : pid ∉ s.awake.kernel.ready) (hsleep : pid ∉ s.awake.kernel.sleep.map Prod.fst)
    (hd : pid ∉ s.deleted) : (s.awake.isSafeToDelete pid = true ↔ s.reaped pid = some none) ∧
    (pid ∈ s.awake.clearGarbage.deleted ↔ s.reaped pid = some none) ∧ (s.reaped pid = some none →
      pid ∉ s.awake.clearGarbage.kstacks ∧ pid ∉ s.awake.clearGarbage.pmts) := by
  have h : s.Collected :=
    hrun.inv (fun s c s' o h hc hs => h.effect (step_effect hc hs)) boot_collected
  obtain ⟨⟨ho, -⟩, hg⟩ := h.reaped pid hr
  have hg' : pid ∈ s.awake.garbage := hg.resolve_right hd
  have hsafe : s.awake.isSafeToDelete pid = true ↔ s.reaped pid = some none := by
    simp only [isSafeToDelete, follow_of_notMem hready, follow_of_notMem hsleep, Bool.and_eq_true,
      Bool.or_eq_true, decide_eq_true_eq, hne, Ne, not_false_iff, true_and]
    exact or_iff_right fun hn => hn ho
  have hgone : pid ∈ s.awake.garbage.filter s.awake.isSafeToDelete ↔ s.reaped pid = some none := by
    rw [mem_filter, hsafe]
    exact and_iff_right hg'
  refine ⟨hsafe, ?_, fun hlast => ⟨fun hm => ?_, fun hm => ?_⟩⟩
  · rw [← hgone]
    exact mem_append.trans (or_iff_left hd)
  · exact of_decide_eq_true (mem_filter.1 hm).2 (hgone.2 hlast)
  · exact of_decide_eq_true (mem_filter.1 hm).2 (hgone.2 hlast)

/-- The child which was forked first is waited for: it is the last one in the list. -/
def firstReaped : Tasks :=
  lastState (guarded (fun s => s.step) Lone) boot
    [.fork, .fork, .tick true, .exit, .tick true, .wait (some 1) false]

theorem reachable_deleted_iff_firstReaped : firstReaped.reaped 1 = some none ∧
    1 ∈ firstReaped.kstacks ∧ 1 ∈ firstReaped.awake.clearGarbage.deleted := by
  have hst : firstReaped.reaped 1 = some none ∧ 1 ∈ firstReaped.kstacks ∧
      1 ≠ firstReaped.awake.kernel.running ∧ 1 ∉ firstReaped.awake.kernel.ready ∧
      1 ∉ firstReaped.awake.kernel.sleep.map Prod.fst ∧ 1 ∉ firstReaped.deleted := by decide +kernel
  obtain ⟨hr, hk, hne, hready, hsleep, hd⟩ := hst
  have hr' : firstReaped.reaped 1 ≠ none := by
    rw [hr]
    exact nofun
  exact ⟨hr, hk, (reachable_deleted_iff (.lastState boot _) hr' hne hready hsleep hd).2.1.2 hr⟩

/-- Of two children that which was forked last ends, and is waited for: `m_nextSibling` is the other
    one, and the timer does not delete it. -/
theorem sibling_kept : ∃ (s : Tasks) (os : List ℤ), runs (fun s => s.step) boot
      [.fork, .fork, .tick true, .tick true, .exit, .wait (some 2) false] = some (s, os) ∧
    os.getLast? = some 2 ∧ s.reaped 2 = some (some 1) ∧ 2 ≠ s.awake.kernel.running ∧
    2 ∉ s.awake.kernel.ready ∧ 2 ∉ s.awake.kernel.sleep.map Prod.fst ∧
    s.awake.isSafeToDelete 2 = false ∧ 2 ∉ s.awake.clearGarbage.deleted ∧
    2 ∈ s.awake.clearGarbage.kstacks ∧ 2 ∈ s.awake.clearGarbage.pmts := by
  decide +kernel

end Tasks

end HobbyOS
