import HobbyOS.Sched.Futex

/-!
# Mutual exclusion

`Ext2Inode::read`, `write` and `truncate` begin with `m_inodeMutex.wait()` and end with
`m_inodeMutex.signal()`; in between the process may block on other semaphores, sleep, or
be preempted (`Critical`). The mutex has one token: it is the value of the semaphore, or
belongs to the process inside, or to the one which was taken from the queue and has not
gone on yet (`Owns`).

A signal takes a process from the queue of the mutex without handing it the token. It
goes on as if it had it (`kill_enters`). If no signal is sent to a process which waits
for the mutex, then there is never more than one process inside (`reachable_exclusive`).
-/

namespace HobbyOS

open Function Option

namespace Kernel

variable {ι : Type*} {k k' : Kernel ι} {o : ℤ}

/-- A step has nothing to do with the mutex `m`. -/
structure Keeps (m : ι) (k k' : Kernel ι) : Prop where
  sem : k'.sem m = k.sem m
  frame : ∀ pid, k'.frame pid = .sem m ↔ k.frame pid = .sem m

variable {m i : ι} {k1 : Kernel ι} {pid physKey : ℕ} {c : Call ι}

theorem Keeps.of_eq (hsem : k'.sem = k.sem) (hframe : k'.frame = k.frame) : Keeps m k k' :=
  ⟨congrFun hsem m, fun _ => by rw [hframe]⟩

theorem Keeps.trans {k2 k3 : Kernel ι} (h : Keeps m k1 k2) (h' : Keeps m k2 k3) : Keeps m k1 k3 :=
  ⟨h'.sem.trans h.sem, fun pid => (h'.frame pid).trans (h.frame pid)⟩

/-- The running process goes on elsewhere, but neither before nor after in the mutex. -/
theorem Keeps.of_update {f : Frame ι} (hsem : k'.sem m = k.sem m)
    (hframe : k'.frame = update k.frame pid f) (hold : k.frame pid ≠ .sem m) (hnew : f ≠ .sem m) :
    Keeps m k k' := by
  refine ⟨hsem, fun q => ?_⟩
  rw [hframe, update_apply]
  split
  next hq =>
    subst hq
    exact ⟨fun h => absurd h hnew, fun h => absurd h hold⟩
  · exact Iff.rfl

theorem dispatch_keeps (h : k.dispatch = some k') : Keeps m k k' := by
  obtain ⟨st, rd, me, rfl⟩ := dispatch_eq h
  exact .of_eq rfl rfl

theorem keeps_of_dispatch (h : k1.dispatch = some k') (hsem : k1.sem = k.sem)
    (hframe : k1.frame = k.frame) : Keeps m k k' :=
  (Keeps.of_eq hsem hframe).trans (dispatch_keeps h)

theorem awake_keeps (k : Kernel ι) : Keeps m k k.awake := by
  obtain ⟨-, st, rd, sl, h⟩ := awake_eq k
  rw [h]
  exact .of_eq rfl rfl

theorem futexWait_keeps {val timeout : ℕ} (hu : k.frame k.running = .user)
    (h : k.futexWait physKey val timeout = some (k', o)) : Keeps m k k' := by
  obtain rfl | ⟨w, -, hf, hsem⟩ := futexWait_eq h
  · exact .of_eq rfl rfl
  · exact .of_update (by rw [hsem]) hf (by rw [hu]; exact nofun) nofun

theorem futexResume_keeps {w : FutexWait} (hf : k.frame k.running = .futex w)
    (h : k.futexResume w = some (k', o)) : Keeps m k k' := by
  obtain ⟨fq, -, ⟨⟩⟩ := map_eq_some_iff.1 h
  obtain ⟨tb, qu, he⟩ := tryFreeQueue_eq (k.leaveQueue w.queue fq) w.physKey
  rw [he]
  exact .of_update rfl rfl (by rw [hf]; exact nofun) nofun

theorem futexWake_keeps {count : ℕ} (h : k.futexWake physKey count = some (k', o)) :
    Keeps m k k' := by
  obtain ⟨-, st, rd, sl, tb, qu, rfl⟩ := futexWake_eq h
  exact .of_eq rfl rfl

variable [DecidableEq ι]

theorem semSignal_keeps (hi : i ≠ m) (k : Kernel ι) : Keeps m k (k.semSignal i) := by
  unfold semSignal
  split <;> exact ⟨update_of_ne hi.symm _ _, fun _ => Iff.rfl⟩

theorem semWait_keeps (hi : i ≠ m) (hu : k.frame k.running = .user) (h : k.semWait i = some k') :
    Keeps m k k' := by
  unfold semWait at h
  split at h
  · obtain ⟨st, rd, me, rfl⟩ := dispatch_eq h
    refine .of_update (update_of_ne hi.symm _ _) rfl (by rw [hu]; exact nofun) ?_
    rintro ⟨⟩
    exact hi rfl
  · cases h
    exact ⟨update_of_ne hi.symm _ _, fun _ => Iff.rfl⟩

theorem unlinkSem_keeps (hw : k.waitingOn pid ≠ some m) : Keeps m k (k.unlinkSem pid) := by
  unfold unlinkSem
  split
  · exact .of_eq rfl rfl
  next i hi =>
    refine ⟨update_of_ne ?_ _ _, fun _ => Iff.rfl⟩
    rintro rfl
    exact hw hi

theorem interrupt_keeps (hw : k.waitingOn pid ≠ some m) (h : k.interrupt pid = some k') :
    Keeps m k k' := by
  obtain ⟨k1, hk1, rfl⟩ := map_eq_some_iff.1 h
  refine (unlinkSem_keeps hw).trans ?_
  obtain ⟨fk, qu, he⟩ := unlinkFutex_eq (k.unlinkSem pid) pid
  rw [he] at hk1
  obtain ⟨sl, rfl⟩ := unlinkSleep_eq hk1
  exact .of_eq rfl rfl

theorem kill_keeps {signum : ℤ} (hw : k.waitingOn pid ≠ some m)
    (h : k.kill pid signum = some (k', o)) : Keeps m k k' := by
  obtain ⟨k1, hk1, h⟩ := kill_cases h
  have hcont : Keeps m k k1 ∧ k1.waitingOn = k.waitingOn := by
    rcases hk1 with rfl | rfl
    · exact ⟨.of_eq rfl rfl, rfl⟩
    · obtain ⟨st, rd, he⟩ := wakeStopped_eq k pid
      rw [he]
      exact ⟨.of_eq rfl rfl, rfl⟩
  rcases h with rfl | ⟨-, h⟩
  · exact hcont.1
  · exact hcont.1.trans (interrupt_keeps (by rwa [hcont.2]) h)

/-- The call neither waits for the mutex, nor signals it, nor goes on after a wait for it, nor
    interrupts one. -/
def Elsewhere (m : ι) (k : Kernel ι) : Call ι → Prop
  | .semWait i => i ≠ m
  | .semSignal i => i ≠ m
  | .kill pid _ => k.waitingOn pid ≠ some m
  | .resume => k.frame k.running ≠ .sem m
  | _ => True

omit [DecidableEq ι] in
theorem resume_keeps (hf : k.frame k.running ≠ .sem m) (h : k.resume = some (k', o)) :
    Keeps m k k' := by
  unfold resume at h
  split at h
  · cases h
  next i hi =>
    cases h
    exact .of_update rfl rfl hf nofun
  next w hw => exact futexResume_keeps hw h

/-- A step elsewhere leaves the mutex and those who go on in it as they are. -/
theorem step_keeps (hc : Elsewhere m k c) (h : k.step c = some (k', o)) : Keeps m k k' := by
  cases step_does h with
  | nothing | store | start => exact .of_eq rfl rfl
  | semWait hu hk => exact semWait_keeps hc hu hk
  | semSignal => exact semSignal_keeps hc k
  | futexWait hu hkey hk => exact futexWait_keeps hu hk
  | futexWake hk => exact futexWake_keeps hk
  | kill hk => exact kill_keeps hc hk
  | sleep _ hk | stop hk | exit hk => exact keeps_of_dispatch hk rfl rfl
  | preempt hk => exact dispatch_keeps hk
  | tick => exact awake_keeps k
  | resume hk => exact resume_keeps hc hk

end Kernel

/-! ## Critical sections -/

/-- The kernel, and which processes are between the return of `m_inodeMutex.wait()` and
    `m_inodeMutex.signal()`. -/
structure Critical (ι : Type*) where
  kernel : Kernel ι
  inside : ℕ → Bool

/-- What the running process does. -/
inductive CriticalCall (ι : Type*)
  /-- `Ext2Inode::read`, `write` or `truncate` begins. -/
  | enter
  /-- It ends. -/
  | leave
  /-- Anything else, except to wait for a futex with a timeout. -/
  | other (c : Call ι)

namespace Critical

variable {ι : Type*} (m : ι)

/-- The running process has come in, or is out. -/
def mark (s : Critical ι) (k : Kernel ι) (b : Bool) : Critical ι :=
  ⟨k, update s.inside s.kernel.running b⟩

/-- One step, `m` being the mutex. -/
def step [DecidableEq ι] (s : Critical ι) : CriticalCall ι → Option (Critical ι × ℤ)
  | .enter =>
    if s.inside s.kernel.running then none
    else (s.kernel.step (.semWait m)).map fun r =>
      -- Without a token the process blocks, and is not inside before it goes on.
      (if (s.kernel.sem m).value = 0 then ⟨r.1, s.inside⟩ else s.mark r.1 true, r.2)
  | .leave =>
    if s.inside s.kernel.running then
      (s.kernel.step (.semSignal m)).map fun r => (s.mark r.1 false, r.2)
    else none
  | .other c =>
    if c = .semWait m ∨ c = .semSignal m ∨ ¬ Kernel.Untimed c then none
    else (s.kernel.step c).map fun r =>
      (if c = .resume ∧ s.kernel.frame s.kernel.running = .sem m then s.mark r.1 true
        else ⟨r.1, s.inside⟩, r.2)

/-- No signal is sent to a process which waits for the mutex. -/
def Spares (s : Critical ι) : CriticalCall ι → Prop
  | .other (.kill pid _) => s.kernel.waitingOn pid ≠ some m
  | _ => True

instance [DecidableEq ι] (s : Critical ι) (c : CriticalCall ι) : Decidable (s.Spares m c) := by
  unfold Spares
  split <;> infer_instance

/-- The process has the token: it is inside, or was handed the token while it waited. -/
def Owns (s : Critical ι) (pid : ℕ) : Prop :=
  s.inside pid = true ∨ s.kernel.frame pid = .sem m ∧ pid ∉ (s.kernel.sem m).blocked

/-- There is one token: the value of the mutex, or that of a process. -/
structure OneToken (s : Critical ι) : Prop where
  outside : ∀ pid ∈ (s.kernel.sem m).blocked, s.inside pid = false
  token : (s.kernel.sem m).value = 1 ∧ (∀ pid, ¬ s.Owns m pid) ∨
    (s.kernel.sem m).value = 0 ∧ ∃ holder, ∀ pid, s.Owns m pid ↔ pid = holder

variable {m} {s s' : Critical ι} {k : Kernel ι} {o : ℤ}

/-- A step elsewhere moves no token. -/
theorem OneToken.keeps (h : s.OneToken m) (hk : Kernel.Keeps m s.kernel k) :
    OneToken m ⟨k, s.inside⟩ := by
  have howns (pid : ℕ) : Owns m ⟨k, s.inside⟩ pid ↔ s.Owns m pid := by
    unfold Owns
    rw [hk.sem, hk.frame]
  refine ⟨fun pid hpid => ?_, ?_⟩
  · rw [hk.sem] at hpid
    exact h.outside pid hpid
  · simp only [howns, hk.sem]
    exact h.token

theorem frame_of_blocked (ht : k.Tidy none) : ∀ pid ∈ (k.sem m).blocked, k.frame pid = .sem m :=
  fun pid hpid => ht.waitingOn pid m (ht.blocked m pid hpid).2

section

variable (h : s.OneToken m) (ht : s.kernel.Tidy none)

include h ht

/-- The process which goes on with the token comes in. -/
theorem OneToken.resume (hf : s.kernel.frame s.kernel.running = .sem m)
    (hmem : s.kernel.running ∉ (s.kernel.sem m).blocked) (hsem : k.sem m = s.kernel.sem m)
    (hframe : ∀ pid, k.frame pid = if pid = s.kernel.running then .user else s.kernel.frame pid) :
    (s.mark k true).OneToken m := by
  obtain ⟨hout, htok⟩ := h
  have hb := frame_of_blocked (m := m) ht
  have hnd := ht.blocked_nodup m
  have howns (pid : ℕ) : (s.mark k true).Owns m pid ↔ s.Owns m pid := by
    unfold Owns Critical.mark
    grind
  refine ⟨?_, ?_⟩
  · unfold Critical.mark
    grind
  · simp only [howns]
    simpa only [Critical.mark, hsem] using htok

variable (hu : s.kernel.frame s.kernel.running = .user)

include hu

/-- A process which enters while there is a token takes it. -/
theorem OneToken.take (hv : (s.kernel.sem m).value ≠ 0)
    (hsem : k.sem m = ⟨(s.kernel.sem m).value - 1, (s.kernel.sem m).blocked⟩)
    (hframe : k.frame = s.kernel.frame) : (s.mark k true).OneToken m := by
  obtain ⟨hout, htok⟩ := h
  have hb := frame_of_blocked (m := m) ht
  have hnd := ht.blocked_nodup m
  have howns (pid : ℕ) : (s.mark k true).Owns m pid ↔ s.Owns m pid ∨ pid = s.kernel.running := by
    unfold Owns Critical.mark
    grind
  have hone : (s.kernel.sem m).value = 1 ∧ ∀ pid, ¬ s.Owns m pid := by grind
  refine ⟨?_, .inr ⟨?_, s.kernel.running, fun pid => ?_⟩⟩
  · unfold Critical.mark
    grind
  · simp only [Critical.mark, hsem, hone.1]
  · rw [howns, or_iff_right (hone.2 pid)]

/-- A process which enters while there is no token waits for it. -/
theorem OneToken.push (hin : s.inside s.kernel.running = false)
    (hsem : k.sem m = ⟨(s.kernel.sem m).value, (s.kernel.sem m).blocked ++ [s.kernel.running]⟩)
    (hframe : ∀ pid, k.frame pid = if pid = s.kernel.running then .sem m else s.kernel.frame pid) :
    OneToken m ⟨k, s.inside⟩ := by
  obtain ⟨hout, htok⟩ := h
  have hb := frame_of_blocked (m := m) ht
  have hnd := ht.blocked_nodup m
  have howns (pid : ℕ) : Owns m ⟨k, s.inside⟩ pid ↔ s.Owns m pid := by
    unfold Owns
    grind
  refine ⟨?_, ?_⟩
  · grind
  · simp only [howns]
    simpa only [hsem] using htok

omit ht in
/-- A process which leaves gives the token back. -/
theorem OneToken.release (hin : s.inside s.kernel.running = true)
    (hb : (s.kernel.sem m).blocked = []) (hsem : k.sem m = ⟨(s.kernel.sem m).value + 1, []⟩)
    (hframe : k.frame = s.kernel.frame) : (s.mark k false).OneToken m := by
  obtain ⟨hout, htok⟩ := h
  have howns (pid : ℕ) :
      (s.mark k false).Owns m pid ↔ s.Owns m pid ∧ pid ≠ s.kernel.running := by
    unfold Owns Critical.mark
    grind
  have hown : s.Owns m s.kernel.running := .inl hin
  have hone : (s.kernel.sem m).value = 0 ∧ ∀ q, s.Owns m q ↔ q = s.kernel.running := by grind
  refine ⟨?_, .inl ⟨?_, fun pid => ?_⟩⟩
  · unfold Critical.mark
    grind
  · simp only [Critical.mark, hsem, hone.1]
  · rw [howns, hone.2]
    exact not_and_not_right.2 id

/-- A process which leaves hands the token to the first which waits for it. -/
theorem OneToken.handOver {pid : ℕ} {pids : List ℕ}
    (hin : s.inside s.kernel.running = true) (hb : (s.kernel.sem m).blocked = pid :: pids)
    (hsem : k.sem m = ⟨(s.kernel.sem m).value, pids⟩) (hframe : k.frame = s.kernel.frame) :
    (s.mark k false).OneToken m := by
  obtain ⟨hout, htok⟩ := h
  have hb' := frame_of_blocked (m := m) ht
  have hnd := ht.blocked_nodup m
  have hown : s.Owns m s.kernel.running := .inl hin
  have hv : (s.kernel.sem m).value = 0 ∧ ∀ q, s.Owns m q ↔ q = s.kernel.running := by grind
  have howns (q : ℕ) : (s.mark k false).Owns m q ↔ q = pid := by
    have := hv.2 q
    unfold Owns Critical.mark at *
    grind
  refine ⟨?_, .inr ⟨?_, pid, howns⟩⟩
  · unfold Critical.mark
    grind
  · unfold Critical.mark
    grind

omit hu

variable [DecidableEq ι] {c : Call ι}

omit [DecidableEq ι] h ht in
/-- Where a call begins, the process is not in another one. -/
theorem frame_of_step [DecidableEq ι] {r : Kernel ι × ℤ} (h : k.step c = some r) (htick : c ≠ .tick)
    (hresume : c ≠ .resume) : k.frame k.running = .user ∧ k.call c = some r := by
  unfold Kernel.step at h
  split at h
  next hu => exact ⟨hu, h⟩
  · exact absurd rfl htick
  · exact absurd rfl hresume
  · cases h

theorem OneToken.enter (hs : s.step m .enter = some (s', o)) : s'.OneToken m := by
  simp only [Critical.step] at hs
  split at hs
  · cases hs
  next hout =>
    obtain ⟨⟨k, o⟩, hk, ⟨⟩⟩ := map_eq_some_iff.1 hs
    obtain ⟨hu, hk⟩ := frame_of_step hk nofun nofun
    simp only [Kernel.call] at hk
    obtain ⟨k1, hk1, ⟨⟩⟩ := map_eq_some_iff.1 hk
    have hin : s.inside s.kernel.running = false := by simpa using hout
    unfold Kernel.semWait at hk1
    split at hk1
    next hv =>
      obtain ⟨st, rd, me, rfl⟩ := Kernel.dispatch_eq hk1
      rw [if_pos hv]
      exact h.push ht hu hin (update_self ..) fun _ => update_apply ..
    next hv =>
      cases hk1
      rw [if_neg hv]
      exact h.take ht hu hv (update_self ..) rfl

theorem OneToken.leave (hs : s.step m .leave = some (s', o)) : s'.OneToken m := by
  simp only [Critical.step] at hs
  split_ifs at hs with hin
  obtain ⟨⟨k, o⟩, hk, ⟨⟩⟩ := map_eq_some_iff.1 hs
  obtain ⟨hu, hk⟩ := frame_of_step hk nofun nofun
  cases hk
  unfold Kernel.semSignal
  split
  next hb => exact h.release hu hin hb (update_self ..) rfl
  next pid pids hb => exact h.handOver ht hu hin hb (update_self ..) rfl

end

variable [DecidableEq ι] {c : Call ι}

/-- Any other step moves the token at most from a process which waits to the same one inside. -/
theorem OneToken.other (h : s.OneToken m) (hk : s.kernel.Orderly) (hc : s.Spares m (.other c))
    (hs : s.step m (.other c) = some (s', o)) : s'.OneToken m := by
  simp only [Critical.step] at hs
  split at hs
  · cases hs
  next hne =>
    push Not at hne
    obtain ⟨⟨k, o⟩, hk1, ⟨⟩⟩ := map_eq_some_iff.1 hs
    split
    next hr =>
      obtain ⟨rfl, hf⟩ := hr
      have hres : s.kernel.resume = some (k, o) := by
        simpa [Kernel.step, hf] using hk1
      simp only [Kernel.resume, hf] at hres
      cases hres
      exact h.resume hk.tidy hf ((hk.tidy.free_running hk.running).blocked m) rfl
        fun _ => update_apply ..
    next hr =>
      refine h.keeps (Kernel.step_keeps ?_ hk1)
      cases c with
      | semWait i => exact fun he => hne.1 (by rw [he])
      | semSignal i => exact fun he => hne.2.1 (by rw [he])
      | kill pid signum => exact hc
      | resume => exact fun hf => hr ⟨rfl, hf⟩
      | _ => trivial

/-- What holds between two steps. -/
structure Kept (m : ι) (s : Critical ι) : Prop where
  orderly : s.kernel.Orderly
  timeless : s.kernel.Timeless
  token : s.OneToken m

omit [DecidableEq ι] in
theorem Kept.of_kernel [DecidableEq ι] (h : s.Kept m) (hc : Kernel.Untimed c)
    (hs : s.kernel.step c = some (k, o)) : k.Orderly ∧ k.Timeless :=
  ⟨h.orderly.step (h.timeless.polite h.orderly.tidy c) hs, h.timeless.step hc hs⟩

/-- The kernel of a step makes a step. -/
theorem kernel_of_step {c : CriticalCall ι} (hs : s.step m c = some (s', o)) :
    ∃ c' o', Kernel.Untimed c' ∧ s.kernel.step c' = some (s'.kernel, o') := by
  cases c with
  | enter =>
    simp only [Critical.step] at hs
    split at hs
    · cases hs
    · obtain ⟨⟨k, o⟩, hk, ⟨⟩⟩ := map_eq_some_iff.1 hs
      refine ⟨.semWait m, o, trivial, ?_⟩
      split <;> exact hk
  | leave =>
    simp only [Critical.step] at hs
    split_ifs at hs
    obtain ⟨⟨k, o⟩, hk, ⟨⟩⟩ := map_eq_some_iff.1 hs
    exact ⟨.semSignal m, o, trivial, hk⟩
  | other c =>
    simp only [Critical.step] at hs
    split at hs
    · cases hs
    next hne =>
      push Not at hne
      obtain ⟨⟨k, o⟩, hk, ⟨⟩⟩ := map_eq_some_iff.1 hs
      refine ⟨c, o, hne.2.2, ?_⟩
      split <;> exact hk

theorem Kept.step {c : CriticalCall ι} (h : s.Kept m) (hc : s.Spares m c)
    (hs : s.step m c = some (s', o)) : s'.Kept m := by
  obtain ⟨c', o', hc', hk⟩ := kernel_of_step hs
  obtain ⟨horderly, htimeless⟩ := h.of_kernel hc' hk
  refine ⟨horderly, htimeless, ?_⟩
  cases c with
  | enter => exact h.token.enter h.orderly.tidy hs
  | leave => exact h.token.leave h.orderly.tidy hs
  | other c => exact h.token.other h.orderly hc hs

/-- In every run in which no signal is sent to a process which waits for the mutex there is one
    process inside at most, and the value of the mutex is one at most. -/
theorem reachable_exclusive {k0 : Kernel ι} (hboot : k0.Boot) (hvalue : (k0.sem m).value = 1)
    (hrun : Reaches (fun s => s.step m) (fun s => s.Spares m) ⟨k0, fun _ => false⟩ s) :
    (∀ p q, s.inside p = true → s.inside q = true → p = q) ∧ (s.kernel.sem m).value ≤ 1 := by
  have hkept : s.Kept m := by
    refine hrun.inv (I := fun s => s.Kept m) (fun _ _ _ _ h hc hs => h.step hc hs)
      ⟨hboot.orderly, fun pid w hw => ?_, fun pid hpid => rfl, .inl ⟨hvalue, fun pid => ?_⟩⟩
    · rw [hboot.frame] at hw
      cases hw
    · rintro (hin | ⟨hf, -⟩)
      · cases hin
      · rw [hboot.frame] at hf
        cases hf
  rcases hkept.token.token with ⟨hv, hno⟩ | ⟨hv, holder, hholder⟩
  · exact ⟨fun p q hp => absurd (.inl hp) (hno p), hv.le⟩
  · refine ⟨fun p q hp hq => ?_, by omega⟩
    rw [(hholder p).1 (.inl hp), (hholder q).1 (.inl hq)]

/-- Three processes, a mutex, and the semaphore of a request for the disk. -/
def idle : Critical Bool := ⟨Kernel.boot 2 fun i => if i then 0 else 1, fun _ => false⟩

/-- A process waits for the mutex while another one is inside, and comes in when it leaves. -/
def handedOver : Critical Bool :=
  lastState (guarded (fun s => s.step false) fun s => s.Spares false) idle
    [.enter, .other .preempt, .enter, .other .preempt, .leave, .other .preempt, .other .preempt,
      .other .resume]

/-- The process which has left is not inside then. -/
theorem reachable_exclusive_handedOver : handedOver.inside 1 = true ∧ handedOver.inside 0 ≠ true := by
  have hin : handedOver.inside 1 = true := by decide +kernel
  refine ⟨hin, fun h0 => ?_⟩
  have := (reachable_exclusive (Kernel.boot_boot 2 fun i : Bool => if i then 0 else 1) rfl
    (.lastState idle _)).1 0 1 h0 hin
  cases this

/-- The process inside waits for the disk, and another one for the mutex. -/
def bothWait : List (CriticalCall Bool) := [.enter, .other (.semWait true), .enter]

/-- A third one sends a signal to the one which waits for the mutex. It goes on, and both are inside.
    When they have left, the mutex has two tokens. -/
theorem kill_enters : ∃ (s : Critical Bool) (os : List ℤ), runs (fun s => s.step false) idle
      (bothWait ++ [.other (.kill 1 10), .other .preempt, .other .resume]) = some (s, os) ∧
    (s.inside 0 = true ∧ s.inside 1 = true) ∧ ∃ s' os', runs (fun s => s.step false) s
      [.leave, .other (.semSignal true), .other .preempt, .other .preempt, .other .resume, .leave] =
      some (s', os') ∧ (s'.kernel.sem false).value = 2 := by
  decide +kernel

end Critical

end HobbyOS
