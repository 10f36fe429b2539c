import HobbyOS.Signal.Nested

/-!
# Signals and threads

The threads of a process share its `SignalHandler` and its memory. A thread has its own
registers, its own mask, and its own kernel stack, the top of which is `kstack` in its
`TrapFrame`: the next trap uses the stack there.

Two functions do not keep the threads, and the kernel, apart.

* `rt_sigreturn` believes what it finds on the stack of the user. As long as the frames it
  reads are `Genuine`, the threads keep their kernel stacks and do not block `SIGKILL` or
  `SIGSTOP`; but any other frame breaks this (`reachable_safe`, `forged_frame`).
* `rt_sigprocmask` changes the mask of the process, which is that of its first thread, and
  not the mask of the thread which calls it. As long as only the first thread sets masks
  (`OwnMask`), the mask of a thread is what the thread itself has done to it
  (`reachable_own`); the call of another thread blocks signals for the wrong one
  (`foreign_mask`).
-/

namespace HobbyOS

open Function Option Signal SignalFrame

/-- A process, and what belongs to each of its threads. -/
structure Group where
  /-- The thread which is the process itself. -/
  leader : ℕ
  running : ℕ
  tids : Finset ℕ
  tf : ℕ → TrapFrame
  /-- `m_sigMask`. -/
  sigMask : ℕ → UInt64
  /-- `m_kstack + KERNEL_STACK_SIZE`. -/
  kstackTop : ℕ → UInt64
  handler : SignalHandler
  proc : Process
  mem : ℕ → UInt8

/-- What happens to a process. -/
inductive GroupEvent
  /-- The running thread goes on, up to its next trap; what system calls do which are not about
      signals is part of this. -/
  | user (tf : TrapFrame) (proc : Process) (mem : ℕ → UInt8)
  /-- `PCB::dispatch` to a thread. -/
  | switch (tid : ℕ)
  /-- A thread is created, with these registers. -/
  | clone (tid : ℕ) (tf : TrapFrame) (kstackTop : UInt64)
  | send (signum : ℕ)
  /-- `signalDispatch`, at the end of a trap. -/
  | deliver
  /-- The system call `rt_sigaction`. -/
  | sigaction
  /-- The system call `rt_sigprocmask`. -/
  | sigprocmask
  /-- The system call `rt_sigreturn`. -/
  | sigreturn

namespace Group

variable (g : Group)

/-- The running thread. -/
def sig : Sig := ⟨g.tf g.running, g.sigMask g.running, g.handler, g.proc, g.mem⟩

/-- What the running thread has changed. -/
def put (s : Sig) : Group :=
  { g with
    tf := update g.tf g.running s.tf
    sigMask := update g.sigMask g.running s.sigMask
    handler := s.handler
    proc := s.proc
    mem := s.mem }

/-- What `PCB::dispatch` does for the thread it chooses. -/
def dispatch (tid : ℕ) : Group :=
  { g with
    running := tid
    tf := update g.tf tid { g.tf tid with kstack := g.kstackTop tid } }

/-- `Process::cloneThread`, and what `sys_clone` puts into the frame: the mask is that of the
    process. -/
def cloneThread (tid : ℕ) (tf : TrapFrame) (kstackTop : UInt64) : Group :=
  { g with
    tids := insert tid g.tids
    tf := update g.tf tid { tf with kstack := kstackTop }
    sigMask := update g.sigMask tid (g.sigMask g.leader)
    kstackTop := update g.kstackTop tid kstackTop }

/-- The system call `rt_sigprocmask`, on the mask of the thread `tid`, and its result. -/
def sigprocmask (tid : ℕ) : Option (Group × UInt64) :=
  (g.sig.sysRtSigprocmask (g.sigMask tid)).map fun r =>
    ({ g with
      tf := update g.tf g.running { g.tf g.running with a0 := r.1 }
      sigMask := update g.sigMask tid r.2.1
      mem := r.2.2 }, r.1)

/-- One step, and the result of a system call; the process may end. -/
def step : GroupEvent → Option (Group × UInt64)
  | .user tf proc mem =>
    -- The trap puts `sscratch` into the frame, which comes from the last frame.
    some (g.put { g.sig with
      tf := { tf with kstack := (g.tf g.running).kstack }, proc := proc, mem := mem }, 0)
  | .switch tid => some (if tid ∈ g.tids then g.dispatch tid else g, 0)
  | .clone tid tf kstackTop =>
    some (if tid ∈ g.tids then g else g.cloneThread tid tf kstackTop, 0)
  | .send signum => some ({ g with handler := g.handler.send signum }, 0)
  | .deliver => g.sig.signalDispatch.bind fun r =>
    match r.1 with
    | .terminated _ | .killed _ => none
    | _ => some (g.put r.2, 0)
  | .sigaction => g.sig.sysRtSigaction.map fun r =>
    (g.put { r.2 with tf := { r.2.tf with a0 := r.1 } }, r.1)
  -- The mask is that of `PCB::runningProcess()`.
  | .sigprocmask => g.sigprocmask g.leader
  | .sigreturn => g.sig.sigreturn.map fun s => (g.put s, s.tf.a0)

variable {g}

@[simp] theorem put_tf (s : Sig) : (g.put s).tf g.running = s.tf := update_self ..

theorem put_tf_of_ne {s : Sig} {t : ℕ} (h : t ≠ g.running) : (g.put s).tf t = g.tf t :=
  update_of_ne h ..

@[simp] theorem put_sigMask (s : Sig) : (g.put s).sigMask g.running = s.sigMask := update_self ..

theorem put_sigMask_of_ne {s : Sig} {t : ℕ} (h : t ≠ g.running) :
    (g.put s).sigMask t = g.sigMask t := update_of_ne h ..

end Group

/-! ## What the functions do to the mask and to the kernel stack -/

namespace Sig

variable {s s' : Sig} {r mask mask' : UInt64}

/-- Delivering a signal adds signals to the mask which can be blocked. -/
theorem signalDispatch_mask {d : Delivery} (h : s.signalDispatch = some (d, s')) :
    s'.tf.kstack = s.tf.kstack ∧ (s'.sigMask = s.sigMask ∨
      ∃ add, s'.sigMask = s.sigMask ||| (add &&& ~~~unblockable)) := by
  cases hd : d.entered with
  | some signum =>
    obtain ⟨-, -, handler, action, rfl⟩ := signalDispatch_entered h hd
    exact ⟨rfl, .inr ⟨_, rfl⟩⟩
  | none =>
    obtain ⟨handler, rfl⟩ := signalDispatch_other h hd
    exact ⟨rfl, .inl rfl⟩

/-- `rt_sigaction` leaves the registers and the mask alone. -/
theorem sysRtSigaction_eq (h : s.sysRtSigaction = some (r, s')) :
    s'.tf = s.tf ∧ s'.sigMask = s.sigMask := by
  obtain ⟨ok, -, h⟩ := bind_eq_some_iff.1 h
  split at h
  · cases h
    exact ⟨rfl, rfl⟩
  split at h
  · cases h
    exact ⟨rfl, rfl⟩
  split at h
  · cases h
    exact ⟨rfl, rfl⟩
  · obtain ⟨ok', -, h⟩ := map_eq_some_iff.1 h
    cases ok' <;> cases h <;> exact ⟨rfl, rfl⟩

/-- The argument `set` of `rt_sigprocmask`. -/
def setArg (s : Sig) : Option UInt64 :=
  if s.tf.a1.toNat = 0 then none else some (loadWord s.mem s.tf.a1.toNat)

/-- `rt_sigprocmask` does what it is asked for, or fails. -/
theorem sysRtSigprocmask_cases {mem : ℕ → UInt8}
    (h : s.sysRtSigprocmask mask = some (r, mask', mem)) :
    mask' = mask ∧ r ≠ 0 ∨ sigprocmask (s.tf.a0.toNat % 2 ^ 32) s.setArg mask = some mask' := by
  obtain ⟨ok, -, h⟩ := bind_eq_some_iff.1 h
  split at h
  · cases h
    exact .inl ⟨rfl, by decide⟩
  split at h
  · cases h
    exact .inl ⟨rfl, by decide⟩
  next hnew =>
    refine .inr (hnew.trans ?_)
    split at h
    · cases h
      rfl
    · obtain ⟨ok', -, h⟩ := map_eq_some_iff.1 h
      cases ok' <;> cases h <;> rfl

theorem and_not_unblockable (x : UInt64) : x &&& ~~~unblockable &&& unblockable = 0 := by
  rw [UInt64.and_assoc]
  simp

theorem or_and_eq_zero {x y z : UInt64} (hx : x &&& z = 0) (hy : y &&& z = 0) :
    (x ||| y) &&& z = 0 := by
  rw [← UInt64.toNat_inj, UInt64.toNat_and] at *
  rw [UInt64.toNat_or, Nat.and_or_distrib_right, hx, hy]
  rfl

/-- `rt_sigprocmask` does not block `SIGKILL` and `SIGSTOP`. -/
theorem sigprocmask_and_unblockable {how : ℕ} {set : Option UInt64}
    (hmask : mask &&& unblockable = 0) (h : sigprocmask how set mask = some mask') :
    mask' &&& unblockable = 0 := by
  cases set with
  | none =>
    cases h
    exact hmask
  | some set =>
    rw [sigprocmask] at h
    split_ifs at h <;> cases h <;> exact and_not_unblockable _

/-- `rt_sigreturn` restores what is on the stack, or fails. -/
theorem sigreturn_cases (h : s.sigreturn = some s') :
    s.proc.checkOperation s.tf.sp.toNat frameSize .read = some true ∧ s' = { s with
        tf := (load s.mem s.tf.sp.toNat).restore
        sigMask := (load s.mem s.tf.sp.toNat).savedMask } ∨
    s.proc.checkOperation s.tf.sp.toNat frameSize .read = some false ∧
      s' = { s with tf := { s.tf with a0 := efault } } := by
  obtain ⟨r, hr, rfl⟩ := map_eq_some_iff.1 h
  obtain ⟨ok, hok, hr⟩ := bind_eq_some_iff.1 hr
  cases ok with
  | true =>
    rw [if_neg (by decide)] at hr
    split at hr
    next hg => exact .inl ⟨hok, Option.some.inj (h.symm.trans (sigreturn_eq hok hg))⟩
    · cases hr
  | false =>
    cases hr
    exact .inr ⟨hok, rfl⟩

end Sig

namespace Group

variable {g g' : Group} {e : GroupEvent} {o : UInt64} {tid : ℕ}

/-! ## Kernel stacks, and signals which cannot be blocked -/

/-- The frame which `rt_sigreturn` reads has the kernel stack of the thread, and a mask which
    blocks neither `SIGKILL` nor `SIGSTOP`. -/
def Genuine (g : Group) : GroupEvent → Prop
  | .sigreturn =>
    g.proc.checkOperation (g.tf g.running).sp.toNat frameSize .read = some true →
      (load g.mem (g.tf g.running).sp.toNat).kstack = g.kstackTop g.running ∧
      (load g.mem (g.tf g.running).sp.toNat).savedMask &&& unblockable = 0
  | _ => True

/-- No thread blocks `SIGKILL` or `SIGSTOP`, and every thread goes back to the user with its own
    kernel stack. -/
structure Safe (g : Group) : Prop where
  kstack : ∀ t ∈ g.tids, (g.tf t).kstack = g.kstackTop t
  mask : ∀ t, g.sigMask t &&& unblockable = 0

/-- The kernel stacks are as they should be if that of the running thread is. -/
theorem Safe.put_kstack {s : Sig} (h : g.Safe) (hk : s.tf.kstack = g.kstackTop g.running) :
    ∀ t ∈ (g.put s).tids, ((g.put s).tf t).kstack = (g.put s).kstackTop t := by
  intro t ht
  rcases eq_or_ne t g.running with rfl | hne
  · rw [put_tf]
    exact hk
  · rw [put_tf_of_ne hne]
    exact h.kstack t ht

theorem Safe.put {s : Sig} (h : g.Safe) (hr : g.running ∈ g.tids)
    (hk : s.tf.kstack = (g.tf g.running).kstack) (hm : s.sigMask &&& unblockable = 0) :
    (g.put s).Safe := by
  refine ⟨h.put_kstack (hk.trans (h.kstack _ hr)), fun t => ?_⟩
  rcases eq_or_ne t g.running with rfl | ht
  · rwa [put_sigMask]
  · rw [put_sigMask_of_ne ht]
    exact h.mask t

theorem Safe.dispatch (h : g.Safe) (tid : ℕ) : (g.dispatch tid).Safe := by
  refine ⟨fun t ht => ?_, h.mask⟩
  simp only [Group.dispatch, update_apply]
  split
  next he => rw [he]
  · exact h.kstack t ht

theorem Safe.cloneThread {tf : TrapFrame} {kstackTop : UInt64} (h : g.Safe) (tid : ℕ) :
    (g.cloneThread tid tf kstackTop).Safe := by
  refine ⟨fun t ht => ?_, fun t => ?_⟩
  · simp only [Group.cloneThread, update_apply]
    split
    · rfl
    next hne => exact h.kstack t (Finset.mem_of_mem_insert_of_ne ht hne)
  · simp only [Group.cloneThread, update_apply]
    split <;> exact h.mask _

theorem Safe.sigprocmask (h : g.Safe) (hs : g.sigprocmask tid = some (g', o)) : g'.Safe := by
  obtain ⟨⟨r, mask', mem⟩, hr, ⟨⟩⟩ := map_eq_some_iff.1 hs
  refine ⟨fun t ht => ?_, fun t => ?_⟩
  · simp only [update_apply]
    split
    next he => exact he ▸ h.kstack t ht
    · exact h.kstack t ht
  · simp only [update_apply]
    split
    · rcases Sig.sysRtSigprocmask_cases hr with ⟨rfl, -⟩ | hset
      · exact h.mask tid
      · exact Sig.sigprocmask_and_unblockable (h.mask tid) hset
    · exact h.mask t

/-- The running thread is one of the threads. -/
def Runs (g : Group) : Prop := g.running ∈ g.tids

theorem step_runs (h : g.Runs) (hs : g.step e = some (g', o)) : g'.Runs := by
  cases e with
  | user | send =>
    cases hs
    exact h
  | switch tid =>
    cases hs
    split
    next htid => exact htid
    · exact h
  | clone =>
    cases hs
    split
    · exact h
    · exact Finset.mem_insert_of_mem h
  | deliver =>
    obtain ⟨⟨d, s⟩, -, hs⟩ := bind_eq_some_iff.1 hs
    cases d <;> cases hs <;> exact h
  | sigaction | sigprocmask | sigreturn =>
    obtain ⟨r, -, ⟨⟩⟩ := map_eq_some_iff.1 hs
    exact h

/-- What `deliver` does, unless the process ends. -/
theorem step_deliver (hs : g.step .deliver = some (g', o)) :
    ∃ d s, g.sig.signalDispatch = some (d, s) ∧ g' = g.put s := by
  obtain ⟨⟨d, s⟩, hd, hs⟩ := bind_eq_some_iff.1 hs
  refine ⟨d, s, hd, ?_⟩
  cases d <;> cases hs <;> rfl

theorem Safe.deliver (h : g.Safe) (hr : g.Runs) (hs : g.step .deliver = some (g', o)) : g'.Safe := by
  obtain ⟨d, s, hd, rfl⟩ := step_deliver hs
  obtain ⟨hk, hm | ⟨add, hm⟩⟩ := Sig.signalDispatch_mask hd
  · exact h.put hr hk (hm ▸ h.mask g.running)
  · refine h.put hr hk ?_
    rw [hm]
    exact Sig.or_and_eq_zero (h.mask g.running) (Sig.and_not_unblockable add)

/-- A step breaks this if, and only if, it is an `rt_sigreturn` from another frame. -/
theorem step_safe_iff (h : g.Safe) (hr : g.Runs) (hs : g.step e = some (g', o)) :
    g'.Safe ↔ g.Genuine e := by
  cases e with
  | user tf proc mem =>
    cases hs
    exact iff_of_true (h.put hr rfl (h.mask _)) trivial
  | switch tid =>
    cases hs
    refine iff_of_true ?_ trivial
    split
    · exact h.dispatch tid
    · exact h
  | clone tid tf kstackTop =>
    cases hs
    refine iff_of_true ?_ trivial
    split
    · exact h
    · exact h.cloneThread tid
  | send signum =>
    cases hs
    exact iff_of_true ⟨h.kstack, h.mask⟩ trivial
  | deliver => exact iff_of_true (h.deliver hr hs) trivial
  | sigaction =>
    obtain ⟨⟨r, s⟩, ha, ⟨⟩⟩ := map_eq_some_iff.1 hs
    obtain ⟨htf, hmask⟩ := Sig.sysRtSigaction_eq ha
    refine iff_of_true (h.put hr ?_ ?_) trivial
    · exact htf ▸ rfl
    · exact hmask ▸ h.mask g.running
  | sigprocmask => exact iff_of_true (h.sigprocmask hs) trivial
  | sigreturn =>
    obtain ⟨s, hret, ⟨⟩⟩ := map_eq_some_iff.1 hs
    rcases Sig.sigreturn_cases hret with ⟨hok, rfl⟩ | ⟨hok, rfl⟩
    · refine ⟨fun hsafe _ => ⟨?_, ?_⟩, fun hgen => ⟨h.put_kstack (hgen hok).1, fun t => ?_⟩⟩
      · have := hsafe.kstack g.running hr
        rwa [put_tf] at this
      · have := hsafe.mask g.running
        rwa [put_sigMask] at this
      · rcases eq_or_ne t g.running with rfl | ht
        · rw [put_sigMask]
          exact (hgen hok).2
        · rw [put_sigMask_of_ne ht]
          exact h.mask t
    · refine iff_of_true (h.put hr rfl (h.mask _)) fun hok' => ?_
      exact absurd (hok'.symm.trans hok) (by decide)

/-- In every run in which `rt_sigreturn` reads genuine frames only, no thread ever blocks `SIGKILL`
    or `SIGSTOP`, and every thread goes back to the user with its own kernel stack. The next step of
    any such run breaks this if, and only if, it is an `rt_sigreturn` from another frame. -/
theorem reachable_safe {g0 : Group} (h : g0.Safe) (hr : g0.Runs)
    (hrun : Reaches (fun g => g.step) Genuine g0 g) :
    g.Safe ∧ ∀ e g' o, g.step e = some (g', o) → (g'.Safe ↔ g.Genuine e) := by
  have hI : g.Safe ∧ g.Runs := hrun.inv (I := fun g => g.Safe ∧ g.Runs)
    (fun _ _ _ _ hI hok hs => ⟨(step_safe_iff hI.1 hI.2 hs).2 hok, step_runs hI.2 hs⟩) ⟨h, hr⟩
  exact ⟨hI.1, fun _ _ _ hs => step_safe_iff hI.1 hI.2 hs⟩

instance (g : Group) (e : GroupEvent) : Decidable (g.Genuine e) := by
  cases e <;> unfold Genuine <;> infer_instance

/-- A process with one thread, whose stack is a page of its own, and a signal which is pending and
    for which there is a handler. -/
def single : Group where
  leader := 0
  running := 0
  tids := {0}
  tf _ := { (Nested.usr .readWrite).tf with kstack := 0xffffffff80010000 }
  sigMask _ := 0
  kstackTop _ := 0xffffffff80010000
  handler := (Nested.usr .readWrite).handler
  proc := Nested.mapped .readWrite
  mem _ := 0

theorem single_safe : single.Safe := ⟨fun _ _ => rfl, fun _ => UInt64.zero_and⟩

theorem single_runs : single.Runs := Finset.mem_singleton_self 0

/-- A signal is delivered, and its handler returns. -/
def returnedOnce : Group :=
  lastState (guarded (fun g => g.step) Genuine) single [.deliver, .sigreturn]

theorem reachable_safe_returned : returnedOnce.Safe ∧ returnedOnce.handler.pending = sigBit 12 :=
  ⟨(reachable_safe single_safe single_runs (.lastState _ _)).1, by decide +kernel⟩

/-- A frame which the user has made up. -/
def forged : SignalFrame :=
  { ofWords fun _ => 0 with kstack := 0x1000, savedMask := unblockable }

/-- The user writes a frame to the stack and calls `rt_sigreturn`: the next trap writes where the
    user likes, and `SIGKILL` and `SIGSTOP` are blocked. -/
theorem forged_frame : ∃ g', runs (fun g => g.step) single
      [.user { single.sig.tf with sp := UInt64.ofNat mmapBase } single.proc
        (storeWords single.mem mmapBase forged.words), .sigreturn] = some (g', [0, 0]) ∧
    (g'.tf g'.running).kstack = 0x1000 ∧ g'.kstackTop g'.running ≠ 0x1000 ∧
    g'.sigMask g'.running = sigBit sigkill ||| sigBit sigstop := by
  decide +kernel

/-! ## Masks of threads -/

/-- Only the first thread sets masks. -/
def OwnMask (g : Group) : GroupEvent → Prop
  | .sigprocmask => g.sig.setArg.isSome → g.running = g.leader
  | _ => True

/-- What an event does to the mask `own` of the running thread, when it does not look at the masks
    of other threads. -/
def ownMask (g : Group) (own : UInt64) : GroupEvent → UInt64
  | .deliver => (Sig.signalDispatch { g.sig with sigMask := own }).elim own (·.2.sigMask)
  | .sigprocmask => (g.sig.sysRtSigprocmask own).elim own (·.2.1)
  | .sigreturn => (Sig.sigreturn { g.sig with sigMask := own }).elim own (·.sigMask)
  | _ => own

end Group

/-- A process, and for each thread the mask which results from its own calls. -/
structure Traced where
  group : Group
  own : ℕ → UInt64

namespace Traced

/-- The masks which result from an event: that of the running thread, or of a new one. -/
def next (t : Traced) : GroupEvent → ℕ → UInt64
  | .clone tid _ _ =>
    if tid ∈ t.group.tids then t.own else update t.own tid (t.own t.group.leader)
  | e => update t.own t.group.running (t.group.ownMask (t.own t.group.running) e)

/-- One step. -/
def step (t : Traced) (e : GroupEvent) : Option (Traced × UInt64) :=
  (t.group.step e).map fun r => (⟨r.1, t.next e⟩, r.2)

end Traced

namespace Group

variable {g g' : Group} {e : GroupEvent} {o : UInt64}

/-- What a step does to the masks. -/
theorem step_sigMask (hok : g.OwnMask e) (hs : g.step e = some (g', o)) :
    g'.sigMask = Traced.next ⟨g, g.sigMask⟩ e := by
  cases e with
  | user =>
    cases hs
    rfl
  | switch =>
    cases hs
    refine Eq.trans ?_ (update_eq_self g.running g.sigMask).symm
    split <;> rfl
  | clone tid tf kstackTop =>
    cases hs
    simp only [Traced.next]
    split <;> rfl
  | send =>
    cases hs
    exact (update_eq_self g.running g.sigMask).symm
  | deliver =>
    obtain ⟨d, s, hd, rfl⟩ := step_deliver hs
    simp only [Traced.next, ownMask]
    rw [show ({ g.sig with sigMask := g.sigMask g.running } : Sig) = g.sig from rfl, hd]
    rfl
  | sigaction =>
    obtain ⟨⟨r, s⟩, ha, ⟨⟩⟩ := map_eq_some_iff.1 hs
    exact congrArg (update g.sigMask g.running) (Sig.sysRtSigaction_eq ha).2
  | sigprocmask =>
    obtain ⟨⟨r, mask', mem⟩, hr, ⟨⟩⟩ := map_eq_some_iff.1 hs
    simp only [Traced.next, ownMask]
    rcases eq_or_ne g.running g.leader with hl | hl
    · rw [hl, hr]
      rfl
    -- The call asks for the mask only, and changes none.
    have hset : g.sig.setArg = none := by
      by_contra h
      exact hl (hok (isSome_iff_ne_none.2 h))
    have hsame {mask : UInt64} {r : UInt64 × UInt64 × (ℕ → UInt8)}
        (h : g.sig.sysRtSigprocmask mask = some r) : r.2.1 = mask := by
      rcases Sig.sysRtSigprocmask_cases h with ⟨h, -⟩ | h
      · exact h
      · rw [hset] at h
        exact (Option.some.inj h).symm
    obtain rfl : mask' = g.sigMask g.leader := hsame hr
    have hown : (g.sig.sysRtSigprocmask (g.sigMask g.running)).elim (g.sigMask g.running)
        (fun r => r.2.1) = g.sigMask g.running := by
      cases h : g.sig.sysRtSigprocmask (g.sigMask g.running) with
      | none => rfl
      | some r => exact hsame h
    rw [hown, update_eq_self, update_eq_self]
  | sigreturn =>
    obtain ⟨s, hret, ⟨⟩⟩ := map_eq_some_iff.1 hs
    simp only [Traced.next, ownMask]
    rw [show ({ g.sig with sigMask := g.sigMask g.running } : Sig) = g.sig from rfl, hret]
    rfl

/-- A step leaves the masks of the other threads alone. -/
theorem step_sigMask_of_ne {u : ℕ} (hok : g.OwnMask e) (hs : g.step e = some (g', o))
    (hu : u ∈ g.tids) (hne : u ≠ g.running) : g'.sigMask u = g.sigMask u := by
  rw [step_sigMask hok hs]
  cases e with
  | clone tid tf kstackTop =>
    simp only [Traced.next]
    split
    · rfl
    next htid => exact update_of_ne (ne_of_mem_of_not_mem hu htid) ..
  | _ => exact update_of_ne hne ..

/-- `rt_sigprocmask` changes the mask of the caller as it is told to. -/
theorem sigprocmask_running (hok : g.OwnMask .sigprocmask)
    (hs : g.step .sigprocmask = some (g', 0)) :
    Sig.sigprocmask ((g.tf g.running).a0.toNat % 2 ^ 32) g.sig.setArg (g.sigMask g.running) =
      some (g'.sigMask g.running) := by
  obtain ⟨⟨r, mask', mem⟩, hr, hg⟩ := map_eq_some_iff.1 hs
  obtain ⟨rfl, rfl⟩ := Prod.mk.inj hg
  rcases Sig.sysRtSigprocmask_cases hr with ⟨-, h⟩ | h
  · exact absurd rfl h
  cases hset : g.sig.setArg with
  | some set =>
    have hl : g.running = g.leader := hok (by rw [hset]; rfl)
    rw [hset, ← hl] at h
    refine h.trans (congrArg some ?_)
    rw [← hl]
    simp only [update_self]
  | none =>
    rw [hset] at h
    refine congrArg some ?_
    rw [← Option.some.inj h, update_eq_self]

end Group

namespace Traced

variable {t t' : Traced} {e : GroupEvent} {o : UInt64}

/-- In every run in which only the first thread sets masks, the mask of every thread, which
    `signalDispatch` uses, is the one which results from its own calls; a step leaves the masks of
    other threads alone; and a successful `rt_sigprocmask` changes the mask of the caller as it is
    told to. -/
theorem reachable_own {g0 : Group}
    (hrun : Reaches step (fun t e => t.group.OwnMask e) ⟨g0, g0.sigMask⟩ t) :
    (∀ u, t.group.sigMask u = t.own u) ∧
    ∀ e g' o, t.group.OwnMask e → t.group.step e = some (g', o) →
      (∀ u ∈ t.group.tids, u ≠ t.group.running → g'.sigMask u = t.group.sigMask u) ∧
      (e = .sigprocmask → o = 0 →
        Sig.sigprocmask (t.group.sig.tf.a0.toNat % 2 ^ 32) t.group.sig.setArg
          t.group.sig.sigMask = some (g'.sigMask t.group.running)) := by
  have hI : t.group.sigMask = t.own := by
    refine hrun.inv (I := fun t => t.group.sigMask = t.own) (fun t t' e o hI hok hs => ?_) rfl
    obtain ⟨r, hr, ⟨⟩⟩ := map_eq_some_iff.1 hs
    obtain ⟨g, own⟩ := t
    obtain rfl : g.sigMask = own := hI
    exact Group.step_sigMask hok hr
  refine ⟨fun u => congrFun hI u, fun e g' o hok hs => ⟨fun u hu hne => ?_, ?_⟩⟩
  · exact Group.step_sigMask_of_ne hok hs hu hne
  · rintro rfl rfl
    exact Group.sigprocmask_running hok hs

instance (g : Group) (e : GroupEvent) : Decidable (g.OwnMask e) := by
  cases e <;> unfold Group.OwnMask <;> infer_instance

/-- `rt_sigprocmask(SIG_BLOCK, &set, NULL)`, where `set` is at the start of the page and has
    `SIGUSR1` in it. -/
def block : GroupEvent :=
  .user { Group.single.sig.tf with a0 := 0, a1 := UInt64.ofNat mmapBase, a2 := 0 }
    Group.single.proc (storeWords Group.single.mem mmapBase [sigBit 10])

/-- The first thread blocks a signal, and there is another thread. -/
def blocked : Traced :=
  lastState (guarded step fun t e => t.group.OwnMask e) ⟨Group.single, Group.single.sigMask⟩
    [.clone 1 Group.single.sig.tf 0xffffffff80020000, block, .sigprocmask, .switch 1]

theorem reachable_own_blocked : blocked.own 0 = sigBit 10 ∧ blocked.own 1 = 0 ∧
    ∀ u, blocked.group.sigMask u = blocked.own u :=
  ⟨by decide +kernel, by decide +kernel, (reachable_own (.lastState _ _)).1⟩

/-- The second thread blocks a signal, and the call succeeds: it is the first thread which blocks
    the signal now. -/
theorem foreign_mask : ∃ g', runs (fun g => g.step) Group.single
      [.clone 1 Group.single.sig.tf 0xffffffff80020000, .switch 1, block, .sigprocmask] =
      some (g', [0, 0, 0, 0]) ∧
    g'.running = 1 ∧ g'.sigMask 1 = 0 ∧ g'.sigMask 0 = sigBit 10 := by
  decide +kernel

end Traced

end HobbyOS
