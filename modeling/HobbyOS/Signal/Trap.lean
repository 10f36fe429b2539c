import HobbyOS.Signal.Nested

/-!
# Traps

`handleTrap` serves the traps which are taken in user mode and those which are taken in
supervisor mode. A system call which copies data to a page which is shared since a fork
takes a store fault, and the time slice may be over at any time.

Signals should be delivered on the way back to the user only; but `handleTrap` looks at
`m_usermode`, which says that the process is one of a user, and not at the mode in which
the trap was taken. If a signal is pending and not blocked, then it is taken in the middle of
the system call: a system call is interrupted by nothing if, and only if, there is no such
signal (`handleTrap_undisturbed_iff`). Otherwise, the process may be terminated with what
the system call has locked, and a signal for which the user has a handler kills it, because
the stack pointer is one of the kernel (`signal_in_kernel`).
-/

namespace HobbyOS

open Option Signal

/-- What is running when a trap is taken: `sig.tf` holds the registers which are saved. -/
structure Interrupted (σ : Type*) where
  ph : Phys σ
  sig : Sig
  /-- `m_usermode` of the running thread. -/
  usermode : Bool

/-- `scause`. -/
inductive Cause (σ : Type*)
  /-- `SYSCALL`, in user mode, and what `SyscallHandler::handle` does. -/
  | syscall (handle : Interrupted σ → Option (Interrupted σ))
  /-- `TIMER_INTERRUPT`, and what there is once the thread runs again. -/
  | timer (now : Interrupted σ)
  /-- `EXTERNAL_INTERRUPT`, and what the driver leaves. -/
  | external (now : Interrupted σ)
  /-- `PF_STORE`, and the address. -/
  | store (va : ℕ)
  | other

/-- The trap is taken in supervisor mode. -/
def Cause.Supervisor {σ : Type*} : Cause σ → Prop
  | .syscall _ => False
  | _ => True

namespace TrapHandler

variable {σ : Type*} (P : Pool σ ℕ)

/-- What others leave to a thread: its registers, which are on its stack, are the same. -/
def resume (s now : Interrupted σ) : Interrupted σ :=
  { now with sig := { now.sig with tf := s.sig.tf }, usermode := s.usermode }

/-- The cases of `handleTrap`, unless the kernel panics. -/
def serve (s : Interrupted σ) : Cause σ → Option (Interrupted σ)
  | .syscall handle =>
    handle { s with sig := { s.sig with tf := { s.sig.tf with sepc := s.sig.tf.sepc + 4 } } }
  | .timer now | .external now => some (resume s now)
  | .store va =>
    match VM.handleCowFault P (vpn va) (s.ph, s.sig.proc.pmt) with
    | .ok (ph, pmt) =>
      some { s with ph := ph, sig := { s.sig with proc := { s.sig.proc with pmt := pmt } } }
    | _ => none
  | .other => none

/-- `TrapHandler::handleTrap`. -/
def handleTrap (s : Interrupted σ) (c : Cause σ) : Option (Delivery × Interrupted σ) :=
  (serve P s c).bind fun s =>
    if s.usermode then s.sig.signalDispatch.map fun r => (r.1, { s with sig := r.2 })
    else some (.none, s)

/-- The signals which can be delivered. -/
def deliverable (s : Sig) : UInt64 := s.handler.pending &&& ~~~s.sigMask

/-- No signal is taken if, and only if, there is none. -/
theorem signalDispatch_none_iff {s s' : Sig} {d : Delivery} (h : s.signalDispatch = some (d, s')) :
    d = .none ↔ deliverable s = 0 := by
  rw [Sig.signalDispatch, SignalHandler.dequeue] at h
  dsimp only at h
  split at h
  next hnone =>
    cases h
    exact iff_of_true rfl hnone
  next hsome =>
    refine iff_of_false ?_ hsome
    rw [if_neg (Nat.succ_ne_zero _), Sig.deliver] at h
    rintro rfl
    split_ifs at h
    · rw [Sig.executeDefault] at h
      split at h <;> cases h
    · cases h
    · obtain ⟨r, -, hr⟩ := map_eq_some_iff.1 h
      cases r with
      | none => cases hr
      | some r =>
        have hd := (Prod.mk.inj hr).1
        split at hd <;> cases hd

/-- Serving a trap which is taken in supervisor mode leaves the registers alone. -/
theorem serve_tf {s s1 : Interrupted σ} {c : Cause σ} (hc : c.Supervisor)
    (h : serve P s c = some s1) : s1.sig.tf = s.sig.tf ∧ s1.usermode = s.usermode := by
  cases c with
  | syscall handle => exact hc.elim
  | timer | external =>
    cases h
    exact ⟨rfl, rfl⟩
  | store va =>
    rw [serve] at h
    split at h
    · cases h
      exact ⟨rfl, rfl⟩
    · cases h
  | other => cases h

/-- What is interrupted in supervisor mode goes on with the same registers, and without a signal
    being taken, if, and only if, it is a thread of the kernel or no signal is pending which is
    not blocked. -/
theorem handleTrap_undisturbed_iff {s s1 s' : Interrupted σ} {c : Cause σ} {d : Delivery}
    (hc : c.Supervisor) (hs : serve P s c = some s1) (h : handleTrap P s c = some (d, s')) :
    s'.sig.tf = s.sig.tf ∧ d = .none ↔ (s.usermode = true → deliverable s1.sig = 0) := by
  obtain ⟨htf, huser⟩ := serve_tf P hc hs
  rw [handleTrap, hs, bind_some, huser] at h
  split at h
  next hu =>
    obtain ⟨⟨d', sig⟩, hd, hr⟩ := map_eq_some_iff.1 h
    obtain ⟨rfl, rfl⟩ := Prod.mk.inj hr
    rw [← signalDispatch_none_iff hd]
    refine ⟨fun h _ => h.2, fun h => ⟨?_, h hu⟩⟩
    -- If no signal is taken, then `signalDispatch` changes nothing.
    obtain ⟨handler, rfl⟩ := Sig.signalDispatch_other hd (by rw [h hu]; rfl)
    exact htf
  next hu =>
    cases h
    exact iff_of_true ⟨htf, rfl⟩ fun hu' => absurd hu' hu

/-- A process which has forked copies data to the user, with `SIGTERM` pending; its handler is
    `handler`. -/
def copying (handler : UInt64) (pending : UInt64) : Interrupted ℕ :=
  let s := lastState (Sys.step .counting) Sys.boot
    [.create 0, .map 0 0x1000 .readWrite fun _ => 0, .fork 0 1]
  { ph := s.ph
    sig := {
      tf := {
        (SignalFrame.ofWords fun i => UInt64.ofNat (100 + i)).restore with
        sp := 0xffffffff80010000 }
      sigMask := 0
      handler := ⟨pending, fun _ => ⟨handler, 0, 0, 0⟩⟩
      proc := s.proc 0
      mem := fun _ => 0 }
    usermode := true }

theorem handleTrap_undisturbed_copying : ∃ s',
    handleTrap .counting (copying sigDfl 0) (.store 0x1000) = some (.none, s') ∧
    s'.sig.tf = (copying sigDfl 0).sig.tf := by
  obtain ⟨s1, hs, hnone, d, s', h, -⟩ : ∃ s1,
      serve .counting (copying sigDfl 0) (.store 0x1000) = some s1 ∧ deliverable s1.sig = 0 ∧
      ∃ d s', handleTrap .counting (copying sigDfl 0) (.store 0x1000) = some (d, s') ∧ True := by
    decide +kernel
  have hc : (Cause.store 0x1000 : Cause ℕ).Supervisor := trivial
  obtain ⟨htf, rfl⟩ := (handleTrap_undisturbed_iff .counting hc hs h).2 fun _ => hnone
  exact ⟨s', h, htf⟩

/-- A store fault in the middle of a system call: the process is terminated, or killed if it has
    a handler for the signal. -/
theorem signal_in_kernel :
    (handleTrap .counting (copying sigDfl (sigBit 15)) (.store 0x1000)).map Prod.fst =
      some (.terminated 15) ∧
    (handleTrap .counting (copying 0x2000 (sigBit 15)) (.store 0x1000)).map Prod.fst =
      some (.killed 15) := by
  decide +kernel

end TrapHandler

end HobbyOS
