import HobbyOS.Bytes
import HobbyOS.Process

/-!
# Signals

A process has a `SignalHandler`, which its threads share: the signals which are pending,
and what is to be done with each of them. Which signals a thread blocks is told by its own
mask, `m_sigMask`.

* At the end of a trap, `signalDispatch` takes the first signal which is pending and not
  blocked. If the user has installed a handler for it, then the registers (`TrapFrame`)
  and the mask are saved on the stack of the user (`SignalFrame`), and the trap returns to
  the handler.
* The handler returns to a trampoline, which calls `rt_sigreturn`: the registers and the
  mask are loaded from the stack.
* `rt_sigaction` and `rt_sigprocmask` install handlers and change masks.

`Sig` is what these functions work on, for the running thread; the memory is that of the
user, by virtual addresses. Whether the kernel may use it is told by `Process::checkOperation`.
But the page table has the last word: a page of a frame which is shared since a fork takes a
store fault (`Delivery.faulted`), and any other page which the hardware refuses makes the kernel
panic.
-/

namespace HobbyOS

/-- `TrapFrame`: the registers of the user, and the top of the kernel stack. -/
structure TrapFrame where
  sepc : UInt64
  (ra sp gp tp : UInt64)
  (t0 t1 t2 s0 s1 : UInt64)
  (a0 a1 a2 a3 a4 a5 a6 a7 : UInt64)
  (s2 s3 s4 s5 s6 s7 s8 s9 s10 s11 : UInt64)
  (t3 t4 t5 t6 : UInt64)
  kstack : UInt64
  deriving DecidableEq

/-- `SignalFrame`. -/
structure SignalFrame where
  signum : UInt64
  sepc : UInt64
  (ra sp gp tp : UInt64)
  (t0 t1 t2 s0 s1 : UInt64)
  (a0 a1 a2 a3 a4 a5 a6 a7 : UInt64)
  (s2 s3 s4 s5 s6 s7 s8 s9 s10 s11 : UInt64)
  (t3 t4 t5 t6 : UInt64)
  kstack : UInt64
  savedMask : UInt64
  deriving DecidableEq

/-- `SignalAction`. -/
structure SignalAction where
  handler : UInt64
  flags : UInt64
  restorer : UInt64
  mask : UInt64
  deriving DecidableEq

/-- `SignalHandler`; `actions` at a number which is none of a signal is what a variable holds to
    which `getAction` does not write. -/
structure SignalHandler where
  pending : UInt64
  actions : ℕ → SignalAction

/-- `SigDefaultAction`. -/
inductive SigDefaultAction
  | term
  | ign
  | core
  | stop
  | cont
  deriving DecidableEq

/-- What `signalDispatch` did. -/
inductive Delivery
  /-- No signal is pending, or all are blocked. -/
  | none
  | ignored (signum : ℕ)
  /-- The handler of the user is to run. -/
  | handled (signum : ℕ)
  /-- So it is, after `handleTrap` has served the fault which copying the frame has taken; it may
      have delivered other signals there. -/
  | faulted (signum : ℕ)
  /-- `Process::exitViaSignal`. -/
  | terminated (signum : ℕ)
  /-- The thread stops. -/
  | stopped (signum : ℕ)
  /-- There is no room for the frame: `Process::exit(-SIGSEGV)`. -/
  | killed (signum : ℕ)
  deriving DecidableEq

/-- The signal whose handler is to run. -/
def Delivery.entered : Delivery → Option ℕ
  | .handled signum | .faulted signum => some signum
  | _ => Option.none

/-- The pages of a range of addresses. -/
def pagesOf (addr len : ℕ) : List Vpn :=
  (List.range ((addr + len - 1) / pageSize + 1 - addr / pageSize)).map fun i =>
    vpn ((addr / pageSize + i) * pageSize)

/-- All pages of a range are mapped with such flags. -/
def Process.grants (p : Process) (ok : Flags → Bool) (addr len : ℕ) : Bool :=
  (pagesOf addr len).all fun n => ok (p.pmt.getFlags n)

/-- What the functions for signals work on, for the running thread. -/
structure Sig where
  tf : TrapFrame
  /-- `m_sigMask` of the running thread. -/
  sigMask : UInt64
  handler : SignalHandler
  proc : Process
  mem : ℕ → UInt8

namespace Signal

/-- `SIGKILL`. -/
def sigkill : ℕ := 9

/-- `SIGSTOP`. -/
def sigstop : ℕ := 19

/-- `NSIG`. -/
def nsig : ℕ := 32

/-- `SIG_DFL`. -/
def sigDfl : UInt64 := 0

/-- `SIG_IGN`. -/
def sigIgn : UInt64 := 1

/-- `SA_RESTORER`. -/
def saRestorer : UInt64 := (1 : UInt64) <<< 26

/-- `USER_TRAMPOLINE_ADDR`. -/
def userTrampolineAddr : UInt64 := 0x1000000000

/-- `sizeof(SignalFrame)`. -/
def frameSize : ℕ := 280

/-- The error `EFAULT`, which is `-14`. -/
def efault : UInt64 := -14

/-- `1ULL << n`. -/
def bit (n : ℕ) : UInt64 := (1 : UInt64) <<< UInt64.ofNat n

/-- `sigBit`. -/
def sigBit (signum : ℕ) : UInt64 := if 1 ≤ signum ∧ signum < nsig then bit (signum - 1) else 0

/-- `sigUnblockable`. -/
def sigUnblockable (signum : ℕ) : Bool := signum = sigkill || signum = sigstop

/-- The signals which cannot be blocked. -/
def unblockable : UInt64 := sigBit sigkill ||| sigBit sigstop

/-- `sigDefaultAction`. -/
def sigDefaultAction : ℕ → SigDefaultAction
  | 3 | 4 | 5 | 6 | 7 | 8 | 11 => .core
  | 17 => .ign
  | 18 => .cont
  | 19 | 20 | 21 | 22 => .stop
  | _ => .term

end Signal

open Signal

namespace SignalHandler

variable (h : SignalHandler)

/-- `SignalHandler::send`. -/
def send (signum : ℕ) : SignalHandler :=
  if signum < 1 ∨ Signal.nsig ≤ signum then h
  else if !sigUnblockable signum && (h.actions signum).handler = sigIgn then h
  else { h with pending := h.pending ||| sigBit signum }

/-- The loop of `SignalHandler::dequeue`. -/
def lowest (deliverable : UInt64) : ℕ :=
  ((List.range (Signal.nsig - 1)).find? fun n => deliverable &&& bit n ≠ 0).getD (Signal.nsig - 1)

/-- `SignalHandler::dequeue`: the signal, or `0`. -/
def dequeue (threadMask : UInt64) : ℕ × SignalHandler :=
  let deliverable := h.pending &&& ~~~threadMask
  if deliverable = 0 then (0, h)
  else
    (lowest deliverable + 1, { h with pending := h.pending &&& ~~~(bit (lowest deliverable)) })

/-- `SignalHandler::setAction`, unless it fails: the action there was, and the new one. -/
def setAction (signum : ℕ) (act : Option SignalAction) : Option (SignalAction × SignalHandler) :=
  if signum < 1 ∨ Signal.nsig ≤ signum then none
  else if sigUnblockable signum && act.isSome then none
  else
    let action := (act.map fun a => { a with mask := a.mask &&& ~~~unblockable }).getD
      (h.actions signum)
    some (h.actions signum, { h with actions := Function.update h.actions signum action })

end SignalHandler

/-! ## Frames -/

namespace SignalFrame

/-- What `signalDispatch` puts into a frame: every register, under its name. -/
def save (signum : ℕ) (tf : TrapFrame) (threadMask : UInt64) : SignalFrame :=
  { tf with signum := UInt64.ofNat signum, savedMask := threadMask }

/-- What `rt_sigreturn` puts into the registers. -/
def restore (f : SignalFrame) : TrapFrame := { f with }

/-- The words of a frame, as they are in memory. -/
def words (f : SignalFrame) : List UInt64 :=
  [f.signum, f.sepc, f.ra, f.sp, f.gp, f.tp, f.t0, f.t1, f.t2, f.s0, f.s1, f.a0, f.a1, f.a2, f.a3,
    f.a4, f.a5, f.a6, f.a7, f.s2, f.s3, f.s4, f.s5, f.s6, f.s7, f.s8, f.s9, f.s10, f.s11, f.t3, f.t4,
    f.t5, f.t6, f.kstack, f.savedMask]

/-- The frame with these words. -/
def ofWords (w : ℕ → UInt64) : SignalFrame :=
  ⟨w 0, w 1, w 2, w 3, w 4, w 5, w 6, w 7, w 8, w 9, w 10, w 11, w 12, w 13, w 14, w 15, w 16, w 17,
    w 18, w 19, w 20, w 21, w 22, w 23, w 24, w 25, w 26, w 27, w 28, w 29, w 30, w 31, w 32, w 33,
    w 34⟩

end SignalFrame

/-- A word of the user's memory. -/
def loadWord (mem : ℕ → UInt8) (addr : ℕ) : UInt64 := UInt64.ofNat (loadLE mem addr 8)

/-- Copying words to the user's memory. -/
def storeWords (mem : ℕ → UInt8) (addr : ℕ) (ws : List UInt64) : ℕ → UInt8 :=
  storeAll 8 mem addr (ws.map UInt64.toNat)

/-- A frame in the user's memory. -/
def SignalFrame.load (mem : ℕ → UInt8) (addr : ℕ) : SignalFrame :=
  .ofWords fun i => loadWord mem (addr + 8 * i)

/-- An action in the user's memory. -/
def SignalAction.load (mem : ℕ → UInt8) (addr : ℕ) : SignalAction :=
  ⟨loadWord mem addr, loadWord mem (addr + 8), loadWord mem (addr + 16), loadWord mem (addr + 24)⟩

namespace Sig

variable (s : Sig)

/-! ## Delivery -/

/-- The address of the frame in `pushSignalFrame`. -/
def frameAddr (userSp : UInt64) : UInt64 := (userSp - UInt64.ofNat frameSize) &&& ~~~15

/-- `pushSignalFrame`: whether there was no fault, the new stack pointer and the memory, unless the
    stack is not to be written. -/
def pushSignalFrame (frame : SignalFrame) : Option (Option (Bool × UInt64 × (ℕ → UInt8))) :=
  let sp := frameAddr s.tf.sp
  (s.proc.checkOperation sp.toNat frameSize .write).bind fun ok =>
    if !ok then some none
    else if s.proc.grants (fun f => f.writable || f.cow) sp.toNat frameSize then
      some (some (s.proc.grants Flags.writable sp.toNat frameSize, sp,
        storeWords s.mem sp.toNat frame.words))
    else none

/-- `executeDefault`. -/
def executeDefault (signum : ℕ) : Delivery :=
  match sigDefaultAction signum with
  | .ign | .cont => .ignored signum
  | .term | .core => .terminated signum
  | .stop => .stopped signum

/-- Where a handler returns to. -/
def restorerAddr (action : SignalAction) : UInt64 :=
  if action.flags &&& saRestorer ≠ 0 ∧ action.restorer ≠ 0 then action.restorer
  else userTrampolineAddr

/-- The end of `signalDispatch`: the handler is to run, with the frame at `newSp`. -/
def enter (signum : ℕ) (action : SignalAction) (newSp : UInt64) (mem : ℕ → UInt8) : Sig :=
  { s with
    mem := mem
    sigMask := s.sigMask ||| (action.mask &&& ~~~unblockable)
    tf := { s.tf with
      sp := newSp
      a0 := UInt64.ofNat signum
      ra := restorerAddr action
      sepc := action.handler } }

/-- `signalDispatch`, for a signal which was taken. -/
def deliver (signum : ℕ) : Option (Delivery × Sig) :=
  let action := s.handler.actions signum
  if action.handler = sigDfl then some (executeDefault signum, s)
  else if action.handler = sigIgn then some (.ignored signum, s)
  else
    (s.pushSignalFrame (.save signum s.tf s.sigMask)).map fun r =>
      match r with
      | none => (.killed signum, s)
      | some (plain, newSp, mem) =>
        (if plain then .handled signum else .faulted signum, s.enter signum action newSp mem)

/-- `SignalHandler::signalDispatch`. -/
def signalDispatch : Option (Delivery × Sig) :=
  let (signum, handler) := s.handler.dequeue s.sigMask
  if signum = 0 then some (.none, s) else deliver { s with handler := handler } signum

/-! ## System calls -/

/-- `SyscallHandler::sys_rt_sigreturn`, and its result. -/
def sysRtSigreturn : Option (UInt64 × Sig) :=
  (s.proc.checkOperation s.tf.sp.toNat frameSize .read).bind fun ok =>
    if !ok then some (efault, s)
    else if s.proc.grants Flags.readable s.tf.sp.toNat frameSize then
      let frame := SignalFrame.load s.mem s.tf.sp.toNat
      some (frame.a0, { s with tf := frame.restore, sigMask := frame.savedMask })
    else none

/-- The system call `rt_sigreturn`: `SyscallHandler::handle` puts the result into `a0`. -/
def sigreturn : Option Sig :=
  s.sysRtSigreturn.map fun r => { r.2 with tf := { r.2.tf with a0 := r.1 } }

/-- `SyscallHandler::sys_rt_sigaction`, and its result; `-1` if `setAction` fails. -/
def sysRtSigaction : Option (UInt64 × Sig) :=
  -- A cast to `int`; negative numbers are rejected just as large ones are.
  let signum := s.tf.a0.toNat % 2 ^ 32
  let actPtr := s.tf.a1.toNat
  let oldPtr := s.tf.a2.toNat
  (if actPtr = 0 then some true else s.proc.checkOperation actPtr 32 .read).bind fun ok =>
    if !ok then some (efault, s)
    else
      match s.handler.setAction signum
        (if actPtr = 0 then none else some (.load s.mem actPtr)) with
      | none => some (-1, s)
      | some (old, handler) =>
        if oldPtr = 0 then some (0, { s with handler := handler })
        else (s.proc.checkOperation oldPtr 32 .write).map fun ok =>
          if ok then (0, { s with
            handler := handler
            mem := storeWords s.mem oldPtr [old.handler, old.flags, old.restorer, old.mask] })
          else (efault, { s with handler := handler })

/-- `Process::sigprocmask`, on the mask of the process: the new mask, unless it fails. -/
def sigprocmask (how : ℕ) (set : Option UInt64) (mask : UInt64) : Option UInt64 :=
  match set with
  | none => some mask
  | some set =>
    if how = 0 then some ((mask ||| set) &&& ~~~unblockable)
    else if how = 1 then some ((mask &&& ~~~set) &&& ~~~unblockable)
    else if how = 2 then some (set &&& ~~~unblockable)
    else none

/-- `SyscallHandler::sys_rt_sigprocmask`, with the mask of the process: the result, the mask, and
    the memory. -/
def sysRtSigprocmask (mask : UInt64) : Option (UInt64 × UInt64 × (ℕ → UInt8)) :=
  let setPtr := s.tf.a1.toNat
  let oldPtr := s.tf.a2.toNat
  (if setPtr = 0 then some true else s.proc.checkOperation setPtr 8 .read).bind fun ok =>
    if !ok then some (efault, mask, s.mem)
    else
      match sigprocmask (s.tf.a0.toNat % 2 ^ 32)
        (if setPtr = 0 then none else some (loadWord s.mem setPtr)) mask with
      | none => some (-1, mask, s.mem)
      | some newMask =>
        if oldPtr = 0 then some (0, newMask, s.mem)
        else (s.proc.checkOperation oldPtr 8 .write).map fun ok =>
          if ok then (0, newMask, storeWords s.mem oldPtr [mask]) else (efault, newMask, s.mem)

end Sig

end HobbyOS
