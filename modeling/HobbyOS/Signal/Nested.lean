import HobbyOS.Process.Pages
import HobbyOS.Signal

/-!
# Nested handlers

While the handler of a signal runs, another signal may be delivered, and so on. The
registers and masks to be restored are in frames on the stack of the user, one below the
other.

As long as handlers leave the frames alone, keep the stack pointer below them, and return
with the stack pointer at their own frame (`Disciplined`), every `rt_sigreturn` restores
all registers and the mask to what they were before the delivery it belongs to, and no
frame overlaps another one, or the stack which was in use (`reachable_roundTrip`).

There are two exceptions (`Accessible`). `pushSignalFrame` asks whether the stack may be written,
and `sys_rt_sigreturn` whether it may be read; for a region which was mapped without
`PROT_READ`, `Process::checkOperation` says that it may not, even though `mprotect` has
made it readable (`unreadable_frame`). And where the stack is shared since a fork, or not mapped
as `checkOperation` says, copying the frame takes a fault in supervisor mode.

The ghost `saved` holds what is to be restored, the innermost delivery first.
-/

namespace HobbyOS

open List Nat Option Signal SignalFrame

/-! ## Frames in memory -/

variable {mem mem' : ℕ → UInt8} {addr : ℕ} {op : Access}

theorem loadWord_storeWords {ws : List UInt64} {i : ℕ} (h : i < ws.length) :
    loadWord (storeWords mem addr ws) (addr + 8 * i) = ws[i] := by
  rw [loadWord, storeWords, loadLE_storeAll (by rwa [length_map]), getElem_map,
    mod_eq_of_lt (b := 256 ^ 8) (UInt64.toNat_lt _), UInt64.ofNat_toNat]

/-- A frame is read back as it was written. -/
theorem SignalFrame.load_storeWords (f : SignalFrame) :
    load (storeWords mem addr f.words) addr = f := by
  have hword (i : ℕ) (h : i < f.words.length) :
      loadWord (storeWords mem addr f.words) (addr + 8 * i) = f.words[i] := loadWord_storeWords h
  have hlen : f.words.length = 35 := rfl
  cases f
  simp only [load, ofWords, SignalFrame.mk.injEq]
  simp only [hlen] at hword
  refine ⟨hword 0 ?_, hword 1 ?_, hword 2 ?_, hword 3 ?_, hword 4 ?_, hword 5 ?_, hword 6 ?_,
    hword 7 ?_, hword 8 ?_, hword 9 ?_, hword 10 ?_, hword 11 ?_, hword 12 ?_, hword 13 ?_,
    hword 14 ?_, hword 15 ?_, hword 16 ?_, hword 17 ?_, hword 18 ?_, hword 19 ?_, hword 20 ?_,
    hword 21 ?_, hword 22 ?_, hword 23 ?_, hword 24 ?_, hword 25 ?_, hword 26 ?_, hword 27 ?_,
    hword 28 ?_, hword 29 ?_, hword 30 ?_, hword 31 ?_, hword 32 ?_, hword 33 ?_, hword 34 ?_⟩
  all_goals decide

/-- A frame is made of its own bytes. -/
theorem SignalFrame.load_congr (h : ∀ x, addr ≤ x → x < addr + frameSize → mem' x = mem x) :
    load mem' addr = load mem addr := by
  have hword (i : ℕ) (hi : i < 35) : loadWord mem' (addr + 8 * i) = loadWord mem (addr + 8 * i) := by
    refine congrArg UInt64.ofNat (loadLE_congr fun x hx hx' => h x (by omega) ?_)
    rw [frameSize]
    omega
  simp only [load, ofWords, SignalFrame.mk.injEq]
  simp (disch := decide) only [hword, and_self]

/-- What is saved is restored. -/
theorem SignalFrame.restore_save (signum : ℕ) (tf : TrapFrame) (mask : UInt64) :
    (save signum tf mask).restore = tf := rfl

theorem SignalFrame.savedMask_save (signum : ℕ) (tf : TrapFrame) (mask : UInt64) :
    (save signum tf mask).savedMask = mask := rfl

/-! ## Where frames are -/

theorem and_not_fifteen (x : UInt64) : (x &&& ~~~15).toNat = x.toNat / 16 * 16 := by
  have hc : (~~~(15 : UInt64)).toNat = (2 ^ 60 - 1) <<< 4 := by decide
  have hx : x.toNat < 2 ^ 64 := x.toNat_lt
  rw [UInt64.toNat_and, hc, ← shiftLeft_eq _ 4, ← shiftRight_eq_div_pow _ 4]
  -- Bit by bit: the lowest four bits are cleared.
  refine eq_of_testBit_eq fun i => ?_
  rw [testBit_and, testBit_shiftLeft, testBit_shiftLeft, testBit_shiftRight,
    testBit_two_pow_sub_one]
  rcases Nat.lt_or_ge i 4 with h | h
  · simp [Nat.not_le.2 h]
  simp only [h, decide_true, Bool.true_and, Nat.add_sub_cancel' h]
  rcases Nat.lt_or_ge i 64 with h' | h'
  · simp [show i - 4 < 60 by omega]
  · rw [testBit_lt_two_pow (lt_of_lt_of_le hx (Nat.pow_le_pow_right (by decide) h'))]
    rfl

/-- The address space ends at `top` for the descriptors, and so it does for what is checked. -/
theorem checkRange_le {ds : List SegmentDesc} {start stop top : ℕ} (hds : ∀ d ∈ ds, d.stop ≤ top)
    (hlt : start < stop) (h : checkRange ds op start stop = true) : stop ≤ top := by
  fun_induction checkRange ds op start stop with
  | case1 => cases h
  | case2 start hlt' desc hfind ih =>
    rw [Bool.and_eq_true] at h
    rcases Nat.lt_or_ge desc.stop stop with hmore | hdone
    · exact ih hmore h.2
    · exact hdone.trans (hds desc (mem_of_find?_eq_some hfind))
  | case3 start hge => exact absurd hlt hge

/-- The segments and the regions of the process are in the lower half of the address space. -/
structure Process.Confined (p : Process) : Prop where
  segments : ∀ d ∈ p.segTable.descs, d.stop ≤ userTop
  regions : ∀ m, p.mmap = some m → ∀ r ∈ m.regions, r.vaEnd ≤ userTop

/-- What the kernel may use is in the lower half. -/
theorem Process.Confined.check {p : Process} {len : ℕ} (h : p.Confined) (hpos : 0 < len)
    (hlen : len < 2 ^ 64) (haddr : addr < 2 ^ 64) (hc : p.checkOperation addr len op = some true) :
    addr + len ≤ userTop := by
  rw [Process.checkOperation] at hc
  split at hc
  · cases hc
  next hle =>
    -- The end does not wrap around, or it would come before the start.
    have hstop : (addr + len) % 2 ^ 64 = addr + len := by
      refine mod_eq_of_lt ?_
      by_contra hge
      rw [mod_eq_sub_mod (not_lt.1 hge), mod_eq_of_lt (by omega)] at hle
      omega
    rw [hstop] at hc
    split at hc
    next hseg => exact checkRange_le h.segments (by omega) hseg
    · obtain ⟨m, hm, hc⟩ := map_eq_some_iff.1 hc
      refine checkRange_le (fun d hd => ?_) (by omega) hc
      obtain ⟨r, hr, rfl⟩ := List.mem_map.1 hd
      exact h.regions m hm r hr

namespace Sig

variable {s s' : Sig}

/-- The frame is pushed below the stack pointer. -/
theorem frameAddr_add_le (h : s.proc.Confined)
    (hc : s.proc.checkOperation (frameAddr s.tf.sp).toNat frameSize .write = some true) :
    (frameAddr s.tf.sp).toNat + frameSize ≤ s.tf.sp.toNat := by
  have hle := h.check (by decide) (by decide) (UInt64.toNat_lt _) hc
  have hsp := s.tf.sp.toNat_lt
  have haddr : (frameAddr s.tf.sp).toNat = (s.tf.sp - UInt64.ofNat frameSize).toNat / 16 * 16 :=
    and_not_fifteen _
  have hsub : (s.tf.sp - UInt64.ofNat frameSize).toNat = (2 ^ 64 - 280 + s.tf.sp.toNat) % 2 ^ 64 :=
    UInt64.toNat_sub ..
  -- If the stack pointer were too low for a frame, then the frame would be in the upper half.
  simp only [userTop, frameSize] at *
  omega

/-- What `signalDispatch` does when a handler is to run. -/
theorem signalDispatch_entered {d : Delivery} {signum : ℕ} (h : s.signalDispatch = some (d, s'))
    (hd : d.entered = some signum) :
    s.proc.checkOperation (frameAddr s.tf.sp).toNat frameSize .write = some true ∧
      (s.proc.grants Flags.writable (frameAddr s.tf.sp).toNat frameSize → d = .handled signum) ∧
      ∃ handler action, s' = enter { s with handler := handler } signum action (frameAddr s.tf.sp)
        (storeWords s.mem (frameAddr s.tf.sp).toNat
          (save signum s.tf s.sigMask).words) := by
  rw [signalDispatch] at h
  dsimp only at h
  split at h
  · cases h
    cases hd
  rw [deliver] at h
  split at h
  · rw [executeDefault] at h
    split at h <;> cases h <;> cases hd
  split at h
  · cases h
    cases hd
  obtain ⟨r, hpush, hr⟩ := map_eq_some_iff.1 h
  obtain ⟨ok, hok, hpush⟩ := bind_eq_some_iff.1 hpush
  split_ifs at hpush with hno <;> cases hpush
  · cases hr
    cases hd
  · cases hr
    obtain rfl : ok = true := by simpa using hno
    split at hd <;> cases hd
    · exact ⟨hok, fun _ => by simp_all, _, _, rfl⟩
    · exact ⟨hok, fun _ => by simp_all, _, _, rfl⟩

/-- Otherwise the registers, the memory and the mask are left alone. -/
theorem signalDispatch_other {d : Delivery} (h : s.signalDispatch = some (d, s'))
    (hd : d.entered = none) : ∃ handler, s' = { s with handler := handler } := by
  rw [signalDispatch] at h
  dsimp only at h
  split at h
  · cases h
    exact ⟨_, rfl⟩
  rw [deliver] at h
  split at h
  · cases h
    exact ⟨_, rfl⟩
  split at h
  · cases h
    exact ⟨_, rfl⟩
  obtain ⟨r, -, hr⟩ := map_eq_some_iff.1 h
  cases r with
  | none =>
    cases hr
    exact ⟨_, rfl⟩
  | some r =>
    cases hr
    split at hd <;> cases hd

/-- `rt_sigreturn` of a frame which may be read. -/
theorem sigreturn_eq (h : s.proc.checkOperation s.tf.sp.toNat frameSize .read = some true)
    (hg : s.proc.grants Flags.readable s.tf.sp.toNat frameSize) :
    s.sigreturn = some { s with
      tf := (load s.mem s.tf.sp.toNat).restore
      sigMask := (load s.mem s.tf.sp.toNat).savedMask } := by
  rw [sigreturn, sysRtSigreturn, h, bind_some, if_neg (by decide), if_pos hg]
  generalize load s.mem s.tf.sp.toNat = f
  rfl

end Sig

/-! ## Runs -/

/-- What a delivery has to restore, and where its frame is. -/
structure Saved where
  tf : TrapFrame
  mask : UInt64
  addr : ℕ

/-- A thread, and the deliveries which have not returned. -/
structure Nested where
  sig : Sig
  saved : List Saved

/-- What happens to a thread. -/
inductive NestedEvent
  /-- A trap ends. -/
  | deliver
  /-- The user's program goes on for a while, and makes system calls. -/
  | user (sig : Sig)
  /-- The system call `rt_sigreturn`. -/
  | sigreturn

namespace Nested

variable (n : Nested)

/-- One step; the process may end, and it is not followed any further when copying a frame takes a
    fault. -/
def step : NestedEvent → Option (Nested × Delivery)
  | .deliver => n.sig.signalDispatch.bind fun r =>
    match r.1 with
    | .handled signum =>
      some (⟨r.2, ⟨n.sig.tf, n.sig.sigMask, r.2.tf.sp.toNat⟩ :: n.saved⟩, .handled signum)
    | .faulted _ | .terminated _ | .killed _ => none
    | d => some (⟨r.2, n.saved⟩, d)
  | .user sig => some (⟨sig, n.saved⟩, .none)
  | .sigreturn => n.sig.sigreturn.map fun sig => (⟨sig, n.saved.tail⟩, .none)

/-- The program leaves the frames alone, keeps the stack pointer below them, and returns with the
    stack pointer at the innermost one. -/
def Disciplined : NestedEvent → Prop
  | .deliver => True
  | .user sig => sig.proc.Confined ∧
    (∀ r ∈ n.saved, ∀ x, r.addr ≤ x → x < r.addr + frameSize → sig.mem x = n.sig.mem x) ∧
    ∀ r ∈ n.saved.head?, sig.tf.sp.toNat ≤ r.addr
  | .sigreturn => ∃ r ∈ n.saved.head?, n.sig.tf.sp.toNat = r.addr

/-- The frame can be written without a fault; and the one which is returned from may be read, and can
    be. -/
def Accessible : NestedEvent → Prop
  | .deliver => n.sig.proc.grants Flags.writable (Sig.frameAddr n.sig.tf.sp).toNat frameSize
  | .sigreturn => n.sig.proc.checkOperation n.sig.tf.sp.toNat frameSize .read = some true ∧
    n.sig.proc.grants Flags.readable n.sig.tf.sp.toNat frameSize
  | .user _ => True

variable {n} {n' : Nested} {d : Delivery}

/-- The frames are in memory, one below the other. -/
structure Intact (n : Nested) : Prop where
  confined : n.sig.proc.Confined
  below : ∀ r ∈ n.saved.head?, n.sig.tf.sp.toNat ≤ r.addr
  apart : n.saved.Pairwise fun inner outer => inner.tf.sp.toNat ≤ outer.addr
  room : ∀ r ∈ n.saved, r.addr + frameSize ≤ r.tf.sp.toNat
  stored : ∀ r ∈ n.saved, ∃ signum, load n.sig.mem r.addr = .save signum r.tf r.mask

/-- The stack pointer is below all frames. -/
theorem Intact.sp_le (h : n.Intact) : ∀ r ∈ n.saved, n.sig.tf.sp.toNat ≤ r.addr := by
  obtain ⟨-, hbelow, hapart, hroom, -⟩ := h
  intro r hr
  cases hs : n.saved with
  | nil => simp [hs] at hr
  | cons r0 rs =>
    rw [hs] at hbelow hapart hroom hr
    have h0 := hbelow r0 rfl
    rcases mem_cons.1 hr with rfl | hr
    · exact h0
    · have h1 := (pairwise_cons.1 hapart).1 r hr
      have h2 := hroom r0 (.head _)
      omega

theorem Intact.deliver (h : n.Intact) (hs : n.step .deliver = some (n', d)) : n'.Intact := by
  obtain ⟨⟨d', s'⟩, hd, hs⟩ := bind_eq_some_iff.1 hs
  -- Nothing happens to the frames unless a handler is to run.
  have hother (hd' : d'.entered = none) : Intact ⟨s', n.saved⟩ := by
    obtain ⟨handler, rfl⟩ := Sig.signalDispatch_other hd hd'
    exact ⟨h.confined, h.below, h.apart, h.room, h.stored⟩
  cases d' with
  | terminated | killed | faulted => cases hs
  | none | ignored | stopped =>
    cases hs
    exact hother rfl
  | handled signum =>
    cases hs
    obtain ⟨hcheck, -, handler, action, rfl⟩ := Sig.signalDispatch_entered hd rfl
    have hle := Sig.frameAddr_add_le h.confined hcheck
    refine ⟨h.confined, fun r hr => ?_, ?_, fun r hr => ?_, fun r hr => ?_⟩
    · obtain rfl := mem_some_iff.1 hr
      exact le_rfl
    · exact pairwise_cons.2 ⟨h.sp_le, h.apart⟩
    · rcases mem_cons.1 hr with rfl | hr
      · exact hle
      · exact h.room r hr
    · rcases mem_cons.1 hr with rfl | hr
      · exact ⟨signum, load_storeWords _⟩
      · -- The new frame is below this one.
        obtain ⟨signum', hload⟩ := h.stored r hr
        refine ⟨signum', (load_congr fun x hx _ => ?_).trans hload⟩
        have hbelow := h.sp_le r hr
        exact storeAll_of_notMem (.inr (hle.trans (hbelow.trans hx)))

theorem Intact.user {sig : Sig} (h : n.Intact) (hok : n.Disciplined (.user sig)) :
    Intact ⟨sig, n.saved⟩ := by
  obtain ⟨hconfined, hmem, hsp⟩ := hok
  refine ⟨hconfined, hsp, h.apart, h.room, fun r hr => ?_⟩
  obtain ⟨signum, hload⟩ := h.stored r hr
  exact ⟨signum, (load_congr (hmem r hr)).trans hload⟩

/-- `rt_sigreturn` restores what the innermost delivery saved. -/
theorem Intact.sigreturn (h : n.Intact) (hok : n.Disciplined .sigreturn)
    (hread : n.Accessible .sigreturn) : ∃ r sig, n.saved = r :: n.saved.tail ∧
      n.step .sigreturn = some (⟨sig, n.saved.tail⟩, .none) ∧ sig.tf = r.tf ∧ sig.sigMask = r.mask ∧
      sig.proc = n.sig.proc ∧ sig.mem = n.sig.mem := by
  obtain ⟨r, hr, hsp⟩ := hok
  obtain ⟨rs, hs⟩ : ∃ rs, n.saved = r :: rs := List.head?_eq_some_iff.1 hr
  obtain ⟨signum, hload⟩ := h.stored r (by rw [hs]; exact (.head _))
  refine ⟨r, { n.sig with tf := r.tf, sigMask := r.mask }, by rw [hs]; rfl, ?_, rfl, rfl, rfl, rfl⟩
  rw [step, Sig.sigreturn_eq hread.1 hread.2, hsp, hload, restore_save, savedMask_save]
  rfl

theorem step_intact {e : NestedEvent} (h : n.Intact) (hok : n.Disciplined e)
    (hread : n.Accessible e) (hs : n.step e = some (n', d)) : n'.Intact := by
  cases e with
  | deliver => exact h.deliver hs
  | user sig =>
    cases hs
    exact h.user hok
  | sigreturn =>
    obtain ⟨r, sig, hsaved, hstep, htf, -, hproc, hmem⟩ := h.sigreturn hok hread
    rw [hstep] at hs
    cases hs
    have hapart := h.apart
    rw [hsaved] at hapart
    have htail {c : Saved} (hc : c ∈ n.saved.tail) : c ∈ n.saved := mem_of_mem_tail hc
    refine ⟨hproc ▸ h.confined, fun c hc => ?_, (pairwise_cons.1 hapart).2,
      fun c hc => h.room c (htail hc), fun c hc => hmem ▸ h.stored c (htail hc)⟩
    rw [htf]
    exact (pairwise_cons.1 hapart).1 c (mem_of_mem_head? hc)

/-- In every state reached, no frame overlaps another one, or the stack which was in use when it
    was pushed; a handler is entered without a fault, and `rt_sigreturn` restores all registers and
    the mask to what they were before the delivery it belongs to. -/
theorem reachable_roundTrip {s0 : Sig} (hconfined : s0.proc.Confined)
    (hrun : Reaches (fun n => n.step) (fun n e => n.Disciplined e ∧ n.Accessible e) ⟨s0, []⟩ n) :
    (n.saved.Pairwise fun inner outer => inner.addr + frameSize ≤ outer.addr ∧
      inner.addr + frameSize ≤ outer.tf.sp.toNat) ∧
    (∀ r ∈ n.saved, r.addr + frameSize ≤ r.tf.sp.toNat) ∧
    (n.Accessible .deliver → ∀ d s signum, n.sig.signalDispatch = some (d, s) →
      d.entered = some signum → n.step .deliver =
        some (⟨s, ⟨n.sig.tf, n.sig.sigMask, s.tf.sp.toNat⟩ :: n.saved⟩, .handled signum)) ∧
    (n.Disciplined .sigreturn → n.Accessible .sigreturn → ∃ r n',
      n.step .sigreturn = some (n', .none) ∧ n.saved = r :: n'.saved ∧
      n'.sig.tf = r.tf ∧ n'.sig.sigMask = r.mask) := by
  have h : n.Intact := hrun.inv (I := Intact)
    (fun _ _ _ _ hI hok hs => step_intact hI hok.1 hok.2 hs)
    ⟨hconfined, nofun, .nil, nofun, nofun⟩
  refine ⟨?_, h.room, fun hacc d s signum hs hd => ?_, fun hok hread => ?_⟩
  · refine h.apart.imp_of_mem fun {inner outer} hi ho hle => ?_
    have h1 := h.room inner hi
    have h2 := h.room outer ho
    omega
  · obtain ⟨-, hplain, -⟩ := Sig.signalDispatch_entered hs hd
    obtain rfl := hplain hacc
    rw [step, hs]
    rfl
  · obtain ⟨r, sig, hsaved, hstep, htf, hmask, -⟩ := h.sigreturn hok hread
    exact ⟨r, _, hstep, hsaved, htf, hmask⟩

/-! ## A stack in a region -/

instance (p : Process) : Decidable p.Confined :=
  decidable_of_iff ((∀ d ∈ p.segTable.descs, d.stop ≤ userTop) ∧
    ∀ m ∈ p.mmap, ∀ r ∈ m.regions, r.vaEnd ≤ userTop) ⟨fun h => ⟨h.1, h.2⟩, fun h => ⟨h.1, h.2⟩⟩

instance (n : Nested) (e : NestedEvent) : Decidable (n.Disciplined e) := by
  cases e <;> unfold Disciplined <;> infer_instance

instance (n : Nested) (e : NestedEvent) : Decidable (n.Accessible e) := by
  cases e <;> unfold Accessible <;> infer_instance

/-- A process maps a page with `prot`, and makes it readable and writable. -/
def mappedIn (prot : Access) : Sys ℕ :=
  lastState (Sys.step .counting) Sys.boot [.create 0,
    .mmap 0 ⟨mmapBase, pageSize, prot, ⟨false, true, true, true⟩, -1, none⟩,
    .mprotect 0 mmapBase pageSize .readWrite]

/-- This process. -/
def mapped (prot : Access) : Process := (mappedIn prot).proc 0

/-- A thread whose stack is this page, with handlers for `SIGUSR1` and `SIGUSR2`, which are
    pending. -/
def usr (prot : Access) : Sig where
  tf := {
    (ofWords fun i => UInt64.ofNat (100 + i)).restore with
    sp := UInt64.ofNat (mmapBase + pageSize) }
  sigMask := 0
  handler := ⟨sigBit 10 ||| sigBit 12, fun _ => ⟨0x1000, 0, 0, 0⟩⟩
  proc := mapped prot
  mem _ := 0

/-- Two handlers, one within the other; the inner one has returned, and the outer one is about
    to. -/
def nested : Nested :=
  lastState (guarded (fun n => n.step) fun n e => n.Disciplined e ∧ n.Accessible e)
    ⟨usr .readWrite, []⟩ [.deliver, .deliver, .sigreturn]

theorem reachable_roundTrip_nested : ∃ r n', nested.step .sigreturn = some (n', .none) ∧
    nested.saved = r :: n'.saved ∧ n'.sig.tf = r.tf ∧ n'.sig.sigMask = r.mask := by
  have hconfined : (usr .readWrite).proc.Confined := by decide +kernel
  exact (reachable_roundTrip hconfined (.lastState _ _)).2.2.2 (by decide +kernel)
    (by decide +kernel)

/-- A handler starts. -/
def entered : Nested := lastState (fun n => n.step) ⟨usr .write, []⟩ [.deliver]

/-- The handler has returned to the trampoline, which is about to call `rt_sigreturn`. -/
def returned : Nested :=
  lastState (guarded (fun n => n.step) Disciplined) ⟨usr .write, []⟩ [.deliver,
    .user { entered.sig with tf := { entered.sig.tf with sepc := userTrampolineAddr, a7 := 139 } }]

/-- A handler leaves its frame alone, and returns with the stack pointer at the frame, on a page
    which the user can read and write. Nothing is restored: `rt_sigreturn` fails. -/
theorem unreadable_frame : ∃ n : Nested, Reaches (fun n => n.step) Disciplined ⟨usr .write, []⟩ n ∧
    n.Disciplined .sigreturn ∧ ∃ r, n.saved.head? = some r ∧
    ((n.sig.proc.pmt.getFlags (vpn r.addr)).r ∧ (n.sig.proc.pmt.getFlags (vpn r.addr)).w) ∧
    ∃ n', n.step .sigreturn = some (n', .none) ∧ n'.sig.tf.a0 = efault ∧
      n'.sig.tf.sepc ≠ r.tf.sepc :=
  ⟨returned, .lastState _ _, by decide +kernel⟩

end Nested

end HobbyOS
