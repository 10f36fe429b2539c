import HobbyOS.Signal.Threads

/-!
# Forks of threads

`clone` without `CLONE_THREAD` makes a child which should go on like the thread which calls
it. But `Process::fork` belongs to the process: it copies the `TrapFrame` and the mask of the
process, which are those of its first thread. So the child is a copy of the caller if, and only if,
the caller is the first thread, or does not differ from it (`sysClone_copies_iff`); otherwise it
goes on where the first thread took its last trap (`copies_first_thread`).
-/

namespace HobbyOS

open Function Option

namespace Group

variable {σ : Type*} {P : Pool σ ℕ} {g g' child : Group} {pid : ℕ} {kstackTop : UInt64}
  {ph ph' : Phys σ} {shared shared' : SharedRefs}

/-- `Process::fork`, for a child with this number and kernel stack: the process, and the child. -/
def fork (P : Pool σ ℕ) (g : Group) (pid : ℕ) (kstackTop : UInt64) (ph : Phys σ)
    (shared : SharedRefs) : Option (Phys σ × SharedRefs × Group × Option Group) := do
  let (ph, shared, parent, child) ← g.proc.fork P ph shared
  some (ph, shared, { g with proc := parent }, child.map fun proc => {
    leader := pid
    running := pid
    tids := {pid}
    tf _ := { g.tf g.leader with a0 := 0, kstack := kstackTop }
    sigMask _ := g.sigMask g.leader
    kstackTop _ := kstackTop
    -- `SignalHandler::clone` takes over the actions only.
    handler := { g.handler with pending := 0 }
    proc := proc
    mem := g.mem })

/-- `SyscallHandler::sys_clone` without `CLONE_THREAD`, with its result in `a0`. -/
def sysClone (P : Pool σ ℕ) (g : Group) (pid : ℕ) (kstackTop : UInt64) (ph : Phys σ)
    (shared : SharedRefs) : Option (Phys σ × SharedRefs × Group × Option Group) := do
  let (ph, shared, g, child) ← g.fork P pid kstackTop ph shared
  let result := child.elim (-1) fun c => UInt64.ofNat c.leader
  some (ph, shared,
    { g with tf := update g.tf g.running { g.tf g.running with a0 := result } }, child)

/-- The child is a copy of the thread which was running, and this thread is told its number. -/
structure Copies (g g' child : Group) : Prop where
  tf : ∃ kstack, child.tf child.running = { g.tf g.running with a0 := 0, kstack := kstack }
  sigMask : child.sigMask child.running = g.sigMask g.running
  result : (g'.tf g.running).a0 = UInt64.ofNat child.leader

/-- The running thread has the mask and the registers of the first one, except for `a0`, and for
    its own kernel stack. -/
def LikeFirst (g : Group) : Prop :=
  g.sigMask g.running = g.sigMask g.leader ∧ g.tf g.running =
    { g.tf g.leader with a0 := (g.tf g.running).a0, kstack := (g.tf g.running).kstack }

theorem sysClone_eq (h : g.sysClone P pid kstackTop ph shared = some (ph', shared', g', some child)) :
    child.running = pid ∧ child.tf pid = { g.tf g.leader with a0 := 0, kstack := kstackTop } ∧
      child.sigMask pid = g.sigMask g.leader ∧
      (g'.tf g.running).a0 = UInt64.ofNat child.leader := by
  obtain ⟨⟨ph1, shared1, g1, child1⟩, hf, h⟩ := bind_eq_some_iff.1 h
  obtain ⟨⟨ph2, shared2, parent, proc⟩, -, ⟨⟩⟩ := bind_eq_some_iff.1 hf
  cases proc with
  | none => cases h
  | some proc =>
    cases h
    refine ⟨rfl, rfl, rfl, ?_⟩
    dsimp only
    rw [update_self]
    rfl

/-- A fork copies the running thread if, and only if, this is the first thread of the process, or
    is like it. -/
theorem sysClone_copies_iff
    (h : g.sysClone P pid kstackTop ph shared = some (ph', shared', g', some child)) :
    Copies g g' child ↔ g.running = g.leader ∨ g.LikeFirst := by
  obtain ⟨hrun, htf, hmask, hresult⟩ := sysClone_eq h
  constructor
  · rintro ⟨⟨kstack, hcopy⟩, hsame, -⟩
    rw [hrun] at hcopy hsame
    refine .inr ⟨hsame.symm.trans hmask, ?_⟩
    -- Both sides of `hcopy`, with the two registers of the running thread.
    exact congrArg (fun tf : TrapFrame => { tf with
      a0 := (g.tf g.running).a0, kstack := (g.tf g.running).kstack }) (hcopy.symm.trans htf)
  · intro hfirst
    have hlike : g.LikeFirst := by
      refine hfirst.elim (fun he => ?_) id
      rw [LikeFirst, he]
      exact ⟨rfl, rfl⟩
    refine ⟨⟨kstackTop, ?_⟩, ?_, hresult⟩
    · rw [hrun, htf, hlike.2]
    · rw [hrun, hmask, hlike.1]

/-- A second thread of a process with a page runs, at another place. -/
def second : Group :=
  lastState (fun g => g.step) single
    [.clone 1 { single.sig.tf with sepc := 0x2000 } 0xffffffff80020000, .switch 1]

/-- The memory of this process. -/
def memory : Sys ℕ := Nested.mappedIn .readWrite

/-- A fork of this process has a child which goes on there. -/
theorem fork_sepc (g : Group) (sepc : UInt64) (h : ((g.sysClone .counting 2 0xffffffff80030000
      memory.ph memory.shared).bind (·.2.2.2)).map (fun c => (c.tf c.running).sepc) = some sepc) :
    ∃ ph shared g' child, g.sysClone .counting 2 0xffffffff80030000 memory.ph memory.shared =
      some (ph, shared, g', some child) ∧ (child.tf child.running).sepc = sepc := by
  obtain ⟨child, hc, hsepc⟩ := map_eq_some_iff.1 h
  obtain ⟨⟨ph, shared, g', o⟩, hg, ⟨⟩⟩ := bind_eq_some_iff.1 hc
  exact ⟨ph, shared, g', child, hg, hsepc⟩

/-- The first thread runs again, and forks. -/
theorem sysClone_copies_iff_first : ∃ ph shared g' child,
    (second.dispatch 0).sysClone .counting 2 0xffffffff80030000 memory.ph memory.shared =
      some (ph, shared, g', some child) ∧ Copies (second.dispatch 0) g' child := by
  obtain ⟨ph, shared, g', child, h, -⟩ := fork_sepc (second.dispatch 0) 101 (by decide +kernel)
  exact ⟨ph, shared, g', child, h, (sysClone_copies_iff h).2 (.inl rfl)⟩

/-- The second thread forks, and the child goes on where the first thread is. -/
theorem copies_first_thread : ∃ ph shared g' child,
    second.sysClone .counting 2 0xffffffff80030000 memory.ph memory.shared =
      some (ph, shared, g', some child) ∧ (second.tf second.running).sepc = 0x2000 ∧
    (child.tf child.running).sepc = (second.tf second.leader).sepc ∧ ¬ Copies second g' child := by
  have hsepc : (second.tf second.leader).sepc = 101 ∧ (second.tf second.running).sepc = 0x2000 := by
    decide +kernel
  obtain ⟨ph, shared, g', child, h, hchild⟩ := fork_sepc second 101 (by decide +kernel)
  refine ⟨ph, shared, g', child, h, hsepc.2, hchild.trans hsepc.1.symm, ?_⟩
  rintro ⟨⟨kstack, hcopy⟩, -, -⟩
  rw [hcopy] at hchild
  exact absurd (hsepc.2.symm.trans hchild) (by decide)

end Group

end HobbyOS
