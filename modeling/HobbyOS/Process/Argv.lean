import HobbyOS.Process.Stack

/-!
# The initial stack, read back

A program which starts reads its arguments from the stack pointer upwards: their number, their
addresses, those of the environment, and the auxiliary vector (`ReadsBack`).

But `setupInitialStack` pushes the strings of the environment only if there are arguments. If there
are none, their addresses are what happens to be in an array of the kernel. So the stack can be read
back, whatever is in this array, if and only if there are arguments, or no environment
(`readsBack_iff`).
-/

namespace HobbyOS

open Function List

namespace Stack

variable {top va : ℕ} {s t : Stack} {mem : ℕ → ℕ → UInt8} {bs : List UInt8} {vas : List ℕ}
  {strs : List (List UInt8)}

/-! ## Reading -/

/-- The memory of the user, where the block which ends at `top` is mapped as the stack. -/
def user (top : ℕ) (mem : ℕ → ℕ → UInt8) (va : ℕ) : UInt8 :=
  mem ((top - (userStackTop - va)) / pageSize) ((top - (userStackTop - va)) % pageSize)

/-- The user finds these bytes on the stack, above its pointer. -/
structure Reads (top : ℕ) (s : Stack) (va : ℕ) (bs : List UInt8) : Prop where
  le : s.virtAddr ≤ va
  le_top : va + bs.length ≤ userStackTop
  eq : ∀ i (hi : i < bs.length), user top s.mem (va + i) = bs[i]

/-- The user finds these strings. -/
def ReadsStrings (top : ℕ) (s : Stack) (vas : List ℕ) (strs : List (List UInt8)) : Prop :=
  List.Forall₂ (fun va str => s.Reads top va (str ++ [0])) vas strs

/-- The words of 64 bits from the stack pointer on. -/
def readWords (top : ℕ) (s : Stack) (count : ℕ) : List ℕ :=
  (List.range count).map fun i => loadLE (user top s.mem) (s.virtAddr + 8 * i) 8

theorem write_getElem {addr i : ℕ} (hi : i < bs.length) :
    write mem addr bs ((addr + i) / pageSize) ((addr + i) % pageSize) = bs[i] := by
  induction bs generalizing mem addr i with
  | nil => cases hi
  | cons b bs ih =>
    cases i with
    | zero => exact write_cons_self b
    | succ i =>
      rw [write, ← Nat.add_assoc, Nat.add_right_comm]
      exact ih (Nat.lt_of_succ_lt_succ hi)

section Pushed

variable (htop : userStackSize ≤ top)

include htop

/-- What is pushed can be read. -/
theorem push_reads (hfit : (s.push top bs).used ≤ userStackSize) :
    (s.push top bs).Reads top (s.push top bs).virtAddr bs := by
  have hsize : userStackSize ≤ userStackTop := by decide
  have hused : (s.push top bs).used = s.used + bs.length := rfl
  have hvirt : (s.push top bs).virtAddr = userStackTop - (s.used + bs.length) := rfl
  refine ⟨le_rfl, by omega, fun i hi => ?_⟩
  have haddr : top - (userStackTop - (userStackTop - (s.used + bs.length) + i)) =
      top - (s.used + bs.length) + i := by omega
  rw [hvirt, user, haddr]
  exact write_getElem hi

section

variable (h : Moves top s t) (hfit : t.used ≤ userStackSize)

include h hfit

/-- What is pushed later is below. -/
theorem Moves.user_eq (hva : s.virtAddr ≤ va) : user top t.mem va = user top s.mem va := by
  induction h with
  | refl => rfl
  | @push t bs hm ih =>
    have hused : (t.push top bs).used = t.used + bs.length := rfl
    have hvirt : s.virtAddr = userStackTop - s.used := rfl
    have hle := hm.grows.used
    refine (write_of_notMem (.inr ?_)).trans (ih (by omega))
    rw [Nat.div_add_mod']
    omega
  | skip n _ ih => exact ih ((Nat.le_add_right ..).trans hfit)

theorem Moves.reads (hr : s.Reads top va bs) : t.Reads top va bs where
  le := (Nat.sub_le_sub_left h.grows.used _).trans hr.le
  le_top := hr.le_top
  eq i hi := (h.user_eq htop hfit (hr.le.trans (Nat.le_add_right ..))).trans (hr.eq i hi)

theorem Moves.readsStrings (hr : s.ReadsStrings top vas strs) : t.ReadsStrings top vas strs :=
  hr.imp fun _ _ => h.reads htop hfit

end

/-- The strings can be read at their addresses. -/
theorem pushStrings_reads (hfit : (s.pushStrings top strs).2.used ≤ userStackSize) :
    (s.pushStrings top strs).2.ReadsStrings top (s.pushStrings top strs).1 strs := by
  induction strs with
  | nil => exact .nil
  | cons str strs ih =>
    exact .cons (push_reads htop hfit)
      (Moves.readsStrings htop (.push _ .refl) hfit (ih ((Nat.le_add_right ..).trans hfit)))

/-- The words can be read, from the last one on. -/
theorem pushWords_reads {words : List ℕ} (ht : words.foldl (fun s v => s.push8 top v) s = t)
    (hfit : t.used ≤ userStackSize) :
    t.readWords top words.length = words.reverse.map (· % 2 ^ 64) := by
  induction words using List.reverseRecOn generalizing t with
  | nil => rfl
  | append_singleton words v ih =>
    rw [foldl_append] at ht
    generalize hu : words.foldl (fun s v => s.push8 top v) s = u at ht
    obtain rfl : u.push8 top v = t := ht
    have hle : u.used + 8 ≤ userStackSize := hfit
    have hsize : userStackSize ≤ userStackTop := by decide
    have hvirt : (u.push8 top v).virtAddr = userStackTop - (u.used + 8) := rfl
    have hvirt' : u.virtAddr = userStackTop - u.used := rfl
    have hfirst : loadLE (user top (u.push8 top v).mem) (u.push8 top v).virtAddr 8 = v % 2 ^ 64 :=
      loadLE_of_bytes fun k hk => by
        refine ((push_reads htop hfit).eq k (by simpa using hk)).trans ?_
        simp
    rw [length_append, length_singleton, reverse_append, reverse_singleton,
      singleton_append, map_cons, ← ih hu (le_trans (Nat.le_add_right ..) hfit), readWords,
      readWords, range_succ_eq_map, map_cons, map_map]
    refine congrArg₂ _ hfirst (map_congr_left fun i _ => ?_)
    -- The other words are where they have been.
    have haddr : (u.push8 top v).virtAddr + 8 * (i + 1) = u.virtAddr + 8 * i := by omega
    refine (congrArg (fun a => loadLE _ a 8) haddr).trans (loadLE_congr fun va hva _ => ?_)
    exact Moves.user_eq htop (.push _ .refl) hfit (by omega)

end Pushed

end Stack

/-! ## The layout -/

/-- The arguments a program gets. -/
def ExecArgs.given (args : ExecArgs) : List (List UInt8) :=
  if args.argv = [] then [args.path] else args.argv

/-- The auxiliary vector: `AT_PHDR`, `AT_PHENT`, `AT_PHNUM`, `AT_PAGESZ`, `AT_HWCAP`, `AT_RANDOM`,
    `AT_ENTRY`, the four numbers of the user and of the group, `AT_SECURE`, and `AT_NULL`. -/
def auxv (info : ElfLoadInfo) (random : ℕ) : List ℕ :=
  [3, info.phdrVa, 4, info.phent, 5, info.phnum, 6, 4096, 16, 0, 25, random, 9, info.entry,
    11, 0, 12, 0, 13, 0, 14, 0, 23, 0, 0, 0]

/-- What a program reads: the words, and what is at the addresses among them. -/
structure Layout (args : ExecArgs) (info : ElfLoadInfo) (top : ℕ) (s : Stack) (argv envp : List ℕ)
    (random : ℕ) : Prop where
  words : s.readWords top (29 + envp.length + argv.length) =
    (argv.length :: argv ++ 0 :: envp ++ 0 :: auxv info random).map (· % 2 ^ 64)
  argv : s.ReadsStrings top argv args.given
  random : s.Reads top random (List.replicate 16 0)

/-- A program with this memory and this stack pointer reads what was given to `Process::exec`. -/
def ReadsBack (args : ExecArgs) (info : ElfLoadInfo) (top : ℕ) (r : (ℕ → ℕ → UInt8) × ℕ) : Prop :=
  r.2 % 16 = 0 ∧ ∃ s argv envp random, r = (s.mem, s.virtAddr) ∧
    Layout args info top s argv envp random ∧ s.ReadsStrings top envp args.envp

variable {args : ExecArgs} {info : ElfLoadInfo} {ustack : ℕ}

namespace Stack

variable {top : ℕ} (htop : userStackSize ≤ top)

include htop

/-- The strings of the environment can be read only if there are arguments. -/
theorem pushArgs_reads {s : Stack} {r : List ℕ × List ℕ × Stack} (hr : pushArgs args top s = r)
    (hfit : r.2.2.used ≤ userStackSize) : r.2.2.ReadsStrings top r.1 args.given ∧
      if args.argv = [] then r.2.1 = (List.range args.envp.length).map args.junkAddr
      else r.2.2.ReadsStrings top r.2.1 args.envp := by
  subst hr
  rw [ExecArgs.given]
  rw [pushArgs] at hfit ⊢
  split_ifs at hfit ⊢ with hargv
  · exact ⟨.cons (push_reads htop hfit) .nil, rfl⟩
  · have hmoves : Moves top (s.pushStrings top args.envp).2 _ := Moves.refl.pushStrings args.argv
    exact ⟨pushStrings_reads htop hfit, hmoves.readsStrings htop hfit
      (pushStrings_reads htop (hmoves.grows.used.trans hfit))⟩

theorem pushAll_layout {s0 s : Stack} (hs : pushAll args info top s0 = s)
    (hfit : s.used ≤ userStackSize) : ∃ argv envp random, Layout args info top s argv envp random ∧
      if args.argv = [] then envp = (List.range args.envp.length).map args.junkAddr
      else s.ReadsStrings top envp args.envp := by
  generalize hr : pushArgs args top s0 = r
  rw [pushAll, hr] at hs
  obtain ⟨argv, envp, t⟩ := r
  have hrandom : Moves top (t.pushRandom top) _ := Moves.refl.pushRest info argv envp
  have hmoves : Moves top t _ := Moves.refl.pushRandom.pushRest info argv envp
  obtain ⟨hargv, henvp⟩ := pushArgs_reads htop hr (hmoves.grows.used.trans (hs ▸ hfit))
  rw [hs] at hrandom hmoves
  refine ⟨argv, envp, (t.pushRandom top).virtAddr, ⟨?_, hmoves.readsStrings htop hfit hargv, ?_⟩, ?_⟩
  · rw [← initialWords_length info (t.pushRandom top).virtAddr, pushWords_reads htop hs hfit]
    refine congrArg _ ?_
    simp [initialWords, auxv]
  · exact hrandom.reads htop hfit (push_reads htop (hrandom.grows.used.trans hfit))
  · split_ifs at henvp ⊢
    · exact henvp
    · exact hmoves.readsStrings htop hfit henvp

end Stack

/-- The stack which is made has a layout, if it fits. -/
theorem setupInitialStack_layout (info : ElfLoadInfo) (hfit : args.footprint ≤ userStackSize)
    (mem : ℕ → ℕ → UInt8) {top : ℕ} (htop : ustack * pageSize + userStackSize = top) : ∃ s argv envp random,
      setupInitialStack args info ustack mem = (s.mem, s.virtAddr) ∧ s.used = args.footprint ∧
      Layout args info top s argv envp random ∧
      if args.argv = [] then envp = (List.range args.envp.length).map args.junkAddr
      else s.ReadsStrings top envp args.envp := by
  have hused := Stack.pushAll_used args info top mem
  obtain ⟨argv, envp, random, hlayout⟩ := Stack.pushAll_layout (htop ▸ Nat.le_add_left ..) rfl
    (hused.trans_le hfit)
  exact ⟨_, argv, envp, random, setupInitialStack_eq args info mem htop, hused, hlayout⟩

theorem readsBack_of (args : ExecArgs) (hfit : args.footprint ≤ userStackSize)
    (h : args.argv ≠ [] ∨ args.envp = []) (mem : ℕ → ℕ → UInt8) :
    ReadsBack args info (ustack * pageSize + userStackSize)
      (setupInitialStack args info ustack mem) := by
  obtain ⟨s, argv, envp, random, heq, hused, hlayout, henvp⟩ :=
    setupInitialStack_layout info hfit mem rfl
  rw [heq]
  refine ⟨?_, s, argv, envp, random, rfl, hlayout, ?_⟩
  · have hsize : userStackSize ≤ userStackTop := by decide
    have hmod : userStackTop % 16 = 0 := by decide
    have hfoot : args.footprint % 16 = 0 := by
      rw [ExecArgs.footprint]
      split <;> omega
    rw [Stack.virtAddr, hused]
    omega
  · split_ifs at henvp with hargv
    · rw [henvp, h.resolve_left (not_not.2 hargv)]
      exact .nil
    · exact henvp

/-- The address of the environment is null, if this is what happens to be in the array. -/
theorem not_readsBack (args : ExecArgs) (hfit : args.footprint ≤ userStackSize)
    (hargv : args.argv = []) (henvp : args.envp ≠ []) (hjunk : args.junkAddr 0 = 0) (mem : ℕ → ℕ → UInt8) :
    ¬ ReadsBack args info (ustack * pageSize + userStackSize)
      (setupInitialStack args info ustack mem) := by
  obtain ⟨s, argv, envp, random, heq, hused, hlayout, hjunks⟩ :=
    setupInitialStack_layout info hfit mem rfl
  obtain ⟨str, strs, hcons⟩ := exists_cons_of_ne_nil henvp
  rw [if_pos hargv, hcons, length_cons, range_succ_eq_map, map_cons, hjunk] at hjunks
  rw [heq]
  rintro ⟨-, s', argv', envp', random', hr, hlayout', hstrings⟩
  obtain ⟨hmem, hvirt⟩ := Prod.mk.inj hr
  have hargc : args.given.length = 1 := by rw [ExecArgs.given, if_pos hargv, length_singleton]
  obtain ⟨a, rfl⟩ := length_eq_one_iff.1 (hlayout.argv.length_eq.trans hargc)
  obtain ⟨a', rfl⟩ := length_eq_one_iff.1 (hlayout'.argv.length_eq.trans hargc)
  have hcount : envp.length = envp'.length := by simp [hjunks, hstrings.length_eq, hcons]
  rw [hcons] at hstrings
  obtain ⟨va, vas, hva, -, rfl⟩ := List.forall₂_cons_right_iff.1 hstrings
  have hwords := hlayout'.words
  rw [← hcount, Stack.readWords, ← hmem, ← hvirt] at hwords
  -- The fourth word is null, and this is no address on the stack.
  have hnull := congrArg (·[3]?) (hlayout.words.symm.trans hwords)
  have hmod : va % 2 ^ 64 = 0 := by simpa [hjunks] using hnull.symm
  have hle := hva.le
  have hle_top := hva.le_top
  rw [← hvirt, Stack.virtAddr, hused] at hle
  have hsize : userStackSize < userStackTop := by decide
  have hlt : userStackTop < 2 ^ 64 := by decide
  omega

/-- The stack can be read back, whatever is in the array of the kernel, if and only if there are
    arguments, or no environment. -/
theorem readsBack_iff (hfit : args.footprint ≤ userStackSize) : (∀ mem junkAddr,
    ReadsBack { args with junkAddr } info (ustack * pageSize + userStackSize)
      (setupInitialStack { args with junkAddr } info ustack mem)) ↔
    args.argv ≠ [] ∨ args.envp = [] := by
  refine ⟨fun h => ?_, fun h mem junkAddr => ?_⟩
  · by_contra hno
    obtain ⟨hargv, henvp⟩ := not_or.1 hno
    exact not_readsBack { args with junkAddr := fun _ => 0 } hfit (not_not.1 hargv) henvp rfl
      (fun _ _ => 0) (h _ _)
  · exact readsBack_of { args with junkAddr } hfit h mem

theorem readsBack_iff_some : someArgs.footprint ≤ userStackSize ∧
    ReadsBack { someArgs with junkAddr := fun _ => 0 } ⟨0x10000, 0x10040, 56, 2⟩
      (0x80000 * pageSize + userStackSize)
      (setupInitialStack { someArgs with junkAddr := fun _ => 0 } ⟨0x10000, 0x10040, 56, 2⟩ 0x80000
        fun _ _ => 0) :=
  ⟨by decide, (readsBack_iff (by decide)).2 (.inl (cons_ne_nil _ _)) (fun _ _ => 0) fun _ => 0⟩

/-- No arguments, and an environment of one string. -/
def onlyEnvironment : ExecArgs := { sameArgs 0 0 with envp := [[0x61]] }

/-- The addresses of the environment end before the first one. -/
theorem environment_lost : onlyEnvironment.footprint ≤ userStackSize ∧
    ¬ ReadsBack onlyEnvironment ⟨0, 0, 0, 0⟩ (0x80000 * pageSize + userStackSize)
      (setupInitialStack onlyEnvironment ⟨0, 0, 0, 0⟩ 0x80000 fun _ _ => 0) :=
  ⟨by decide, not_readsBack _ (by decide) rfl (cons_ne_nil _ _) rfl _⟩

end HobbyOS
