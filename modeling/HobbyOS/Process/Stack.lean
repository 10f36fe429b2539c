import HobbyOS.Process.Exec

/-!
# The initial stack

`Process::setupInitialStack` writes the strings, the auxiliary vector and the addresses of the
strings to the block of the stack, from its end downwards. How far it gets depends on nothing but
the lengths of the strings and their number (`ExecArgs.footprint`), and it does not look whether it
is still in the block. `sys_execve` accepts 256 strings of 4096 bytes each for the arguments, and as
many for the environment, while the block has 16384 bytes.

So nothing outside the block is written iff the footprint is not larger than the block
(`setupInitialStack_inside_iff`).
-/

namespace HobbyOS

open Function List Nat

namespace Stack

variable {top addr q k : ℕ} {s t u : Stack} {mem : ℕ → ℕ → UInt8} {bs : List UInt8}

/-! ## Writing -/

theorem write_of_notMem (h : q * pageSize + k < addr ∨ addr + bs.length ≤ q * pageSize + k) :
    write mem addr bs q k = mem q k := by
  induction bs generalizing mem addr with
  | nil => rfl
  | cons b bs ih =>
    rw [length_cons] at h
    rw [write, ih (by omega)]
    by_cases hq : q = addr / pageSize
    · have hmod : k ≠ addr % pageSize := by
        have := div_add_mod' addr pageSize
        rw [← hq] at this
        omega
      rw [← hq, update_self, update_of_ne hmod]
    · rw [update_of_ne hq]

/-- The first byte which is written. -/
theorem write_cons_self (b : UInt8) :
    write mem addr (b :: bs) (addr / pageSize) (addr % pageSize) = b := by
  rw [write, write_of_notMem (.inl (by rw [div_add_mod']; exact lt_succ_self _)), update_self,
    update_self]

/-! ## Pushing -/

/-- What is below the part of the stack in use, and what is above the stack, is left alone. -/
structure Grows (top : ℕ) (s t : Stack) : Prop where
  used : s.used ≤ t.used
  below : ∀ q k, q * pageSize + k + t.used < top → t.mem q k = s.mem q k
  above : t.used ≤ top → ∀ q k, top ≤ q * pageSize + k → t.mem q k = s.mem q k

theorem Grows.refl (s : Stack) : Grows top s s := ⟨le_rfl, fun _ _ _ => rfl, fun _ _ _ _ => rfl⟩

theorem Grows.trans (h : Grows top s t) (h' : Grows top t u) : Grows top s u where
  used := h.used.trans h'.used
  below q k hq := (h'.below q k hq).trans
    (h.below q k ((Nat.add_le_add_left h'.used _).trans_lt hq))
  above hu q k hq := (h'.above hu q k hq).trans (h.above (h'.used.trans hu) q k hq)

theorem push_grows (bs : List UInt8) (s : Stack) : Grows top s (s.push top bs) := by
  have hused : (s.push top bs).used = s.used + bs.length := rfl
  refine ⟨Nat.le_add_right .., fun q k hq => write_of_notMem (.inl ?_),
    fun hu q k hq => write_of_notMem (.inr ?_)⟩
  · omega
  · omega

/-- The first byte which is pushed is the lowest one in use. -/
theorem push_lowest (b : UInt8) (bs : List UInt8) (s : Stack) :
    (s.push top (b :: bs)).mem ((top - (s.push top (b :: bs)).used) / pageSize)
      ((top - (s.push top (b :: bs)).used) % pageSize) = b := write_cons_self b

theorem skip_grows (n : ℕ) (s : Stack) : Grows top s (s.skip n) :=
  ⟨Nat.le_add_right .., fun _ _ _ => rfl, fun _ _ _ _ => rfl⟩

/-- Bytes are pushed or skipped. -/
inductive Moves (top : ℕ) (s : Stack) : Stack → Prop
  | refl : Moves top s s
  | push {t : Stack} (bs : List UInt8) : Moves top s t → Moves top s (t.push top bs)
  | skip {t : Stack} (n : ℕ) : Moves top s t → Moves top s (t.skip n)

theorem Moves.grows (h : Moves top s t) : Grows top s t := by
  induction h with
  | refl => exact .refl s
  | push bs _ ih => exact ih.trans (push_grows bs _)
  | skip n _ ih => exact ih.trans (skip_grows n _)

theorem Moves.align (h : Moves top s t) (c : Prop) [Decidable c] (n : ℕ) :
    Moves top s (if c then t.skip n else t) := by
  split
  · exact h.skip n
  · exact h

theorem align_used (c : Prop) [Decidable c] (n : ℕ) (s : Stack) :
    (if c then s.skip n else s).used = s.used + if c then n else 0 := by
  split <;> rfl

theorem Moves.pushStrings (h : Moves top s t) (strs : List (List UInt8)) :
    Moves top s (t.pushStrings top strs).2 := by
  induction strs with
  | nil => exact h
  | cons str strs ih => exact ih.push _

theorem Moves.pushWords (h : Moves top s t) (words : List ℕ) :
    Moves top s (words.foldl (fun s v => s.push8 top v) t) := by
  induction words generalizing t with
  | nil => exact h
  | cons v words ih => exact ih (h.push _)

/-! ## Counting -/

/-- The bytes of strings, with the zeros which end them. -/
def stringBytes (strs : List (List UInt8)) : ℕ := (strs.map fun str => str.length + 1).sum

theorem pushStrings_used (strs : List (List UInt8)) (s : Stack) :
    (s.pushStrings top strs).2.used = s.used + stringBytes strs := by
  induction strs with
  | nil => rfl
  | cons str strs ih =>
    have hpush : (s.pushStrings top (str :: strs)).2.used =
        (s.pushStrings top strs).2.used + (str ++ [0]).length := rfl
    rw [hpush, ih, stringBytes, stringBytes, map_cons, sum_cons, length_append, length_singleton]
    omega

theorem pushStrings_length (strs : List (List UInt8)) (s : Stack) :
    (s.pushStrings top strs).1.length = strs.length := by
  induction strs with
  | nil => rfl
  | cons str strs ih =>
    have hpush : (s.pushStrings top (str :: strs)).1.length =
        (s.pushStrings top strs).1.length + 1 := rfl
    rw [hpush, ih, length_cons]

theorem push8_used (v : ℕ) (s : Stack) : (s.push8 top v).used = s.used + 8 := rfl

theorem pushWords_used (words : List ℕ) (s : Stack) :
    (words.foldl (fun s v => s.push8 top v) s).used = s.used + 8 * words.length := by
  induction words generalizing s with
  | nil => rfl
  | cons v words ih =>
    rw [foldl_cons, ih, push8_used, length_cons]
    omega

/-- The lowest byte in use is the first one of the last word. -/
theorem pushWords_lowest (words : List ℕ) (v : ℕ) (s : Stack) :
    ((words ++ [v]).foldl (fun s v => s.push8 top v) s).mem
      ((top - ((words ++ [v]).foldl (fun s v => s.push8 top v) s).used) / pageSize)
      ((top - ((words ++ [v]).foldl (fun s v => s.push8 top v) s).used) % pageSize) =
        UInt8.ofNat v := by
  rw [foldl_append]
  refine (push_lowest _ _ (words.foldl (fun s v => s.push8 top v) s)).trans ?_
  simp only [Nat.pow_zero, Nat.div_one]

end Stack

namespace ExecArgs

/-- The number of arguments on the stack. -/
def argc (args : ExecArgs) : ℕ := if args.argv = [] then 1 else args.argv.length

/-- The bytes of the strings on the stack. -/
def strings (args : ExecArgs) : ℕ :=
  if args.argv = [] then args.path.length + 1
  else Stack.stringBytes args.envp + Stack.stringBytes args.argv

/-- The bytes of the stack which `setupInitialStack` takes: the strings, up to a multiple of 16, the
    16 bytes of `AT_RANDOM`, and the words, the last one of which is at a multiple of 16. -/
def footprint (args : ExecArgs) : ℕ :=
  (args.strings + 15) / 16 * 16 + 16 + (if (args.envp.length + args.argc) % 2 = 0 then 8 else 0) +
    8 * (29 + args.envp.length + args.argc)

/-- What `sys_execve` accepts. -/
structure Accepted (args : ExecArgs) : Prop where
  path_le : args.path.length ≤ 4096
  argv_length_le : args.argv.length ≤ 256
  argv_le : ∀ str ∈ args.argv, str.length ≤ 4096
  envp_length_le : args.envp.length ≤ 256
  envp_le : ∀ str ∈ args.envp, str.length ≤ 4096

end ExecArgs

variable {args : ExecArgs} {info : ElfLoadInfo} {ustack : ℕ} {mem : ℕ → ℕ → UInt8}

theorem initialWords_length (info : ElfLoadInfo) (atRandom : ℕ) (argv envp : List ℕ) :
    (initialWords info atRandom argv envp).length = 29 + envp.length + argv.length := by
  simp only [initialWords, length_append, length_cons, length_nil, length_reverse]
  omega

namespace Stack

/-- The strings are pushed: the addresses of the arguments and of the environment. -/
def pushArgs (args : ExecArgs) (top : ℕ) (s : Stack) : List ℕ × List ℕ × Stack :=
  if args.argv = [] then
    let s := s.push top (args.path ++ [0])
    ([s.virtAddr], (List.range args.envp.length).map args.junkAddr, s)
  else
    let (envp, s) := s.pushStrings top args.envp
    let (argv, s) := s.pushStrings top args.argv
    (argv, envp, s)

/-- The bytes of `AT_RANDOM` are pushed. -/
def pushRandom (top : ℕ) (s : Stack) : Stack :=
  (s.skip ((16 - s.used % 16) % 16)).push top (List.replicate 16 0)

/-- The words are pushed. -/
def pushRest (info : ElfLoadInfo) (top : ℕ) (argv envp : List ℕ) (s : Stack) : Stack :=
  let u := if (s.used + (15 * 2 + (envp.length + 1) + (argv.length + 1) + 1) * 8) % 16 ≠ 0
    then s.skip 8 else s
  (initialWords info s.virtAddr argv envp).foldl (fun s v => s.push8 top v) u

/-- The stack after `setupInitialStack`, on the block which ends at `top`. -/
def pushAll (args : ExecArgs) (info : ElfLoadInfo) (top : ℕ) (s : Stack) : Stack :=
  let r := pushArgs args top s
  pushRest info top r.1 r.2.1 (r.2.2.pushRandom top)

theorem pushArgs_spec (args : ExecArgs) (top : ℕ) (s : Stack) :
    (pushArgs args top s).1.length = args.argc ∧ (pushArgs args top s).2.1.length = args.envp.length ∧
      Moves top s (pushArgs args top s).2.2 ∧
      (pushArgs args top s).2.2.used = s.used + args.strings := by
  rw [ExecArgs.argc, ExecArgs.strings, pushArgs]
  split
  · refine ⟨rfl, by simp, .push _ .refl, ?_⟩
    rw [push]
    rw [length_append, length_singleton]
  · refine ⟨pushStrings_length _ _, pushStrings_length _ _,
      (Moves.refl.pushStrings _).pushStrings _, ?_⟩
    rw [pushStrings_used, pushStrings_used]
    omega

theorem Moves.pushRandom (h : Moves top s t) : Moves top s (t.pushRandom top) := (h.skip _).push _

theorem Moves.pushRest (h : Moves top s t) (info : ElfLoadInfo) (argv envp : List ℕ) :
    Moves top s (t.pushRest info top argv envp) := (h.align _ _).pushWords _

theorem pushAll_used (args : ExecArgs) (info : ElfLoadInfo) (top : ℕ) (mem : ℕ → ℕ → UInt8) :
    (pushAll args info top ⟨mem, 0⟩).used = args.footprint := by
  obtain ⟨hargv, henvp, -, hused⟩ := pushArgs_spec args top ⟨mem, 0⟩
  have hpush (s : Stack) : (s.pushRandom top).used = s.used + (16 - s.used % 16) % 16 + 16 := by
    rw [pushRandom, push]
    dsimp only [skip]
    rw [length_replicate]
  rw [pushAll, pushRest, pushWords_used, align_used, initialWords_length, hargv, henvp, hpush, hused,
    ExecArgs.footprint]
  dsimp only
  split <;> split <;> omega

end Stack

theorem setupInitialStack_eq (args : ExecArgs) (info : ElfLoadInfo) (mem : ℕ → ℕ → UInt8) {top : ℕ}
    (htop : ustack * pageSize + userStackSize = top) : setupInitialStack args info ustack mem =
      ((Stack.pushAll args info top ⟨mem, 0⟩).mem, (Stack.pushAll args info top ⟨mem, 0⟩).virtAddr) := by
  rw [Stack.pushAll, setupInitialStack, htop, Stack.pushArgs]
  by_cases h : args.argv = []
  · rw [if_pos h]
    rfl
  · rw [if_neg h]
    rfl

/-- The stack after `setupInitialStack`: what it takes, and the lowest byte in it. -/
theorem setupInitialStack_spec (args : ExecArgs) (info : ElfLoadInfo) (ustack : ℕ)
    (mem : ℕ → ℕ → UInt8) : ∃ s : Stack,
      setupInitialStack args info ustack mem = (s.mem, s.virtAddr) ∧
      Stack.Grows (ustack * pageSize + userStackSize) ⟨mem, 0⟩ s ∧ s.used = args.footprint ∧
      s.mem ((ustack * pageSize + userStackSize - s.used) / pageSize)
        ((ustack * pageSize + userStackSize - s.used) % pageSize) = UInt8.ofNat args.argc := by
  generalize htop : ustack * pageSize + userStackSize = top
  refine ⟨_, setupInitialStack_eq args info mem htop, ?_, Stack.pushAll_used args info top mem, ?_⟩
  · rw [Stack.pushAll]
    exact ((Stack.pushArgs_spec args top ⟨mem, 0⟩).2.2.1.pushRandom.pushRest _ _ _).grows
  · -- The last word is the number of arguments.
    rw [Stack.pushAll, Stack.pushRest, initialWords, (Stack.pushArgs_spec ..).1]
    exact Stack.pushWords_lowest _ _ _

/-! ## The block -/

theorem add_one_ne (b : UInt8) : b + 1 ≠ b := by
  intro h
  have := congrArg UInt8.toNat h
  simp only [UInt8.toNat_add, UInt8.toNat_one] at this
  have := b.toNat_lt
  omega

/-- Nothing outside the block of the stack is written. -/
def StackInside (args : ExecArgs) (info : ElfLoadInfo) (ustack : ℕ) : Prop :=
  ∀ mem q k, k < pageSize → q ∉ block ustack stackPages →
    (setupInitialStack args info ustack mem).1 q k = mem q k

theorem stringBytes_le {strs : List (List UInt8)} (hlen : strs.length ≤ 256)
    (h : ∀ str ∈ strs, str.length ≤ 4096) : Stack.stringBytes strs ≤ 256 * 4097 := by
  have hsum : Stack.stringBytes strs ≤ strs.length * 4097 := by
    rw [Stack.stringBytes]
    refine (sum_le_card_nsmul _ 4097 ?_).trans ?_
    · intro n hn
      obtain ⟨str, hstr, rfl⟩ := mem_map.1 hn
      exact succ_le_succ (h str hstr)
    · rw [length_map, smul_eq_mul]
  exact hsum.trans (Nat.mul_le_mul_right _ hlen)

/-- All that `sys_execve` accepts takes less than 4 MiB. -/
theorem ExecArgs.Accepted.footprint_le (h : args.Accepted) : args.footprint ≤ 2 ^ 22 := by
  have hargv := stringBytes_le h.argv_length_le h.argv_le
  have henvp := stringBytes_le h.envp_length_le h.envp_le
  have hstrings : args.strings ≤ 2 * (256 * 4097) := by
    have := h.path_le
    rw [ExecArgs.strings]
    split <;> omega
  have hargc : args.argc ≤ 256 := by
    have := h.argv_length_le
    rw [ExecArgs.argc]
    split <;> omega
  have := h.envp_length_le
  rw [ExecArgs.footprint]
  split <;> omega

/-- A stack which is too large has its lowest byte below the block, and it is the same whatever was
    there before. -/
theorem exists_below (h : args.Accepted) (hustack : 2 ^ 22 ≤ ustack * pageSize)
    (hlarge : userStackSize < args.footprint) (info : ElfLoadInfo) : ∃ mem q k, k < pageSize ∧ q < ustack ∧
      (setupInitialStack args info ustack mem).1 q k ≠ mem q k := by
  have hfoot := h.footprint_le
  obtain ⟨s, he, -, hused, hlow⟩ :=
    setupInitialStack_spec args info ustack fun _ _ => UInt8.ofNat args.argc + 1
  refine ⟨fun _ _ => UInt8.ofNat args.argc + 1,
    (ustack * pageSize + userStackSize - s.used) / pageSize, (ustack * pageSize + userStackSize - s.used) % pageSize, mod_lt _ (by decide), ?_, ?_⟩
  · rw [Nat.div_lt_iff_lt_mul (by decide)]
    omega
  · rw [he]
    exact fun hsame => add_one_ne _ (hsame.symm.trans hlow)

/-- The initial stack stays in its block iff it is not too large. The block is in the physical memory,
    which starts far above `2 ^ 22`. -/
theorem setupInitialStack_inside_iff (h : args.Accepted) (hustack : 2 ^ 22 ≤ ustack * pageSize) :
    StackInside args info ustack ↔ args.footprint ≤ userStackSize := by
  have hblock : userStackSize = 4 * pageSize := rfl
  constructor
  · intro hinside
    by_contra hlarge
    obtain ⟨mem, q, k, hk, hq, hne⟩ := exists_below h hustack (Nat.not_le.1 hlarge) info
    exact hne (hinside mem q k hk fun hb => absurd hb.1 (Nat.not_le.2 hq))
  intro hsmall mem q k hk hq
  have hfoot := h.footprint_le
  obtain ⟨s, he, hgrows, hused, -⟩ := setupInitialStack_spec args info ustack mem
  rw [he]
  have hout : q < ustack ∨ ustack + 4 ≤ q := by
    rw [block, Set.mem_ofPred_eq, stackPages] at hq
    omega
  rcases hout with hlt | hge
  · refine hgrows.below q k ?_
    have := Nat.mul_le_mul_right pageSize (succ_le_of_lt hlt)
    rw [succ_mul] at this
    omega
  · refine hgrows.above ?_ q k ?_
    · omega
    · have := Nat.mul_le_mul_right pageSize hge
      rw [Nat.add_mul] at this
      omega

/-- Arguments of one length. -/
def sameArgs (count length : ℕ) : ExecArgs where
  path := [0x2F]
  argv := List.replicate count (List.replicate length 0x61)
  envp := []
  opens := true
  file := none
  junk _ := 0
  junks _ _ := 0
  junkAddr _ := 0

theorem sameArgs_accepted {count length : ℕ} (hcount : count ≤ 256) (hlength : length ≤ 4096) :
    (sameArgs count length).Accepted := by
  refine ⟨by simp [sameArgs], ?_, fun str hstr => ?_, by simp [sameArgs], fun str hstr => by cases hstr⟩
  · simpa [sameArgs] using hcount
  · rwa [(mem_replicate.1 hstr).2, length_replicate]

/-- Two arguments, and an environment of two strings. -/
def someArgs : ExecArgs := { sameArgs 2 3 with envp := [[0x50, 0x3D, 0x2F], [0x48, 0x3D]] }

theorem setupInitialStack_inside_iff_some : StackInside someArgs ⟨0x10000, 0x10040, 56, 2⟩ 0x80000 :=
  (setupInitialStack_inside_iff ⟨by decide, by decide, by decide, by decide, by decide⟩ (by decide)).2
    (by decide)

/-- Four arguments of 4096 bytes each are accepted, and bytes below the block are overwritten. -/
theorem setupInitialStack_overflows : (sameArgs 4 4096).Accepted ∧ ∃ mem q k, k < pageSize ∧
    q < 0x80000 ∧ (setupInitialStack (sameArgs 4 4096) ⟨0, 0, 0, 0⟩ 0x80000 mem).1 q k ≠ mem q k := by
  have hstrings : (sameArgs 4 4096).strings = 0 + 4 * (4096 + 1) := by
    have hargv : Stack.stringBytes (sameArgs 4 4096).argv = 4 * (4096 + 1) := by
      rw [Stack.stringBytes, sameArgs, map_replicate, sum_replicate, length_replicate]
      rfl
    have hne : (sameArgs 4 4096).argv ≠ [] := cons_ne_nil _ _
    rw [ExecArgs.strings, if_neg hne, hargv]
    rfl
  have hlarge : userStackSize < (sameArgs 4 4096).footprint := by
    rw [ExecArgs.footprint, hstrings, userStackSize, stackPages, pageSize]
    omega
  have haccepted : (sameArgs 4 4096).Accepted := sameArgs_accepted (by decide) (by decide)
  exact ⟨haccepted, exists_below haccepted (by decide) hlarge _⟩

end HobbyOS
