import Mathlib

/-!
# Pools of objects

A `Pool` hands out objects and takes them back, changing its own state. What is
expected of it (`Pool.Lawful`) is told by the set of the objects which are out:
one handed out is not out already, and one taken back is not out any more.

The hand-outs and returns are kept in a ledger, the last one first, together with
the requests which were refused. A ledger `Replays` from the objects out at first to
those out at last if nothing is ever handed out twice, or returned twice, in a row;
so an object which is out at last just as it was at first has been returned as often
as it was handed out (`Replays.count_eq`).
-/

namespace HobbyOS

variable {σ α : Type*}

/-- What happens to an object of a pool, or that there was none. -/
inductive Transfer (α : Type*)
  | out (a : α)
  | back (a : α)
  | refused
  deriving DecidableEq

/-- A pool: how it hands out an object, if it has one, and takes one back, and how
    many objects it says are left. -/
structure Pool (σ α : Type*) where
  take : σ → Option α × σ
  give : α → σ → σ
  room : σ → ℕ

/-- The pool keeps the books right, `live s A` saying that the objects `A` are
    out in the state `s`. -/
structure Pool.Lawful (P : Pool σ α) (live : σ → Set α → Prop) : Prop where
  take_some : ∀ {s s' A a}, live s A → P.take s = (some a, s') → a ∉ A ∧ live s' (insert a A)
  take_none : ∀ {s s' A}, live s A → P.take s = (none, s') → live s' A
  give : ∀ {s A a}, live s A → a ∈ A → live (P.give a s) (A \ {a})

/-- The ledger is one of a pool which keeps the books right, from the objects
    `A0` to `A`. -/
def Replays (A0 : Set α) : List (Transfer α) → Set α → Prop
  | [], A => A = A0
  | .out a :: l, A => ∃ B, Replays A0 l B ∧ a ∉ B ∧ A = insert a B
  | .back a :: l, A => ∃ B, Replays A0 l B ∧ a ∈ B ∧ A = B \ {a}
  | .refused :: l, A => Replays A0 l A

variable {A0 A : Set α} {l l' : List (Transfer α)}

open Classical in
/-- An object is handed out as often as it is returned, up to where it is at first
    and at last. -/
theorem Replays.count_add [DecidableEq α] (h : Replays A0 l A) (a : α) :
    l.count (.out a) + (if a ∈ A0 then 1 else 0) =
      l.count (.back a) + (if a ∈ A then 1 else 0) := by
  induction l generalizing A with
  | nil =>
    obtain rfl : A = A0 := h
    simp
  | cons t l ih =>
    cases t with
    | out b | back b =>
      obtain ⟨B, hB, hb, rfl⟩ := h
      have := ih hB
      by_cases hab : a = b
      · subst hab
        simp [hb] at this ⊢
        omega
      · simp [hab, Ne.symm hab] at this ⊢
        exact this
    | refused =>
      have := ih h
      simpa using this

/-- Back to where it started, every object has been returned as often as it was
    handed out. -/
theorem Replays.count_eq [DecidableEq α] (h : Replays A0 l A0) (a : α) :
    l.count (.out a) = l.count (.back a) := by
  have := h.count_add a
  omega

/-- The state after so many objects were handed out in a row, if there are that many. -/
def Pool.takes (P : Pool σ α) : ℕ → σ → Option σ
  | 0, s => some s
  | n + 1, s =>
    match P.take s with
    | (some _, s) => P.takes n s
    | (none, _) => none

theorem Pool.takes_add (P : Pool σ α) (m n : ℕ) (s : σ) :
    P.takes (m + n) s = (P.takes m s).bind (P.takes n) := by
  induction m generalizing s with
  | zero =>
    rw [Nat.zero_add]
    rfl
  | succ m ih =>
    rw [Nat.succ_add, takes, takes]
    split
    · exact ih _
    · rfl

/-- Nothing was returned from one ledger to the next. -/
def Drawn (l l' : List (Transfer α)) : Prop := ∃ k, l' = k ++ l ∧ ∀ a, .back a ∉ k

theorem Drawn.refl (l : List (Transfer α)) : Drawn l l := ⟨[], rfl, by simp⟩

theorem Drawn.trans {l'' : List (Transfer α)} (h : Drawn l l') (h' : Drawn l' l'') :
    Drawn l l'' := by
  obtain ⟨k, rfl, hk⟩ := h
  obtain ⟨k', rfl, hk'⟩ := h'
  exact ⟨k' ++ k, (List.append_assoc ..).symm, fun a => by simp [hk a, hk' a]⟩

theorem Drawn.cons {t : Transfer α} (h : Drawn l l') (ht : ∀ a, t ≠ .back a) :
    Drawn l (t :: l') := by
  obtain ⟨k, rfl, hk⟩ := h
  exact ⟨t :: k, rfl, fun a => by simp [hk a, (ht a).symm]⟩

/-- A pool which is handed an object which is none of its own: the pool is left as it is. -/
def Pool.withStatic [DecidableEq α] (P : Pool σ α) (t : α) : Pool σ α :=
  { P with give := fun a s => if a = t then s else P.give a s }

/-- The books are right if they say that the object is out, as long as it is never handed out. -/
theorem Pool.Lawful.withStatic [DecidableEq α] {P : Pool σ α} {live : σ → Set α → Prop} {t : α}
    (hP : P.Lawful live) (ht : ∀ {s s' A a}, live s A → P.take s = (some a, s') → a ≠ t) :
    (P.withStatic t).Lawful fun s A => live s (A \ {t}) where
  take_some {s s' A a} h hs := by
    have hne : a ≠ t := ht h hs
    obtain ⟨ha, h'⟩ := hP.take_some h hs
    refine ⟨fun hA => ha ⟨hA, hne⟩, ?_⟩
    rwa [Set.insert_sdiff_of_notMem _ (by rwa [Set.mem_singleton_iff])]
  take_none h hs := hP.take_none h hs
  give {s A a} h ha := by
    simp only [Pool.withStatic]
    split
    next heq => rwa [heq, Set.sdiff_sdiff, Set.union_self]
    next hne =>
      rw [Set.sdiff_sdiff_comm]
      exact hP.give h ⟨ha, hne⟩

/-- A pool of numbers which also hands out blocks of successive ones, given by the first, and takes
    them back. -/
structure BlockPool (σ : Type*) extends Pool σ ℕ where
  takeBlock : ℕ → σ → Option ℕ × σ
  giveBlock : ℕ → ℕ → σ → σ

/-- The numbers of a block. -/
def block (a n : ℕ) : Set ℕ := { b | a ≤ b ∧ b < a + n }

/-- The pool keeps the books right about blocks as well. -/
structure BlockPool.Lawful (B : BlockPool σ) (live : σ → Set ℕ → Prop) : Prop where
  single : B.toPool.Lawful live
  takeBlock_some : ∀ {s s' A a n}, live s A → B.takeBlock n s = (some a, s') →
    Disjoint (block a n) A ∧ live s' (block a n ∪ A)
  takeBlock_none : ∀ {s s' A n}, live s A → B.takeBlock n s = (none, s') → live s' A
  giveBlock : ∀ {s A a n}, live s A → block a n ⊆ A → live (B.giveBlock a n s) (A \ block a n)

/-- The pool has an object as long as there are some left, `left s` being their number in the
    state `s`. -/
structure Pool.Exact (P : Pool σ α) (left : σ → ℕ) : Prop where
  take_some : ∀ {s s' a}, P.take s = (some a, s') → left s = left s' + 1
  take_none : ∀ {s s'}, P.take s = (none, s') → left s = 0
  give : ∀ s a, left (P.give a s) = left s + 1

/-- A pool which hands out the first one of a list of objects. -/
def Pool.listed : Pool (List α) α where
  take
    | [] => (none, [])
    | a :: l => (some a, l)
  give a l := a :: l
  room l := l.length

theorem Pool.listed_exact : (Pool.listed (α := α)).Exact List.length where
  take_some {s s' a} h := by
    cases s with
    | nil => cases h
    | cons b l =>
      cases h
      rfl
  take_none {s s'} h := by
    cases s with
    | nil => rfl
    | cons b l => cases h
  give _ _ := rfl

/-- A pool which hands out one number after another, starting with the one in its state, and
    always has some left. -/
def Pool.counting : Pool ℕ ℕ where
  take n := (some n, n + 1)
  give _ n := n
  room _ := 2 ^ 15

/-- The numbers out are among those before the next one, but for `0`. -/
def Pool.Counted (n : ℕ) (A : Set ℕ) : Prop := 0 < n ∧ ∀ a ∈ A, 0 < a ∧ a < n

theorem Pool.Counted.zero_notMem {n : ℕ} {A : Set ℕ} (h : Pool.Counted n A) : 0 ∉ A :=
  fun ha => lt_irrefl 0 (h.2 0 ha).1

theorem Pool.counting_lawful : Pool.counting.Lawful Pool.Counted where
  take_some := by
    rintro n n' A a ⟨hn, hA⟩ h
    cases h
    refine ⟨fun ha => lt_irrefl _ (hA _ ha).2, Nat.succ_pos _, ?_⟩
    rintro b (rfl | hb)
    · exact ⟨hn, Nat.lt_succ_self _⟩
    · exact ⟨(hA b hb).1, (hA b hb).2.trans (Nat.lt_succ_self _)⟩
  take_none h h' := by cases h'
  give h _ := ⟨h.1, fun a ha => h.2 a ha.1⟩

/-- The same with blocks. -/
def BlockPool.counting : BlockPool ℕ where
  toPool := .counting
  takeBlock k n := (some n, n + k)
  giveBlock _ _ n := n

theorem BlockPool.counting_lawful : BlockPool.counting.Lawful Pool.Counted where
  single := Pool.counting_lawful
  takeBlock_some := by
    rintro n n' A a k ⟨hn, hA⟩ h
    cases h
    refine ⟨Set.disjoint_left.2 fun b hb hb' => ?_, Nat.lt_add_right _ hn, ?_⟩
    · exact absurd (hA b hb').2 (Nat.not_lt.2 hb.1)
    · rintro b (hb | hb)
      · exact ⟨hn.trans_le hb.1, hb.2⟩
      · exact ⟨(hA b hb).1, (hA b hb).2.trans_le (Nat.le_add_right ..)⟩
  takeBlock_none h h' := by cases h'
  giveBlock h _ := ⟨h.1, fun a ha => h.2 a ha.1⟩

/-- A pool which hands out the numbers before the limit. -/
def Pool.upTo (limit : ℕ) : Pool ℕ ℕ where
  take n := if n < limit then (some n, n + 1) else (none, n)
  give _ n := n
  room n := limit - n

end HobbyOS
