import Mathlib

/-!
# Programs which are suspended

A program reads from a device and acts on a state it shares with others. A read of something which
is not at hand suspends it, and others go on; when it is resumed it reads what is there then. All
it does between two such reads happens at once (`Prog.run`).

A program is specified by what it does to the state, given what others do while it is suspended
(`Prog.Sat`):

* `R x s s'`: while the program is suspended on `x`, the state may change from `s` to `s'`;
* `T h s h' s'`: the program itself may change the state from `s` to `s'`, and what it holds from
  `h` to `h'`.

If `T` is reflexive and transitive, it holds of everything the program does until it is suspended
(`Prog.Sat.run`), and if `R` is transitive, what is known of a suspended program stays
(`Prog.Sat.stable`).
-/

namespace HobbyOS

/-- A program which reads a `Y` from any `X`, acts on the state `S`, and returns an `α`. -/
inductive Prog (S X Y α : Type)
  | ret (a : α)
  | read (x : X) (k : Y → Prog S X Y α)
  | act (f : S → S) (k : Prog S X Y α)

/-- What is read, whether it is at hand, and how it gets there. -/
structure Device (S X Y : Type) where
  get : S → X → Y
  hit : S → X → Bool
  fetch : S → X → S

namespace Prog

variable {S X Y H α β : Type} {d : Device S X Y} {R : X → S → S → Prop} {T : H → S → H → S → Prop}
  {post : H → S → α → Prop} {p : Prog S X Y α} {h : H} {s s' : S} {x : X} {k : Y → Prog S X Y α}

/-- One program after the other. -/
def bind (f : α → Prog S X Y β) : Prog S X Y α → Prog S X Y β
  | ret a => f a
  | read x k => read x fun y => (k y).bind f
  | act g k => act g (k.bind f)

instance : Monad (Prog S X Y) where
  pure := ret
  bind p f := p.bind f

/-- Reads `x`. -/
def fetch (x : X) : Prog S X Y Y := read x ret

/-- Changes the state. -/
def modify (f : S → S) : Prog S X Y Unit := act f (ret ())

/-- The program goes on until it returns or is suspended. -/
def run (d : Device S X Y) : Prog S X Y α → S → S × Prog S X Y α
  | ret a, s => (s, ret a)
  | read x k, s => if d.hit s x then (k (d.get s x)).run d s else (s, read x k)
  | act f k, s => k.run d (f s)

/-- A program which is suspended on `x` goes on. -/
def resume (d : Device S X Y) (x : X) (k : Y → Prog S X Y α) (s : S) : S × Prog S X Y α :=
  (k (d.get (d.fetch s x) x)).run d (d.fetch s x)

/-- What the program does is allowed by `T`, and what it returns satisfies `post`, if others do what
    is allowed by `R`. -/
def Sat (d : Device S X Y) (R : X → S → S → Prop) (T : H → S → H → S → Prop)
    (post : H → S → α → Prop) : Prog S X Y α → H → S → Prop
  | ret a, h, s => post h s a
  | read x k, h, s => ∀ s', R x s s' → (k (d.get s' x)).Sat d R T post h s'
  | act f k, h, s => ∃ h', T h s h' (f s) ∧ k.Sat d R T post h' (f s)

/-- The rule for one program after the other. -/
theorem Sat.bind {f : α → Prog S X Y β} {post' : H → S → β → Prop}
    (hp : p.Sat d R T (fun h s a => (f a).Sat d R T post' h s) h s) :
    (p >>= f).Sat d R T post' h s := by
  change (p.bind f).Sat d R T post' h s
  induction p generalizing h s with
  | ret a => exact hp
  | read x k ih => exact fun s' hs' => ih _ (hp s' hs')
  | act f k ih =>
    obtain ⟨h', hT, hk⟩ := hp
    exact ⟨h', hT, ih hk⟩

section

variable (hR : ∀ x s, R x s s) (hT : ∀ h s, T h s h s)
  (htrans : ∀ {h1 s1 h2 s2 h3 s3}, T h1 s1 h2 s2 → T h2 s2 h3 s3 → T h1 s1 h3 s3)

include hR hT htrans

/-- What the program does until it returns or is suspended. -/
theorem Sat.run (hp : p.Sat d R T post h s) : ∃ h', T h s h' (p.run d s).1 ∧
      (p.run d s).2.Sat d R T post h' (p.run d s).1 := by
  induction p generalizing h s with
  | ret a => exact ⟨h, hT h s, hp⟩
  | read x k ih =>
    unfold Prog.run
    split
    · exact ih _ (hp s (hR x s))
    · exact ⟨h, hT h s, hp⟩
  | act f k ih =>
    obtain ⟨h', hT', hk⟩ := hp
    obtain ⟨h'', hT'', hk'⟩ := ih hk
    exact ⟨h'', htrans hT' hT'', hk'⟩

omit hR hT htrans in
/-- A program which is suspended stays as specified. -/
theorem Sat.stable (htrans : ∀ {x s1 s2 s3}, R x s1 s2 → R x s2 s3 → R x s1 s3)
    (hp : (read x k).Sat d R T post h s) (hs : R x s s') : (read x k).Sat d R T post h s' :=
  fun _ hs'' => hp _ (htrans hs hs'')

theorem Sat.resume (hfetch : R x s (d.fetch s x)) (hp : (read x k).Sat d R T post h s) :
    ∃ h', T h (d.fetch s x) h' (resume d x k s).1 ∧
      (resume d x k s).2.Sat d R T post h' (resume d x k s).1 :=
  Sat.run hR hT htrans (hp _ hfetch)

end

/-- A program which was run has returned, or is suspended. -/
theorem run_ne_act (d : Device S X Y) (p : Prog S X Y α) (s : S) (f : S → S) (k : Prog S X Y α) :
    (p.run d s).2 ≠ act f k := by
  induction p generalizing s with
  | ret a => simp [run]
  | read x k ih =>
    unfold run
    split
    · exact ih _ s
    · simp
  | act g k ih => exact ih (g s)

theorem resume_ne_act (d : Device S X Y) (x : X) (k : Y → Prog S X Y α) (s : S) (f : S → S)
    (p : Prog S X Y α) : (resume d x k s).2 ≠ act f p := run_ne_act d _ _ f p

end Prog

end HobbyOS
