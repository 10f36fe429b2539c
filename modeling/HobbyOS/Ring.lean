import Mathlib

/-!
# Rings

A queue in a ring of `N` places: the index of the next place to write and that of the next
place to read count modulo `M`, a multiple of `N`, and the place of an index is its remainder
modulo `N`. The queue may be wrapped around both (`Queued`).

* `Queued.push`: something is written, if there is room;
* `Queued.pop`: something is read;
* `Queued.eq_nil`: the queue is empty if the indices agree.
-/

namespace HobbyOS

open Function List Nat

variable {α : Type*} {N M read write : ℕ} {ring : ℕ → α} {x : α} {l : List α}

/-- The places from the index `read` to the index `write` hold the queue. -/
def Queued (N M : ℕ) (ring : ℕ → α) : ℕ → ℕ → List α → Prop
  | read, write, [] => write = read
  | read, write, x :: l => ring (read % N) = x ∧ Queued N M ring ((read + 1) % M) write l

theorem Queued.pop (h : Queued N M ring read write (x :: l)) :
    ring (read % N) = x ∧ Queued N M ring ((read + 1) % M) write l := h

/-- Where something is written next. -/
theorem Queued.write_mod (hN : N ∣ M) (h : Queued N M ring read write l) :
    write % N = (read + l.length) % N := by
  induction l generalizing read with
  | nil => rw [show write = read from h, length_nil, add_zero]
  | cons x l ih =>
    rw [ih h.2, add_mod, mod_mod_of_dvd _ hN, ← add_mod, length_cons]
    congr 1
    omega

/-- Nothing in the queue is overwritten as long as there is room. -/
theorem Queued.write_ne (hN : N ∣ M) (h : Queued N M ring read write (x :: l))
    (hl : (x :: l).length < N) : write % N ≠ read % N := by
  rw [h.write_mod hN]
  intro he
  have hmod : (x :: l).length % N = 0 := by
    have := Nat.ModEq.add_left_cancel' read (show read + (x :: l).length ≡ read + 0 [MOD N] from he)
    exact this
  rw [mod_eq_of_lt hl] at hmod
  cases hmod

variable (h : Queued N M ring read write l)

include h

theorem Queued.push (hN : N ∣ M) (hl : l.length < N) (hr : read < M) (x : α) :
    Queued N M (update ring (write % N) x) read ((write + 1) % M) (l ++ [x]) := by
  induction l generalizing read with
  | nil =>
    obtain rfl : write = read := h
    exact ⟨update_self .., rfl⟩
  | cons y l ih =>
    have hM : 0 < M := by omega
    refine ⟨?_, ih h.2 (lt_of_succ_lt hl) (mod_lt _ hM)⟩
    rw [update_of_ne (h.write_ne hN hl).symm]
    exact h.1

theorem Queued.write_eq (hr : read < M) : write = (read + l.length) % M := by
  induction l generalizing read with
  | nil => rw [show write = read from h, length_nil, add_zero, mod_eq_of_lt hr]
  | cons x l ih =>
    rw [ih h.2 (mod_lt _ (by omega)), mod_add_mod, length_cons]
    congr 1
    omega

theorem Queued.write_lt (hr : read < M) : write < M := by
  rw [h.write_eq hr]
  exact mod_lt _ (by omega)

/-- The queue is empty if and only if the indices agree, as long as it is shorter than their
    range. -/
theorem Queued.eq_nil (hr : read < M) (hl : l.length < M) : read = write ↔ l = [] := by
  constructor
  · intro he
    have hw := h.write_eq hr
    rw [← he] at hw
    by_contra hne
    have hpos : 0 < l.length := length_pos_of_ne_nil hne
    by_cases hlt : read + l.length < M
    · rw [mod_eq_of_lt hlt] at hw
      omega
    · rw [mod_eq_sub_mod (by omega), mod_eq_of_lt (by omega)] at hw
      omega
  · rintro rfl
    exact h.symm

end HobbyOS
