import Mathlib

/-!
# Little-endian words of a byte memory

A memory maps addresses to bytes. A word of `n` bytes at the address `a` is the
number whose digits, from the lowest, are the bytes at `a`, …, `a + n - 1`.

* `loadLE_storeLE`: a word stored is read back, up to its width;
* `storeLE_of_notMem`, `loadLE_storeLE_of_disjoint`: a store changes nothing else;
* `loadLE_storeAll`, `storeAll_of_notMem`: the same for words stored one after the other.
-/

namespace HobbyOS

open Function Nat

variable {m m' : ℕ → UInt8} {a b n k v : ℕ} {vs : List ℕ}

/-- The word of `n` bytes at the address `a`. -/
def loadLE (m : ℕ → UInt8) (a : ℕ) : ℕ → ℕ
  | 0 => 0
  | n + 1 => (m a).toNat + 256 * loadLE m (a + 1) n

theorem loadLE_lt : loadLE m a n < 256 ^ n := by
  induction n generalizing a with
  | zero => exact Nat.one_pos
  | succ n ih =>
    have hbyte := (m a).toNat_lt
    have hrest := ih (a := a + 1)
    rw [loadLE, pow_succ']
    omega

/-- Storing the `n` lowest bytes of `v` at the address `a`. -/
def storeLE (m : ℕ → UInt8) (a : ℕ) : ℕ → ℕ → ℕ → UInt8
  | 0, _ => m
  | n + 1, v => storeLE (update m a (UInt8.ofNat v)) (a + 1) n (v / 256)

/-- A word reads its own bytes only. -/
theorem loadLE_congr (h : ∀ x, a ≤ x → x < a + n → m' x = m x) : loadLE m' a n = loadLE m a n := by
  induction n generalizing a with
  | zero => rfl
  | succ n ih =>
    rw [loadLE, loadLE, h a le_rfl (by omega), ih fun x hx hx' => h x (by omega) (by omega)]

/-- A store changes no byte outside of the word. -/
theorem storeLE_of_notMem (h : b < a ∨ a + n ≤ b) : storeLE m a n v b = m b := by
  induction n generalizing a m v with
  | zero => rfl
  | succ n ih =>
    rw [storeLE, ih (by omega), update_of_ne (by omega)]

theorem loadLE_storeLE : loadLE (storeLE m a n v) a n = v % 256 ^ n := by
  induction n generalizing a m v with
  | zero => simp [loadLE, mod_one]
  | succ n ih =>
    rw [storeLE, loadLE, ih, storeLE_of_notMem (by omega), update_self, UInt8.toNat_ofNat']
    exact (pow_succ' 256 n ▸ mod_mul).symm

/-- A word whose bytes are those of a number. -/
theorem loadLE_of_bytes (h : ∀ k < n, m (a + k) = UInt8.ofNat (v / 256 ^ k)) :
    loadLE m a n = v % 256 ^ n := by
  induction n generalizing a v with
  | zero => simp [loadLE, mod_one]
  | succ n ih =>
    have hfirst := h 0 n.succ_pos
    have hrest : loadLE m (a + 1) n = v / 256 % 256 ^ n := ih fun k hk => by
      rw [Nat.div_div_eq_div_mul, ← pow_succ', ← h (k + 1) (succ_lt_succ hk), Nat.add_assoc,
        Nat.add_comm 1]
    rw [Nat.add_zero, pow_zero, Nat.div_one] at hfirst
    rw [loadLE, hfirst, hrest, UInt8.toNat_ofNat']
    exact (pow_succ' 256 n ▸ mod_mul).symm

/-- A store leaves the words which do not overlap it. -/
theorem loadLE_storeLE_of_disjoint (h : b + k ≤ a ∨ a + n ≤ b) :
    loadLE (storeLE m a n v) b k = loadLE m b k :=
  loadLE_congr fun _ _ _ => storeLE_of_notMem (by omega)

/-- Writing a byte outside of a word leaves the word. -/
theorem loadLE_update (h : b < a ∨ a + n ≤ b) (x : UInt8) :
    loadLE (update m b x) a n = loadLE m a n :=
  loadLE_congr fun _ _ _ => update_of_ne (by omega) _ _

/-! ## Sequences of words -/

/-- Storing words of `n` bytes one after the other, from the address `a` on. -/
def storeAll (n : ℕ) : (ℕ → UInt8) → ℕ → List ℕ → ℕ → UInt8
  | m, _, [] => m
  | m, a, v :: vs => storeAll n (storeLE m a n v) (a + n) vs

/-- The words change no byte outside of them. -/
theorem storeAll_of_notMem (h : b < a ∨ a + n * vs.length ≤ b) : storeAll n m a vs b = m b := by
  induction vs generalizing m a with
  | nil => rfl
  | cons v vs ih =>
    rw [List.length_cons, mul_succ] at h
    rw [storeAll, ih (by omega), storeLE_of_notMem (by omega)]

/-- Every word is read back. -/
theorem loadLE_storeAll {i : ℕ} (h : i < vs.length) :
    loadLE (storeAll n m a vs) (a + n * i) n = vs[i] % 256 ^ n := by
  induction vs generalizing m a i with
  | nil => cases h
  | cons v vs ih =>
    cases i with
    | zero =>
      -- The words after the first one are stored behind it.
      have hsame : loadLE (storeAll n (storeLE m a n v) (a + n) vs) a n =
          loadLE (storeLE m a n v) a n := loadLE_congr fun x _ hx => storeAll_of_notMem (.inl hx)
      rw [storeAll, Nat.mul_zero, Nat.add_zero, hsame, loadLE_storeLE]
      rfl
    | succ i =>
      have ha : a + n * (i + 1) = a + n + n * i := by
        rw [mul_succ]
        omega
      rw [storeAll, ha, ih (lt_of_succ_lt_succ h)]
      rfl

end HobbyOS
