import Mathlib

/-!
# Tilings

A set of tiles covers a region exactly: the tiles are pairwise disjoint and
their union is the region. A tile may be laid on free ground (`Tiles.insert`) or
taken away (`Tiles.erase`); every rearrangement of tiles, such as cutting one in
two or joining two of them, is made of these.

The tiles of the memory allocator are *dyadic* blocks, intervals of length `2 ^ i`;
a block of order `i + 1` is made of two of order `i` (`dyadic_succ`).
-/

namespace HobbyOS

open Set

variable {ι α : Type*} {area : ι → Set α} {F : Set ι} {T : Set α} {t : ι} {i : ℕ} {x p y : ℤ}

/-- The tiles `F`, each covering an area, cover the region `T` exactly. -/
structure Tiles (area : ι → Set α) (F : Set ι) (T : Set α) : Prop where
  disjoint : F.PairwiseDisjoint area
  cover : ⋃ t ∈ F, area t = T

namespace Tiles

theorem subset (h : Tiles area F T) (ht : t ∈ F) : area t ⊆ T := by
  rw [← h.cover]
  exact subset_biUnion_of_mem (u := area) ht

theorem exists_mem (h : Tiles area F T) {p : α} (hp : p ∈ T) : ∃ t ∈ F, p ∈ area t := by
  rw [← h.cover] at hp
  simpa using hp

/-- Laying a tile on free ground. -/
theorem insert (h : Tiles area F T) (ht : Disjoint (area t) T) :
    Tiles area (insert t F) (T ∪ area t) where
  disjoint := pairwiseDisjoint_insert.2
    ⟨h.disjoint, fun _ hj _ => ht.mono_right (h.subset hj)⟩
  cover := by rw [biUnion_insert, h.cover, union_comm]

/-- Taking a tile away. -/
theorem erase (h : Tiles area F T) (ht : t ∈ F) : Tiles area (F \ {t}) (T \ area t) where
  disjoint := h.disjoint.subset sdiff_subset
  cover := by
    ext p
    simp only [mem_iUnion, mem_sdiff, mem_singleton_iff, exists_prop]
    constructor
    · rintro ⟨u, ⟨hu, hne⟩, hp⟩
      exact ⟨h.subset hu hp, fun hp' => disjoint_left.1 (h.disjoint hu ht hne) hp hp'⟩
    · rintro ⟨hp, hnp⟩
      obtain ⟨u, hu, hpu⟩ := h.exists_mem hp
      exact ⟨u, ⟨hu, fun e => hnp (e ▸ hpu)⟩, hpu⟩

end Tiles

/-- The dyadic block of order `i` at `x`. -/
def dyadic (i : ℕ) (x : ℤ) : Set ℤ := Set.Ico x (x + 2 ^ i)

theorem mem_dyadic : p ∈ dyadic i x ↔ x ≤ p ∧ p < x + 2 ^ i := Iff.rfl

theorem self_mem_dyadic (i : ℕ) (x : ℤ) : x ∈ dyadic i x := by
  have : (0 : ℤ) < 2 ^ i := by positivity
  exact mem_dyadic.2 ⟨le_rfl, by omega⟩

/-- A block of order `i + 1` is made of two blocks of order `i`. -/
theorem dyadic_succ (i : ℕ) (x : ℤ) : dyadic (i + 1) x = dyadic i x ∪ dyadic i (x + 2 ^ i) := by
  ext p
  have : (0 : ℤ) < 2 ^ i := by positivity
  simp only [mem_union, mem_dyadic]
  omega

/-- Of two aligned blocks which overlap, the one of the smaller order is inside of the other. -/
theorem dyadic_subset {j : ℕ} (hij : i ≤ j) (hx : (2 : ℤ) ^ i ∣ x) (hy : (2 : ℤ) ^ j ∣ y)
    (hp : p ∈ dyadic i x) (hp' : p ∈ dyadic j y) : dyadic i x ⊆ dyadic j y := by
  obtain ⟨a, rfl⟩ := hx
  obtain ⟨d, rfl⟩ := Nat.exists_eq_add_of_le hij
  obtain ⟨c, rfl⟩ := hy
  have hpow : (0 : ℤ) < 2 ^ i := by positivity
  rw [mem_dyadic] at hp hp'
  rw [pow_add, mul_assoc] at hp'
  -- Both blocks start and end at multiples of `2 ^ i`, and there is none inside of the smaller one.
  have h1 : 2 ^ d * c < a + 1 := lt_of_mul_lt_mul_left
    (show (2 : ℤ) ^ i * (2 ^ d * c) < 2 ^ i * (a + 1) by linarith) hpow.le
  have h2 : a < 2 ^ d * c + 2 ^ d := lt_of_mul_lt_mul_left
    (show (2 : ℤ) ^ i * a < 2 ^ i * (2 ^ d * c + 2 ^ d) by linarith) hpow.le
  have h3 : (2 : ℤ) ^ i * (2 ^ d * c) ≤ 2 ^ i * a := mul_le_mul_of_nonneg_left (by omega) hpow.le
  have h4 : (2 : ℤ) ^ i * (a + 1) ≤ 2 ^ i * (2 ^ d * c + 2 ^ d) :=
    mul_le_mul_of_nonneg_left (by omega) hpow.le
  intro q hq
  rw [mem_dyadic] at hq ⊢
  rw [pow_add, mul_assoc]
  constructor <;> linarith

/-- A block is determined by its pages. -/
theorem dyadic_inj (h : dyadic i y ⊆ dyadic i x) (h' : dyadic i x ⊆ dyadic i y) : x = y :=
  le_antisymm (h (self_mem_dyadic i y)).1 (h' (self_mem_dyadic i x)).1

/-- The halves of a block do not overlap. -/
theorem disjoint_dyadic_half (i : ℕ) (x : ℤ) : Disjoint (dyadic i x) (dyadic i (x + 2 ^ i)) := by
  refine disjoint_left.2 fun p hp hp' => ?_
  rw [mem_dyadic] at hp hp'
  omega

end HobbyOS
