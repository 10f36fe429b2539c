import Mathlib

/-!
# Radix trees in memory

Tables of cells refer to each other: the cell `i` of a table may hold the name of another
one, which is reached from it by the index `i`. From a root, a path of indices leads to a
table at most (`reach`).

The tables form a tree (`Tree`) if different paths, out of a given set, never lead to the
same table. A tree stays one

* when a cell which is not on such a path is written (`Tree.set`): every path leads where
  it did;
* when a table which is not in use is hung up at a cell which refers to none
  (`Tree.graft`): one path more leads somewhere, and all others lead where they did.

What is written to a cell of one table is not seen in the others (`cell_set`,
`cell_graft`).
-/

namespace HobbyOS

open Function List Option

namespace Radix

variable {T I W : Type*} [DecidableEq T] [DecidableEq I]

/-- Writing to a cell. -/
def set (mem : T → I → W) (t : T) (i : I) (w : W) : T → I → W :=
  update mem t (update (mem t) i w)

/-- A table is cleared. -/
def clear (mem : T → I → W) (t : T) (w : W) : T → I → W := update mem t fun _ => w

variable {mem : T → I → W} {t u root : T} {i j : I} {w : W}

theorem set_self : set mem t i w t i = w := by
  rw [set, update_self, update_self]

theorem set_of_ne (h : ¬ (u = t ∧ j = i)) : set mem t i w u j = mem u j := by
  rw [set]
  rcases eq_or_ne u t with rfl | hne
  · rw [update_self, update_of_ne fun hj => h ⟨rfl, hj⟩]
  · rw [update_of_ne hne]

omit [DecidableEq I] in
theorem clear_of_ne (h : u ≠ t) : clear mem t w u = mem u := update_of_ne h ..

omit [DecidableEq I] in
theorem clear_self : clear mem t w t i = w := by rw [clear, update_self]

variable (child : W → Option T)

/-- The table to which a path leads. -/
def reach (mem : T → I → W) : T → List I → Option T
  | t, [] => some t
  | t, i :: path => (child (mem t i)).bind fun u => reach mem u path

variable {child}

omit [DecidableEq T] [DecidableEq I] in
theorem reach_append (t : T) (p q : List I) :
    reach child mem t (p ++ q) = (reach child mem t p).bind fun u => reach child mem u q := by
  induction p generalizing t with
  | nil => rfl
  | cons i p ih => simp only [cons_append, reach, ih, bind_assoc]

omit [DecidableEq T] [DecidableEq I] in
theorem reach_concat (t : T) (p : List I) (i : I) :
    reach child mem t (p ++ [i]) = (reach child mem t p).bind fun u => child (mem u i) := by
  rw [reach_append]
  simp [reach]

/-- A set of paths which contains the beginnings of its paths. -/
def PrefixClosed (paths : Set (List I)) : Prop := ∀ p i, p ++ [i] ∈ paths → p ∈ paths

omit [DecidableEq I] in
theorem PrefixClosed.of_prefix (h : PrefixClosed paths) (hq : q ∈ paths) (hp : p <+: q) :
    p ∈ paths := by
  obtain ⟨r, rfl⟩ := hp
  induction r using List.reverseRecOn with
  | nil => simpa using hq
  | append_singleton r i ih => exact ih (h _ i (by rwa [append_assoc]))

/-- The tables reached by the paths are among `used`, and no two paths lead to the same one. -/
structure Tree (child : W → Option T) (mem : T → I → W) (root : T) (paths : Set (List I))
    (used : Set T) : Prop where
  used : ∀ p ∈ paths, ∀ t, reach child mem root p = some t → t ∈ used
  inj : ∀ p ∈ paths, ∀ q ∈ paths, ∀ t, reach child mem root p = some t →
    reach child mem root q = some t → p = q

variable {paths : Set (List I)} {used : Set T} {p q : List I} {w0 : W}

variable (h : Tree child mem root paths used) (hpaths : PrefixClosed paths)

include h hpaths

/-- A path leads where it did if it does not pass the cell which is written. -/
theorem Tree.reach_set (hp : p ∈ paths) (ht : reach child mem root p = some t) (hq : q ∈ paths)
    (hpass : ¬ p ++ [i] <+: q) : reach child (set mem t i w) root q = reach child mem root q := by
  -- By induction on the path, whose last cell is in a table reached by a shorter one.
  induction q using List.reverseRecOn with
  | nil => rfl
  | append_singleton q j ih =>
    have hq' := hpaths q j hq
    rw [reach_concat, reach_concat, ih hq' fun hpre => hpass (hpre.trans (prefix_append ..))]
    cases hu : reach child mem root q with
    | none => rfl
    | some u =>
      refine congrArg child (set_of_ne ?_)
      rintro ⟨rfl, rfl⟩
      obtain rfl := h.inj p hp q hq' u ht hu
      exact hpass (prefix_refl _)

omit [DecidableEq I] in
/-- A table which is not in use may be cleared. -/
theorem Tree.reach_clear (ht : t ∉ used) (hq : q ∈ paths) :
    reach child (clear mem t w) root q = reach child mem root q := by
  induction q using List.reverseRecOn with
  | nil => rfl
  | append_singleton q j ih =>
    have hq' := hpaths q j hq
    rw [reach_concat, reach_concat, ih hq']
    cases hu : reach child mem root q with
    | none => rfl
    | some u =>
      have hne : u ≠ t := fun he => ht (he ▸ h.used q hq' u hu)
      exact congrArg child (congrFun (clear_of_ne hne) j)

omit [DecidableEq I] in
theorem Tree.clear (ht : t ∉ used) (w : W) : Tree child (clear mem t w) root paths used where
  used q hq u hu := h.used q hq u ((h.reach_clear hpaths ht hq).symm.trans hu)
  inj q hq q' hq' u hu hu' := h.inj q hq q' hq' u ((h.reach_clear hpaths ht hq).symm.trans hu)
    ((h.reach_clear hpaths ht hq').symm.trans hu')

variable (ht : reach child mem root p = some t)

include ht

/-- Writing to a cell which is on none of the paths. -/
theorem Tree.set (hp : p ∈ paths) (hi : p ++ [i] ∉ paths) (w : W) :
    Tree child (set mem t i w) root paths used ∧
      ∀ q ∈ paths, reach child (Radix.set mem t i w) root q = reach child mem root q := by
  have hreach (q : List I) (hq : q ∈ paths) :
      reach child (Radix.set mem t i w) root q = reach child mem root q :=
    h.reach_set hpaths hp ht hq fun hpre => hi (hpaths.of_prefix hq hpre)
  refine ⟨⟨fun q hq u hu => ?_, fun q hq q' hq' u hu hu' => ?_⟩, hreach⟩
  · rw [hreach q hq] at hu
    exact h.used q hq u hu
  · rw [hreach q hq] at hu
    rw [hreach q' hq'] at hu'
    exact h.inj q hq q' hq' u hu hu'

/-- A table which is not in use is cleared, and hung up at a cell which refers to none. -/
theorem Tree.graft (hp : p ∈ paths) (hnone : child (mem t i) = none) (hu : u ∉ used)
    (hw0 : child w0 = none) (hw : child w = some u) :
    Tree child (Radix.set (Radix.clear mem u w0) t i w) root paths (insert u used) ∧
      ∀ q ∈ paths, reach child (Radix.set (Radix.clear mem u w0) t i w) root q =
        if q = p ++ [i] then some u else reach child mem root q := by
  have htu : t ≠ u := fun he => hu (he ▸ h.used p hp t ht)
  have ht' : reach child (Radix.clear mem u w0) root p = some t :=
    (h.reach_clear hpaths hu hp).trans ht
  have hreach (q : List I) (hq : q ∈ paths) :
      reach child (Radix.set (Radix.clear mem u w0) t i w) root q =
        if q = p ++ [i] then some u else reach child mem root q := by
    by_cases hpre : p ++ [i] <+: q
    · -- The path passes the cell: so far it has led nowhere, and now at most to the new table,
      -- whose cells refer to nothing.
      obtain ⟨r, rfl⟩ := hpre
      have hold : reach child mem root (p ++ [i] ++ r) = none := by
        rw [reach_append, reach_concat, ht, bind_some, hnone]
        rfl
      have hsame : reach child (Radix.set (Radix.clear mem u w0) t i w) root p = some t := by
        refine ((h.clear hpaths hu w0).reach_set hpaths hp ht' hp fun hpre => ?_).trans ht'
        simpa using hpre.length_le
      have hcell : Radix.set (Radix.clear mem u w0) t i w t i = w := set_self
      rw [reach_append, reach_concat, hsame, bind_some, hcell, hw, bind_some, hold]
      cases r with
      | nil => rw [append_nil, if_pos rfl, reach]
      | cons j r =>
        have hzero : Radix.set (Radix.clear mem u w0) t i w u j = w0 := by
          rw [set_of_ne fun hc => htu hc.1.symm, clear_self]
        rw [reach, hzero, hw0, if_neg (by simp)]
        rfl
    · have hne : q ≠ p ++ [i] := fun he => hpre (he ▸ prefix_refl _)
      rw [if_neg hne, (h.clear hpaths hu w0).reach_set hpaths hp ht' hq hpre,
        h.reach_clear hpaths hu hq]
  refine ⟨⟨fun q hq v hv => ?_, fun q hq q' hq' v hv hv' => ?_⟩, hreach⟩
  · rw [hreach q hq] at hv
    split at hv
    · exact .inl (Option.some.inj hv).symm
    · exact .inr (h.used q hq v hv)
  · rw [hreach q hq] at hv
    rw [hreach q' hq'] at hv'
    split at hv <;> split at hv'
    next hq1 hq2 => rw [hq1, hq2]
    · exact absurd (h.used q' hq' v hv') (Option.some.inj hv ▸ hu)
    · exact absurd (h.used q hq v hv) (Option.some.inj hv' ▸ hu)
    · exact h.inj q hq q' hq' v hv hv'

/-! ## Cells -/

/-- The cell of the table to which a path leads. -/
def cell (child : W → Option T) (mem : T → I → W) (root : T) (p : List I) (i : I) : Option W :=
  (reach child mem root p).map fun t => mem t i

/-- A cell which is written, and the others. -/
theorem Tree.cell_set (hp : p ∈ paths) (hi : p ++ [i] ∉ paths) (w : W) (hq : q ∈ paths) (j : I) :
    cell child (Radix.set mem t i w) root q j =
      if q = p ∧ j = i then some w else cell child mem root q j := by
  rw [cell, cell, (h.set hpaths ht hp hi w).2 q hq]
  split
  next he =>
    rw [he.1, he.2, ht, map_some, set_self]
  next hne =>
    cases hu : reach child mem root q with
    | none => rfl
    | some u =>
      rw [map_some, map_some, set_of_ne]
      rintro ⟨rfl, rfl⟩
      exact hne ⟨h.inj q hq p hp u hu ht, rfl⟩

/-- The cells of a new table are clear, and the others are as they have been, except for the one
    it is hung up at. -/
theorem Tree.cell_graft (hp : p ∈ paths) (hnone : child (mem t i) = none) (hu : u ∉ used)
    (hw0 : child w0 = none) (hw : child w = some u) (hq : q ∈ paths) (hqp : q ≠ p) (j : I) :
    cell child (Radix.set (Radix.clear mem u w0) t i w) root q j =
      if q = p ++ [i] then some w0 else cell child mem root q j := by
  have htu : t ≠ u := fun he => hu (he ▸ h.used p hp t ht)
  rw [cell, cell, (h.graft hpaths ht hp hnone hu hw0 hw).2 q hq]
  split
  · rw [map_some, set_of_ne fun hc => htu hc.1.symm, clear_self]
  cases hv : reach child mem root q with
  | none => rfl
  | some v =>
    have hvu : v ≠ u := fun he => hu (he ▸ h.used q hq v hv)
    rw [map_some, map_some, set_of_ne, clear_of_ne hvu]
    rintro ⟨rfl, -⟩
    exact hqp (h.inj q hq p hp v hv ht)

end Radix

end HobbyOS
