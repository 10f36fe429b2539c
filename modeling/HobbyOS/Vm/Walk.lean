import HobbyOS.Machine
import HobbyOS.Pool
import HobbyOS.Radix

/-!
# Page tables in memory

The tables of a `PMT` as they are in memory: pages of 512 words, each of which is a page
table entry. `PMT::walk` takes nine bits of the address on each level, follows the entries
of the levels 2 and 1 to the next table, and allocates tables which are missing.

For addresses of the user (below `2 ^ 38`) this is a finite map from pages to physical
pages with flags (`reachable_refines`):

* the tables form a tree (`Radix.Tree`), since `PMT::walk` only hangs up tables which have
  just been allocated (`walk_alloc`);
* the entries of different pages are different cells of it (`page_inj`), and an entry
  holds the page and the flags it was made of (`pte2pa_makePte`, `flags_makePte`).

Tables are named by their physical addresses, to which `MemoryLayout::p2v` adds a constant.
`HobbyOS.Vm.Pmt` takes the tables for the tree they are.
-/

namespace HobbyOS

open Function List Nat Option Radix

/-- `PMT::makePte`. -/
def makePte (phys flags : ℕ) : ℕ := ((phys >>> 12) <<< 10) % 2 ^ 64 ||| flags

/-- `PMT::pte2pa`. -/
def pte2pa (pte : ℕ) : ℕ := ((pte >>> 10) <<< 12) % 2 ^ 64

/-- `PMT::pteValid`. -/
def pteValid (pte : ℕ) : Bool := pte &&& 1 ≠ 0

/-- The index of an address in a table of this level. -/
def pageNum (va level : ℕ) : ℕ := (va >>> (12 + level * 9)) &&& 0x1FF

/-- The indices on the levels which `PMT::walk` goes down. -/
def indices (va : ℕ) : List ℕ := [pageNum va 2, pageNum va 1]

/-- The table a valid entry of the levels 2 and 1 refers to, as in `PMT::pte2table`. -/
def pte2table (pte : ℕ) : Option ℕ := if pteValid pte then some (pte2pa pte) else none

/-- The state of the allocator, and the words of pages by their physical addresses. -/
structure Ram (σ : Type*) where
  pool : σ
  mem : ℕ → ℕ → ℕ

namespace Ram

variable {σ : Type*} (P : Pool σ ℕ) (root : ℕ)

/-- `PMT::walk` from a table down, along indices; there is no table if one is missing and is not,
    or cannot be, allocated. -/
def walk (alloc : Bool) : List ℕ → ℕ → Ram σ → Option ℕ × Ram σ
  | [], table, s => (some table, s)
  | i :: is, table, s =>
    if pteValid (s.mem table i) then walk alloc is (pte2pa (s.mem table i)) s
    else if !alloc then (none, s)
    else
      match P.take s.pool with
      | (none, pool) => (none, { s with pool := pool })
      | (some pa, pool) =>
        -- The constructor of `PMT` clears the new table.
        walk alloc is pa ⟨pool, set (clear s.mem pa 0) table i (makePte pa 1)⟩

/-- `PMT::mapPage`: whether the page could be mapped; it panics if it is mapped already. -/
def mapPage (va pa flags : ℕ) (s : Ram σ) : Option (Bool × Ram σ) :=
  match walk P true (indices va) root s with
  | (none, s) => some (false, s)
  | (some table, s) =>
    if pteValid (s.mem table (pageNum va 0)) then none
    else some (true, { s with mem := set s.mem table (pageNum va 0) (makePte pa flags) })

/-- `PMT::unmapPage`: the page which was mapped, or `0`. -/
def unmapPage (va : ℕ) (s : Ram σ) : ℕ × Ram σ :=
  match walk P false (indices va) root s with
  | (none, s) => (0, s)
  | (some table, s) =>
    if pteValid (s.mem table (pageNum va 0)) then
      (pte2pa (s.mem table (pageNum va 0)), { s with mem := set s.mem table (pageNum va 0) 0 })
    else (0, s)

/-- The valid entry for a page. -/
def entry (s : Ram σ) (va : ℕ) : Option ℕ :=
  ((walk P false (indices va) root s).1.map fun table => s.mem table (pageNum va 0)).filter pteValid

/-- `PMT::translate`. -/
def translate (s : Ram σ) (va : ℕ) : ℕ :=
  match entry P root s va with
  | none => 0
  | some pte => (pte2pa pte + (va &&& 4095)) % 2 ^ 64

/-- `PMT::getFlags`. -/
def getFlags (s : Ram σ) (va : ℕ) : ℕ :=
  match entry P root s va with
  | none => 0
  | some pte => pte &&& 0x3FF

end Ram

/-! ## Entries -/

variable {pa flags : ℕ}

theorem makePte_eq (hpa : pa < 2 ^ 56) (hflags : flags < 2 ^ 10) :
    makePte pa flags = pa / 2 ^ 12 * 2 ^ 10 + flags := by
  have hlt : (pa >>> 12) <<< 10 < 2 ^ 64 := by
    rw [shiftLeft_eq, shiftRight_eq_div_pow]
    omega
  rw [makePte, mod_eq_of_lt hlt, ← shiftLeft_add_eq_or_of_lt hflags, shiftLeft_eq,
    shiftRight_eq_div_pow]

theorem pteValid_iff {pte : ℕ} : pteValid pte = true ↔ pte % 2 = 1 := by
  rw [pteValid, decide_eq_true_iff, and_one_is_mod]
  omega

/-- An entry refers to the page it was made of. -/
theorem pte2pa_makePte (hmod : pa % 2 ^ 12 = 0) (hpa : pa < 2 ^ 56) (hflags : flags < 2 ^ 10) :
    pte2pa (makePte pa flags) = pa := by
  rw [pte2pa, makePte_eq hpa hflags, shiftLeft_eq, shiftRight_eq_div_pow]
  omega

/-- An entry has the flags it was made of. -/
theorem flags_makePte (hpa : pa < 2 ^ 56) (hflags : flags < 2 ^ 10) :
    makePte pa flags &&& 0x3FF = flags := by
  rw [makePte_eq hpa hflags, show 0x3FF = 2 ^ 10 - 1 from rfl, and_two_pow_sub_one_eq_mod]
  omega

theorem pteValid_makePte (hpa : pa < 2 ^ 56) (hflags : flags < 2 ^ 10) :
    pteValid (makePte pa flags) = pteValid flags := by
  rw [Bool.eq_iff_iff, pteValid_iff, pteValid_iff, makePte_eq hpa hflags]
  omega

theorem pte2table_zero : pte2table 0 = none := rfl

theorem pte2table_makePte (hmod : pa % 2 ^ 12 = 0) (hpa : pa < 2 ^ 56) :
    pte2table (makePte pa 1) = some pa := by
  rw [pte2table, pteValid_makePte hpa (by decide), pte2pa_makePte hmod hpa (by decide)]
  rfl

theorem pageNum_eq (va level : ℕ) : pageNum va level = va / 2 ^ (12 + level * 9) % 512 := by
  rw [pageNum, show 0x1FF = 2 ^ 9 - 1 from rfl, and_two_pow_sub_one_eq_mod, shiftRight_eq_div_pow]

/-- Pages of the user differ in one of the indices. -/
theorem page_inj {va va' : ℕ} (h : va < 2 ^ 38) (h' : va' < 2 ^ 38) :
    indices va = indices va' ∧ pageNum va 0 = pageNum va' 0 ↔ va / 2 ^ 12 = va' / 2 ^ 12 := by
  simp only [indices, pageNum_eq, List.cons.injEq, and_true]
  omega

/-! ## The tree of tables -/

/-- The paths from the root to the tables for addresses of the user. -/
def userPaths : Set (List ℕ) := { p | ∃ va < 2 ^ 38, p <+: indices va }

theorem userPaths_closed : Radix.PrefixClosed userPaths := by
  rintro p i ⟨va, hva, hp⟩
  exact ⟨va, hva, (prefix_append p [i]).trans hp⟩

theorem indices_mem {va : ℕ} (h : va < 2 ^ 38) : indices va ∈ userPaths :=
  ⟨va, h, prefix_refl _⟩

/-- The entries of the level 0 are not on these paths. -/
theorem concat_notMem (va i : ℕ) : indices va ++ [i] ∉ userPaths := by
  rintro ⟨va', -, hp⟩
  exact absurd hp.length_le (by simp [indices])

/-- The allocator hands out pages, by their physical addresses. -/
def Pool.Pages {σ : Type*} (P : Pool σ ℕ) : Prop :=
  ∀ s pa s', P.take s = (some pa, s') → pa % 2 ^ 12 = 0 ∧ pa < 2 ^ 56

namespace Ram

variable {σ : Type*} {P : Pool σ ℕ} {live : σ → Set ℕ → Prop} {root va : ℕ} {s s' : Ram σ}

theorem walk_find (is : List ℕ) (table : ℕ) (s : Ram σ) :
    walk P false is table s = (reach pte2table s.mem table is, s) := by
  induction is generalizing table with
  | nil => rfl
  | cons i is ih =>
    rw [walk, reach, pte2table]
    split
    · rw [ih]
      rfl
    · rfl

theorem entry_eq : entry P root s va =
    (cell pte2table s.mem root (indices va) (pageNum va 0)).filter pteValid := by
  rw [entry, walk_find, cell]

/-- The tables form a tree of pages which the allocator handed out. -/
def Planted (live : σ → Set ℕ → Prop) (root : ℕ) (s : Ram σ) : Prop :=
  ∃ used, live s.pool used ∧ Radix.Tree pte2table s.mem root userPaths used

/-- `PMT::walk` with allocation: the tables stay a tree, and the entries are what they were. -/
theorem walk_alloc {p is : List ℕ} {table : ℕ} {o : Option ℕ} (hP : P.Lawful live)
    (hpages : P.Pages) (h : s.Planted live root) (hva : va < 2 ^ 38) (hpath : p ++ is = indices va)
    (ht : reach pte2table s.mem root p = some table) (hw : walk P true is table s = (o, s')) :
    s'.Planted live root ∧ (∀ va' < 2 ^ 38, entry P root s' va' = entry P root s va') ∧
      ∀ t, o = some t → reach pte2table s'.mem root (indices va) = some t := by
  -- By induction on what is left of the path.
  induction is generalizing p table s with
  | nil =>
    cases hw
    rw [append_nil] at hpath
    refine ⟨h, fun _ _ => rfl, fun t he => ?_⟩
    rw [← hpath, ht, he]
  | cons i is ih =>
    have hpath' : (p ++ [i]) ++ is = indices va := by rw [← hpath, append_assoc]; rfl
    have hp : p ∈ userPaths := ⟨va, hva, i :: is, hpath⟩
    rw [walk] at hw
    split at hw
    next hvalid =>
      -- The table is there.
      refine ih h hpath' ?_ hw
      rw [reach_concat, ht, bind_some, pte2table, if_pos hvalid]
    next hvalid =>
      obtain ⟨used, hlive, htree⟩ := h
      rw [if_neg (by decide)] at hw
      split at hw
      next pool htake =>
        cases hw
        refine ⟨⟨used, hP.take_none hlive htake, htree⟩, fun va' _ => ?_, nofun⟩
        rw [entry_eq, entry_eq]
      next pa pool htake =>
        obtain ⟨hnew, hlive'⟩ := hP.take_some hlive htake
        obtain ⟨hmod, hlt⟩ := hpages _ _ _ htake
        have hnone : pte2table (s.mem table i) = none := if_neg hvalid
        obtain ⟨htree', hreach⟩ := htree.graft userPaths_closed ht hp hnone hnew pte2table_zero
          (pte2table_makePte hmod hlt)
        have ht' := hreach (p ++ [i]) ⟨va, hva, is, hpath'⟩
        rw [if_pos rfl] at ht'
        obtain ⟨h1, h2, h3⟩ := ih ⟨_, hlive', htree'⟩ hpath' ht' hw
        refine ⟨h1, fun va' hva' => (h2 va' hva').trans ?_, h3⟩
        -- The new table is not on the way to an entry, or all of its entries are clear.
        have hne : indices va' ≠ p := by
          rintro rfl
          have := congrArg List.length hpath
          simp [indices] at this
        rw [entry_eq, entry_eq, htree.cell_graft userPaths_closed ht hp hnone hnew pte2table_zero
          (pte2table_makePte hmod hlt) (indices_mem hva') hne]
        split
        next he =>
          have hold : reach pte2table s.mem root (indices va') = none := by
            rw [he, reach_concat, ht, bind_some, hnone]
          rw [cell, hold]
          rfl
        · rfl

/-- Writing to the entry for a page. -/
theorem Planted.set {t : ℕ} (h : s.Planted live root) (hva : va < 2 ^ 38)
    (ht : reach pte2table s.mem root (indices va) = some t) (w : ℕ) :
    Planted live root { s with mem := set s.mem t (pageNum va 0) w } ∧
      ∀ va' < 2 ^ 38, entry P root { s with mem := set s.mem t (pageNum va 0) w } va' =
        if va' / 2 ^ 12 = va / 2 ^ 12 then (some w).filter pteValid else entry P root s va' := by
  obtain ⟨used, hlive, htree⟩ := h
  have hset := htree.set userPaths_closed ht (indices_mem hva)
    (concat_notMem va (pageNum va 0)) w
  refine ⟨⟨used, hlive, hset.1⟩, fun va' hva' => ?_⟩
  rw [entry_eq, entry_eq, htree.cell_set userPaths_closed ht (indices_mem hva) (concat_notMem va _) w
    (indices_mem hva')]
  simp only [page_inj hva' hva]
  split <;> rfl

end Ram

/-! ## The finite map -/

/-- The pages of the user which are mapped, by number, with the physical page and the flags. -/
abbrev PageMap := ℕ → Option (ℕ × ℕ)

/-- A call of `PMT::mapPage` or `PMT::unmapPage`. -/
inductive PageCall
  | map (va pa flags : ℕ)
  | unmap (va : ℕ)

/-- The address of the page in question. -/
def PageCall.va : PageCall → ℕ
  | .map va _ _ | .unmap va => va

namespace PageMap

/-- What `PMT::translate` should return. -/
def translate (f : PageMap) (va : ℕ) : ℕ :=
  match f (va / 2 ^ 12) with
  | none => 0
  | some (pa, _) => pa + va % 2 ^ 12

/-- What `PMT::getFlags` should return. -/
def getFlags (f : PageMap) (va : ℕ) : ℕ :=
  match f (va / 2 ^ 12) with
  | none => 0
  | some (_, flags) => flags

end PageMap

namespace Ram

variable {σ : Type*} (P : Pool σ ℕ) (root : ℕ)

/-- One call, and what it returns. The map records which pages have been mapped. -/
def step (s : Ram σ × PageMap) : PageCall → Option ((Ram σ × PageMap) × ℕ)
  | .map va pa flags => (mapPage P root va pa flags s.1).map fun r =>
    if r.1 then ((r.2, update s.2 (va / 2 ^ 12) (some (pa, flags))), 1)
    else ((r.2, s.2), 0)
  | .unmap va =>
    let r := unmapPage P root va s.1
    some ((r.2, update s.2 (va / 2 ^ 12) none), r.1)

/-- The arguments are pages of the user, and physical pages, and only pages which are not mapped
    are mapped. -/
def Proper (s : Ram σ × PageMap) : PageCall → Prop
  | .map va pa flags => va % 2 ^ 12 = 0 ∧ va < 2 ^ 38 ∧ pa % 2 ^ 12 = 0 ∧ pa < 2 ^ 56 ∧
    flags < 2 ^ 10 ∧ pteValid flags ∧ s.2 (va / 2 ^ 12) = none
  | .unmap va => va % 2 ^ 12 = 0 ∧ va < 2 ^ 38

instance (s : Ram σ × PageMap) (c : PageCall) : Decidable (Proper s c) := by
  unfold Proper
  split <;> infer_instance

/-- A table without entries for the user, in a page which the allocator handed out. -/
structure Blank (live : σ → Set ℕ → Prop) (root : ℕ) (s : Ram σ) : Prop where
  live : ∃ used, live s.pool used ∧ root ∈ used
  blank : ∀ va < 2 ^ 38, pteValid (s.mem root (pageNum va 2)) = false

variable {P root} {live : σ → Set ℕ → Prop} {va : ℕ} {s s' : Ram σ} {f f' : PageMap}

/-- The tables hold the map. -/
structure Refines (P : Pool σ ℕ) (live : σ → Set ℕ → Prop) (root : ℕ) (s : Ram σ) (f : PageMap) :
    Prop where
  planted : s.Planted live root
  entry : ∀ va < 2 ^ 38, entry P root s va = (f (va / 2 ^ 12)).map fun m => makePte m.1 m.2
  proper : ∀ n pa flags, f n = some (pa, flags) → pa % 2 ^ 12 = 0 ∧ pa < 2 ^ 56 ∧ flags < 2 ^ 10 ∧
    pteValid flags = true

theorem Blank.refines (h : s.Blank live root) : Refines P live root s fun _ => none := by
  -- No path leads further than the root.
  have hreach (va : ℕ) (hva : va < 2 ^ 38) (is : List ℕ) :
      reach pte2table s.mem root (pageNum va 2 :: is) = none := by
    rw [reach, pte2table, h.blank va hva]
    rfl
  have hroot (p : List ℕ) (hp : p ∈ userPaths) (t : ℕ)
      (ht : reach pte2table s.mem root p = some t) : p = [] ∧ t = root := by
    obtain ⟨va, hva, hp⟩ := hp
    cases p with
    | nil =>
      cases ht
      exact ⟨rfl, rfl⟩
    | cons i is =>
      obtain rfl : i = pageNum va 2 := by simpa [indices] using (cons_prefix_cons.1 hp).1
      rw [hreach va hva] at ht
      cases ht
  obtain ⟨used, hlive, hmem⟩ := h.live
  refine ⟨⟨used, hlive, fun p hp t ht => (hroot p hp t ht).2 ▸ hmem, fun p hp q hq t ht ht' => ?_⟩,
    fun va hva => ?_, fun _ _ _ hf => by cases hf⟩
  · rw [(hroot p hp t ht).1, (hroot q hq t ht').1]
  · rw [entry_eq, cell, indices, hreach va hva]
    rfl

variable (h : Refines P live root s f)

include h

/-- The entry which was made of a page and its flags. -/
theorem Refines.translate (hva : va < 2 ^ 38) :
    s.translate P root va = f.translate va ∧ s.getFlags P root va = f.getFlags va := by
  rw [Ram.translate, Ram.getFlags, h.entry va hva, PageMap.translate, PageMap.getFlags]
  cases hf : f (va / 2 ^ 12) with
  | none => exact ⟨rfl, rfl⟩
  | some m =>
    obtain ⟨pa, flags⟩ := m
    obtain ⟨hmod, hpa, hflags, -⟩ := h.proper _ _ _ hf
    simp only [map_some]
    rw [pte2pa_makePte hmod hpa hflags, flags_makePte hpa hflags,
      show 4095 = 2 ^ 12 - 1 from rfl, and_two_pow_sub_one_eq_mod]
    exact ⟨mod_eq_of_lt (by omega), rfl⟩

/-- The entry for a page is written, and so is the map. -/
theorem Refines.set {t : ℕ} {o : Option (ℕ × ℕ)} {w : ℕ} (hva : va < 2 ^ 38)
    (ht : reach pte2table s.mem root (indices va) = some t)
    (hw : (some w).filter pteValid = o.map fun m => makePte m.1 m.2)
    (ho : ∀ pa flags, o = some (pa, flags) → pa % 2 ^ 12 = 0 ∧ pa < 2 ^ 56 ∧ flags < 2 ^ 10 ∧
      pteValid flags = true) :
    Refines P live root { s with mem := set s.mem t (pageNum va 0) w }
      (update f (va / 2 ^ 12) o) := by
  obtain ⟨hplanted, hentry⟩ := h.planted.set (P := P) hva ht w
  refine ⟨hplanted, fun va' hva' => ?_, fun n pa flags hn => ?_⟩
  · rw [hentry va' hva', update_apply]
    split
    · exact hw
    · exact h.entry va' hva'
  · rw [update_apply] at hn
    split at hn
    · exact ho pa flags hn
    · exact h.proper n pa flags hn

/-- `PMT::mapPage` does not panic on a page which is not mapped; it maps it, unless a table cannot
    be allocated. -/
theorem Refines.mapPage {pa flags : ℕ} (hP : P.Lawful live) (hpages : P.Pages)
    (hok : Proper (s, f) (.map va pa flags)) :
    ∃ b s', s.mapPage P root va pa flags = some (b, s') ∧ Refines P live root s'
      (if b then update f (va / 2 ^ 12) (some (pa, flags)) else f) := by
  obtain ⟨-, hva, hmod, hpa, hflags, hvalid, hnone⟩ := hok
  dsimp only at hnone
  rw [Ram.mapPage]
  rcases hw : walk P true (indices va) root s with ⟨o, s1⟩
  obtain ⟨hplanted, hentry, hreach⟩ := walk_alloc hP hpages h.planted hva (nil_append _) rfl hw
  have h₁ : Refines P live root s1 f :=
    ⟨hplanted, fun va' hva' => (hentry va' hva').trans (h.entry va' hva'), h.proper⟩
  cases o with
  | none => exact ⟨false, s1, rfl, h₁⟩
  | some t =>
    have ht := hreach t rfl
    -- The entry is not valid since the page is not mapped.
    have hinvalid : ¬ pteValid (s1.mem t (pageNum va 0)) = true := by
      intro hv
      have he := h₁.entry va hva
      rw [hnone, entry_eq, cell, ht, map_some, filter_some, if_pos hv] at he
      cases he
    refine ⟨true, _, if_neg hinvalid, h₁.set hva ht ?_ ?_⟩
    · rw [filter_some, if_pos (by rw [pteValid_makePte hpa hflags]; exact hvalid)]
      rfl
    · rintro _ _ ⟨⟩
      exact ⟨hmod, hpa, hflags, hvalid⟩

/-- `PMT::unmapPage` returns the page which was mapped. -/
theorem Refines.unmapPage (hva : va < 2 ^ 38) :
    (s.unmapPage P root va).1 = ((f (va / 2 ^ 12)).map Prod.fst).getD 0 ∧
      Refines P live root (s.unmapPage P root va).2 (update f (va / 2 ^ 12) none) := by
  have he := h.entry va hva
  rw [entry_eq, cell] at he
  rw [Ram.unmapPage, walk_find]
  -- Nothing changes if there is no valid entry.
  have hsame (hf : f (va / 2 ^ 12) = none) : update f (va / 2 ^ 12) none = f := by
    rw [← hf, update_eq_self]
  cases ht : reach pte2table s.mem root (indices va) with
  | none =>
    rw [ht] at he
    have hf : f (va / 2 ^ 12) = none := by simpa using he.symm
    rw [hsame hf, hf]
    exact ⟨rfl, h⟩
  | some t =>
    rw [ht, map_some, filter_some] at he
    dsimp only
    split
    next hv =>
      rw [if_pos hv] at he
      obtain ⟨⟨pa, flags⟩, hf, hpte⟩ := map_eq_some_iff.1 he.symm
      obtain ⟨hmod, hpa, hflags, -⟩ := h.proper _ _ _ hf
      rw [← hpte, pte2pa_makePte hmod hpa hflags, hf]
      exact ⟨rfl, h.set hva ht rfl (fun _ _ hf => by cases hf)⟩
    next hv =>
      rw [if_neg hv] at he
      have hf : f (va / 2 ^ 12) = none := by simpa using he.symm
      rw [hsame hf, hf]
      exact ⟨rfl, h⟩

/-- Every call keeps the tables and the map together. -/
theorem step_refines {c : PageCall} {v : ℕ} (hP : P.Lawful live) (hpages : P.Pages)
    (hok : Proper (s, f) c) (hs : step P root (s, f) c = some ((s', f'), v)) :
    Refines P live root s' f' ∧ ∀ n ≠ c.va / 2 ^ 12, f' n = f n := by
  cases c with
  | map va pa flags =>
    obtain ⟨b, s1, hmap, h₁⟩ := h.mapPage hP hpages hok
    rw [step, hmap] at hs
    cases b with
    | false =>
      cases hs
      exact ⟨h₁, fun _ _ => rfl⟩
    | true =>
      cases hs
      exact ⟨h₁, fun n hn => update_of_ne hn ..⟩
  | unmap va =>
    cases hs
    exact ⟨(h.unmapPage hok.2).2, fun n hn => update_of_ne hn ..⟩

omit h

/-- In every state reached, the tables are the map of the pages which were mapped last. A call on
    one page changes nothing for the others. -/
theorem reachable_refines {s0 : Ram σ} (hP : P.Lawful live) (hpages : P.Pages)
    (h0 : s0.Blank live root) (hrun : Reaches (step P root) Proper (s0, fun _ => none) (s, f)) :
    (∀ va < 2 ^ 38, s.translate P root va = f.translate va ∧ s.getFlags P root va = f.getFlags va) ∧
    (∀ va, Proper (s, f) (.unmap va) →
      (s.unmapPage P root va).1 = ((f (va / 2 ^ 12)).map Prod.fst).getD 0) ∧
    (∀ va pa flags, Proper (s, f) (.map va pa flags) → s.mapPage P root va pa flags ≠ none) ∧
    ∀ c s' f' v, Proper (s, f) c → step P root (s, f) c = some ((s', f'), v) →
      ∀ va < 2 ^ 38, va / 2 ^ 12 ≠ c.va / 2 ^ 12 → s'.translate P root va = s.translate P root va ∧
        s'.getFlags P root va = s.getFlags P root va := by
  have h : Refines P live root s f := hrun.inv (I := fun s => Refines P live root s.1 s.2)
    (fun _ _ _ _ hI hok hs => (step_refines hI hP hpages hok hs).1) h0.refines
  refine ⟨fun va hva => h.translate hva, fun va hok => (h.unmapPage hok.2).1,
    fun va pa flags hok => ?_, fun c s' f' v hok hs va hva hne => ?_⟩
  · obtain ⟨b, s', hmap, -⟩ := h.mapPage hP hpages hok
    rw [hmap]
    exact nofun
  · obtain ⟨h', hframe⟩ := step_refines h hP hpages hok hs
    rw [(h'.translate hva).1, (h'.translate hva).2, (h.translate hva).1, (h.translate hva).2,
      PageMap.translate, PageMap.getFlags, hframe _ hne]
    exact ⟨rfl, rfl⟩

/-- An allocator which hands out one page after the other. -/
def upwards : Pool ℕ ℕ where
  take n := if n < 2 ^ 44 then (some (n * 2 ^ 12), n + 1) else (none, n)
  give _ n := n
  room n := 2 ^ 44 - n

/-- The pages below a number are out. -/
def Below (n : ℕ) (used : Set ℕ) : Prop := ∀ pa ∈ used, pa < n * 2 ^ 12

theorem upwards_pages : upwards.Pages := by
  intro n pa n' h
  dsimp only [upwards] at h
  split at h
  · cases h
    exact ⟨mul_mod_left .., by omega⟩
  · cases h

theorem upwards_lawful : upwards.Lawful Below where
  take_some {n n' used pa} h ht := by
    dsimp only [upwards] at ht
    split at ht
    · cases ht
      refine ⟨fun hmem => lt_irrefl _ (h _ hmem), fun q hq => ?_⟩
      rw [succ_mul]
      rcases hq with rfl | hq
      · exact Nat.lt_add_of_pos_right (by decide)
      · exact (h q hq).trans_le (Nat.le_add_right ..)
    · cases ht
  take_none {n n' used} h ht := by
    dsimp only [upwards] at ht
    split at ht
    · cases ht
    · cases ht
      exact h
  give h _ := fun q hq => h q hq.1

/-- A page is mapped, another one is mapped, and the first one is unmapped. -/
def mapped : Ram ℕ × PageMap :=
  lastState (guarded (step upwards 0) Proper) (⟨1, fun _ _ => 0⟩, fun _ => none)
    [.map 0x1000000 0x80000000 0x17, .map 0x1001000 0x80001000 0x13, .unmap 0x1000000]

/-- The first page is not translated any more, and the second one is. -/
theorem reachable_refines_two : mapped.2 0x1000 = none ∧ mapped.2 0x1001 = some (0x80001000, 0x13) ∧
    mapped.1.translate upwards 0 0x1000123 = 0 ∧
    mapped.1.translate upwards 0 0x1001123 = 0x80001123 := by
  have hblank : Blank Below 0 (⟨1, fun _ _ => 0⟩ : Ram ℕ) :=
    ⟨⟨{0}, fun pa hpa => by rw [hpa]; decide, rfl⟩, fun _ _ => show pteValid 0 = false by decide⟩
  have h := (reachable_refines upwards_lawful upwards_pages hblank (.lastState _
    [.map 0x1000000 0x80000000 0x17, .map 0x1001000 0x80001000 0x13, .unmap 0x1000000])).1
  have h1 : mapped.2 0x1000 = none := by decide +kernel
  have h2 : mapped.2 0x1001 = some (0x80001000, 0x13) := by decide +kernel
  refine ⟨h1, h2, (h _ (by decide)).1.trans ?_, (h _ (by decide)).1.trans ?_⟩
  · exact congrArg (fun o => match o with | none => 0 | some (pa, _) => pa + 0x123) h1
  · exact congrArg (fun o => match o with | none => 0 | some (pa, _) => pa + 0x123) h2

end Ram

end HobbyOS
