import HobbyOS.Vm.Owned

/-!
# Operations on page tables

What the operations of `PMT` do to a table is told by the entries for its pages
(`PMT.lookup`), and by the pages it refers to and occupies: `walk` adds tables,
`setSlot` changes one entry and the reference it holds. The loops of `destroyPMT`
give all references and tables up, and nothing else.
-/

namespace HobbyOS

open Function Multiset Option

variable {σ : Type*} {P : Pool σ ℕ} {live : σ → Set ℕ → Prop} {A0 S A D : Set ℕ}
  {l₀ : List (Transfer ℕ)} {e : Prop} {ph : Phys σ} {M T : Multiset ℕ} {pmt : PMT} {n n' : Vpn}
  {old new : Pte} {page : ℕ} {flags : Flags}

/-! ## Entries -/

namespace PMT

/-- The tables on the way to an entry. -/
theorem exists_of_slot (h : pmt.slot n = some old) : ∃ m l, pmt.entries n.l2 = some m ∧
    m.entries n.l1 = some l ∧ l.entries n.l0 = old := by
  obtain ⟨m, hm, hl⟩ := bind_eq_some_iff.1 h
  obtain ⟨l, hl, he⟩ := map_eq_some_iff.1 hl
  exact ⟨m, l, hm, hl, he⟩

variable {m : Mid}

theorem setSlot_eq {l : Leaf} (hm : pmt.entries n.l2 = some m) (hl : m.entries n.l1 = some l) :
    pmt.setSlot n new = pmt.set n.l2 (m.set n.l1 (l.set n.l0 new)) := by
  simp only [setSlot, hm, hl]

theorem slot_setSlot (h : pmt.slot n = some old) :
    (pmt.setSlot n new).slot n' = if n' = n then some new else pmt.slot n' := by
  obtain ⟨m, l, hm, hl, -⟩ := exists_of_slot h
  obtain ⟨i, j, k⟩ := n
  obtain ⟨i', j', k'⟩ := n'
  rw [setSlot_eq hm hl]
  simp only [slot, set, Mid.set, Leaf.set, update_apply, Vpn.mk.injEq]
  by_cases hi : i' = i
  · subst hi
    by_cases hj : j' = j
    · subst hj
      by_cases hk : k' = k
      · simp [hk]
      · simp_all
    · simp_all
  · simp [hi]

theorem lookup_setSlot (h : pmt.slot n = some old) (hv : new.flags.v) :
    (pmt.setSlot n new).lookup n' = if n' = n then some new else pmt.lookup n' := by
  rw [lookup, slot_setSlot h]
  split_ifs
  · simp [hv]
  · rfl

theorem lookup_setSlot_zero (h : pmt.slot n = some old) :
    (pmt.setSlot n .zero).lookup n' = if n' = n then none else pmt.lookup n' := by
  rw [lookup, slot_setSlot h]
  split_ifs
  · rfl
  · rfl

theorem lookup_eq_some : pmt.lookup n = some old ↔ pmt.slot n = some old ∧ old.flags.v = true :=
  filter_eq_some_iff

/-- Writing to an entry exchanges the reference it holds. -/
theorem refs_setSlot (h : pmt.slot n = some old) (hn : n.User) :
    ∃ R, pmt.refs = old.refs + R ∧ ∀ new, (pmt.setSlot n new).refs = new.refs + R := by
  obtain ⟨m, l, hm, hl, rfl⟩ := exists_of_slot h
  obtain ⟨R2, h2, h2'⟩ := pmt.refs_set hn.l2_lt
  obtain ⟨R1, h1, h1'⟩ := m.refs_set hn.l1_lt
  obtain ⟨R0, h0, h0'⟩ := l.refs_set hn.l0_lt
  refine ⟨R0 + (R1 + R2), ?_, fun new => ?_⟩
  · rw [h2, hm, elim_some, h1, hl, elim_some, h0]
    simp only [add_assoc]
  · rw [setSlot_eq hm hl, h2', h1', h0']
    simp only [add_assoc]

theorem tables_setSlot (hn : n.User) : (pmt.setSlot n new).tables = pmt.tables := by
  cases hm : pmt.entries n.l2 with
  | none => rw [setSlot, hm]
  | some m =>
    cases hl : m.entries n.l1 with
    | none => simp only [setSlot, hm, hl]
    | some l =>
      obtain ⟨S, h2, h2'⟩ := pmt.tables_set hn.l2_lt
      obtain ⟨S', h1, h1'⟩ := m.tables_set hn.l1_lt
      rw [setSlot_eq hm hl, h2', h1', h2, hm, elim_some, h1, hl]
      rfl

theorem refs_of_lookup (h : pmt.lookup n = some old) (hn : n.User) :
    pmt.refs = old.page ::ₘ (pmt.setSlot n .zero).refs := by
  obtain ⟨hs, hv⟩ := lookup_eq_some.1 h
  obtain ⟨R, h1, h2⟩ := refs_setSlot hs hn
  rw [h1, h2, Pte.refs, if_pos hv, Pte.refs_zero, zero_add, singleton_add]

/-- A page which is mapped is referred to. -/
theorem mem_refs (h : pmt.lookup n = some old) (hn : n.User) : old.page ∈ pmt.refs := by
  rw [refs_of_lookup h hn]
  exact mem_cons_self _ _

/-- A page referred to is mapped somewhere. -/
theorem exists_lookup (h : page ∈ pmt.refs) : ∃ n pte, n.User ∧ pmt.lookup n = some pte ∧
    pte.page = page := by
  rw [refs, mem_held] at h
  obtain ⟨i, hi, hm⟩ := h
  cases hm' : pmt.entries i with
  | none => simp [hm'] at hm
  | some m =>
    rw [hm', elim_some, Mid.refs, mem_held] at hm
    obtain ⟨j, hj, hl⟩ := hm
    cases hl' : m.entries j with
    | none => simp [hl'] at hl
    | some l =>
      rw [hl', elim_some, Leaf.refs, mem_held] at hl
      obtain ⟨k, hk, he⟩ := hl
      rw [Pte.refs] at he
      split_ifs at he with hv
      · refine ⟨⟨i, j, k⟩, l.entries k, ⟨hi, hj, hk⟩, ?_, (mem_singleton.1 he).symm⟩
        rw [lookup_eq_some]
        exact ⟨by simp [slot, hm', hl'], hv⟩
      · exact absurd he (notMem_zero _)

/-! ## Walks -/

/-- A table for the page `n` is allocated, and hung up where there is none. -/
inductive AddsTable (P : Pool σ ℕ) (n : Vpn) : Phys σ × PMT → Phys σ × PMT → Prop
  | mid {ph ph' : Phys σ} {pmt : PMT} {page : ℕ} (hp : kallocPage P ph = (some page, ph'))
      (hm : pmt.entries n.l2 = none) : AddsTable P n (ph, pmt) (ph', pmt.set n.l2 (.new page))
  | leaf {ph ph' : Phys σ} {pmt : PMT} {m : Mid} {page : ℕ} (hp : kallocPage P ph = (some page, ph'))
      (hm : pmt.entries n.l2 = some m) (hl : m.entries n.l1 = none) :
      AddsTable P n (ph, pmt) (ph', pmt.set n.l2 (m.set n.l1 (.new page)))

/-- The rule for `PMT::walk` with allocation, which adds tables until there is an entry. -/
theorem walk_induct {I J : Phys σ × PMT → Prop} {s : Phys σ × PMT} (h : I s)
    (hfail : ∀ s ph, I s → s.2.slot n = none → kallocPage P s.1 = (none, ph) → J (ph, s.2))
    (hadd : ∀ s t, I s → AddsTable P n s t → I t) :
    (walk n P s).Holds (fun t => I t ∧ ∃ pte, t.2.slot n = some pte) J False := by
  have hmid : (walkMid n P s).Holds (fun t => I t ∧ ∃ m, t.2.entries n.l2 = some m) J False := by
    rw [walkMid]
    split
    next m hm => exact ⟨h, m, hm⟩
    next hm =>
      split
      next ph hp => exact hfail s ph h (by simp [slot, hm]) hp
      next page ph hp => exact ⟨hadd _ _ h (.mid hp hm), _, update_self _ _ _⟩
  refine hmid.andThen fun t ⟨ht, m, hm⟩ => ?_
  rw [walkLeaf, hm]
  dsimp only
  split
  next l hl => exact ⟨ht, l.entries n.l0, by simp [slot, hm, hl]⟩
  next hl =>
    split
    next ph hp => exact hfail t ph ht (by simp [slot, hm, hl]) hp
    next page ph hp =>
      exact ⟨hadd _ _ ht (.leaf hp hm hl), .zero, by simp [slot, set, Mid.set, Leaf.new]⟩

namespace AddsTable

variable {s t : Phys σ × PMT} (h : AddsTable P n s t)

include h

theorem take : ∃ page, kallocPage P s.1 = (some page, t.1) := by
  cases h with
  | mid hp | leaf hp => exact ⟨_, hp⟩

theorem lookup (n' : Vpn) : t.2.lookup n' = s.2.lookup n' := by
  cases h with
  | mid hp hm =>
    simp only [PMT.lookup, slot, set, Mid.new, update_apply]
    split_ifs with hi
    · simp [hi, hm]
    · rfl
  | leaf hp hm hl =>
    simp only [PMT.lookup, slot, set, Mid.set, Leaf.new, update_apply]
    by_cases hi : n'.l2 = n.l2
    · by_cases hj : n'.l1 = n.l1
      · simp [hi, hj, hm, hl, Pte.zero, Flags.none]
      · simp [hi, hj, hm]
    · simp [hi]

/-- The table has no entries. -/
theorem refs (hn : n.User) : t.2.refs = s.2.refs := by
  cases h with
  | @mid _ _ pmt _ hp hm =>
    obtain ⟨R, h1, h1'⟩ := pmt.refs_set hn.l2_lt
    rw [h1', h1, hm, elim_none, Mid.refs_new]
  | @leaf _ _ pmt m _ hp hm hl =>
    obtain ⟨R, h1, h1'⟩ := pmt.refs_set hn.l2_lt
    obtain ⟨R', h2, h2'⟩ := m.refs_set hn.l1_lt
    rw [h1', h1, hm, elim_some, h2', h2, hl, elim_none, Leaf.refs_new]

theorem tables (hn : n.User) (hp : kallocPage P s.1 = (some page, ph)) :
    t.2.tables = page ::ₘ s.2.tables := by
  cases h with
  | @mid _ _ pmt _ hp' hm =>
    cases hp'.symm.trans hp
    obtain ⟨S, h1, h1'⟩ := pmt.tables_set hn.l2_lt
    rw [h1', h1, hm, elim_none, Mid.tables_new, zero_add, singleton_add]
  | @leaf _ _ pmt m _ hp' hm hl =>
    cases hp'.symm.trans hp
    obtain ⟨S, h1, h1'⟩ := pmt.tables_set hn.l2_lt
    obtain ⟨S', h2, h2'⟩ := m.tables_set hn.l1_lt
    rw [h1', h1, hm, elim_some, h2', h2, hl, elim_none, zero_add, Leaf.tables, add_assoc,
      singleton_add]
    rfl

end AddsTable

/-- Walking to a page changes no entry. -/
theorem walk_lookup (n : Vpn) (s : Phys σ × PMT) : (walk n P s).Holds
    (fun t => (∀ n', t.2.lookup n' = s.2.lookup n') ∧ ∃ pte, t.2.slot n = some pte)
    (fun t => ∀ n', t.2.lookup n' = s.2.lookup n') False :=
  walk_induct (I := fun t => ∀ n', t.2.lookup n' = s.2.lookup n') (fun _ => rfl)
    (fun _ _ ht _ _ => ht) fun _ _ ht hadd n' => (hadd.lookup n').trans (ht n')

/-- Mapping a page changes its entry, if there was none. -/
theorem mapPage_lookup (n : Vpn) (page : ℕ) (hv : flags.v) (s : Phys σ × PMT) :
    (mapPage n P page flags s).Holds
      (fun t => s.2.lookup n = none ∧
        ∀ n', t.2.lookup n' = if n' = n then some ⟨page, flags⟩ else s.2.lookup n')
      (fun t => ∀ n', t.2.lookup n' = s.2.lookup n') True := by
  have hw := walk_lookup (P := P) n s
  rw [mapPage]
  cases hr : walk n P s with
  | panic => trivial
  | fail t =>
    rwa [hr] at hw
  | ok t =>
    rw [hr] at hw
    obtain ⟨ht, pte, hpte⟩ := hw
    rw [Outcome.ok_andThen, ht n]
    cases hn : s.2.lookup n with
    | some _ => trivial
    | none => exact ⟨rfl, fun n' => by dsimp only; rw [lookup_setSlot hpte hv, ht]⟩

theorem unmapPage_lookup : (pmt.unmapPage n).2.lookup n' = if n' = n then none else pmt.lookup n' := by
  rw [unmapPage]
  cases h : pmt.lookup n with
  | some pte => exact lookup_setSlot_zero (lookup_eq_some.1 h).1
  | none =>
    split_ifs with he
    · rw [he, h]
    · rfl

end PMT

/-- The rest of the state of the memory, `walk` changing that of the allocator only. -/
def SamePages (ph ph' : Phys σ) : Prop := ph'.mem = ph.mem ∧ ph'.refs = ph.refs

theorem SamePages.trans {ph' ph'' : Phys σ} (h : SamePages ph ph') (h' : SamePages ph' ph'') :
    SamePages ph ph'' := ⟨h'.1.trans h.1, h'.2.trans h.2⟩

theorem samePages_kallocPage (ph : Phys σ) : SamePages ph (kallocPage P ph).2 := by
  rw [kallocPage]
  split <;> exact ⟨rfl, rfl⟩

/-- What `walk` keeps, and where it gets to. -/
structure Walked (live : σ → Set ℕ → Prop) (A0 S : Set ℕ) (l₀ : List (Transfer ℕ)) (e : Prop)
    (ph : Phys σ) (pmt : PMT) (D : Set ℕ) (M T : Multiset ℕ) (s : Phys σ × PMT) : Prop where
  owned : ∃ A, Owned live A0 S l₀ e s.1 A D (pmt.refs + M) (s.2.tables + T)
  refs_eq : s.2.refs = pmt.refs
  lookup_eq : ∀ n', s.2.lookup n' = pmt.lookup n'
  same : SamePages ph s.1

section

variable (h : Owned live A0 S l₀ e ph A D (pmt.refs + M) (pmt.tables + T)) (hP : P.Lawful live)
  (hn : n.User)

include h hP hn

theorem walk_spec : (PMT.walk n P (ph, pmt)).Holds
      (fun s => Walked live A0 S l₀ e ph pmt D M T s ∧ ∃ pte, s.2.slot n = some pte)
      (fun s => Walked live A0 S l₀ e ph pmt D M T s ∧ .refused ∈ s.1.log) False := by
  refine PMT.walk_induct (I := Walked live A0 S l₀ e ph pmt D M T)
    ⟨⟨A, h⟩, rfl, fun _ => rfl, rfl, rfl⟩ (fun s ph' hs _ hp => ?_) fun s t hs hadd => ?_
  · obtain ⟨A', hA'⟩ := hs.owned
    have hsame := samePages_kallocPage (P := P) s.1
    rw [hp] at hsame
    exact ⟨⟨⟨A', hA'.takeNone hP hp⟩, hs.refs_eq, hs.lookup_eq, hs.same.trans hsame⟩,
      Owned.refused_mem hp⟩
  · obtain ⟨A', hA'⟩ := hs.owned
    obtain ⟨page, hp⟩ := hadd.take
    have hsame := samePages_kallocPage (P := P) s.1
    rw [hp] at hsame
    refine ⟨⟨insert page A', ?_⟩, (hadd.refs hn).trans hs.refs_eq,
      fun n' => (hadd.lookup n').trans (hs.lookup_eq n'), hs.same.trans hsame⟩
    rw [hadd.tables hn hp, cons_add]
    exact hA'.takeTable hP hp

omit h hP hn in
/-- Mapping a page which is counted already, where none is mapped. -/
theorem mapPage_spec (flags : Flags) (h : Owned live A0 S l₀ e ph A D (page ::ₘ (pmt.refs + M)) (pmt.tables + T))
    (hP : P.Lawful live) (hn : n.User) (hv : flags.v) (hnone : pmt.lookup n = none) :
    (PMT.mapPage n P page flags (ph, pmt)).Holds
      (fun s => (∃ A, Owned live A0 S l₀ e s.1 A D (s.2.refs + M) (s.2.tables + T)) ∧
        (∀ n', s.2.lookup n' = if n' = n then some ⟨page, flags⟩ else pmt.lookup n') ∧
        SamePages ph s.1)
      (fun s => (∃ A, Owned live A0 S l₀ e s.1 A D (page ::ₘ (s.2.refs + M)) (s.2.tables + T)) ∧
        (∀ n', s.2.lookup n' = pmt.lookup n') ∧ SamePages ph s.1 ∧ .refused ∈ s.1.log) False := by
  have h' : Owned live A0 S l₀ e ph A D (pmt.refs + (page ::ₘ M)) (pmt.tables + T) := by
    rwa [add_cons]
  refine ((walk_spec h' hP hn).imp (fun s hs => hs) fun s hs => ?_).andThen
    fun s ⟨hs, pte, hpte⟩ => ?_
  · obtain ⟨hs, hr⟩ := hs
    obtain ⟨A', hA'⟩ := hs.owned
    rw [← hs.refs_eq, add_cons] at hA'
    exact ⟨⟨A', hA'⟩, hs.lookup_eq, hs.same, hr⟩
  obtain ⟨A', hA'⟩ := hs.owned
  have hnone' : s.2.lookup n = none := (hs.lookup_eq n).trans hnone
  rw [if_neg (by rw [hnone']; simp)]
  refine ⟨⟨A', ?_⟩, fun n' => ?_, hs.same⟩
  · obtain ⟨R, h1, h2⟩ := PMT.refs_setSlot hpte hn
    have hpv : ¬ pte.flags.v := fun hv' => by
      rw [PMT.lookup_eq_some.2 ⟨hpte, hv'⟩] at hnone'
      cases hnone'
    rw [Pte.refs, if_neg hpv, zero_add] at h1
    rw [← hs.refs_eq, h1, add_cons] at hA'
    rwa [h2, Pte.refs, if_pos hv, PMT.tables_setSlot hn, singleton_add, cons_add]
  · rw [PMT.lookup_setSlot hpte hv, hs.lookup_eq]

omit h hP hn in
/-- Mapping a page where the tables exist. -/
theorem mapPage_of_slot (h : pmt.slot n = some old) (hv : old.flags.v = false) :
    PMT.mapPage n P page flags (ph, pmt) = .ok (ph, pmt.setSlot n ⟨page, flags⟩) := by
  obtain ⟨m, l, hm, hl, rfl⟩ := PMT.exists_of_slot h
  have hw : PMT.walk n P (ph, pmt) = .ok (ph, pmt) := by
    simp [PMT.walk, PMT.walkMid, PMT.walkLeaf, hm, hl]
  have hnone : pmt.lookup n = none := by
    rw [PMT.lookup, h]
    simp [hv]
  simp [PMT.mapPage, hw, hnone]

omit h hP hn in
/-- Mapping a page where there is one. -/
theorem mapPage_of_lookup (h : pmt.lookup n = some old) :
    PMT.mapPage n P page flags (ph, pmt) = .panic := by
  obtain ⟨m, l, hm, hl, rfl⟩ := PMT.exists_of_slot (PMT.lookup_eq_some.1 h).1
  have hw : PMT.walk n P (ph, pmt) = .ok (ph, pmt) := by
    simp [PMT.walk, PMT.walkMid, PMT.walkLeaf, hm, hl]
  simp [PMT.mapPage, hw, h]

omit h hP hn in
/-- Remapping a page which is mapped. -/
theorem remap_of_lookup (h : pmt.lookup n = some old) : VM.remap P n page flags (ph, pmt) =
      .ok (ph, (pmt.setSlot n .zero).setSlot n ⟨page, flags⟩) := by
  have hs := (PMT.lookup_eq_some.1 h).1
  have hu : (pmt.unmapPage n).2 = pmt.setSlot n .zero := by simp [PMT.unmapPage, h]
  have hz : (pmt.setSlot n .zero).slot n = some .zero := by rw [PMT.slot_setSlot hs, if_pos rfl]
  rw [VM.remap]
  rw [hu, mapPage_of_slot hz rfl, Outcome.ignore_ok]

/-- The last reference to a page is given up by unmapping it, and the page freed. -/
theorem unmapFree_owned (hpte : pmt.lookup n = some old) (hc : (pmt.refs + M).count old.page ≤ 1) :
    Owns live A0 S l₀ e (kfreePage P ph old.page) ((pmt.setSlot n .zero).refs + M)
      ((pmt.setSlot n .zero).tables + T) := by
  have htight : e → ph.refs.getRef old.page ≤ 1 := fun he =>
    (h.tight he old.page).trans (max_le le_rfl hc)
  rw [PMT.refs_of_lookup hpte hn, cons_add] at h hc
  rw [count_cons_self] at hc
  rw [PMT.tables_setSlot hn]
  exact (h.giveData hP (count_eq_zero.1 (by omega)) htight).owns

end

/-! ## Teardown -/

theorem Owns.giveTable {p : ℕ} (h : Owns live A0 S l₀ e ph M (p ::ₘ T)) (hP : P.Lawful live) :
    Owns live A0 S l₀ e (kfreePage P ph p) M T := by
  obtain ⟨A, D, h⟩ := h
  exact (h.giveTable hP).owns

/-- The entries of a table are given up one after the other. -/
theorem destroyEach_owned {β : Type*} {refs tables : β → Multiset ℕ} {entries : ℕ → β} {count : ℕ}
    {f : ℕ → Phys σ → Phys σ} (hf : ∀ i < count, ∀ ph A D M T,
      Owned live A0 S l₀ e ph A D (refs (entries i) + M) (tables (entries i) + T) →
      Owns live A0 S l₀ e (f i ph) M T)
    (h : Owned live A0 S l₀ e ph A D (held refs count entries + M) (held tables count entries + T)) :
    Owns live A0 S l₀ e (forRange f count ph) M T := by
  -- After `i` rounds, what the slots before `i` hold is given up.
  have hloop := forRange_induct (s := ph) (n := count) (f := f)
    (P := fun i ph => Owns live A0 S l₀ e ph (heldFrom refs i count entries + M)
      (heldFrom tables i count entries + T))
    ⟨A, D, by rwa [heldFrom_zero, heldFrom_zero]⟩ fun i ph hi ⟨A, D, hph⟩ => by
      rw [heldFrom_eq hi, heldFrom_eq hi, add_assoc, add_assoc] at hph
      exact hf i hi ph A D _ _ hph
  rwa [heldFrom_self, heldFrom_self, zero_add, zero_add] at hloop

/-- Giving up references and tables, to pages which are counted: what is left is still owned. -/
theorem destroyLeaf_owned {l : Leaf} (hP : P.Lawful live) (hS : ∀ p ∈ l.refs, p ∉ S)
    (h : Owned live A0 S l₀ e ph A D (l.refs + M) (l.tables + T)) :
    Owns live A0 S l₀ e (VM.destroyLeaf P l ph) M T := by
  have hno : held (fun _ => (0 : Multiset ℕ)) pmtSize l.entries = 0 := by simp [held]
  rw [← zero_add (l.tables + T), ← hno] at h
  refine (destroyEach_owned (fun k hk ph A D M T hph => ?_) h).giveTable hP
  rw [Pte.refs, zero_add] at hph
  split_ifs at hph ⊢ with hv
  · refine hph.release hP (hS _ (mem_held.2 ⟨k, hk, ?_⟩))
    rw [Pte.refs, if_pos hv]
    exact mem_singleton_self _
  · rw [zero_add] at hph
    exact ⟨A, D, hph⟩

theorem destroyMid_owned {m : Mid} (hP : P.Lawful live) (hS : ∀ p ∈ m.refs, p ∉ S)
    (h : Owned live A0 S l₀ e ph A D (m.refs + M) (m.tables + T)) :
    Owns live A0 S l₀ e (VM.destroyMid P m ph) M T := by
  rw [Mid.tables, cons_add, ← add_cons] at h
  refine (destroyEach_owned (fun j hj ph A D M T hph => ?_) h).giveTable hP
  cases hl : m.entries j with
  | none =>
    rw [hl, elim_none, elim_none, zero_add, zero_add] at hph
    exact ⟨A, D, hph⟩
  | some l =>
    rw [hl] at hph
    exact destroyLeaf_owned hP (fun p hp => hS p (mem_held.2 ⟨j, hj, by rwa [hl]⟩)) hph

section

variable (hP : P.Lawful live) (hS : ∀ p ∈ pmt.refs, p ∉ S)
  (h : Owned live A0 S l₀ e ph A D (pmt.refs + M) (pmt.tables + T))

include hP hS h

theorem destroyEntries_owned :
    Owns live A0 S l₀ e (VM.destroyEntries P pmt ph) M (pmt.page ::ₘ T) := by
  rw [PMT.tables, cons_add, ← add_cons] at h
  refine destroyEach_owned (fun i hi ph A D M T hph => ?_) h
  cases hm : pmt.entries i with
  | none =>
    rw [hm, elim_none, elim_none, zero_add, zero_add] at hph
    exact ⟨A, D, hph⟩
  | some m =>
    rw [hm] at hph
    exact destroyMid_owned hP (fun p hp => hS p (mem_held.2 ⟨i, hi, by rwa [hm]⟩)) hph

theorem destroyPMT_owned : Owns live A0 S l₀ e (VM.destroyPMT P pmt ph) M T :=
  (destroyEntries_owned hP hS h).giveTable hP

end

/-- Teardown leaves the contents of the pages. -/
theorem release_mem : (VM.release P page ph).mem = ph.mem := by
  rw [VM.release]
  dsimp only
  split_ifs <;> rfl

theorem destroyEntries_mem : (VM.destroyEntries P pmt ph).mem = ph.mem := by
  have hleaf : ∀ (l : Leaf) (ph : Phys σ), (VM.destroyLeaf P l ph).mem = ph.mem := fun l ph =>
    forRange_induct (P := fun _ (ph' : Phys σ) => ph'.mem = ph.mem) rfl fun k ph' _ h => by
      split_ifs
      · exact release_mem.trans h
      · exact h
  have hmid : ∀ (m : Mid) (ph : Phys σ), (VM.destroyMid P m ph).mem = ph.mem := fun m ph =>
    forRange_induct (P := fun _ (ph' : Phys σ) => ph'.mem = ph.mem) rfl fun j ph' _ h => by
      split
      · exact (hleaf _ _).trans h
      · exact h
  exact forRange_induct (P := fun _ (ph' : Phys σ) => ph'.mem = ph.mem) rfl fun i ph' _ h => by
    split
    · exact (hmid _ _).trans h
    · exact h

end HobbyOS
