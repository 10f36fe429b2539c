import HobbyOS.RefCount
import HobbyOS.Vm

/-!
# The pages of address spaces

Which pages do the page tables refer to? The references are a multiset, `M`, with
every page as often as it is mapped, and the tables themselves occupy pages, `T`.

`Owned` ties these to the state of the physical memory: they are handed out by the
allocator, no table is mapped or occupies the same page as another one, and the
reference counts cover the references. All that the kernel does to pages is a
sequence of a few elementary steps, each of which keeps `Owned` with the references
it gains or loses:

* `Owned.takeTable`, `Owned.takeData`: a page is allocated;
* `Owned.share`, `Owned.release`: a page is counted once more, or once less;
* `Owned.giveTable`, `Owned.giveData`: a page is freed.

The pages freed since some moment are kept, too (`D`): none of them is referred to.
If moreover nothing was lost (`e`), every page handed out is accounted for and the
reference counts are tight.
-/

namespace HobbyOS

open Multiset

/-! ## References -/

/-- The page an entry refers to. -/
def Pte.refs (pte : Pte) : Multiset ℕ := if pte.flags.v then {pte.page} else 0

def Leaf.refs (l : Leaf) : Multiset ℕ := held Pte.refs pmtSize l.entries

def Mid.refs (m : Mid) : Multiset ℕ := held (·.elim 0 Leaf.refs) pmtSize m.entries

/-- The pages a table maps, each as often as it does. -/
def PMT.refs (pmt : PMT) : Multiset ℕ := held (·.elim 0 Mid.refs) userThreshold pmt.entries

def Leaf.tables (l : Leaf) : Multiset ℕ := {l.page}

def Mid.tables (m : Mid) : Multiset ℕ := m.page ::ₘ held (·.elim 0 Leaf.tables) pmtSize m.entries

/-- The pages a table occupies, with the tables below it. -/
def PMT.tables (pmt : PMT) : Multiset ℕ :=
  pmt.page ::ₘ held (·.elim 0 Mid.tables) userThreshold pmt.entries

@[simp] theorem Pte.refs_zero : Pte.zero.refs = 0 := rfl

variable {page j i : ℕ}

@[simp] theorem Leaf.refs_new : (Leaf.new page).refs = 0 := held_zero fun _ _ => rfl

@[simp] theorem Mid.refs_new : (Mid.new page).refs = 0 := held_zero fun _ _ => rfl

@[simp] theorem PMT.refs_new : (PMT.new page).refs = 0 := held_zero fun _ _ => rfl

@[simp] theorem Mid.tables_new : (Mid.new page).tables = {page} :=
  congrArg (page ::ₘ ·) (held_zero fun _ _ => rfl)

@[simp] theorem PMT.tables_new : (PMT.new page).tables = {page} :=
  congrArg (page ::ₘ ·) (held_zero fun _ _ => rfl)

/-! Changing an entry exchanges what it holds. -/

theorem Leaf.refs_set (l : Leaf) {k : ℕ} (hk : k < pmtSize) :
    ∃ R, l.refs = (l.entries k).refs + R ∧ ∀ pte, (l.set k pte).refs = pte.refs + R :=
  held_update Pte.refs l.entries hk

theorem Mid.refs_set (m : Mid) (hj : j < pmtSize) :
    ∃ R, m.refs = (m.entries j).elim 0 Leaf.refs + R ∧ ∀ l, (m.set j l).refs = l.refs + R := by
  obtain ⟨R, h, h'⟩ := held_update (·.elim 0 Leaf.refs) m.entries hj
  exact ⟨R, h, fun l => h' (some l)⟩

theorem Mid.tables_set (m : Mid) (hj : j < pmtSize) :
    ∃ S, m.tables = (m.entries j).elim 0 Leaf.tables + S ∧
      ∀ l, (m.set j l).tables = l.tables + S := by
  obtain ⟨S, h, h'⟩ := held_update (·.elim 0 Leaf.tables) m.entries hj
  refine ⟨m.page ::ₘ S, ?_, fun l => ?_⟩
  · rw [Mid.tables, h, add_cons]
  · rw [Mid.tables, Mid.set, h', add_cons]
    rfl

theorem PMT.refs_set (pmt : PMT) (hi : i < userThreshold) :
    ∃ R, pmt.refs = (pmt.entries i).elim 0 Mid.refs + R ∧ ∀ m, (pmt.set i m).refs = m.refs + R := by
  obtain ⟨R, h, h'⟩ := held_update (·.elim 0 Mid.refs) pmt.entries hi
  exact ⟨R, h, fun m => h' (some m)⟩

theorem PMT.tables_set (pmt : PMT) (hi : i < userThreshold) :
    ∃ S, pmt.tables = (pmt.entries i).elim 0 Mid.tables + S ∧
      ∀ m, (pmt.set i m).tables = m.tables + S := by
  obtain ⟨S, h, h'⟩ := held_update (·.elim 0 Mid.tables) pmt.entries hi
  refine ⟨pmt.page ::ₘ S, ?_, fun m => ?_⟩
  · rw [PMT.tables, h, add_cons]
  · rw [PMT.tables, PMT.set, h', add_cons]
    rfl

/-! ## Ownership -/

section Owned

variable {σ : Type*} {P : Pool σ ℕ} {live : σ → Set ℕ → Prop}

/-- The pages `A` are handed out, among them those referred to, `M`, and those of
    tables, `T`, while those in `D` were freed since the ledger was `l0`. The pages in
    `S` are shared without being counted. -/
structure Owned (live : σ → Set ℕ → Prop) (A0 S : Set ℕ) (l0 : List (Transfer ℕ)) (e : Prop)
    (ph : Phys σ) (A D : Set ℕ) (M T : Multiset ℕ) : Prop where
  live : live ph.pool A
  replays : Replays A0 ph.log A
  kernel : ∀ p ∈ A0, p ∈ A ∧ p ∉ M ∧ p ∉ T
  data : ∀ p ∈ M, p ∈ A
  tables : ∀ t ∈ T, t ∈ A ∧ t ∉ M
  nodup : T.Nodup
  covers : Covers ph.refs.getRef S M
  since : ∃ l, ph.log = l ++ l0 ∧ ∀ p, .back p ∈ l ↔ p ∈ D
  freed : ∀ p ∈ D, p ∉ M
  all : e → ∀ p ∈ A, p ∈ A0 ∨ p ∈ M ∨ p ∈ T
  tight : e → Tight ph.refs.getRef M

/-- The references `M` and the tables `T` are owned, whatever else is handed out, and
    whatever was freed. -/
def Owns (live : σ → Set ℕ → Prop) (A0 S : Set ℕ) (l0 : List (Transfer ℕ)) (e : Prop) (ph : Phys σ)
    (M T : Multiset ℕ) : Prop := ∃ A D, Owned live A0 S l0 e ph A D M T

namespace Owned

variable {A0 S A D : Set ℕ} {l0 : List (Transfer ℕ)} {e : Prop} {ph ph' : Phys σ}
  {M M' T T' : Multiset ℕ} {p : ℕ}

variable (h : Owned live A0 S l0 e ph A D M T)

include h

theorem owns : Owns live A0 S l0 e ph M T := ⟨A, D, h⟩

/-- Some references are lost. -/
theorem weaken (hM : M' ≤ M) (hT : T' ≤ T) : Owned live A0 S l0 False ph A D M' T' where
  live := h.live
  replays := h.replays
  kernel p hp := ⟨(h.kernel p hp).1, fun hm => (h.kernel p hp).2.1 (mem_of_le hM hm),
    fun hm => (h.kernel p hp).2.2 (mem_of_le hT hm)⟩
  data p hp := h.data p (mem_of_le hM hp)
  tables t ht := ⟨(h.tables t (mem_of_le hT ht)).1, fun hm =>
    (h.tables t (mem_of_le hT ht)).2 (mem_of_le hM hm)⟩
  nodup := nodup_of_le hT h.nodup
  covers := h.covers.mono hM
  since := h.since
  freed p hp hm := h.freed p hp (mem_of_le hM hm)
  all := False.elim
  tight := False.elim

theorem mono {e' : Prop} (he : e' → e) : Owned live A0 S l0 e' ph A D M T :=
  ⟨h.live, h.replays, h.kernel, h.data, h.tables, h.nodup, h.covers, h.since, h.freed,
    fun h' => h.all (he h'), fun h' => h.tight (he h')⟩

/-- The contents of the pages do not matter. -/
theorem setMem (mem : ℕ → ℕ → UInt8) : Owned live A0 S l0 e { ph with mem := mem } A D M T :=
  ⟨h.live, h.replays, h.kernel, h.data, h.tables, h.nodup, h.covers, h.since, h.freed, h.all,
    h.tight⟩

/-- From here on: nothing was freed yet. -/
theorem rebase : Owned live A0 S ph.log e ph A ∅ M T :=
  ⟨h.live, h.replays, h.kernel, h.data, h.tables, h.nodup, h.covers, ⟨[], rfl, by simp⟩, by simp,
    h.all, h.tight⟩

omit h

theorem kallocPage_some (hp : kallocPage P ph = (some p, ph')) : ∃ s,
    P.take ph.pool = (some p, s) ∧ ph' = { ph with pool := s, log := .out p :: ph.log } := by
  rw [kallocPage] at hp
  split at hp
  next page s heq =>
    simp only [Prod.mk.injEq, Option.some.injEq] at hp
    obtain ⟨rfl, rfl⟩ := hp
    exact ⟨s, heq, rfl⟩
  next s heq => cases hp

theorem kallocPage_none (hp : kallocPage P ph = (none, ph')) : ∃ s,
    P.take ph.pool = (none, s) ∧ ph' = { ph with pool := s, log := .refused :: ph.log } := by
  rw [kallocPage] at hp
  split at hp
  next page s heq => cases hp
  next s heq =>
    simp only [Prod.mk.injEq, true_and] at hp
    exact ⟨s, heq, hp.symm⟩

theorem refused_mem (hp : kallocPage P ph = (none, ph')) : .refused ∈ ph'.log := by
  obtain ⟨s, -, rfl⟩ := kallocPage_none hp
  exact (.head _)

variable (h : Owned live A0 S l0 e ph A D M T)

include h

/-- An allocation which fails. -/
theorem takeNone (hP : P.Lawful live) (hp : kallocPage P ph = (none, ph')) :
    Owned live A0 S l0 e ph' A D M T := by
  obtain ⟨s, hs, rfl⟩ := kallocPage_none hp
  obtain ⟨l, hl, hD⟩ := h.since
  exact ⟨hP.take_none h.live hs, h.replays, h.kernel, h.data, h.tables, h.nodup, h.covers,
    ⟨.refused :: l, by rw [hl]; rfl, fun q => by simp [hD]⟩, h.freed, h.all, h.tight⟩

/-- The pages freed do not change by an allocation. -/
theorem since_out (p : ℕ) : ∃ l, .out p :: ph.log = l ++ l0 ∧ ∀ q, .back q ∈ l ↔ q ∈ D := by
  obtain ⟨l, hl, hD⟩ := h.since
  exact ⟨.out p :: l, by rw [hl]; rfl, fun q => by simp [hD]⟩

/-- A page is allocated for a table. -/
theorem takeTable (hP : P.Lawful live) (hp : kallocPage P ph = (some p, ph')) :
    Owned live A0 S l0 e ph' (insert p A) D M (p ::ₘ T) := by
  obtain ⟨s, hs, rfl⟩ := kallocPage_some hp
  obtain ⟨hpA, hlive⟩ := hP.take_some h.live hs
  refine ⟨hlive, ⟨A, h.replays, hpA, rfl⟩, fun q hq => ?_, fun q hq => .inr (h.data q hq),
    fun t ht => ?_, nodup_cons.2 ⟨fun hm => hpA (h.tables p hm).1, h.nodup⟩, h.covers,
    h.since_out p, h.freed, fun he q hq => ?_, h.tight⟩
  · obtain ⟨h1, h2, h3⟩ := h.kernel q hq
    refine ⟨.inr h1, h2, fun hm => ?_⟩
    rcases mem_cons.1 hm with rfl | hm
    · exact hpA h1
    · exact h3 hm
  · rcases mem_cons.1 ht with rfl | ht
    · exact ⟨.inl rfl, fun hm => hpA (h.data t hm)⟩
    · exact ⟨.inr (h.tables t ht).1, (h.tables t ht).2⟩
  · rcases hq with rfl | hq
    · exact .inr (.inr (mem_cons_self _ _))
    · exact (h.all he q hq).imp id (Or.imp id mem_cons_of_mem)

omit h

/-- A page is allocated and mapped, nothing having been freed yet. -/
theorem takeData (h : Owned live A0 S l0 e ph A ∅ M T) (hP : P.Lawful live)
    (hp : kallocPage P ph = (some p, ph')) :
    p ∉ A ∧ Owned live A0 S l0 e ph' (insert p A) ∅ (p ::ₘ M) T := by
  obtain ⟨s, hs, rfl⟩ := kallocPage_some hp
  obtain ⟨hpA, hlive⟩ := hP.take_some h.live hs
  have hpM : p ∉ M := fun hm => hpA (h.data p hm)
  refine ⟨hpA, hlive, ⟨A, h.replays, hpA, rfl⟩, fun q hq => ?_, fun q hq => ?_, fun t ht => ?_,
    h.nodup, h.covers.fresh hpM ph.refs.getRef_pos, h.since_out p, by simp, fun he q hq => ?_,
    fun he => (h.tight he).fresh⟩
  · obtain ⟨h1, h2, h3⟩ := h.kernel q hq
    refine ⟨.inr h1, fun hm => ?_, h3⟩
    rcases mem_cons.1 hm with rfl | hm
    · exact hpA h1
    · exact h2 hm
  · rcases mem_cons.1 hq with rfl | hq
    · exact .inl rfl
    · exact .inr (h.data q hq)
  · refine ⟨.inr (h.tables t ht).1, fun hm => ?_⟩
    rcases mem_cons.1 hm with rfl | hm
    · exact hpA (h.tables t ht).1
    · exact (h.tables t ht).2 hm
  · rcases hq with rfl | hq
    · exact .inr (.inl (mem_cons_self _ _))
    · exact (h.all he q hq).imp id (Or.imp mem_cons_of_mem id)

/-- A page freed is among those freed. -/
theorem since_back (h : Owned live A0 S l0 e ph A D M T) (p : ℕ) :
    ∃ l, .back p :: ph.log = l ++ l0 ∧ ∀ q, .back q ∈ l ↔ q ∈ insert p D := by
  obtain ⟨l, hl, hD⟩ := h.since
  exact ⟨.back p :: l, by rw [hl]; rfl, fun q => by simp [hD]⟩

/-- The page of a table is freed. -/
theorem giveTable (h : Owned live A0 S l0 e ph A D M (p ::ₘ T)) (hP : P.Lawful live) :
    Owned live A0 S l0 e (kfreePage P ph p) (A \ {p}) (insert p D) M T := by
  have hpA := h.tables p (mem_cons_self _ _)
  have hpT := (nodup_cons.1 h.nodup).1
  refine ⟨hP.give h.live hpA.1, ⟨A, h.replays, hpA.1, rfl⟩, fun q hq => ?_, fun q hq => ?_,
    fun t ht => ?_, (nodup_cons.1 h.nodup).2, h.covers, h.since_back p, ?_,
    fun he q hq => ?_, h.tight⟩
  · obtain ⟨h1, h2, h3⟩ := h.kernel q hq
    exact ⟨⟨h1, by rintro rfl; exact h3 (mem_cons_self _ _)⟩, h2, fun hm => h3 (mem_cons_of_mem hm)⟩
  · exact ⟨h.data q hq, by rintro rfl; exact hpA.2 hq⟩
  · exact ⟨⟨(h.tables t (mem_cons_of_mem ht)).1, by rintro rfl; exact hpT ht⟩,
      (h.tables t (mem_cons_of_mem ht)).2⟩
  · rintro q (rfl | hq)
    · exact hpA.2
    · exact h.freed q hq
  · rcases h.all he q hq.1 with h' | h' | h'
    · exact .inl h'
    · exact .inr (.inl h')
    · rcases mem_cons.1 h' with h' | h'
      · exact absurd h' hq.2
      · exact .inr (.inr h')

/-- The last reference to a page is given up, and the page freed. -/
theorem giveData (h : Owned live A0 S l0 e ph A D (p ::ₘ M) T) (hP : P.Lawful live) (hpM : p ∉ M)
    (hp : e → ph.refs.getRef p ≤ 1) :
    Owned live A0 S l0 e (kfreePage P ph p) (A \ {p}) (insert p D) M T := by
  have hpA := h.data p (mem_cons_self _ _)
  refine ⟨hP.give h.live hpA, ⟨A, h.replays, hpA, rfl⟩, fun q hq => ?_, fun q hq => ?_,
    fun t ht => ?_, h.nodup, h.covers.mono (le_cons_self _ _), h.since_back p, ?_,
    fun he q hq => ?_, fun he => ?_⟩
  · obtain ⟨h1, h2, h3⟩ := h.kernel q hq
    exact ⟨⟨h1, by rintro rfl; exact h2 (mem_cons_self _ _)⟩, fun hm => h2 (mem_cons_of_mem hm), h3⟩
  · exact ⟨h.data q (mem_cons_of_mem hq), by rintro rfl; exact hpM hq⟩
  · exact ⟨⟨(h.tables t ht).1, by
      rintro rfl; exact (h.tables t ht).2 (mem_cons_self _ _)⟩,
      fun hm => (h.tables t ht).2 (mem_cons_of_mem hm)⟩
  · rintro q (rfl | hq)
    · exact hpM
    · exact fun hm => h.freed q hq (mem_cons_of_mem hm)
  · rcases h.all he q hq.1 with h' | h' | h'
    · exact .inl h'
    · rcases mem_cons.1 h' with h' | h'
      · exact absurd h' hq.2
      · exact .inr (.inl h')
    · exact .inr (.inr h')
  · have := (h.tight he).release (n := ph.refs.getRef p) ((hp he).trans (le_max_left _ _))
    rwa [Function.update_eq_self] at this

/-- A page which is mapped is mapped once more, and may be counted. -/
theorem again {refs : PageRefCount} (h : Owned live A0 S l0 e ph A D M T) (hp : p ∈ M)
    (hcovers : Covers refs.getRef S (p ::ₘ M)) (htight : e → Tight refs.getRef (p ::ₘ M)) :
    Owned live A0 S l0 e { ph with refs } A D (p ::ₘ M) T := by
  have hiff : ∀ q, q ∈ p ::ₘ M ↔ q ∈ M := fun q =>
    ⟨fun hq => (mem_cons.1 hq).elim (fun e => e ▸ hp) id, mem_cons_of_mem⟩
  refine ⟨h.live, h.replays, fun q hq => ?_, fun q hq => h.data q ((hiff q).1 hq),
    fun t ht => ⟨(h.tables t ht).1, (hiff t).not.2 (h.tables t ht).2⟩, h.nodup, hcovers, h.since,
    fun q hq => (hiff q).not.2 (h.freed q hq),
    fun he q hq => (h.all he q hq).imp id (Or.imp (hiff q).2 id), htight⟩
  obtain ⟨h1, h2, h3⟩ := h.kernel q hq
  exact ⟨h1, (hiff q).not.2 h2, h3⟩

/-- A page which is mapped is mapped once more. -/
theorem share (h : Owned live A0 S l0 e ph A D M T) (hp : p ∈ M) :
    Owned live A0 S l0 e { ph with refs := ph.refs.incRef p } A D (p ::ₘ M) T := by
  refine h.again hp ?_ fun he => ?_ <;> rw [PageRefCount.getRef_incRef]
  · exact h.covers.acquire
  · exact (h.tight he).acquire hp

/-- A page which is mapped is mapped once more, without being counted. -/
theorem mapShared (h : Owned live A0 S l0 False ph A D M T) (hp : p ∈ M) (hpS : p ∈ S) :
    Owned live A0 S l0 False ph A D (p ::ₘ M) T :=
  h.again hp (h.covers.uncounted hpS) False.elim

/-- A reference to a page is given up, and the page freed if it was the last one. -/
theorem release (h : Owned live A0 S l0 e ph A D (p ::ₘ M) T) (hP : P.Lawful live) (hpS : p ∉ S) :
    Owns live A0 S l0 e (VM.release P p ph) M T := by
  rcases ph.refs.decRef_spec p with ⟨hp, t, ht, hg⟩ | ⟨hp, t, ht, hg⟩
  · have h' : Owned live A0 S l0 e { ph with refs := t } A D (p ::ₘ M) T :=
      ⟨h.live, h.replays, h.kernel, h.data, h.tables, h.nodup, hg ▸ h.covers, h.since, h.freed,
        h.all, hg ▸ h.tight⟩
    refine ⟨A \ {p}, insert p D, ?_⟩
    rw [VM.release, ht]
    exact h'.giveData hP (h.covers.notMem hpS hp.le) fun _ => ((congrFun hg p).trans hp).le
  have hpos := ph.refs.getRef_pos (q := p)
  refine ⟨A, D, ?_⟩
  rw [VM.release, ht]
  refine ⟨h.live, h.replays, fun q hq => ?_, fun q hq => h.data q (mem_cons_of_mem hq),
    fun t ht => ⟨(h.tables t ht).1, fun hm => (h.tables t ht).2 (mem_cons_of_mem hm)⟩,
    h.nodup, ?_, h.since, fun q hq hm => h.freed q hq (mem_cons_of_mem hm),
    fun he q hq => ?_, fun he => ?_⟩
  · obtain ⟨h1, h2, h3⟩ := h.kernel q hq
    exact ⟨h1, fun hm => h2 (mem_cons_of_mem hm), h3⟩
  · simp only [Bool.false_eq_true, if_false, hg]
    exact h.covers.release (by omega)
  · -- A count above one says that there is another reference.
    rcases h.all he q hq with h' | h' | h'
    · exact .inl h'
    · rcases mem_cons.1 h' with rfl | h'
      · have := h.tight he q
        rw [count_cons_self] at this
        exact .inr (.inl (one_le_count_iff_mem.1 (by omega)))
      · exact .inr (.inl h')
    · exact .inr (.inr h')
  · simp only [Bool.false_eq_true, if_false, hg]
    exact (h.tight he).release (le_max_right _ _)

end Owned

end Owned

end HobbyOS
