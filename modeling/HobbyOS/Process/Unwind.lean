import HobbyOS.Process.Break

/-!
# Forks which fail

`VM::copyPMT` returns as soon as there is no page for a table, and `Process::fork` deletes the new
table of level 2 then. What has been done before is not undone: the pages which were shared stay
counted once more, and the tables with entries for them are lost.

Nothing has been shared if there were not two pages left for the tables of the first page to be
shared. So a fork which fails leaves no trace iff there were fewer than three pages
(`fork_noTrace_iff`), one of which was for the table of level 2.
-/

namespace HobbyOS

open List Option Owned VM

variable {σ : Type*} {P : Pool σ ℕ} {ph ph' ph0 : Phys σ} {skip : ℕ → Bool} {i j r : ℕ} {l : Leaf}
  {left : σ → ℕ}

/-! ## Sharing -/

/-- A page is counted more often than before. -/
def Shares (ph ph' : Phys σ) : Prop := ∃ page, ph.refs.getRef page < ph'.refs.getRef page

theorem getRef_le_incRef (t : PageRefCount) (page q : ℕ) : t.getRef q ≤ (t.incRef page).getRef q := by
  rw [PageRefCount.getRef_incRef, Function.update_apply]
  split
  next h => rw [h]; exact Nat.le_succ _
  · exact le_rfl

theorem shareLeaf_le (ph : Phys σ) (page : ℕ) :
    ph.refs.getRef page ≤ (shareLeaf skip i j l ph).refs.getRef page :=
  forRange_induct (P := fun _ (ph' : Phys σ) => ph.refs.getRef page ≤ ph'.refs.getRef page) le_rfl
    fun k ph' _ h => by
      split
      · exact h.trans (getRef_le_incRef _ _ _)
      · exact h

/-- The page of an entry which is copied is counted once more. -/
theorem shareLeaf_shares (ph : Phys σ) (h : hasEntry skip i j l = true) :
    Shares ph (shareLeaf skip i j l ph) := by
  obtain ⟨k, hk, hcopied⟩ := List.any_eq_true.1 h
  refine ⟨(l.entries k).page, ?_⟩
  have hloop := forRange_induct (n := pmtSize) (s := ph)
    (f := fun k ph => if copied skip i j l k then
      { ph with refs := ph.refs.incRef (l.entries k).page } else ph)
    (P := fun k' (ph' : Phys σ) => ph.refs.getRef (l.entries k).page ≤ ph'.refs.getRef (l.entries k).page ∧
      (k < k' → ph.refs.getRef (l.entries k).page < ph'.refs.getRef (l.entries k).page))
    ⟨le_rfl, fun h => absurd h (Nat.not_lt_zero k)⟩ fun k' ph' _ hph' => ?_
  · exact hloop.2 (mem_range.1 hk)
  obtain ⟨hle, hlt⟩ := hph'
  by_cases hkk : k' = k
  · rw [hkk, if_pos hcopied]
    rw [PageRefCount.getRef_incRef, Function.update_self]
    exact ⟨Nat.le_succ_of_le hle, fun _ => Nat.lt_succ_of_le hle⟩
  · have hstep : ph'.refs.getRef (l.entries k).page ≤ (if copied skip i j l k' then
        { ph' with refs := ph'.refs.incRef (l.entries k').page } else ph').refs.getRef
          (l.entries k).page := by
      split
      · exact getRef_le_incRef _ _ _
      · exact le_rfl
    exact ⟨hle.trans hstep, fun h => (hlt (by omega)).trans_le hstep⟩

theorem shareLeaf_eq (h : hasEntry skip i j l = false) : shareLeaf skip i j l ph = ph := by
  rw [hasEntry, List.any_eq_false] at h
  refine forRange_induct (P := fun _ ph' => ph' = ph) rfl fun k ph' hk hph' => ?_
  rw [if_neg (h k (mem_range.2 hk)), hph']

/-! ## Traces -/

theorem Process.Balanced.trans {l l' l'' : List (Transfer ℕ)} (h : Process.Balanced l l')
    (h' : Process.Balanced l' l'') : Process.Balanced l l'' := by
  obtain ⟨k, rfl, hk⟩ := h
  obtain ⟨k', rfl, hk'⟩ := h'
  refine ⟨k' ++ k, (append_assoc ..).symm, fun page => ?_⟩
  rw [count_append, count_append, hk, hk']

theorem Process.Balanced.refused {l l' : List (Transfer ℕ)} (h : Process.Balanced l l') :
    Process.Balanced l (.refused :: l') := h.trans ⟨[.refused], rfl, by simp⟩

/-- A page is returned which was handed out before. -/
theorem Process.Balanced.back {l l' : List (Transfer ℕ)} {page : ℕ}
    (h : Process.Balanced (.out page :: l) l') : Process.Balanced l (.back page :: l') := by
  obtain ⟨k, rfl, hk⟩ := h
  refine ⟨.back page :: k ++ [.out page], by simp, fun q => ?_⟩
  simp [count_cons, hk q]

/-- Nothing has been shared, and no page is missing. -/
structure Idle (ph ph' : Phys σ) : Prop where
  refs : ph'.refs = ph.refs
  pages : Process.Balanced ph.log ph'.log

section

variable (hP : P.Exact left)

include hP

/-- The copy of a table of level 1 has shared something, or nothing has happened; there were `r`
    pages left then. -/
structure MidTraced (left : σ → ℕ) (ph0 : Phys σ) (page r : ℕ) (s : MidCopy σ) : Prop where
  page : s.dst.page = page
  le : ∀ q, ph0.refs.getRef q ≤ s.ph.refs.getRef q
  traced : 0 < r ∧ Shares ph0 s.ph ∨ s.hasEntry = false ∧ Idle ph0 s.ph ∧ left s.ph.pool = r

theorem copyMidStep_traced {s : MidCopy σ} {page : ℕ} (h : MidTraced left ph0 page r s) :
    (copyMidStep P skip i j s).Holds (MidTraced left ph0 page r)
      (fun t => (∀ q, ph0.refs.getRef q ≤ t.ph.refs.getRef q) ∧ (0 < r ∧ Shares ph0 t.ph ∨
        r = 0 ∧ t.ph.refs = ph0.refs ∧ ∃ l, Process.Balanced ph0.log l ∧ t.ph.log = .back page :: l))
      False := by
  obtain ⟨rfl, hle, h⟩ := h
  rw [copyMidStep]
  split
  · exact ⟨rfl, hle, h⟩
  next l hl =>
    split
    next ph' hp =>
      obtain ⟨pool, htake, rfl⟩ := kallocPage_none hp
      refine ⟨hle, h.imp id ?_⟩
      rintro ⟨-, hidle, hroom⟩
      exact ⟨hroom.symm.trans (hP.take_none htake), hidle.refs, _, hidle.pages.refused, rfl⟩
    next q ph' hp =>
      obtain ⟨pool, htake, rfl⟩ := kallocPage_some hp
      have hroom := hP.take_some htake
      split
      next hc =>
        refine ⟨rfl, fun p => (hle p).trans (shareLeaf_le { s.ph with pool, log := _ } p), .inl ⟨?_, ?_⟩⟩
        · rcases h with h | h <;> omega
        · obtain ⟨p, hp⟩ := shareLeaf_shares { s.ph with pool, log := .out q :: s.ph.log } hc
          exact ⟨p, (hle p).trans_lt hp⟩
      next hc =>
        -- The page is given back.
        rw [shareLeaf_eq (Bool.eq_false_iff.2 hc)]
        refine ⟨rfl, hle, h.imp id ?_⟩
        rintro ⟨he, hidle, hr⟩
        refine ⟨he, ⟨hidle.refs, hidle.pages.trans ?_⟩, ?_⟩
        · exact .back (.refl _)
        · exact (hP.give pool q).trans (by omega)

/-- Two pages are needed for something to be shared. -/
def CopyTraced (left : σ → ℕ) (ph0 : Phys σ) (r : ℕ) (s : Copy σ) : Prop :=
  2 ≤ r ∧ Shares ph0 s.ph ∨ Idle ph0 s.ph ∧ left s.ph.pool = r

theorem copyStep_traced {s : Copy σ} (h : CopyTraced left ph0 r s) :
    (copyStep P skip i s).Holds (CopyTraced left ph0 r)
      (fun t => 2 ≤ r ∧ Shares ph0 t.ph ∨ r < 2 ∧ Idle ph0 t.ph) False := by
  rw [copyStep]
  split
  · exact h
  next m hm =>
    split
    next ph' hp =>
      obtain ⟨pool, htake, rfl⟩ := kallocPage_none hp
      refine h.imp id fun hs => ⟨?_, hs.1.refs, hs.1.pages.refused⟩
      have := hP.take_none htake
      omega
    next page ph' hp =>
      obtain ⟨pool, htake, rfl⟩ := kallocPage_some hp
      have hroom := hP.take_some htake
      have hloop := tryRange_induct (f := copyMidStep P skip i) (n := pmtSize) (P := fun _ => MidTraced left
        { s.ph with pool, log := .out page :: s.ph.log } page (left pool))
        (s := ⟨{ s.ph with pool, log := .out page :: s.ph.log }, m, .new page, false⟩)
        ⟨rfl, fun _ => le_rfl, .inr ⟨rfl, ⟨rfl, .refl _⟩, rfl⟩⟩
        fun j t _ ht => copyMidStep_traced hP ht
      split
      next heq => rwa [heq] at hloop
      next t heq =>
        rw [heq] at hloop
        obtain ⟨hle, ht⟩ := hloop
        rcases h with ⟨hr, q, hq⟩ | ⟨hidle, hr⟩
        · exact .inl ⟨hr, q, hq.trans_le (hle q)⟩
        · rcases ht with ⟨hp, q, hq⟩ | ⟨hz, hrefs, l, hl, hlog⟩
          · exact .inl ⟨by omega, q, hidle.refs ▸ hq⟩
          exact .inr ⟨by omega, hrefs.trans hidle.refs, hidle.pages.trans (hlog ▸ hl.back)⟩
      next t heq =>
        rw [heq] at hloop
        obtain ⟨hpage, hle, ht⟩ := hloop
        have hshares (hs : 0 < left pool ∧ Shares { s.ph with pool, log := .out page :: s.ph.log } t.ph) :
            2 ≤ r ∧ Shares ph0 t.ph := by
          obtain ⟨hp, q, hq⟩ := hs
          rcases h with ⟨hr, q, hq⟩ | ⟨hidle, hr⟩
          · exact ⟨hr, q, hq.trans_le (hle q)⟩
          · exact ⟨by omega, q, hidle.refs ▸ hq⟩
        split
        next hentry =>
          exact .inl (hshares (ht.resolve_right fun h => by simp [h.1] at hentry))
        · rcases ht with ht | ⟨-, hidle', hr'⟩
          · exact .inl (hshares ht)
          rcases h with ⟨hr, q, hq⟩ | ⟨hidle, hr⟩
          · exact .inl ⟨hr, q, hq.trans_le (hle q)⟩
          · refine .inr ⟨⟨hidle'.refs.trans hidle.refs, hidle.pages.trans ?_⟩, ?_⟩
            · rw [hpage]
              exact hidle'.pages.back
            · exact (hP.give _ _).trans (by omega)

/-- With two pages left, something has been shared before `copyPMT` fails; with fewer, it does not
    come to share any. -/
theorem copyPMT_traced (skip : ℕ → Bool) (ph : Phys σ) (src dst : PMT) :
    (copyPMT P skip ⟨ph, src, dst⟩).Holds (fun _ => True) (fun t => 2 ≤ left ph.pool ∧ Shares ph t.ph ∨
      left ph.pool < 2 ∧ Idle ph t.ph) False :=
  (tryRange_induct (P := fun _ => CopyTraced left ph (left ph.pool)) (.inr ⟨⟨rfl, .refl _⟩, rfl⟩)
    fun _ _ _ hs => copyStep_traced hP hs).imp (fun _ _ => trivial) fun _ hs => hs

end

/-! ## Forks -/

namespace Process

variable {p p' : Process} {shared shared' : SharedRefs}

/-- What is asked of a fork which fails: the reference counts are the same, as many pages were
    returned as were handed out, each as often, and the entries of the process are what they were,
    apart from the marks. -/
structure NoTrace (p p' : Process) (ph ph' : Phys σ) : Prop where
  refs : ∀ page, ph'.refs.getRef page = ph.refs.getRef page
  pages : Balanced ph.log ph'.log
  entries : ∀ n : Vpn, n.User → SomeMarked (p.pmt.lookup n) (p'.pmt.lookup n)

/-- A fork which fails leaves no trace iff there were fewer than three pages. -/
theorem fork_noTrace_iff (hP : P.Exact left)
    (h : p.fork P ph shared = some (ph', shared', p', none)) :
    NoTrace p p' ph ph' ↔ left ph.pool < 3 := by
  rw [fork, createPMT] at h
  rcases halloc : kallocPage P ph with ⟨_ | page, ph1⟩
  · rw [halloc] at h
    obtain ⟨pool, htake, rfl⟩ := kallocPage_none halloc
    cases h
    refine iff_of_true ⟨fun _ => rfl, ⟨[.refused], rfl, by simp⟩, fun _ _ => .inl rfl⟩ ?_
    rw [hP.take_none htake]
    decide
  rw [halloc] at h
  obtain ⟨pool, htake, rfl⟩ := kallocPage_some halloc
  have hroom := hP.take_some htake
  dsimp only at h
  generalize (fun va => (p.mmap.bind (·.find va)).isSome) = skip at h
  have hlookup := copyPMT_lookup (P := P) { ph with pool, log := .out page :: ph.log } p.pmt page skip
  have htraced := copyPMT_traced hP skip { ph with pool, log := .out page :: ph.log } p.pmt (.new page)
  generalize copyPMT _ _ _ = res at h hlookup htraced
  cases res with
  | panic => cases h
  | ok s =>
    exfalso
    cases hmmap : p.mmap with
    | none =>
      rw [hmmap] at h
      cases h
    | some m =>
      rw [hmmap] at h
      obtain ⟨⟨m', t⟩, -, ⟨⟩⟩ := bind_eq_some_iff.1 h
  | fail s =>
    cases h
    rcases htraced with ⟨hr, q, hq⟩ | ⟨hr, hidle⟩
    · exact iff_of_false (fun htrace => hq.ne' (htrace.refs q)) (by dsimp only at hr; omega)
    -- The table of level 2 is deleted.
    · exact iff_of_true ⟨fun q => congrArg (fun t => t.getRef q) hidle.refs, hidle.pages.back,
        hlookup.marked⟩ (by dsimp only at hr; omega)

/-- A process with two pages, whose tables have nothing in common, and some pages which are free. -/
def twoPages (free : List ℕ) : Phys (List ℕ) × Process :=
  let ph : Phys (List ℕ) := ⟨[1, 2, 3, 4], [], .empty, fun _ _ => 0⟩
  match (PMT.mapPage (vpn 0x10000) .listed 100 .user (ph, .new 0)).andThen
    (PMT.mapPage (vpn (2 ^ 30)) .listed 101 .user) with
  | .ok (ph, pmt) => ({ ph with pool := free, log := [] }, ⟨pmt, .empty, none⟩)
  | _ => (ph, ⟨.new 0, .empty, none⟩)

/-- The shared references of a system without any. -/
def noShared : SharedRefs := ⟨fun _ => 0, 0⟩

/-- One page for the table of level 2, and one for a table of level 1. -/
theorem fork_noTrace_iff_two : ∃ ph shared p,
    (twoPages [10, 11]).2.fork .listed (twoPages [10, 11]).1 noShared = some (ph, shared, p, none) ∧
    NoTrace (twoPages [10, 11]).2 p (twoPages [10, 11]).1 ph := by
  obtain ⟨⟨ph, shared, p, _ | _⟩, hfork, hnone⟩ : ∃ o, (twoPages [10, 11]).2.fork .listed
      (twoPages [10, 11]).1 noShared = some o ∧ o.2.2.2.isNone := by decide +kernel
  · exact ⟨ph, shared, p, hfork, (fork_noTrace_iff Pool.listed_exact hfork).2 (by decide +kernel)⟩
  · cases hnone

/-- There are four pages: for the table of level 2, for the two tables of the first page, and for the
    table of level 1 of the second one. The fork fails, the first page is counted twice, and its
    tables, in the pages 11 and 12, are lost. -/
theorem fork_leaves_trace : ∃ ph shared p,
    (twoPages [10, 11, 12, 13]).2.fork .listed (twoPages [10, 11, 12, 13]).1 noShared =
      some (ph, shared, p, none) ∧
    (twoPages [10, 11, 12, 13]).1.refs.getRef 100 = 1 ∧ ph.refs.getRef 100 = 2 ∧
    ph.pool = [10, 13] := by
  have hrun : ∃ o, (twoPages [10, 11, 12, 13]).2.fork .listed (twoPages [10, 11, 12, 13]).1 noShared =
      some o ∧ o.2.2.2.isNone ∧ (twoPages [10, 11, 12, 13]).1.refs.getRef 100 = 1 ∧
      o.1.refs.getRef 100 = 2 ∧ o.1.pool = [10, 13] := by
    decide +kernel
  obtain ⟨⟨ph, shared, p, _ | _⟩, hfork, hnone, h⟩ := hrun
  · exact ⟨ph, shared, p, hfork, h⟩
  · cases hnone

end Process

end HobbyOS
