import HobbyOS.Holding
import HobbyOS.Process.Ranges

/-!
# Shared regions

A shared region is held by the processes which have it, and its pages are mapped by all of them
(`HobbyOS.Holding`). The `MmapSharedRef` of the region counts them: this is what `Sharing`
says, for a system all of whose regions are shared ones.

* A process which drops a region is the last one to hold it iff the count gets to `0`, and it frees
  the pages then and only then (`dropRegion_shared`).
* A new region has fresh pages, and a new `MmapSharedRef` (`Shared.add`).
* A child holds the regions of its parent (`Shared.share`).

The pages of the regions are not counted by `PageRefCount`. So `Owned` is about the
counts of the other pages.
-/

namespace HobbyOS

open Function List Set

namespace Mmap

variable {m : Mmap} {r c : MmapRegion} {rs pre post : List MmapRegion} {n : Vpn}

theorem Laid.sublist {rs' : List MmapRegion} (h : Laid rs) (hs : rs'.Sublist rs) : Laid rs' :=
  ⟨fun c hc => h.ok c (hs.subset hc), h.apart.sublist hs⟩

/-- The regions around a region are other ones. -/
theorem Laid.notMem (h : Laid (pre ++ r :: post)) : r ∉ pre ++ post := by
  have hne := (h.ok r (by simp)).nonempty
  obtain ⟨-, hpost, hpre⟩ := pairwise_append.1 h.apart
  intro hm
  rcases mem_append.1 hm with hm | hm
  · have hle : r.vaEnd ≤ r.vaStart := hpre r hm r (.head _)
    omega
  · have hle : r.vaEnd ≤ r.vaStart := (pairwise_cons.1 hpost).1 r hm
    omega

/-- Regions are disjoint. -/
theorem Laid.apart_of_ne (h : Laid rs) (hr : r ∈ rs) (hc : c ∈ rs) (hne : c ≠ r) :
    c.Apart r.vaStart r.vaEnd := by
  have : Std.Symm fun a b : MmapRegion => a.vaEnd ≤ b.vaStart ∨ b.vaEnd ≤ a.vaStart :=
    ⟨fun _ _ => Or.symm⟩
  have hap : rs.Pairwise fun a b => a.vaEnd ≤ b.vaStart ∨ b.vaEnd ≤ a.vaStart := h.apart.imp .inl
  exact (hap.forall hc hr hne).symm

/-- A page is in one region only. -/
theorem Laid.eq_of_has (h : Laid rs) (hr : r ∈ rs) (hc : c ∈ rs) (hn : r.Has n) (hn' : c.Has n) :
    c = r := by
  by_contra hne
  obtain ⟨-, h1, h2⟩ := hn
  obtain ⟨-, h3, h4⟩ := hn'
  rcases h.apart_of_ne hr hc hne with hle | hle <;> omega

/-- `Mmap::find` tells whether a page is in a region. -/
theorem find_isSome (hn : n.User) : (m.find n.addr).isSome ↔ ∃ r ∈ m.regions, r.Has n := by
  rw [find, List.find?_isSome]
  simp only [Bool.and_eq_true, decide_eq_true_eq, MmapRegion.Has, hn, true_and]

end Mmap

namespace Sys

variable {σ : Type*} {P : Pool σ ℕ} {live : σ → Set ℕ → Prop} {A0 S S' : Set ℕ}
  {l0 : List (Transfer ℕ)} {e : Prop} {s s' s'' : Sys σ} {pid child q ref page : ℕ} {m : Mmap}
  {r r' : MmapRegion} {n : Vpn} {pte : Pte} {t u : Space σ}

/-! ## Who holds what -/

/-- The processes hold their regions, and map pages. -/
def holding (s : Sys σ) : Holding ℕ MmapRegion Vpn ℕ where
  holds pid r := pid ∈ s.pids ∧ ∃ m, (s.proc pid).mmap = some m ∧ r ∈ m.regions
  maps pid n page := ∃ pte, s.Maps pid n pte ∧ pte.page = page

/-- The pages of the regions of all processes. -/
def sharedPages (s : Sys σ) : Set ℕ := s.holding.pages MmapRegion.Has

theorem holds_iff (hpid : pid ∈ s.pids) (hm : (s.proc pid).mmap = some m) :
    s.holding.holds pid r ↔ r ∈ m.regions := by
  refine ⟨fun ⟨_, m', hm', hr⟩ => ?_, fun hr => ⟨hpid, m, hm, hr⟩⟩
  rw [hm] at hm'
  cases hm'
  exact hr

theorem holders_finite (s : Sys σ) (r : MmapRegion) : (s.holding.holders r).Finite :=
  s.pids.finite_toSet.subset fun _ h => h.1

/-- All regions are shared ones, as they should be: the holders of a region map the same pages, and
    are counted by the `MmapSharedRef`, which is that of no other region. -/
structure Sharing (s : Sys σ) : Prop where
  valid : ∀ pid ∈ s.pids, ∃ m, (s.proc pid).mmap = some m ∧ m.Valid
  fair : s.holding.Fair MmapRegion.Has
  plain : ∀ {pid r n pte}, s.holding.holds pid r → r.Has n → s.Maps pid n pte →
    pte.flags.cow = false
  counted : ∀ {pid r}, s.holding.holds pid r → r.shared = true ∧ ∃ ref < s.shared.next,
    r.sharedRef = some ref ∧ s.shared.refCount ref = (s.holding.holders r).ncard
  same : ∀ {pid pid' r r'}, s.holding.holds pid r → s.holding.holds pid' r' →
    r.sharedRef = r'.sharedRef → r = r'

/-- The regions are as they should be, and the pages owned. -/
structure Shared (live : σ → Set ℕ → Prop) (A0 : Set ℕ) (l0 : List (Transfer ℕ)) (s : Sys σ) :
    Prop where
  sharing : s.Sharing
  owned : s.Owned live A0 s.sharedPages l0 False

/-- The pages of regions stay pages of regions, or are handed back. -/
structure Lasts (s s' : Sys σ) : Prop where
  log : ∃ l, s'.ph.log = l ++ s.ph.log
  pages : ∀ page ∈ s.sharedPages, page ∈ s'.sharedPages ∨ s.Frees s' page

theorem Lasts.refl (s : Sys σ) : s.Lasts s := ⟨⟨[], rfl⟩, fun _ => .inl⟩

theorem Lasts.trans (h : s.Lasts s') (h' : s'.Lasts s'') : s.Lasts s'' := by
  obtain ⟨l, hl⟩ := h.log
  obtain ⟨l', hl'⟩ := h'.log
  refine ⟨⟨l' ++ l, by rw [hl', hl, append_assoc]⟩, fun page hp => ?_⟩
  rcases h.pages page hp with hp | ⟨k, hk, hm⟩
  · rcases h'.pages page hp with hp | ⟨k, hk, hm⟩
    · exact .inl hp
    · exact .inr ⟨k ++ l, by rw [hk, hl, append_assoc], mem_append_left _ hm⟩
  · exact .inr ⟨l' ++ k, by rw [hl', hk, append_assoc], mem_append_right _ hm⟩

/-- The regions are as they should be after a change, and their pages last. -/
structure Keeps (live : σ → Set ℕ → Prop) (A0 : Set ℕ) (l0 : List (Transfer ℕ)) (s s' : Sys σ) :
    Prop where
  shared : s'.Shared live A0 l0
  lasts : s.Lasts s'

theorem Shared.keeps (h : s.Shared live A0 l0) : Keeps live A0 l0 s s := ⟨h, .refl s⟩

theorem Keeps.trans {l : List (Transfer ℕ)} (h : Keeps live A0 l s s')
    (h' : Keeps live A0 l0 s' s'') : Keeps live A0 l0 s s'' := ⟨h'.shared, h.lasts.trans h'.lasts⟩

theorem Sharing.valid_mmap (h : s.Sharing) (hpid : pid ∈ s.pids) (hm : (s.proc pid).mmap = some m) :
    m.Valid := by
  obtain ⟨m', hm', hv⟩ := h.valid pid hpid
  rw [hm] at hm'
  cases hm'
  exact hv

/-- Pages which are not mapped any more need not be counted. -/
theorem Owned.reshare (h : s.Owned live A0 S l0 e) (hS : ∀ p ∈ S, p ∈ S' ∨ p ∉ s.refs) :
    s.Owned live A0 S' l0 e := by
  obtain ⟨A, D, h⟩ := h
  refine ⟨A, D, { h with covers := fun p hp => ?_ }⟩
  by_cases hpS : p ∈ S
  · rw [Multiset.count_eq_zero.2 ((hS p hpS).resolve_left hp)]
    exact Nat.zero_le _
  · exact h.covers p hpS

theorem Shared.of_lasts (hs : s'.Sharing) (hl : s.Lasts s') (hlog : ∃ l, s.ph.log = l ++ l0)
    (ho : s'.Owned live A0 s.sharedPages l0 False) : s'.Shared live A0 l0 :=
  ⟨hs, ho.reshare fun page hp => (hl.pages page hp).imp id (ho.notMem_of_frees hlog)⟩

theorem Shared.log (h : s.Shared live A0 l0) : ∃ l, s.ph.log = l ++ l0 := h.owned.log

/-! ## Changing a process -/

/-- What the operations of `Mmap` work on. -/
def space (s : Sys σ) (pid : ℕ) : Space σ := ⟨s.ph, (s.proc pid).pmt, s.shared⟩

/-- The regions and the table of a process change. -/
def remap (s : Sys σ) (pid : ℕ) (m : Mmap) (t : Space σ) : Sys σ :=
  { s.set pid { s.proc pid with pmt := t.pmt, mmap := some m } t.ph with shared := t.shared }

theorem remap_proc_self : (s.remap pid m t).proc pid =
    { s.proc pid with pmt := t.pmt, mmap := some m } := update_self ..

theorem remap_proc_of_ne (h : q ≠ pid) : (s.remap pid m t).proc q = s.proc q :=
  update_of_ne h ..

theorem remap_space : (s.remap pid m t).space pid = t := by
  rw [space, remap_proc_self]
  rfl

theorem remap_remap {m' : Mmap} : (s.remap pid m t).remap pid m' u = s.remap pid m' u := by
  rw [remap, remap_proc_self]
  simp only [remap, set, update_idem]

theorem remap_holds (hpid : pid ∈ s.pids) : (s.remap pid m t).holding.holds q r ↔
    (q = pid ∧ r ∈ m.regions) ∨ (q ≠ pid ∧ s.holding.holds q r) := by
  by_cases hq : q = pid
  · subst hq
    rw [holds_iff (s := s.remap q m t) hpid (by rw [remap_proc_self])]
    simp
  · simp only [holding, remap_proc_of_ne hq]
    simp [remap, hq]

theorem remap_maps (hpid : pid ∈ s.pids) : (s.remap pid m t).Maps q n pte ↔
    (q = pid ∧ n.User ∧ t.pmt.lookup n = some pte) ∨ (q ≠ pid ∧ s.Maps q n pte) := by
  by_cases hq : q = pid
  · subst hq
    simp only [Maps, remap_proc_self]
    simp [remap, hpid]
  · simp only [Maps, remap_proc_of_ne hq]
    simp [remap, hq]

theorem remap_owned (hpid : pid ∈ s.pids) : (s.remap pid m t).Owned live A0 S l0 e ↔
    Owns live A0 S l0 e t.ph (t.pmt.refs + s.others PMT.refs pid)
      (t.pmt.tables + s.others PMT.tables pid) := owned_set hpid

/-- The other processes keep their regions. -/
theorem Sharing.valid_remap (h : s.Sharing) (hm : m.Valid) :
    ∀ q ∈ (s.remap pid m t).pids, ∃ m', ((s.remap pid m t).proc q).mmap = some m' ∧ m'.Valid := by
  intro q hq
  by_cases hqp : q = pid
  · subst hqp
    exact ⟨m, by rw [remap_proc_self], hm⟩
  · rw [remap_proc_of_ne hqp]
    exact h.valid q hq

/-- A page which no other process maps, and which the process maps at `n` only. -/
theorem pmt_alone (halone : ∀ q n', s.holding.maps q n' page → q = pid ∧ n' = n)
    (hpid : pid ∈ s.pids) : (s.proc pid).pmt.Alone (s.others PMT.refs pid) n page := by
  refine ⟨fun hm => ?_, fun n' pte' hne hn' hl hp => ?_⟩
  · obtain ⟨q, hq, hm⟩ := Multiset.mem_sum.1 hm
    obtain ⟨hne, hq⟩ := Finset.mem_erase.1 hq
    obtain ⟨n', pte', hn', hl, hp⟩ := PMT.exists_lookup hm
    exact hne (halone q n' ⟨pte', ⟨hq, hn', hl⟩, hp⟩).1
  · exact hne (halone pid n' ⟨pte', ⟨hpid, hn', hl⟩, hp⟩).2

theorem mem_others (hm : s.Maps q n pte) (hne : q ≠ pid) : pte.page ∈ s.others PMT.refs pid :=
  Multiset.mem_sum.2 ⟨q, Finset.mem_erase.2 ⟨hne, hm.1⟩, PMT.mem_refs hm.2.2 hm.2.1⟩

/-! ## Dropping a region -/

section Drop

variable {pre post : List MmapRegion} (h : s.Shared live A0 l0) (hpid : pid ∈ s.pids)
  (hm : (s.proc pid).mmap = some m) (hr : m.regions = pre ++ r :: post)

include h hpid hm hr

/-- The process does not hold the region any more, and does not map its pages. -/
theorem Shared.drop_holding (hint : ℕ)
    (hc : Cleared (pageAt r.vaStart) (pageCount r.vaStart r.vaEnd) (s.proc pid).pmt t.pmt) :
    (s.remap pid ⟨pre ++ post, hint⟩ t).holding = s.holding.drop MmapRegion.Has pid r := by
  have hlaid := hr ▸ (h.sharing.valid_mmap hpid hm).laid
  have hok := hlaid.ok r (by simp)
  ext q x y
  · rw [remap_holds hpid]
    by_cases hq : q = pid
    · subst hq
      have hmem := hlaid.notMem
      simp only [Holding.drop, holds_iff hpid hm, hr, mem_append, mem_cons] at hmem ⊢
      by_cases hx : x = r
      · subst hx
        simpa using hmem
      · simp [hx]
    · simp [Holding.drop, hq]
  · simp only [Holding.drop, holding, remap_maps hpid]
    by_cases hq : q = pid
    · subst hq
      by_cases hx : r.Has x
      · simp [hx, hok.cleared_has hc hx]
      · simp [hx, hok.cleared_not_has hc hx, Maps, hpid]
    · simp [hq]

/-- A process gives up a region, whose pages it hands back if it is the last one. -/
theorem Shared.drop (href : r.sharedRef = some ref) (hshared : t.shared = { s.shared with
      refCount := update s.shared.refCount ref (s.shared.refCount ref - 1) })
    (hunmapped : Unmapped live A0 s.sharedPages l0 False (s.proc pid).pmt (s.others PMT.refs pid)
      (s.others PMT.tables pid) (pageAt r.vaStart) (pageCount r.vaStart r.vaEnd) (t.ph, t.pmt))
    (hlog : ∃ l, t.ph.log = l ++ s.ph.log)
    (hback : s.holding.holders r = {pid} → HandedBack s.ph (s.proc pid).pmt (pageAt r.vaStart)
      (pageCount r.vaStart r.vaEnd) (t.ph, t.pmt)) :
    Keeps live A0 l0 s (s.remap pid ⟨pre ++ post, m.nextHint⟩ t) := by
  have hs := h.sharing
  have hab : s.holding.holds pid r := (holds_iff hpid hm).2 (by rw [hr]; simp)
  have hhold := h.drop_holding hpid hm hr m.nextHint hunmapped.cleared
  have hv := hs.valid_mmap hpid hm
  have hok := hv.laid.ok r (by rw [hr]; simp)
  have hlaid : Mmap.Laid (pre ++ post) := hv.laid.sublist (by rw [hr]; simp)
  have hlasts : s.Lasts (s.remap pid ⟨pre ++ post, m.nextHint⟩ t) := by
    refine ⟨hlog, fun page hp => ?_⟩
    rcases hs.fair.drop_pages hab hp with hp | ⟨hsole, n, hn, pte, hpte, rfl⟩
    · left
      rwa [sharedPages, hhold]
    · obtain ⟨i, hi, rfl⟩ := hok.exists_pageAt hn
      obtain ⟨l, hl, hmem⟩ := hback hsole
      exact .inr ⟨l, hl, hmem i hi pte hpte.2.2⟩
  refine ⟨.of_lasts ⟨hs.valid_remap ⟨hlaid, hv.nextHint_le⟩, ?_, ?_, ?_, ?_⟩ hlasts h.log
    ((remap_owned hpid).2 hunmapped.owns), hlasts⟩
  · rw [hhold]
    exact hs.fair.drop hab
  · intro q r' n pte hq hn hpte
    rw [hhold] at hq
    refine hs.plain hq.1 hn ?_
    rcases (remap_maps hpid).1 hpte with ⟨rfl, hn', hl⟩ | ⟨-, hpte⟩
    · rcases hunmapped.cleared.cases n with he | he
      · exact ⟨hpid, hn', he ▸ hl⟩
      · rw [show t.pmt.lookup n = none from he] at hl
        cases hl
    · exact hpte
  · intro q r' hq
    rw [hhold] at hq ⊢
    obtain ⟨hsh, ref', hlt, href', hcount⟩ := hs.counted hq.1
    refine ⟨hsh, ref', by rw [remap, hshared]; exact hlt, href', ?_⟩
    rw [remap, hshared]
    dsimp only
    by_cases hrr : r' = r
    · -- One holder less.
      subst hrr
      rw [href] at href'
      cases href'
      have hmem : pid ∈ s.holding.holders r' := hab
      rw [update_self, Holding.drop_holders_self, ncard_sdiff_singleton_of_mem hmem, hcount]
    · rw [update_of_ne, Holding.drop_holders_of_ne hrr, hcount]
      rintro rfl
      exact hrr (hs.same hq.1 hab (href'.trans href.symm))
  · intro q q' r1 r2 h1 h2 he
    rw [hhold] at h1 h2
    exact hs.same h1.1 h2.1 he

/-- `Mmap::unmap` and `Mmap::~Mmap` never find that the `MmapSharedRef` is deleted. -/
theorem dropRegion_shared (hP : P.Lawful live) (h0 : ∀ s A, live s A → 0 ∉ A) :
    ∃ t, Mmap.dropRegion P r (s.space pid) = some t ∧
      Keeps live A0 l0 s (s.remap pid ⟨pre ++ post, m.nextHint⟩ t) := by
  have hs := h.sharing
  have hab : s.holding.holds pid r := (holds_iff hpid hm).2 (by rw [hr]; simp)
  have hv := hs.valid_mmap hpid hm
  have hok := hv.laid.ok r (by rw [hr]; simp)
  obtain ⟨hsh, ref, -, href, hcount⟩ := hs.counted hab
  have hpos : s.shared.refCount ref ≠ 0 := by
    rw [hcount]
    exact ncard_ne_zero_of_mem (a := pid) hab (s.holders_finite r)
  have hn : ∀ i < pageCount r.vaStart r.vaEnd, (pageAt r.vaStart i).User :=
    fun i hi => (hok.pageAt_has hi).1
  obtain ⟨A, D, hown⟩ := (owned_iff hpid).1 h.owned
  rw [Mmap.dropRegion, hsh, href]
  dsimp only [space]
  rw [if_neg hpos]
  refine ⟨_, rfl, ?_⟩
  split_ifs with hlast
  · -- The last holder maps the pages alone.
    have hsole : s.holding.holders r = {pid} := by
      obtain ⟨a, ha⟩ := ncard_eq_one.1 (hcount.symm.trans (by omega : _ = 1))
      have hmem : pid ∈ s.holding.holders r := hab
      rw [ha] at hmem ⊢
      rw [mem_singleton_iff.1 hmem]
    obtain ⟨hun, hback⟩ := unmapPhysical_owned hown hn hP h0 fun i hi pte hpte => by
      have hhas := hok.pageAt_has hi
      exact pmt_alone (fun q n' hm' => hs.fair.eq_of_sole hab hsole hhas
        ⟨pte, ⟨hpid, hhas.1, hpte⟩, rfl⟩ hm') hpid
    refine h.drop hpid hm hr href rfl hun ?_ fun _ => hback
    obtain ⟨l, hl, -⟩ := hback
    exact ⟨l, hl⟩
  · obtain ⟨hun, hph⟩ := unmapPhysicalShared_owned hown hn
    refine h.drop hpid hm hr href rfl hun ⟨[], by rw [hph]; rfl⟩ fun hsole => ?_
    rw [hcount, hsole, ncard_singleton] at hlast
    exact absurd rfl hlast

end Drop

/-! ## Gaining a region -/

section Gain

variable {m' : Mmap} {f : Vpn → ℕ} {flags : Flags} (hpid : pid ∈ s.pids)
  (hm : (s.proc pid).mmap = some m)

include hpid hm

section

variable (hx : Extended r f flags (s.proc pid).pmt t.pmt)

include hx

/-- The process holds one more region, and maps its pages. -/
theorem gain_holding (hr : ∀ c, c ∈ m'.regions ↔ c = r ∨ c ∈ m.regions) :
    (s.remap pid m' t).holding = s.holding.add MmapRegion.Has pid r f := by
  ext q x y
  · rw [remap_holds hpid]
    by_cases hq : q = pid
    · subst hq
      simp only [Holding.add, holds_iff hpid hm, hr]
      tauto
    · simp [Holding.add, hq]
  · simp only [Holding.add, holding, remap_maps hpid]
    by_cases hq : q = pid
    · subst hq
      by_cases hn : r.Has x
      · simp [hn, hx.inside hn, Maps, hx.free hn, hn.1]
      · simp [hn, hx.outside hn, Maps, hpid]
    · simp [hq]

/-- What is left to show when a process gets a region. -/
theorem Shared.gain (h : s.Shared live A0 l0) (hv : m'.Valid)
    (hr : ∀ c, c ∈ m'.regions ↔ c = r ∨ c ∈ m.regions) (hcow : flags.cow = false)
    (howns : Owns live A0 s.sharedPages l0 False t.ph (t.pmt.refs + s.others PMT.refs pid)
      (t.pmt.tables + s.others PMT.tables pid)) (hlog : ∃ l, t.ph.log = l ++ s.ph.log)
    (hfair : (s.holding.add MmapRegion.Has pid r f).Fair MmapRegion.Has)
    (hcounted : ∀ {q c}, (s.holding.add MmapRegion.Has pid r f).holds q c → c.shared = true ∧
      ∃ ref < t.shared.next, c.sharedRef = some ref ∧
        t.shared.refCount ref = ((s.holding.add MmapRegion.Has pid r f).holders c).ncard)
    (hsame : ∀ {q c}, s.holding.holds q c → c.sharedRef = r.sharedRef → c = r) :
    Keeps live A0 l0 s (s.remap pid m' t) := by
  have hs := h.sharing
  have hhold := gain_holding hpid hm hx hr
  have hlasts : s.Lasts (s.remap pid m' t) := by
    refine ⟨hlog, fun page hp => .inl ?_⟩
    rw [sharedPages, hhold]
    exact Holding.add_pages hp
  refine ⟨.of_lasts ⟨hs.valid_remap hv, by rwa [hhold], ?_, ?_, ?_⟩ hlasts h.log
    ((remap_owned hpid).2 howns), hlasts⟩
  · intro q c n pte hq hn hpte
    rw [hhold] at hq
    rcases (remap_maps hpid).1 hpte with ⟨rfl, hn', hl⟩ | ⟨hne, hpte⟩
    · by_cases hx' : r.Has n
      · rw [hx.inside hx'] at hl
        cases hl
        exact hcow
      · rw [hx.outside hx'] at hl
        rcases hq with hq | ⟨-, rfl⟩
        · exact hs.plain hq hn ⟨hpid, hn', hl⟩
        · exact absurd hn hx'
    · rcases hq with hq | ⟨he, -⟩
      · exact hs.plain hq hn hpte
      · exact absurd he hne
  · rwa [hhold]
  · intro q q' c1 c2 h1 h2 he
    rw [hhold] at h1 h2
    rcases h1 with h1 | ⟨-, rfl⟩
    · rcases h2 with h2 | ⟨-, rfl⟩
      · exact hs.same h1 h2 he
      · exact hsame h1 he
    · rcases h2 with h2 | ⟨-, rfl⟩
      · exact (hsame h2 he.symm).symm
      · rfl

/-- The process maps nothing at the pages of the region, and has no other region there. -/
theorem gain_free (hap : ∀ c ∈ m.regions, c.Apart r.vaStart r.vaEnd) :
    (∀ n page, r.Has n → ¬ s.holding.maps pid n page) ∧
      ∀ n, r.Has n → s.holding.Outside MmapRegion.Has pid n := by
  refine ⟨fun n page hn ⟨pte, hpte, _⟩ => ?_, fun n hn c hc hn' => ?_⟩
  · have hl := hpte.2.2
    rw [hx.free hn] at hl
    cases hl
  · obtain ⟨-, h1, h2⟩ := hn
    obtain ⟨-, h3, h4⟩ := hn'
    rcases hap c ((holds_iff hpid hm).1 hc) with hle | hle <;> omega

end

/-- A process gets a region of fresh pages, with a new `MmapSharedRef`. -/
theorem Shared.add {prot : Access} (h : s.Shared live A0 l0) (hsh : r.shared = true)
    (href : r.sharedRef = some s.shared.next) (hok : r.Ok)
    (hap : ∀ c ∈ m.regions, c.Apart r.vaStart r.vaEnd)
    (hshared : t.shared = ⟨update s.shared.refCount s.shared.next 1, s.shared.next + 1⟩)
    (hmapped : Mapped live A0 s.sharedPages l0 (protToPte prot) (s.proc pid).pmt
      (s.others PMT.refs pid) (s.others PMT.tables pid) (pageAt r.vaStart)
      (pageCount r.vaStart r.vaEnd) (t.ph, t.pmt)) (hlog : ∃ l, t.ph.log = l ++ s.ph.log) :
    Keeps live A0 l0 s (s.remap pid { m with regions := Mmap.insertRegion r m.regions } t) := by
  have hs := h.sharing
  have hv := hs.valid_mmap hpid hm
  have hx : Extended r t.pmt.translate (protToPte prot) (s.proc pid).pmt t.pmt :=
    hok.extended hmapped.filled fun i hi pte hpte => by
      rw [PMT.translate, show t.pmt.lookup _ = some pte from hpte]
  have halone : ∀ {n}, r.Has n → t.pmt.Alone (s.others PMT.refs pid) n (t.pmt.translate n) := by
    intro n hn
    have hl := hx.inside hn
    obtain ⟨i, hi, rfl⟩ := hok.exists_pageAt hn
    exact hmapped.alone i hi _ hl
  obtain ⟨hfree, hout⟩ := gain_free hpid hm hx hap
  -- The `MmapSharedRef` is none of those before.
  have hne : ∀ {q c}, s.holding.holds q c → c.sharedRef ≠ r.sharedRef := by
    intro q c hq he
    obtain ⟨-, ref, hlt, href', -⟩ := hs.counted hq
    rw [href', href] at he
    exact hlt.ne (Option.some.inj he)
  have hnew : ∀ q, ¬ s.holding.holds q r := fun q hq => hne hq rfl
  obtain ⟨A, hown⟩ := hmapped.owned
  refine h.gain hpid hm hx ⟨hv.laid.insertRegion hok hap, hv.nextHint_le⟩
    (fun c => Mmap.insertRegion_mem) rfl hown.owns hlog (hs.fair.add hfree hout hnew ?_ ?_) ?_
    fun hq he => absurd he (hne hq)
  · rintro n q n' hn ⟨pte, hpte, hp⟩
    by_cases hq : q = pid
    · subst hq
      have hn' : ¬ r.Has n' := fun hn' => hfree n' pte.page hn' ⟨pte, hpte, rfl⟩
      have hne : n' ≠ n := fun he => hn' (he ▸ hn)
      exact (halone hn).2 n' pte hne hpte.2.1 ((hx.outside hn').trans hpte.2.2) hp
    · exact (halone hn).1 (hp ▸ mem_others hpte hq)
  · intro n n' hn hn' hp
    by_contra hne
    exact (halone hn).2 n' _ hne hn'.1 (hx.inside hn') hp
  intro q c hq
  rw [hshared]
  dsimp only
  rcases hq with hq | ⟨rfl, rfl⟩
  · obtain ⟨hsh', ref, hlt, href', hcount⟩ := hs.counted hq
    have hcr : c ≠ r := fun he => hnew q (he ▸ hq)
    refine ⟨hsh', ref, Nat.lt_succ_of_lt hlt, href', ?_⟩
    rw [update_of_ne hlt.ne, Holding.add_holders_of_ne hcr, hcount]
  · have hempty : s.holding.holders c = ∅ := eq_empty_of_forall_notMem hnew
    refine ⟨hsh, s.shared.next, Nat.lt_succ_self _, href, ?_⟩
    rw [update_self, Holding.add_holders_self, hempty, insert_empty_eq, ncard_singleton]

/-- A process gets a region of another one, with its pages. -/
theorem Shared.share (h : s.Shared live A0 l0) (hchild : child ∈ s.pids)
    (hmc : (s.proc child).mmap = some m') (hr : r ∈ m.regions)
    (hlaid : Mmap.Laid (m'.regions ++ [r]))
    (hfree : ∀ n, r.Has n → (s.proc child).pmt.lookup n = none) (href : r.sharedRef = some ref)
    (hshared : t.shared = { s.shared with
      refCount := update s.shared.refCount ref (s.shared.refCount ref + 1) })
    (hcloned : Cloned live A0 s.sharedPages l0 (s.proc pid).pmt (protToPte r.prot)
      (s.proc child).pmt (s.others PMT.refs child) (s.others PMT.tables child) (pageAt r.vaStart)
      (pageCount r.vaStart r.vaEnd) (t.ph, t.pmt)) (hlog : ∃ l, t.ph.log = l ++ s.ph.log) :
    Keeps live A0 l0 s (s.remap child ⟨m'.regions ++ [r], m'.nextHint⟩ t) := by
  have hs := h.sharing
  have hv := hs.valid_mmap hchild hmc
  have hok := hlaid.ok r (by simp)
  have hab : s.holding.holds pid r := (holds_iff hpid hm).2 hr
  have hx : Extended r (s.proc pid).pmt.translate (protToPte r.prot) (s.proc child).pmt t.pmt :=
    hok.extended hcloned.filled hcloned.same
  obtain ⟨hfree, hout⟩ := gain_free hchild hmc hx fun c hc => .inr
    ((pairwise_append.1 hlaid.apart).2.2 c hc r (mem_singleton_self r))
  refine h.gain hchild hmc hx ⟨hlaid, hv.nextHint_le⟩ (fun c => ?_) rfl hcloned.owns hlog
    (hs.fair.share hfree hout hab fun n hn => ?_) ?_ fun hq he => hs.same hq hab he
  · simp [or_comm]
  · obtain ⟨page, pte, hpte, rfl⟩ := hs.fair.mapped hab hn
    exact ⟨pte, hpte, by rw [PMT.translate, hpte.2.2]⟩
  intro q c hq
  rw [hshared]
  dsimp only
  by_cases hcr : c = r
  · subst hcr
    obtain ⟨hsh, ref', hlt, href', hcount⟩ := hs.counted hab
    rw [href] at href'
    cases href'
    have hmem : child ∉ s.holding.holders c := fun hc =>
      hlaid.notMem (by simpa using (holds_iff hchild hmc).1 hc)
    refine ⟨hsh, ref, hlt, href, ?_⟩
    rw [update_self, Holding.add_holders_self,
      ncard_insert_of_notMem hmem (s.holders_finite c), hcount]
  · have hq' : s.holding.holds q c := hq.resolve_right fun e => hcr e.2
    obtain ⟨hsh, ref', hlt, href', hcount⟩ := hs.counted hq'
    refine ⟨hsh, ref', hlt, href', ?_⟩
    rw [update_of_ne, Holding.add_holders_of_ne hcr, hcount]
    rintro rfl
    exact hcr (hs.same hq' hab (href'.trans href.symm))

end Gain

/-! ## Pages outside of the regions -/

/-- Pages outside of the regions change, and no region. -/
theorem Shared.outside {l1 : List (Transfer ℕ)} (h : s.Shared live A0 l0)
    (hvalid : ∀ q ∈ s'.pids, ∃ m, (s'.proc q).mmap = some m ∧ m.Valid)
    (hholds : s'.holding.holds = s.holding.holds) (hshared : s'.shared = s.shared)
    (hkeep : ∀ {q r n pte}, s.holding.holds q r → r.Has n → s.Maps q n pte → s'.Maps q n pte)
    (hnew : ∀ {q n pte}, s'.Maps q n pte → s.holding.maps q n pte.page ∨
      (s.holding.Outside MmapRegion.Has q n ∧ pte.page ∉ s.sharedPages))
    (howned : s'.Owned live A0 s.sharedPages l1 False) :
    s'.Shared live A0 l1 ∧ s.sharedPages ⊆ s'.sharedPages := by
  have hs := h.sharing
  have hpages : s.sharedPages ⊆ s'.sharedPages := by
    rintro page ⟨q, r, n, hq, hn, pte, hpte, rfl⟩
    exact ⟨q, r, n, by rwa [hholds], hn, pte, hkeep hq hn hpte, rfl⟩
  refine ⟨⟨⟨hvalid, hs.fair.outside hholds ?_ ?_, ?_, ?_, ?_⟩,
    howned.reshare fun page hp => .inl (hpages hp)⟩, hpages⟩
  · rintro q r n page hq hn ⟨pte, hpte, rfl⟩
    exact ⟨pte, hkeep hq hn hpte, rfl⟩
  · rintro q n page ⟨pte, hpte, rfl⟩
    exact hnew hpte
  · intro q r n pte hq hn hpte
    rw [hholds] at hq
    obtain ⟨page, pte', hpte', -⟩ := hs.fair.mapped hq hn
    -- The entry is the one before.
    have he := (hkeep hq hn hpte').2.2
    rw [hpte.2.2] at he
    cases he
    exact hs.plain hq hn hpte'
  · intro q r hq
    rw [hholds] at hq
    rw [hshared, Holding.holders, hholds]
    exact hs.counted hq
  · rw [hholds]
    exact hs.same

end Sys

end HobbyOS
