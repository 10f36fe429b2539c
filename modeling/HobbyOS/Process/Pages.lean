import HobbyOS.Process
import HobbyOS.Vm.Fork

/-!
# The pages of processes

What the events do to the page tables of the processes, and that the pages these
refer to are owned (`HobbyOS.Vm.Owned`), as long as no process has regions. For every
event there is a lemma telling its possible outcomes:

* the entries of the tables after it, and the contents of the pages;
* that the pages are owned, and that nothing is lost unless the allocator refused;
* that it failed because the allocator refused, if it did.
-/

namespace HobbyOS

open Finset Function Multiset

variable {va : ℕ}

theorem vpn_user (h : va < userTop) : (vpn va).User := by
  rw [userTop] at h
  refine ⟨?_, ?_, ?_⟩
  · unfold userThreshold vpn
    dsimp only
    omega
  · unfold pmtSize vpn
    dsimp only
    omega
  · unfold pmtSize vpn
    dsimp only
    omega

theorem vpn_addr (h : va < 2 ^ 39) (hal : va % pageSize = 0) : (vpn va).addr = va := by
  simp only [pageSize] at hal
  simp only [vpn, Vpn.addr]
  omega

/-- No page is mapped which can neither be read nor executed. -/
def Event.Lasting : Event → Prop
  | .map _ _ prot _ => prot.r ∨ prot.x
  | _ => True

namespace Sys

variable {σ : Type*} {P : Pool σ ℕ} {live : σ → Set ℕ → Prop} {A0 S A D : Set ℕ}
  {l0 : List (Transfer ℕ)} {e : Prop} {s s' : Sys σ} {pid child va page q : ℕ} {o : Out} {n : Vpn}
  {pte pte' : Pte} {p : Process} {ph : Phys σ} {skip : ℕ → Bool}

/-! ## References -/

section Total

variable (f : PMT → Multiset ℕ) {p : Process} {ph : Phys σ}

/-- What the tables of all processes hold. -/
def total (s : Sys σ) : Multiset ℕ := ∑ pid ∈ s.pids, f (s.proc pid).pmt

/-- What the tables of the other processes hold. -/
def others (s : Sys σ) (pid : ℕ) : Multiset ℕ := ∑ q ∈ s.pids.erase pid, f (s.proc q).pmt

theorem total_eq (h : pid ∈ s.pids) : s.total f = f (s.proc pid).pmt + s.others f pid :=
  (add_sum_erase _ _ h).symm

theorem others_set : (s.set pid p ph).others f pid = s.others f pid :=
  sum_congr rfl fun q hq => by rw [set_proc_of_ne (ne_of_mem_erase hq)]

theorem total_set (h : pid ∈ s.pids) : (s.set pid p ph).total f = f p.pmt + s.others f pid := by
  rw [total_eq f (s := s.set pid p ph) h, others_set, set_proc_self]

theorem total_add (h : pid ∉ s.pids) : (s.add pid p ph).total f = f p.pmt + s.total f := by
  rw [total_eq f (s := s.add pid p ph) (mem_insert_self _ _), add_proc_self, others, add_pids,
    erase_insert h, total]
  congr 1
  refine sum_congr rfl fun q hq => ?_
  rw [add_proc_of_ne (ne_of_mem_of_not_mem hq h)]

end Total

/-- The pages mapped by all processes, each as often as it is mapped. -/
def refs (s : Sys σ) : Multiset ℕ := s.total PMT.refs

/-- The pages occupied by the tables of all processes. -/
def tables (s : Sys σ) : Multiset ℕ := s.total PMT.tables

/-- The pages of the processes are owned. -/
def Owned (live : σ → Set ℕ → Prop) (A0 S : Set ℕ) (l0 : List (Transfer ℕ)) (e : Prop) (s : Sys σ) :
    Prop := Owns live A0 S l0 e s.ph s.refs s.tables

/-- A page mapped by a process is mapped. -/
theorem mem_refs (h : pid ∈ s.pids) (hn : n.User) (hpte : (s.proc pid).pmt.lookup n = some pte) :
    pte.page ∈ s.refs := by
  rw [refs, total_eq _ h]
  exact Multiset.mem_add.2 (.inl (PMT.mem_refs hpte hn))

theorem owned_set (h : pid ∈ s.pids) : (s.set pid p ph).Owned live A0 S l0 e ↔
      Owns live A0 S l0 e ph (p.pmt.refs + s.others PMT.refs pid)
        (p.pmt.tables + s.others PMT.tables pid) := by
  rw [Owned, refs, tables, total_set _ h, total_set _ h]
  rfl

theorem owned_iff (h : pid ∈ s.pids) : s.Owned live A0 S l0 e ↔
    Owns live A0 S l0 e s.ph ((s.proc pid).pmt.refs + s.others PMT.refs pid)
      ((s.proc pid).pmt.tables + s.others PMT.tables pid) := by
  rw [Owned, refs, tables, total_eq _ h, total_eq _ h]

/-! ## Entries -/

/-- The process `pid` maps the page `n` by the entry `pte`. -/
def Maps (s : Sys σ) (pid : ℕ) (n : Vpn) (pte : Pte) : Prop :=
  pid ∈ s.pids ∧ n.User ∧ (s.proc pid).pmt.lookup n = some pte

/-- A process added without pages maps none. -/
theorem Maps.of_add {segTable : SegmentTable} {mmap : Option Mmap}
    (h : (s.add pid ⟨.new page, segTable, mmap⟩ ph).Maps q n pte) : s.Maps q n pte := by
  obtain ⟨hq, hn, hl⟩ := h
  have hqp : q ≠ pid := by
    rintro rfl
    rw [add_proc_self] at hl
    cases hl
  rw [add_proc_of_ne hqp] at hl
  exact ⟨mem_of_mem_insert_of_ne hq hqp, hn, hl⟩

/-- A page which is mapped at two places is not writable. -/
def Exclusive (s : Sys σ) : Prop :=
  ∀ ⦃pid n pte pid' n' pte'⦄, s.Maps pid n pte → s.Maps pid' n' pte' → (pid, n) ≠ (pid', n') →
    pte.page = pte'.page → pte.flags.w = false

/-- The entry of `pid` for the page `n` changes to `pte`, and the contents of its page, which
    is not mapped anywhere else. -/
structure Changed (s s' : Sys σ) (pid : ℕ) (n : Vpn) (pte : Pte) : Prop where
  pids : s'.pids = s.pids
  lookup : ∀ q n', (s'.proc q).pmt.lookup n' =
    if q = pid ∧ n' = n then some pte else (s.proc q).pmt.lookup n'
  alone : ∀ q n' pte', s.Maps q n' pte' → (q, n') ≠ (pid, n) → pte'.page ≠ pte.page
  mem : ∀ page, page ≠ pte.page → s'.ph.mem page = s.ph.mem page

theorem Changed.maps {n' : Vpn} (h : Changed s s' pid n pte) (hm : s'.Maps q n' pte') :
    (q = pid ∧ n' = n ∧ pte' = pte) ∨ ((q, n') ≠ (pid, n) ∧ s.Maps q n' pte') := by
  obtain ⟨hq, hn', hl⟩ := hm
  rw [h.pids] at hq
  rw [h.lookup] at hl
  split_ifs at hl with hc
  · exact .inl ⟨hc.1, hc.2, (Option.some.inj hl).symm⟩
  · exact .inr ⟨fun e => hc (Prod.mk.inj e), hq, hn', hl⟩

theorem Exclusive.changed (hx : s.Exclusive) (h : Changed s s' pid n pte) : s'.Exclusive := by
  intro q1 n1 pte1 q2 n2 pte2 h1 h2 hne hp
  rcases h.maps h1 with ⟨rfl, rfl, rfl⟩ | ⟨hne1, h1⟩
  · rcases h.maps h2 with ⟨rfl, rfl, rfl⟩ | ⟨hne2, h2⟩
    · exact absurd rfl hne
    · exact absurd hp.symm (h.alone _ _ _ h2 hne2)
  · rcases h.maps h2 with ⟨rfl, rfl, rfl⟩ | ⟨-, h2⟩
    · exact absurd hp (h.alone _ _ _ h1 hne1)
    · exact hx h1 h2 hne hp

/-- Fewer entries, and fewer of them writable. -/
theorem Exclusive.mono (hx : s.Exclusive) (h : ∀ q n pte', s'.Maps q n pte' →
    ∃ pte, s.Maps q n pte ∧ pte.page = pte'.page ∧ (pte'.flags.w → pte.flags.w)) :
    s'.Exclusive := by
  intro q1 n1 pte1 q2 n2 pte2 h1 h2 hne hp
  obtain ⟨old1, ho1, hp1, hw1⟩ := h _ _ _ h1
  obtain ⟨old2, ho2, hp2, -⟩ := h _ _ _ h2
  have hw := hx ho1 ho2 hne (hp1.trans (hp.trans hp2.symm))
  by_contra hc
  rw [hw1 (by simpa using hc)] at hw
  cases hw

/-- The pages of `pid` are marked, but for those to skip, and mapped by `child` in the same
    way. -/
structure Copied (s s' : Sys σ) (pid child : ℕ) (skip : ℕ → Bool) : Prop where
  pids : s'.pids = insert child s.pids
  proc : ∀ q ∈ s.pids, q ≠ pid → s'.proc q = s.proc q
  inSrc : ∀ n : Vpn, n.User →
    (s'.proc pid).pmt.lookup n = inParent skip n ((s.proc pid).pmt.lookup n)
  inDst : ∀ n : Vpn, n.User →
    (s'.proc child).pmt.lookup n = inChild skip n ((s.proc pid).pmt.lookup n)
  mem : s'.ph.mem = s.ph.mem

/-- Where an entry comes from: the child has marked ones of its parent, the others are as they
    were, or marked. -/
theorem Copied.maps (h : Copied s s' pid child skip) (hpid : pid ∈ s.pids) (hm : s'.Maps q n pte') :
    (q = child ∧ skip n.addr = false ∧ pte'.flags.w = false ∧
      ∃ pte, s.Maps pid n pte ∧ pte.page = pte'.page) ∨
    (q ∈ s.pids ∧ ∃ pte, s.Maps q n pte ∧ pte.page = pte'.page ∧
      (pte'.flags.w → pte.flags.w ∧ (q = pid → skip n.addr = true))) := by
  obtain ⟨hq, hn, hl⟩ := hm
  by_cases hqc : q = child
  · subst hqc
    rw [h.inDst n hn, inChild] at hl
    obtain ⟨pte, hpte, hl⟩ := Option.bind_eq_some_iff.1 hl
    split_ifs at hl with hs
    cases hl
    exact .inl ⟨rfl, by simpa using hs, cowPte_w, pte, ⟨hpid, hn, hpte⟩, rfl⟩
  rw [h.pids] at hq
  have hq' := mem_of_mem_insert_of_ne hq hqc
  refine .inr ⟨hq', ?_⟩
  by_cases hqp : q = pid
  · subst hqp
    rw [h.inSrc n hn, inParent] at hl
    obtain ⟨pte, hpte, rfl⟩ := Option.map_eq_some_iff.1 hl
    refine ⟨pte, ⟨hq', hn, hpte⟩, ?_⟩
    split_ifs with hs
    · exact ⟨rfl, fun hw => ⟨hw, fun _ => hs⟩⟩
    · exact ⟨rfl, fun hw => by simp at hw⟩
  · rw [h.proc q hq' hqp] at hl
    exact ⟨pte', ⟨hq', hn, hl⟩, rfl, fun hw => ⟨hw, fun e => absurd e hqp⟩⟩

theorem Exclusive.copied (hx : s.Exclusive) (h : Copied s s' pid child skip)
    (hpid : pid ∈ s.pids) : s'.Exclusive := by
  intro q1 n1 pte1 q2 n2 pte2 h1 h2 hne hp
  rcases h.maps hpid h1 with ⟨-, -, hw, -⟩ | ⟨hq1, old1, ho1, hp1, hw1⟩
  · exact hw
  by_contra hw
  obtain ⟨hw, hskip⟩ := hw1 (by simpa using hw)
  have hcontra : ∀ q n old, s.Maps q n old → old.page = pte2.page → (q1, n1) ≠ (q, n) → False := by
    intro q n old ho hpo hne'
    rw [hx ho1 ho hne' (hp1.trans (hp.trans hpo.symm))] at hw
    cases hw
  rcases h.maps hpid h2 with ⟨-, hskip2, -, old2, ho2, hp2⟩ | ⟨hq2, old2, ho2, hp2, -⟩
  · refine hcontra _ _ _ ho2 hp2 ?_
    rintro ⟨⟩
    rw [hskip rfl] at hskip2
    cases hskip2
  · exact hcontra _ _ _ ho2 hp2 hne

/-- A page referred to from nowhere else is not mapped anywhere else. -/
theorem alone_of_notMem (hpte : (s.proc pid).pmt.lookup n = some pte)
    (h : page ∉ ((s.proc pid).pmt.setSlot n .zero).refs + s.others PMT.refs pid) :
    ∀ q n' pte', s.Maps q n' pte' → (q, n') ≠ (pid, n) → pte'.page ≠ page := by
  rintro q n' pte' ⟨hq, hn', hl⟩ hne rfl
  refine h (Multiset.mem_add.2 ?_)
  by_cases hqp : q = pid
  · subst hqp
    refine .inl (PMT.mem_refs (n := n') ?_ hn')
    rwa [PMT.lookup_setSlot_zero (PMT.lookup_eq_some.1 hpte).1, if_neg (by rintro rfl; exact hne rfl)]
  · exact .inr (mem_sum.2 ⟨q, mem_erase.2 ⟨hqp, hq⟩, PMT.mem_refs hl hn'⟩)

/-! ## Events -/

theorem Owned.rebase (h : s.Owned live A0 S l0 e) :
    ∃ A, HobbyOS.Owned live A0 S s.ph.log e s.ph A ∅ s.refs s.tables := by
  obtain ⟨A, D, h⟩ := h
  exact ⟨A, h.rebase⟩

section Events

variable (hP : P.Lawful live) (h : s.Owned live A0 S l0 e)

include hP h

/-- A process without pages is added, or the allocator refused. -/
theorem create_spec (hpid : pid ∉ s.pids) (hc : s.create P pid = (s', o)) :
    s'.Owned live A0 S s.ph.log e ∧ s'.ph.mem = s.ph.mem ∧
      ((.refused ∈ s'.ph.log ∧ s'.pids = s.pids ∧ s'.proc = s.proc) ∨
        (o = .done ∧ ∃ page ph, s' = s.add pid ⟨.new page,
          SegmentTable.empty.setHeap .readWrite heapStart heapStart, some .new⟩ ph)) := by
  obtain ⟨A, h⟩ := h.rebase
  have hsame := samePages_kallocPage (P := P) s.ph
  rw [create, VM.createPMT] at hc
  rcases hp : kallocPage P s.ph with ⟨_ | page, ph⟩
  all_goals
    rw [hp] at hsame hc
    cases hc
  · exact ⟨(h.takeNone hP hp).owns, hsame.1, .inl ⟨HobbyOS.Owned.refused_mem hp, rfl, rfl⟩⟩
  · refine ⟨?_, hsame.1, .inr ⟨rfl, page, ph, rfl⟩⟩
    rw [Owned, refs, tables, total_add _ hpid, total_add _ hpid]
    rw [PMT.refs_new, PMT.tables_new, zero_add, Multiset.singleton_add]
    exact (h.takeTable hP hp).owns

variable (hpid : pid ∈ s.pids)

include hpid

/-- A fresh page is mapped where none was, or the allocator refused. -/
theorem map_spec (prot : Access) (data : ℕ → UInt8) (hva : va < userTop) :
    (s.map P pid va prot data = none ∧ ((s.proc pid).pmt.lookup (vpn va)).isSome) ∨
    ∃ s' o, s.map P pid va prot data = some (s', o) ∧
      ∃ p ph, (s' = s.set pid p ph ∧ p.mmap = (s.proc pid).mmap ∧
        p.segTable = (s.proc pid).segTable) ∧
        ((o = .failed ∧ .refused ∈ s'.ph.log ∧ s'.Owned live A0 S s.ph.log False ∧
            ∀ n', p.pmt.lookup n' = (s.proc pid).pmt.lookup n') ∨
          (o = .done ∧ (s.proc pid).pmt.lookup (vpn va) = none ∧ s'.Owned live A0 S s.ph.log e ∧
            ∃ page, Changed s s' pid (vpn va) ⟨page, protToPte prot⟩ ∧ s'.ph.mem page = data)) := by
  obtain ⟨A, h⟩ := h.rebase
  rw [map]
  have hsame := samePages_kallocPage (P := P) s.ph
  rcases hp : kallocPage P s.ph with ⟨_ | page, ph⟩
  all_goals rw [hp] at hsame
  · refine .inr ⟨_, _, rfl, s.proc pid, ph, ⟨?_, rfl, rfl⟩,
      .inl ⟨rfl, HobbyOS.Owned.refused_mem hp, ?_, fun _ => rfl⟩⟩
    · rw [set, update_eq_self]
    · exact ((h.takeNone hP hp).weaken le_rfl le_rfl).owns
  dsimp only
  cases hnone : (s.proc pid).pmt.lookup (vpn va) with
  | some pte =>
    rw [mapPage_of_lookup hnone]
    exact .inl ⟨rfl, rfl⟩
  | none =>
    right
    obtain ⟨hpA, hown⟩ := h.takeData hP hp
    have hfresh : page ∉ s.refs := fun hm => hpA (h.data page hm)
    rw [refs, tables, total_eq _ hpid, total_eq _ hpid] at hown
    have hmap := mapPage_spec (protToPte prot)
      (hown.setMem (update ph.mem page data)) hP (vpn_user hva) rfl hnone
    generalize PMT.mapPage _ _ _ _ _ = r at hmap
    cases r with
    | panic => exact hmap.elim
    | fail t =>
      obtain ⟨⟨A', hA'⟩, hlook, hsame', hrefused⟩ := hmap
      refine ⟨_, _, rfl, _, _, ⟨rfl, rfl, rfl⟩, .inl ⟨rfl, hrefused, ?_, hlook⟩⟩
      rw [owned_set hpid]
      exact (hA'.weaken (le_cons_self _ _) le_rfl).owns
    | ok t =>
      obtain ⟨⟨A', hA'⟩, hlook, hsame', -⟩ := hmap
      refine ⟨_, _, rfl, _, _, ⟨rfl, rfl, rfl⟩, .inr ⟨rfl, rfl, ?_, page, ⟨rfl, fun q n' => ?_, ?_, ?_⟩, ?_⟩⟩
      · rw [owned_set hpid]
        exact hA'.owns
      · by_cases hq : q = pid
        · subst hq
          simp [hlook]
        · simp [hq, set_proc_of_ne hq]
      · rintro q n' pte' ⟨hq, hn', hl⟩ - rfl
        exact hfresh (mem_refs hq hn' hl)
      · intro page' hne
        rw [set_ph, hsame']
        dsimp only
        rw [update_of_ne hne, hsame.1]
      · rw [set_ph, hsame']
        exact update_self ..

variable {byte : UInt8} {hint : ℕ}

omit hP in
/-- A store the hardware allows, to a page which is mapped once if it is writable. -/
theorem write_spec (hva : va < userTop) (hw : s.write pid va byte = some s') :
    ∃ pte mem, (s.proc pid).pmt.lookup (vpn va) = some pte ∧
      pte.flags.writable ∧ s' = { s with ph := { s.ph with mem := mem } } ∧ s'.Owned live A0 S l0 e ∧
      mem pte.page = update (s.ph.mem pte.page) (va % pageSize) byte ∧
      (s.Exclusive → Changed s s' pid (vpn va) pte) := by
  rw [write] at hw
  split at hw
  next pte hpte =>
    split_ifs at hw with hwr
    cases hw
    obtain ⟨A, D, h⟩ := h
    refine ⟨pte, _, hpte, hwr, rfl, (h.setMem _).owns, update_self .., fun hx => ?_⟩
    refine ⟨rfl, fun q n' => ?_, fun q n' pte' hm hne hp => ?_, fun page hne => ?_⟩
    · split_ifs with hc
      · rw [hc.1, hc.2, hpte]
      · rfl
    · have hwf := hx ⟨hpid, vpn_user hva, hpte⟩ hm (Ne.symm hne) hp.symm
      simp [Flags.writable, hwf] at hwr
    · exact update_of_ne hne ..
  · cases hw

/-- A fault at a marked page gives the process a page of its own, with the same contents,
    or the allocator refused. -/
theorem fault_spec {pte : Pte} (h0 : ∀ s A, live s A → 0 ∉ A) (hva : va < userTop)
    (hpte : (s.proc pid).pmt.lookup (vpn va) = some pte) (hcow : pte.flags.cow)
    (hS : pte.page ∉ S) :
    let next (t : Phys σ × PMT) := s.set pid { s.proc pid with pmt := t.2 } t.1
    (VM.handleCowFault P (vpn va) (s.ph, (s.proc pid).pmt)).Holds
      (fun t => (next t).Owned live A0 S s.ph.log e ∧ ∃ page,
        Changed s (next t) pid (vpn va) ⟨page, ownFlags pte.flags⟩ ∧
          t.1.mem page = s.ph.mem pte.page)
      (fun t => t.2 = (s.proc pid).pmt ∧ t.1.mem = s.ph.mem ∧ .refused ∈ t.1.log ∧
        (next t).Owned live A0 S s.ph.log e) False := by
  intro next
  obtain ⟨A, h⟩ := h.rebase
  rw [refs, tables, total_eq _ hpid, total_eq _ hpid] at h
  refine (handleCowFault_spec h hP h0 (vpn_user hva) hpte hcow hS).imp (fun t ht => ?_)
    fun t ht => ?_
  · obtain ⟨page, ht⟩ := ht
    refine ⟨(owned_set hpid).2 ht.owns, page, ⟨rfl, fun q n' => ?_, ?_, fun page' hne => ?_⟩, ?_⟩
    · by_cases hq : q = pid
      · subst hq
        simp [next, ht.lookup]
      · simp [next, hq, set_proc_of_ne hq]
    · exact alone_of_notMem hpte ht.alone
    · change t.1.mem page' = _
      rw [ht.mem, update_of_ne hne]
    · rw [ht.mem, update_self]
  · obtain ⟨h1, h2, h3, h4⟩ := ht
    refine ⟨h1, h2, h3, (owned_set hpid).2 ?_⟩
    rwa [h1]

/-- What a store does: the hardware allows it, or there is a fault. The process is killed if the page
    is not marked, and gets a page of its own if it is, unless the allocator refused. -/
theorem store_cases (byte : UInt8) (h0 : ∀ s A, live s A → 0 ∉ A) (hva : va < userTop)
    (hS : ∀ pte, (s.proc pid).pmt.lookup (vpn va) = some pte → pte.flags.cow → pte.page ∉ S) :
    (∃ s', s.write pid va byte = some s' ∧ s.store P pid va byte = some (s', .done)) ∨
    (s.write pid va byte = none ∧ ((s.proc pid).pmt.getFlags (vpn va)).cow = false ∧
      s.store P pid va byte = some (s, .fault)) ∨
    (∃ ph, s.store P pid va byte = some (s.set pid (s.proc pid) ph, .fault) ∧ .refused ∈ ph.log ∧
      (s.set pid (s.proc pid) ph).Owned live A0 S s.ph.log e) ∨
    ∃ pte pmt ph page s1, (s.proc pid).pmt.lookup (vpn va) = some pte ∧ pte.flags.cow ∧
      s1 = s.set pid { s.proc pid with pmt := pmt } ph ∧ s1.Owned live A0 S s.ph.log e ∧
      Changed s s1 pid (vpn va) ⟨page, ownFlags pte.flags⟩ ∧ s1.ph.mem page = s.ph.mem pte.page ∧
      (s1.write pid va byte = none ∧ s.store P pid va byte = some (s1, .fault) ∨
        ∃ s2, s1.write pid va byte = some s2 ∧ s.store P pid va byte = some (s2, .done)) := by
  rw [store]
  cases hw : s.write pid va byte with
  | some s1 => exact .inl ⟨s1, rfl, rfl⟩
  | none =>
    refine .inr ?_
    dsimp only
    cases hcow : ((s.proc pid).pmt.getFlags (vpn va)).cow with
    | false =>
      rw [handleCowFault_of_not_cow hcow]
      exact .inl ⟨rfl, rfl, congrArg (fun s => some (s, Out.fault)) set_self⟩
    | true =>
      refine .inr ?_
      obtain ⟨pte, hpte, hcow⟩ := PMT.exists_of_getFlags_cow hcow
      have hfault := fault_spec hP h hpid h0 hva hpte hcow (hS pte hpte hcow)
      generalize VM.handleCowFault _ _ _ = r at hfault
      cases r with
      | panic => exact hfault.elim
      | fail u =>
        obtain ⟨ph, pmt⟩ := u
        obtain ⟨rfl, -, hr, howned⟩ := hfault
        exact .inl ⟨ph, rfl, hr, howned⟩
      | ok u =>
        obtain ⟨howned, page, hc, hmem⟩ := hfault
        refine .inr ⟨pte, u.2, u.1, page, _, hpte, hcow, rfl, howned, hc, hmem, ?_⟩
        dsimp only
        cases hw' : (s.set pid { s.proc pid with pmt := u.2 } u.1).write pid va byte with
        | none => exact .inl ⟨rfl, rfl⟩
        | some s2 => exact .inr ⟨s2, rfl, rfl⟩

/-- A store changes the page table of the process at most. -/
theorem store_spec (h0 : ∀ s A, live s A → 0 ∉ A) (hva : va < userTop)
    (hS : ∀ pte, (s.proc pid).pmt.lookup (vpn va) = some pte → pte.flags.cow → pte.page ∉ S)
    (hs : s.store P pid va byte = some (s', o)) :
    s'.Owned live A0 S s.ph.log e ∧ ∃ pmt ph, s'.pids = s.pids ∧
      s'.proc = (s.set pid { s.proc pid with pmt := pmt } ph).proc ∧
      ∀ n, MaybeOwn ((s.proc pid).pmt.lookup n) (pmt.lookup n) := by
  obtain ⟨A, hown⟩ := h.rebase
  rcases store_cases hP h hpid byte h0 hva hS with ⟨s1, hw, hs1⟩ | ⟨-, -, hs1⟩ |
    ⟨ph, hs1, -, howned⟩ | ⟨pte, pmt, ph, page, s1, hpte, hcow, rfl, howned, hc, -, hs1⟩
  · obtain rfl := (Prod.mk.inj (Option.some.inj (hs1.symm.trans hs))).1
    obtain ⟨_, _, -, -, rfl, howned, -⟩ := write_spec hown.owns hpid hva hw
    exact ⟨howned, (s.proc pid).pmt, s.ph, rfl, set_proc.symm, fun _ => .inl rfl⟩
  · cases hs1.symm.trans hs
    exact ⟨hown.owns, (s.proc pid).pmt, s.ph, rfl, set_proc.symm, fun _ => .inl rfl⟩
  · cases hs1.symm.trans hs
    exact ⟨howned, (s.proc pid).pmt, ph, rfl, rfl, fun _ => .inl rfl⟩
  have hown : ∀ n, MaybeOwn ((s.proc pid).pmt.lookup n) (pmt.lookup n) := fun n => by
    have := hc.lookup pid n
    rw [set_proc_self] at this
    rw [this]
    split_ifs with hn
    · exact .inr ⟨pte, page, by rw [hn.2, hpte], hcow, rfl⟩
    · exact .inl rfl
  rcases hs1 with ⟨-, hs1⟩ | ⟨s2, hw, hs1⟩
  · cases hs1.symm.trans hs
    exact ⟨howned, pmt, ph, rfl, rfl, hown⟩
  · obtain rfl := (Prod.mk.inj (Option.some.inj (hs1.symm.trans hs))).1
    obtain ⟨_, _, -, -, rfl, howned', -⟩ := write_spec howned hpid hva hw
    exact ⟨howned', pmt, ph, rfl, rfl, hown⟩

/-- The pages of a process are marked, and mapped by a child in the same way; or the allocator
    refused, and some of them are marked. -/
theorem copy_spec (hchild : child ∉ s.pids) {page : ℕ} {ph : Phys σ}
    (hp : kallocPage P s.ph = (some page, ph)) (skip : ℕ → Bool) (c : Process) :
    let parent (t : VM.Copy σ) : Process := { s.proc pid with pmt := t.src }
    let next (t : VM.Copy σ) :=
      (s.set pid (parent t) t.ph).add child { c with pmt := t.dst } t.ph
    (VM.copyPMT P skip ⟨ph, (s.proc pid).pmt, .new page⟩).Holds
      (fun t => (next t).Owned live A0 S s.ph.log e ∧ Copied s (next t) pid child skip)
      (fun t => (s.set pid (parent t) (kfreePage P t.ph page)).Owned live A0 S s.ph.log False ∧
        (∀ n : Vpn, n.User → SomeMarked ((s.proc pid).pmt.lookup n) (t.src.lookup n)) ∧
        t.ph.mem = s.ph.mem ∧ .refused ∈ t.ph.log) False := by
  intro parent next
  obtain ⟨A, h⟩ := h.rebase
  have hsame := samePages_kallocPage (P := P) s.ph
  rw [hp] at hsame
  have hown := h.takeTable hP hp
  rw [refs, tables, total_eq _ hpid, total_eq _ hpid, ← add_cons] at hown
  have hne : pid ≠ child := ne_of_mem_of_not_mem hpid hchild
  refine (copyPMT_spec hP hown skip).imp (fun t ht => ⟨?_, rfl, fun q hq hqp => ?_, fun n hn => ?_,
    fun n hn => ?_, ht.mem.trans hsame.1⟩)
    fun t ht => ⟨(owned_set hpid).2 ?_, ht.failed.marked, ht.failed.mem.trans hsame.1, ht.failed.refused⟩
  · have hchild' : child ∉ (s.set pid (parent t) t.ph).pids := hchild
    rw [Owned, refs, tables, total_add _ hchild', total_add _ hchild', total_set _ hpid,
      total_set _ hpid]
    have hown := ht.owns
    rwa [add_left_comm t.src.refs, add_left_comm t.src.tables] at hown
  · rw [add_proc_of_ne (ne_of_mem_of_not_mem hq hchild), set_proc_of_ne hqp]
  · rw [add_proc_of_ne hne, set_proc_self]
    exact ht.inSrc n hn
  · rw [add_proc_self]
    exact ht.inDst n hn
  · obtain ⟨A', D', hA'⟩ := ht.owns
    rw [add_cons] at hA'
    exact (hA'.giveTable hP).owns

/-- A process without regions forks. -/
theorem fork_spec (hchild : child ∉ s.pids) (hm : (s.proc pid).mmap = some ⟨[], hint⟩) :
    ∃ s' o, s.fork P pid child = some (s', o) ∧
      (s'.proc pid).mmap = (s.proc pid).mmap ∧ (s'.proc pid).segTable = (s.proc pid).segTable ∧
      ((o = .failed ∧ .refused ∈ s'.ph.log ∧ s'.Owned live A0 S s.ph.log False ∧
        s'.pids = s.pids ∧ s'.ph.mem = s.ph.mem ∧
        (∀ q ∈ s.pids, q ≠ pid → s'.proc q = s.proc q) ∧
        ∀ n : Vpn, n.User → SomeMarked ((s.proc pid).pmt.lookup n) ((s'.proc pid).pmt.lookup n)) ∨
      (o = .done ∧ s'.Owned live A0 S s.ph.log e ∧ Copied s s' pid child (fun _ => false) ∧
        (s'.proc child).mmap = (s.proc pid).mmap ∧
        (s'.proc child).segTable = (s.proc pid).segTable)) := by
  have hne : pid ≠ child := ne_of_mem_of_not_mem hpid hchild
  rw [fork, Process.fork, VM.createPMT]
  rcases hp : kallocPage P s.ph with ⟨_ | page, ph⟩
  · obtain ⟨A, h⟩ := h.rebase
    have hsame := samePages_kallocPage (P := P) s.ph
    rw [hp] at hsame
    refine ⟨s.set pid (s.proc pid) ph, .failed, rfl, by rw [set_proc_self], by rw [set_proc_self],
      .inl ⟨rfl, HobbyOS.Owned.refused_mem hp, (owned_set hpid).2 ?_, rfl, hsame.1,
        fun q _ hq => set_proc_of_ne hq, fun n _ => .inl (by rw [set_proc_self])⟩⟩
    rw [← total_eq _ hpid, ← total_eq _ hpid]
    exact ((h.takeNone hP hp).weaken le_rfl le_rfl).owns
  have hskip : (fun va => ((s.proc pid).mmap.bind (·.find va)).isSome) = fun _ => false := by
    funext va
    rw [hm]
    rfl
  have hcopy := copy_spec hP h hpid hchild hp (fun _ => false) (s.proc pid)
  dsimp only at hcopy ⊢
  rw [hskip]
  generalize VM.copyPMT _ _ _ = r at hcopy
  cases r with
  | panic => exact hcopy.elim
  | fail t =>
    obtain ⟨hown, hmarked, hmem, hrefused⟩ := hcopy
    refine ⟨s.set pid { s.proc pid with pmt := t.src } (kfreePage P t.ph page), .failed, rfl,
      by rw [set_proc_self], by rw [set_proc_self], .inl ⟨rfl, List.mem_cons_of_mem _ hrefused,
        hown, rfl, hmem, fun q _ hq => set_proc_of_ne hq, fun n hn => ?_⟩⟩
    rw [set_proc_self]
    exact hmarked n hn
  | ok t =>
    obtain ⟨hown, hcopied⟩ := hcopy
    refine ⟨(s.set pid { s.proc pid with pmt := t.src } t.ph).add child
      { s.proc pid with pmt := t.dst } t.ph, .done, ?_, ?_, ?_, .inr
      ⟨rfl, hown, hcopied, by rw [add_proc_self], by rw [add_proc_self]⟩⟩
    · simp only [hm]
      rfl
    · rw [add_proc_of_ne hne, set_proc_self]
    · rw [add_proc_of_ne hne, set_proc_self]

/-- A process without regions ends: its pages are given up. -/
theorem exit_spec (hS : ∀ p ∈ (s.proc pid).pmt.refs, p ∉ S)
    (hm : (s.proc pid).mmap = some ⟨[], hint⟩) : ∃ ph, ph.mem = s.ph.mem ∧
      s.exit P pid = some ({ s with ph := ph, pids := s.pids.erase pid }, .done) ∧
      ({ s with ph := ph, pids := s.pids.erase pid } : Sys σ).Owned live A0 S s.ph.log e := by
  obtain ⟨A, h⟩ := h.rebase
  rw [refs, tables, total_eq _ hpid, total_eq _ hpid] at h
  refine ⟨VM.destroyPMT P (s.proc pid).pmt s.ph, destroyEntries_mem, ?_, destroyPMT_owned hP hS h⟩
  rw [exit]
  simp only [hm]
  rfl

/-- The pages of a process are given up. -/
theorem clear_spec (hS : ∀ p ∈ (s.proc pid).pmt.refs, p ∉ S) : ∃ ph page,
    s.clear P pid = (s.set pid { s.proc pid with pmt := .new page } ph, .done) ∧ ph.mem = s.ph.mem ∧
      (s.set pid { s.proc pid with pmt := .new page } ph).Owned live A0 S s.ph.log e := by
  obtain ⟨A, h⟩ := h.rebase
  rw [refs, tables, total_eq _ hpid, total_eq _ hpid] at h
  refine ⟨_, _, rfl, destroyEntries_mem, (owned_set hpid).2 ?_⟩
  rw [PMT.refs_new, PMT.tables_new, zero_add, Multiset.singleton_add]
  exact destroyEntries_owned hP hS h

end Events

/-! ## Runs -/

/-- What the events keep while there are no regions: the pages are owned, and nothing is lost
    unless the allocator refused. -/
structure Kept (live : σ → Set ℕ → Prop) (A0 : Set ℕ) (l0 : List (Transfer ℕ)) (s : Sys σ) :
    Prop where
  owned : s.Owned live A0 ∅ l0 (.refused ∉ s.ph.log)
  plain : ∀ pid ∈ s.pids, ∃ hint, (s.proc pid).mmap = some ⟨[], hint⟩

theorem Owned.log (h : s'.Owned live A0 S l0 e) : ∃ l, s'.ph.log = l ++ l0 := by
  obtain ⟨A, D, h⟩ := h
  obtain ⟨l, hl, -⟩ := h.since
  exact ⟨l, hl⟩

theorem Owned.ofRefused (h : s'.Owned live A0 S l0 e) (hr : .refused ∈ s'.ph.log) :
    s'.Owned live A0 S l0 (.refused ∉ s'.ph.log) := by
  obtain ⟨A, D, h⟩ := h
  exact ⟨A, D, h.mono fun hr' => absurd hr hr'⟩

theorem Owned.later (h : s'.Owned live A0 S s.ph.log (.refused ∉ s.ph.log)) :
    s'.Owned live A0 S s.ph.log (.refused ∉ s'.ph.log) := by
  obtain ⟨l, hl⟩ := h.log
  obtain ⟨A, D, h⟩ := h
  refine ⟨A, D, h.mono fun hr hr' => hr ?_⟩
  rw [hl]
  exact List.mem_append_right _ hr'

/-- The processes whose regions do not change have none. -/
theorem Kept.set (h : s.Kept live A0 l0)
    (howned : (s.set pid p ph).Owned live A0 ∅ s.ph.log (.refused ∉ ph.log)) (hpid : pid ∈ s.pids)
    (hm : p.mmap = (s.proc pid).mmap) : (s.set pid p ph).Kept live A0 s.ph.log := by
  refine ⟨howned, fun q hq => ?_⟩
  by_cases hqp : q = pid
  · rw [hqp, set_proc_self, hm]
    exact h.plain pid hpid
  · rw [set_proc_of_ne hqp]
    exact h.plain q hq

theorem Kept.again (h : s.Kept live A0 l0) : s.Kept live A0 s.ph.log := by
  obtain ⟨A, howned⟩ := h.owned.rebase
  exact ⟨howned.owns, h.plain⟩

/-- What may become of an entry: it can still be read or executed, and stays if it is spared, and
    neither writable nor marked. -/
structure Aged (ok spared : Prop) (old new : Option Pte) : Prop where
  lasting : ok → (∀ pte ∈ old, pte.flags.r ∨ pte.flags.x) → ∀ pte ∈ new, pte.flags.r ∨ pte.flags.x
  stays : spared → ∀ pte ∈ old, pte.flags.w = false → pte.flags.cow = false → pte ∈ new

section Aged

variable {ok spared : Prop} {old new : Option Pte}

theorem aged_self : Aged ok spared old old := ⟨fun _ h => h, fun _ _ h _ _ => h⟩

theorem aged_marked : Aged ok spared old (old.map VM.cowPte) := by
  refine ⟨fun _ h pte hpte => ?_, fun _ pte hpte hw _ => ?_⟩
  · obtain ⟨o, ho, rfl⟩ := Option.map_eq_some_iff.1 hpte
    rw [VM.cowPte, VM.cowFlags]
    split_ifs
    · exact h o ho
    · exact h o ho
  · rw [Option.mem_def.1 hpte, Option.map_some, VM.cowPte, VM.cowFlags, hw]
    rfl

theorem aged_own (h : MaybeOwn old new) : Aged ok spared old new := by
  rcases h with rfl | ⟨pte, page, rfl, hcow, rfl⟩
  · exact aged_self
  · refine ⟨fun _ h p hp => ?_, fun _ p hp _ hc => ?_⟩
    · cases hp
      exact h pte rfl
    · cases hp
      rw [hcow] at hc
      cases hc

end Aged

/-- A process after an event, or the child of one. -/
structure Succeeds (ok : Prop) (spared : Vpn → Prop) (p p' : Process) : Prop where
  mmap : p'.mmap = p.mmap
  segTable : p'.segTable = p.segTable
  entries : ∀ n, n.User → Aged ok (spared n) (p.pmt.lookup n) (p'.pmt.lookup n)

theorem Succeeds.refl {ok : Prop} {spared : Vpn → Prop} : Succeeds ok spared p p :=
  ⟨rfl, rfl, fun _ _ => aged_self⟩

/-- The event does not take the page `n` from the process `q`. -/
def Spares (s : Sys σ) (q : ℕ) (n : Vpn) : Event → Prop
  | .exit pid | .clear pid => q ≠ pid
  | .brk pid _ => q = pid → ∀ d, (s.proc pid).segTable.heap = some d → d.stop ≤ n.addr
  | _ => True

variable {ev : Event}

/-- What an event does to the processes: a new one is empty, or a child. -/
structure Follows (live : σ → Set ℕ → Prop) (A0 : Set ℕ) (s : Sys σ) (ev : Event) (s' : Sys σ) :
    Prop where
  owned : s'.Owned live A0 ∅ s.ph.log (.refused ∉ s'.ph.log)
  old : ∀ q ∈ s'.pids, q ∈ s.pids → Succeeds ev.Lasting (s.Spares q · ev) (s.proc q) (s'.proc q)
  new : ∀ q ∈ s'.pids, q ∉ s.pids → (∃ page, s'.proc q = ⟨.new page,
      SegmentTable.empty.setHeap .readWrite heapStart heapStart, some .new⟩) ∨
    ∃ p ∈ s.pids, Succeeds True (fun _ => False) (s.proc p) (s'.proc q)
  gone : ∀ q ∈ s.pids, q ∉ s'.pids → ∀ n, ¬ s.Spares q n ev

theorem Follows.kept (hf : Follows live A0 s ev s') (h : s.Kept live A0 l0) :
    s'.Kept live A0 s.ph.log := by
  refine ⟨hf.owned, fun q hq => ?_⟩
  by_cases hq' : q ∈ s.pids
  · rw [(hf.old q hq hq').mmap]
    exact h.plain q hq'
  · obtain ⟨page, hp⟩ | ⟨p, hp, hs⟩ := hf.new q hq hq'
    · exact ⟨mmapTop, by rw [hp]; rfl⟩
    · rw [hs.mmap]
      exact h.plain p hp

/-- An entry which is spared, and neither writable nor marked, stays. -/
theorem Follows.stays (hf : Follows live A0 s ev s') (hm : s.Maps q n pte) (hsp : s.Spares q n ev)
    (hw : pte.flags.w = false) (hcow : pte.flags.cow = false) : s'.Maps q n pte := by
  have hq : q ∈ s'.pids := by
    by_contra hq
    exact hf.gone q hm.1 hq n hsp
  exact ⟨hq, hm.2.1, ((hf.old q hq hm.1).entries n hm.2.1).stays hsp pte hm.2.2 hw hcow⟩

theorem Follows.of_procs (pid : ℕ) (howned : s'.Owned live A0 ∅ s.ph.log (.refused ∉ s'.ph.log))
    (hproc : ∀ q ∈ s.pids, q ≠ pid → s'.proc q = s.proc q)
    (hp : Succeeds ev.Lasting (s.Spares pid · ev) (s.proc pid) (s'.proc pid))
    (hpids : s'.pids = s.pids) : Follows live A0 s ev s' := by
  refine ⟨howned, fun q _ hq => ?_, fun q hq hq' => absurd (hpids ▸ hq) hq',
    fun q hq hq' => absurd (hpids ▸ hq) hq'⟩
  by_cases hqp : q = pid
  · exact hqp ▸ hp
  · rw [hproc q hq hqp]
    exact .refl

theorem Follows.of_set (howned : s'.Owned live A0 ∅ s.ph.log (.refused ∉ s'.ph.log))
    (hpids : s'.pids = s.pids) (hproc : s'.proc = (s.set pid p ph).proc)
    (hp : Succeeds ev.Lasting (s.Spares pid · ev) (s.proc pid) p) : Follows live A0 s ev s' := by
  refine .of_procs pid howned (fun q _ hq => ?_) ?_ hpids
  · rw [hproc, set_proc_of_ne hq]
  · rwa [hproc, set_proc_self]

theorem Kept.follows (h : s.Kept live A0 l0) : Follows live A0 s ev s :=
  .of_procs 0 h.again.owned (fun _ _ _ => rfl) .refl rfl

section Step

variable (hP : P.Lawful live) (h0 : ∀ s A, live s A → 0 ∉ A) (h : s.Kept live A0 l0)

include hP h0 h

/-- An event of an existing process. -/
theorem stepOf_follows (hpid : pid ∈ s.pids) (he : ev.pid = pid) (hev : ev.Basic)
    (hs : s.stepOf P pid ev = some (s', o)) : Follows live A0 s ev s' := by
  cases ev with
  | create | load =>
    cases hs
    exact h.follows
  | map _ va prot data =>
    rw [stepOf] at hs
    split_ifs at hs with hva
    · obtain ⟨hnone, -⟩ | ⟨s1, o1, hs1, p, ph, ⟨rfl, hm, hseg⟩, hc⟩ :=
        map_spec hP h.owned hpid prot data hva
      · cases hnone.symm.trans hs
      cases hs1.symm.trans hs
      obtain ⟨-, hr, howned, hlook⟩ | ⟨-, hnone, howned, page, hc, -⟩ := hc
      · refine .of_set (howned.ofRefused hr) rfl rfl ⟨hm, hseg, fun n _ => ?_⟩
        rw [hlook]
        exact aged_self
      refine .of_set howned.later rfl rfl ⟨hm, hseg, fun n _ => ?_⟩
      have hlook := hc.lookup pid n
      rw [set_proc_self] at hlook
      rw [hlook]
      split_ifs with hn
      · rw [hn.2, hnone]
        refine ⟨fun hok _ pte hpte => ?_, fun _ _ hpte => by cases hpte⟩
        cases hpte
        exact hok
      · exact aged_self
    · cases hs
      exact h.follows
  | fork _ child =>
    rw [stepOf] at hs
    split_ifs at hs with hchild
    · cases hs
      exact h.follows
    obtain ⟨hint, hm⟩ := h.plain pid hpid
    obtain ⟨s1, o1, hs1, hmp, hseg, hc⟩ := fork_spec hP h.owned hpid hchild hm
    cases hs1.symm.trans hs
    obtain ⟨-, hr, howned, hpids, -, hproc, hmarked⟩ | ⟨-, howned, hc, hmc, hsegc⟩ := hc
    · refine .of_procs pid (howned.ofRefused hr) hproc ⟨hmp, hseg, fun n hn => ?_⟩ hpids
      rcases hmarked n hn with he | he
      · exact he ▸ aged_self
      · exact he ▸ aged_marked
    refine ⟨howned.later, fun q _ hq => ?_, fun q hq hq' => .inr ⟨pid, hpid, ?_⟩, fun q hq hq' => ?_⟩
    · by_cases hqp : q = pid
      · subst hqp
        exact ⟨hmp, hseg, fun n hn => hc.inSrc n hn ▸ aged_marked⟩
      · rw [hc.proc q hq hqp]
        exact .refl
    · rw [hc.pids, mem_insert] at hq
      obtain rfl := hq.resolve_right hq'
      refine ⟨hmc, hsegc, fun n hn => ?_⟩
      rw [hc.inDst n hn, show inChild (fun _ => false) n = Option.map VM.cowPte by funext o; cases o <;> rfl]
      exact aged_marked
    · exact absurd (hc.pids ▸ mem_insert_of_mem hq) hq'
  | store _ va byte =>
    rw [stepOf] at hs
    split_ifs at hs with hva
    · obtain ⟨howned, pmt, ph, hpids, hproc, hown⟩ :=
        store_spec hP h.owned hpid h0 hva (fun _ _ _ => Set.notMem_empty _) hs
      exact .of_set howned.later hpids hproc ⟨rfl, rfl, fun n _ => aged_own (hown n)⟩
    · cases hs
      exact h.follows
  | exit q' =>
    obtain rfl : q' = pid := he
    obtain ⟨hint, hm⟩ := h.plain q' hpid
    obtain ⟨ph, -, hs', howned⟩ := exit_spec hP h.owned hpid (fun _ _ => Set.notMem_empty _) hm
    cases hs'.symm.trans hs
    exact ⟨howned.later, fun _ _ _ => .refl, fun q hq hq' => absurd (Finset.mem_of_mem_erase hq) hq',
      fun q hq hq' n hne => hq' (mem_erase.2 ⟨hne, hq⟩)⟩
  | clear q' =>
    obtain rfl : q' = pid := he
    obtain ⟨ph, page, hs', -, howned⟩ := clear_spec hP h.owned hpid fun _ _ => Set.notMem_empty _
    rw [stepOf, hs'] at hs
    cases hs
    exact .of_set howned.later rfl rfl ⟨rfl, rfl, fun n _ => ⟨fun _ _ _ hpte => (by cases hpte),
      fun hne => absurd rfl hne⟩⟩
  | brk | mmap | munmap | mprotect => cases hev

theorem step_follows (hev : ev.Basic) (hs : s.step P ev = some (s', o)) : Follows live A0 s ev s' := by
  unfold step at hs
  split_ifs at hs with hpid
  · exact stepOf_follows hP h0 h hpid rfl hev hs
  split at hs
  next pid =>
    replace hpid : pid ∉ s.pids := hpid
    obtain ⟨howned, -, ⟨hr, hpids, hproc⟩ | ⟨-, page, ph, rfl⟩⟩ :=
      create_spec hP h.owned hpid (Option.some.inj hs)
    · exact .of_procs pid (howned.ofRefused hr) (fun q _ _ => by rw [hproc])
        (hproc ▸ .refl) hpids
    · refine ⟨howned.later, fun q _ hq => ?_, fun q hq hq' => .inl ⟨page, ?_⟩,
        fun q hq hq' => absurd (mem_insert_of_mem hq) hq'⟩
      · rw [add_proc_of_ne (ne_of_mem_of_not_mem hq hpid)]
        exact .refl
      · obtain rfl := (mem_insert.1 hq).resolve_right hq'
        rw [add_proc_self]
  · cases hs
    exact h.follows

theorem step_kept (hev : ev.Basic) (hs : s.step P ev = some (s', o)) : s'.Kept live A0 s.ph.log :=
  (step_follows hP h0 h hev hs).kept h

end Step

/-- The system before the first process: the pages `A0` are the kernel's own, and no page is
    counted. -/
structure Boot (live : σ → Set ℕ → Prop) (A0 : Set ℕ) (s : Sys σ) : Prop where
  pids : s.pids = ∅
  live : live s.ph.pool A0
  log : s.ph.log = []
  refs : ∀ page, s.ph.refs.getRef page = 1

theorem Boot.kept (h : s.Boot live A0) : s.Kept live A0 s.ph.log := by
  have hrefs : s.refs = 0 := by rw [Sys.refs, total, h.pids, sum_empty]
  have htables : s.tables = 0 := by rw [Sys.tables, total, h.pids, sum_empty]
  refine ⟨⟨A0, ∅, ?_⟩, fun pid hpid => by simp [h.pids] at hpid⟩
  rw [hrefs, htables]
  refine ⟨h.live, by rw [h.log]; rfl, fun p hp => ⟨hp, by simp, by simp⟩, by simp, by simp, by simp,
    fun p _ => by simp, ⟨[], rfl, by simp⟩, by simp, fun _ p hp => .inl hp, fun _ p => by simp [h.refs]⟩

/-- A system with nothing in it, and a pool of pages counting from `1`. -/
def boot : Sys ℕ where
  ph := ⟨1, [], .empty, fun _ _ => 0⟩
  shared := ⟨fun _ => 0, 0⟩
  pids := ∅
  proc _ := ⟨.new 0, .empty, none⟩

theorem boot_boot : boot.Boot Pool.Counted ∅ :=
  ⟨rfl, ⟨Nat.one_pos, by simp⟩, rfl, fun _ => rfl⟩

/-- The page is handed back to the allocator between two states. -/
def Frees (s s' : Sys σ) (page : ℕ) : Prop := ∃ l, s'.ph.log = l ++ s.ph.log ∧ .back page ∈ l

/-- A page which is handed back is not mapped any more. -/
theorem Owned.notMem_of_frees (h : s'.Owned live A0 S l0 e) (hlog : ∃ l, s.ph.log = l ++ l0)
    (hf : s.Frees s' page) : page ∉ s'.refs := by
  obtain ⟨A, D, h⟩ := h
  obtain ⟨l, hl, hD⟩ := h.since
  obtain ⟨l1, hl1⟩ := hlog
  obtain ⟨l2, hl2, hm⟩ := hf
  rw [hl, hl1, ← List.append_assoc, List.append_left_inj] at hl2
  exact h.freed page ((hD page).1 (hl2 ▸ List.mem_append_left _ hm))

theorem Kept.notMem_of_frees (h : s'.Kept live A0 s.ph.log) (hf : s.Frees s' page) :
    page ∉ s'.refs := h.owned.notMem_of_frees ⟨[], rfl⟩ hf

/-- A page which is mapped was handed out, and not handed back since. -/
theorem Kept.count_of_mem (h : s.Kept live A0 l0) (hm : page ∈ s.refs) :
    s.ph.log.count (.out page) = s.ph.log.count (.back page) + 1 := by
  obtain ⟨A, D, h⟩ := h.owned
  have hc := h.replays.count_add page
  rwa [if_pos (h.data page hm), if_neg fun h' => (h.kernel page h').2.1 hm] at hc

/-- Without processes, every page handed out was handed back, if the allocator never refused. -/
theorem Kept.count_of_empty (h : s.Kept live A0 l0) (hr : .refused ∉ s.ph.log) (he : s.pids = ∅)
    (page : ℕ) : s.ph.log.count (.out page) = s.ph.log.count (.back page) := by
  obtain ⟨A, D, h⟩ := h.owned
  have hA : A = A0 := by
    ext p
    refine ⟨fun hp => ?_, fun hp => (h.kernel p hp).1⟩
    rcases h.all hr p hp with h' | h' | h'
    · exact h'
    · simp [Sys.refs, total, he] at h'
    · simp [Sys.tables, total, he] at h'
  subst hA
  exact h.replays.count_eq page

end Sys

end HobbyOS
