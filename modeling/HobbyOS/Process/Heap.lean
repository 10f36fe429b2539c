import HobbyOS.Process.Ranges
import HobbyOS.Vm.Clean

/-!
# The heap of processes

`Process::brk` maps fresh pages to grow the heap, and gives pages up to shrink it. It
hands every page it unmaps straight back to the allocator, without looking at the
reference counts. So it does no harm to a page which is mapped once, as long as
`PMT::clean`, which it calls at the end, does not take a page for a table.

* `grow_owned`, `shrink_owned`: what the loops do to the pages;
* `reachable_freed`: in every run in which no heap is shrunk by a page which is mapped
  elsewhere, what is handed back to the allocator is not mapped any more, and is not
  handed back again.
-/

namespace HobbyOS

open Multiset Option

/-- The number of pages which `Process::brk` computes. -/
theorem pageRoundUp_add {lo hi : ℕ} (h : lo ≤ hi) (hhi : hi ≤ userTop) :
    pageRoundUp lo + Process.pageNum lo hi * pageSize = pageRoundUp hi ∧ pageRoundUp hi ≤ userTop := by
  have hle : pageRoundUp lo ≤ pageRoundUp hi := by
    simp only [pageRoundUp, pageSize, userTop] at *
    omega
  rw [Process.pageNum, sub64, if_pos hle]
  simp only [pageRoundUp, pageSize, userTop] at *
  omega

namespace Process

variable {σ : Type*} {P : Pool σ ℕ} {live : σ → Set ℕ → Prop} {A0 S A D : Set ℕ}
  {l0 : List (Transfer ℕ)} {e : Prop} {ph : Phys σ} {pmt : PMT} {M T : Multiset ℕ}

/-! ## Entries -/

theorem grow_filled (alignedOld pageNum : ℕ) (s : Phys σ × PMT) : (grow P alignedOld pageNum s).Holds
      (fun t => Filled (fun _ _ => True) .user (pageAt alignedOld) pageNum s.2 t.2)
      (fun t => ∃ i, Filled (fun _ _ => True) .user (pageAt alignedOld) i s.2 t.2) True :=
  tryRange_induct (P := fun i (t : Phys σ × PMT) =>
      Filled (fun _ _ => True) .user (pageAt alignedOld) i s.2 t.2) filled_zero fun i t _ ht => by
      rw [growStep]
      split
      · exact ⟨i, ht⟩
      next page ph hp =>
        exact (PMT.mapPage_lookup _ page (show Flags.user.v from rfl) _).imp
          (fun u hu => ht.succ trivial hu.1 hu.2) fun u hu => ⟨i, ht.congr hu⟩

theorem shrink_cleared (alignedOld pageNum : ℕ) (s : Phys σ × PMT) :
    (shrink P alignedOld pageNum s).Holds
      (fun t => Cleared (shrinkAt alignedOld) pageNum s.2 t.2)
      (fun _ => ∃ i < pageNum, ∀ pte, (∀ j < i, shrinkAt alignedOld i ≠ shrinkAt alignedOld j) →
        s.2.lookup (shrinkAt alignedOld i) = some pte → pte.page = 0) False :=
  tryRange_induct (P := fun i (t : Phys σ × PMT) => Cleared (shrinkAt alignedOld) i s.2 t.2)
    cleared_zero fun i t hi ht => by
      rw [shrinkStep]
      dsimp only
      split_ifs with h0
      · refine ⟨i, hi, fun pte hne hpte => ?_⟩
        rw [← ht.outside _ hne] at hpte
        rwa [PMT.unmapPage, hpte] at h0
      · exact ht.succ fun n => PMT.unmapPage_lookup

/-! ## Pages -/

theorem grow_owned (hP : P.Lawful live)
    (h : Owned live A0 S l0 e ph A ∅ (pmt.refs + M) (pmt.tables + T)) {alignedOld pageNum : ℕ}
    (hn : ∀ i < pageNum, (pageAt alignedOld i).User) : (grow P alignedOld pageNum (ph, pmt)).Holds
      (fun t => ∃ A, Owned live A0 S l0 e t.1 A ∅ (t.2.refs + M) (t.2.tables + T))
      (fun t => Owns live A0 S l0 False t.1 (t.2.refs + M) (t.2.tables + T) ∧ .refused ∈ t.1.log)
      True :=
  tryRange_induct (P := fun _ (t : Phys σ × PMT) =>
      ∃ A, Owned live A0 S l0 e t.1 A ∅ (t.2.refs + M) (t.2.tables + T)) ⟨A, h⟩
    fun i t hi ⟨A, ht⟩ => by
      rw [growStep]
      split
      next ph' hp =>
        exact ⟨((ht.takeNone hP hp).weaken le_rfl le_rfl).owns, Owned.refused_mem hp⟩
      next page ph' hp =>
        cases hl : t.2.lookup (pageAt alignedOld i) with
        | some pte =>
          rw [mapPage_of_lookup hl]
          trivial
        | none =>
          refine ((mapPage_spec .user (ht.takeData hP hp).2 hP (hn i hi) rfl hl).imp
            (fun u hu => hu.1) fun u hu => ?_).mono_panic False.elim
          obtain ⟨⟨A', hA'⟩, -, -, hr⟩ := hu
          exact ⟨(hA'.weaken (le_cons_self _ _) le_rfl).owns, hr⟩

theorem shrink_owned (hP : P.Lawful live) (h0 : ∀ s A, live s A → 0 ∉ A)
    (h : Owned live A0 S l0 e ph A D (pmt.refs + M) (pmt.tables + T)) (alignedOld pageNum : ℕ)
    (hn : ∀ i < pageNum, (shrinkAt alignedOld i).User)
    (hc : ∀ i < pageNum, ∀ pte, pmt.lookup (shrinkAt alignedOld i) = some pte →
      (pmt.refs + M).count pte.page ≤ 1) :
    (shrink P alignedOld pageNum (ph, pmt)).Holds
      (Unmapped live A0 S l0 e pmt M T (shrinkAt alignedOld) pageNum)
      (fun t => ∃ i ≤ pageNum, Unmapped live A0 S l0 e pmt M T (shrinkAt alignedOld) i t) False :=
  tryRange_induct ⟨h.owns, le_rfl, cleared_zero⟩ fun i t hi ht => by
    cases hl : t.2.lookup (shrinkAt alignedOld i) with
    | none =>
      simp only [shrinkStep, PMT.unmapPage, hl]
      exact ⟨i, hi.le, ht⟩
    | some pte =>
      obtain ⟨hne, hfree⟩ := ht.free hP h0 (hn i hi) hl (hc i hi pte (ht.lookup hl))
      simp only [shrinkStep, PMT.unmapPage, hl, if_neg hne, PMT.translate]
      exact hfree

end Process

namespace Sys

variable {σ : Type*} {P : Pool σ ℕ} {live : σ → Set ℕ → Prop} {A0 : Set ℕ} {l0 : List (Transfer ℕ)}
  {s s' : Sys σ} {pid newHeapEnd v : ℕ} {o : Out} {d : SegmentDesc} {ph : Phys σ} {p : Process}

/-- The pages which `brk` takes from the heap `d` are mapped once. -/
def ShrinksAlone (s : Sys σ) (pid newHeapEnd : ℕ) (d : SegmentDesc) : Prop :=
  d.start ≤ newHeapEnd → ∀ n pte, s.Maps pid n pte → pageRoundUp newHeapEnd ≤ n.addr →
    n.addr < d.stop → s.refs.count pte.page ≤ 1

/-- What `brk` does to a process and its pages. -/
structure Resized (live : σ → Set ℕ → Prop) (A0 : Set ℕ) (s : Sys σ) (pid : ℕ) (d : SegmentDesc)
    (ph : Phys σ) (p : Process) : Prop where
  owned : (s.set pid p ph).Owned live A0 ∅ s.ph.log (.refused ∉ ph.log)
  mmap : p.mmap = (s.proc pid).mmap
  entries : ∀ n pte, n.User → p.pmt.lookup n = some pte →
    (s.proc pid).pmt.lookup n = some pte ∨ pte.flags = .user
  kept : ∀ n pte, n.User → d.stop ≤ n.addr → (s.proc pid).pmt.lookup n = some pte →
    p.pmt.lookup n = some pte
  heap : ∃ stop ≤ userTop, p.segTable.heap = some ⟨d.flags, d.start, stop⟩

section Resize

variable (hP : P.Lawful live) (h : s.Kept live A0 l0) (hpid : pid ∈ s.pids)
  (hstop : d.stop ≤ userTop) (hnew : newHeapEnd ≤ userTop)

include hP h hpid hstop hnew

theorem growHeap_spec (hd : (s.proc pid).segTable.heap = some d) (hlt : d.stop < newHeapEnd)
    (hb : (s.proc pid).growHeap P newHeapEnd d s.ph = some (v, ph, p)) :
    Resized live A0 s pid d ph p := by
  obtain ⟨A, hown⟩ := h.owned.rebase
  rw [refs, tables, total_eq _ hpid, total_eq _ hpid] at hown
  obtain ⟨hnum, htop⟩ := pageRoundUp_add hlt.le hnew
  have huser : ∀ i < Process.pageNum d.stop newHeapEnd, (pageAt (pageRoundUp d.stop) i).User :=
    fun i hi => vpn_user (lt_of_lt_of_le (by rw [← hnum]; simp only [pageSize]; omega) htop)
  have hgrow := (Process.grow_owned hP hown huser).and
    (Process.grow_filled (P := P) _ _ _)
  rw [Process.growHeap] at hb
  generalize Process.pageNum d.stop newHeapEnd = k at hb hgrow hnum
  generalize Process.grow _ _ _ _ = r at hb hgrow
  cases r with
  | panic => cases hb
  | fail t =>
    obtain ⟨⟨howns, hr⟩, i, hf⟩ := hgrow
    cases hb
    exact ⟨((owned_set hpid).2 howns).ofRefused hr, rfl,
      fun _ _ _ hpte => (hf.of_lookup hpte).imp id And.right, fun _ _ _ _ => hf.keeps, d.stop,
      hstop, hd⟩
  | ok t =>
    obtain ⟨⟨A', howns⟩, hf⟩ := hgrow
    cases hb
    refine ⟨((owned_set hpid).2 howns.owns).later, rfl,
      fun _ _ _ hpte => (hf.of_lookup hpte).imp id And.right, fun _ _ _ _ => hf.keeps, _, ?_,
      rfl⟩
    rw [Process.grownEnd]
    split_ifs
    · exact hstop
    · rwa [hnum]

variable (h0 : ∀ s A, live s A → 0 ∉ A)
  (hplain : ∀ n pte, s.Maps pid n pte → pte.flags.r ∨ pte.flags.x)
  (hd : (s.proc pid).segTable.heap = some d)

include h0 hplain hd

theorem shrinkHeap_spec (hle : newHeapEnd ≤ d.stop)
    (hsafe : ∀ n pte, s.Maps pid n pte → pageRoundUp newHeapEnd ≤ n.addr → n.addr < d.stop →
      s.refs.count pte.page ≤ 1)
    (hb : (s.proc pid).shrinkHeap P newHeapEnd d s.ph = some (v, ph, p)) :
    Resized live A0 s pid d ph p := by
  obtain ⟨A, hown⟩ := h.owned.rebase
  have hrefs : s.refs = _ := total_eq PMT.refs hpid
  rw [refs, tables, total_eq _ hpid, total_eq _ hpid] at hown
  obtain ⟨hnum, htop⟩ := pageRoundUp_add hle hstop
  rw [Process.shrinkHeap] at hb
  generalize Process.pageNum newHeapEnd d.stop = k at hb hnum
  have hva : ∀ i < k, pageRoundUp newHeapEnd ≤ pageRoundUp d.stop - (i + 1) * pageSize ∧
      pageRoundUp d.stop - (i + 1) * pageSize < d.stop ∧
      (pageRoundUp d.stop - (i + 1) * pageSize) % pageSize = 0 := fun i hi => by
    have h1 : (i + 1) * pageSize ≤ k * pageSize := Nat.mul_le_mul_right _ hi
    simp only [pageRoundUp, pageSize, userTop] at *
    omega
  have huser : ∀ i < k, (Process.shrinkAt (pageRoundUp d.stop) i).User := fun i hi =>
    vpn_user ((hva i hi).2.1.trans_le hstop)
  have haddr : ∀ i < k, (Process.shrinkAt (pageRoundUp d.stop) i).addr =
      pageRoundUp d.stop - (i + 1) * pageSize := fun i hi =>
    vpn_addr (by have := (hva i hi).2.1; simp only [userTop] at hstop; omega) (hva i hi).2.2
  have hshrink := Process.shrink_owned hP h0 hown _ k huser fun i hi pte hpte => by
    obtain ⟨h1, h2, -⟩ := hva i hi
    rw [← hrefs]
    exact hsafe _ pte ⟨hpid, huser i hi, hpte⟩ (by rwa [haddr i hi]) (by rwa [haddr i hi])
  -- What is behind the heap is none of the pages which are unmapped.
  have hbehind {t : Phys σ × PMT} {i : ℕ} (hi : i ≤ k)
      (ht : Cleared (Process.shrinkAt (pageRoundUp d.stop)) i (s.proc pid).pmt t.2) (n : Vpn)
      (hn : d.stop ≤ n.addr) : t.2.lookup n = (s.proc pid).pmt.lookup n := by
    refine ht.outside n ?_
    rintro j hj rfl
    rw [haddr j (hj.trans_le hi)] at hn
    exact absurd (hva j (hj.trans_le hi)).2.1 (not_lt.2 hn)
  generalize Process.shrink _ _ _ _ = r at hb hshrink
  cases r with
  | panic => cases hb
  | fail t =>
    cases hb
    obtain ⟨i, hi, hshrink⟩ := hshrink
    exact ⟨((owned_set hpid).2 hshrink.owns).later, rfl, fun _ _ _ hpte => .inl (hshrink.lookup hpte),
      fun n _ _ hn => (hbehind hi hshrink.cleared n hn).trans, d.stop, hstop, hd⟩
  | ok t =>
    have hpmt : t.2.Plain := fun n pte hn hpte =>
      (hplain n pte ⟨hpid, hn, hshrink.lookup hpte⟩).imp id .inr
    have hclean := PMT.clean_spec (P := P) (I := Owns live A0 ∅ s.ph.log (.refused ∉ s.ph.log))
      (fun ph p M T ho => by
        obtain ⟨A, D, ho⟩ := ho
        exact (ho.giveTable hP).owns) hpmt hshrink.owns
    dsimp only at hb hclean
    generalize PMT.clean P (t.1, t.2) = r at hb hclean
    cases r with
    | panic => cases hb
    | fail u => cases hb
    | ok u =>
      cases hb
      refine ⟨((owned_set hpid).2 hclean.inv).later, rfl, fun n pte hn hpte => .inl ?_,
        fun n pte hn hle hpte => ?_, _, ?_, rfl⟩
      · exact hshrink.lookup (hclean.lookup n hn ▸ hpte)
      · rw [hclean.lookup n hn, hbehind le_rfl hshrink.cleared n hle, hpte]
      · rw [Process.shrunkEnd]
        split_ifs
        · exact hstop
        · omega

theorem brk_spec (hsafe : s.ShrinksAlone pid newHeapEnd d)
    (hb : (s.proc pid).brk P newHeapEnd s.ph = some (v, ph, p)) : Resized live A0 s pid d ph p := by
  have hself : (s.set pid (s.proc pid) s.ph).Owned live A0 ∅ s.ph.log (.refused ∉ s.ph.log) := by
    obtain ⟨A, hown⟩ := h.owned.rebase
    rw [set_self]
    exact hown.owns
  rw [Process.brk, hd, bind_some, Process.brkHeap] at hb
  split_ifs at hb with h1 h2 h3
  · cases hb
    exact ⟨hself, rfl, fun _ _ _ => .inl, fun _ _ _ _ => id, d.stop, hstop, hd⟩
  · cases hb
    exact ⟨hself, rfl, fun _ _ _ => .inl, fun _ _ _ _ => id, d.stop, hstop, hd⟩
  · exact growHeap_spec hP h hpid hstop hnew hd h3 hb
  · rw [not_or, not_or] at h1
    exact shrinkHeap_spec hP h hpid hstop hnew h0 hplain hd (Nat.le_of_not_lt h3)
      (hsafe (Nat.le_of_not_lt h1.2.1)) hb

end Resize

/-! ## Runs -/

/-- What the events keep: moreover, every page is mapped with one of `PAGE_R`, `PAGE_X`, since
    `PAGE_W` may be lost to a mark, and the heaps end in the lower half. -/
structure HeapKept (live : σ → Set ℕ → Prop) (A0 : Set ℕ) (l0 : List (Transfer ℕ)) (s : Sys σ) :
    Prop where
  kept : s.Kept live A0 l0
  entries : ∀ pid n pte, s.Maps pid n pte → pte.flags.r ∨ pte.flags.x
  heap : ∀ pid ∈ s.pids, ∃ d, (s.proc pid).segTable.heap = some d ∧ d.stop ≤ userTop

theorem HeapKept.again (h : s.HeapKept live A0 l0) : s.HeapKept live A0 s.ph.log :=
  ⟨h.kept.again, h.entries, h.heap⟩

/-- No page is mapped without `PAGE_R` and `PAGE_X`, and no heap is shrunk by a page which is
    mapped elsewhere. -/
def HeapSafe (s : Sys σ) : Event → Prop
  | .map _ _ prot _ => prot.r ∨ prot.x
  | .brk pid newHeapEnd => newHeapEnd ≤ userTop ∧
    ∀ d, (s.proc pid).segTable.heap = some d → s.ShrinksAlone pid newHeapEnd d
  | .mmap .. | .munmap .. | .mprotect .. => False
  | _ => True

theorem Follows.heapKept {ev : Event} (hf : Follows live A0 s ev s') (h : s.HeapKept live A0 l0)
    (hev : ev.Lasting) : s'.HeapKept live A0 s.ph.log := by
  refine ⟨hf.kept h.kept, fun q n pte ⟨hq, hn, hl⟩ => ?_, fun q hq => ?_⟩
  all_goals by_cases hq' : q ∈ s.pids
  · exact ((hf.old q hq hq').entries n hn).lasting hev
      (fun o ho => h.entries q n o ⟨hq', hn, ho⟩) pte hl
  · obtain ⟨page, hp⟩ | ⟨p, hp, hs⟩ := hf.new q hq hq'
    · rw [hp] at hl
      cases hl
    · exact (hs.entries n hn).lasting trivial (fun o ho => h.entries p n o ⟨hp, hn, ho⟩) pte hl
  · rw [(hf.old q hq hq').segTable]
    exact h.heap q hq'
  · obtain ⟨page, hp⟩ | ⟨p, hp, hs⟩ := hf.new q hq hq'
    · exact ⟨_, by rw [hp]; rfl, by decide⟩
    · rw [hs.segTable]
      exact h.heap p hp

section Step

variable {ev : Event} (hP : P.Lawful live) (h0 : ∀ s A, live s A → 0 ∉ A)
  (h : s.HeapKept live A0 l0)

include hP h0 h

theorem brk_heapKept (hpid : pid ∈ s.pids) (hev : s.HeapSafe (.brk pid newHeapEnd))
    (hs : s.stepOf P pid (.brk pid newHeapEnd) = some (s', o)) : s'.HeapKept live A0 s.ph.log ∧
      ∀ q n pte, s.Maps q n pte → s.Spares q n (.brk pid newHeapEnd) → s'.Maps q n pte := by
  obtain ⟨hnew, hsafe⟩ := hev
  obtain ⟨d, hd, hstop⟩ := h.heap pid hpid
  rw [stepOf] at hs
  obtain ⟨⟨v, ph, p⟩, hb, ⟨⟩⟩ := bind_eq_some_iff.1 hs
  have hr := brk_spec hP h.kept hpid hstop hnew h0 (h.entries pid) hd (hsafe d hd) hb
  obtain ⟨stop, htop, hheap⟩ := hr.heap
  refine ⟨⟨h.kept.set hr.owned hpid hr.mmap, fun q n pte hm => ?_, fun q hq => ?_⟩, fun q n pte hm hsp =>
    ⟨hm.1, hm.2.1, ?_⟩⟩
  all_goals by_cases hqp : q = pid
  · subst hqp
    obtain ⟨hq, hn, hl⟩ := hm
    rw [set_proc_self] at hl
    rcases hr.entries n pte hn hl with hl | hl
    · exact h.entries q n pte ⟨hq, hn, hl⟩
    · exact .inl (by rw [hl]; rfl)
  · obtain ⟨hq, hn, hl⟩ := hm
    rw [set_proc_of_ne hqp] at hl
    exact h.entries q n pte ⟨hq, hn, hl⟩
  · rw [hqp, set_proc_self]
    exact ⟨_, hheap, htop⟩
  · rw [set_proc_of_ne hqp]
    exact h.heap q hq
  · subst hqp
    rw [set_proc_self]
    exact hr.kept n pte hm.2.1 (hsp rfl d hd) hm.2.2
  · rw [set_proc_of_ne hqp]
    exact hm.2.2

/-- An event keeps all this, and the entries which it spares and which are neither writable nor
    marked. -/
theorem step_heapKept (hev : s.HeapSafe ev) (hs : s.step P ev = some (s', o)) :
    s'.HeapKept live A0 s.ph.log ∧ ∀ q n pte, s.Maps q n pte → s.Spares q n ev →
      pte.flags.w = false → pte.flags.cow = false → s'.Maps q n pte := by
  have hbasic (hb : ev.Basic) (hl : ev.Lasting) : s'.HeapKept live A0 s.ph.log ∧ ∀ q n pte,
      s.Maps q n pte → s.Spares q n ev → pte.flags.w = false → pte.flags.cow = false →
        s'.Maps q n pte := by
    have hf := step_follows hP h0 h.kept hb hs
    exact ⟨hf.heapKept h hl, fun q n pte => hf.stays⟩
  cases ev with
  | brk pid newHeapEnd =>
    unfold step at hs
    split_ifs at hs with hpid
    · obtain ⟨hk, hstays⟩ := brk_heapKept hP h0 h hpid hev hs
      exact ⟨hk, fun q n pte hm hsp _ _ => hstays q n pte hm hsp⟩
    · cases hs
      exact ⟨h.again, fun _ _ _ hm _ _ _ => hm⟩
  | map => exact hbasic trivial hev
  | mmap | munmap | mprotect => cases hev
  | _ => exact hbasic trivial trivial

end Step

/-- A step which is taken in a state in which it is allowed. -/
def Step (P : Pool σ ℕ) (ok : Sys σ → Event → Prop) (s s' : Sys σ) : Prop :=
  ∃ ev o, ok s ev ∧ s.step P ev = some (s', o)

theorem reachable_heapKept {s0 : Sys σ} (hP : P.Lawful live) (h0 : ∀ s A, live s A → 0 ∉ A)
    (hboot : s0.Boot live A0) (hrun : Relation.ReflTransGen (Step P HeapSafe) s0 s) :
    ∃ l0, s.HeapKept live A0 l0 := by
  induction hrun with
  | refl =>
    refine ⟨_, hboot.kept, fun pid n pte hm => ?_, fun pid hpid => ?_⟩
    · simp [Maps, hboot.pids] at hm
    · simp [hboot.pids] at hpid
  | tail _ hstep ih =>
    obtain ⟨l0, h⟩ := ih
    obtain ⟨ev, o, hev, hs⟩ := hstep
    exact ⟨_, (step_heapKept hP h0 h hev hs).1⟩

/-- In every run in which no heap is shrunk by a page which is mapped elsewhere, a page which an
    event hands back to the allocator is not mapped after it, and no page is handed back twice:
    the ledger is one of a pool whose pages are returned after they were handed out. -/
theorem reachable_freed {s0 : Sys σ} (hP : P.Lawful live) (h0 : ∀ s A, live s A → 0 ∉ A)
    (hboot : s0.Boot live A0) (hrun : Relation.ReflTransGen (Step P HeapSafe) s0 s) :
    (∀ ev s' o page, s.HeapSafe ev → s.step P ev = some (s', o) → s.Frees s' page →
      ∀ pid n pte, s'.Maps pid n pte → pte.page ≠ page) ∧
    ∃ A, Replays A0 s.ph.log A ∧ ∀ pid n pte, s.Maps pid n pte → pte.page ∈ A := by
  obtain ⟨l0, h⟩ := reachable_heapKept hP h0 hboot hrun
  refine ⟨fun ev s' o page hev hs hf pid n pte hm => ?_, ?_⟩
  · rintro rfl
    exact (step_heapKept hP h0 h hev hs).1.kept.notMem_of_frees hf (mem_refs hm.1 hm.2.1 hm.2.2)
  · obtain ⟨A, D, howned⟩ := h.kept.owned
    exact ⟨A, howned.replays, fun pid n pte hm => howned.data _ (mem_refs hm.1 hm.2.1 hm.2.2)⟩

/-- A process grows its heap by a page, forks, and stores to the page. -/
def parted : Sys ℕ := lastState (step .counting) boot
  [.create 0, .brk 0 (heapStart + pageSize), .fork 0 1, .store 0 heapStart 7]

theorem reaches_parted : Relation.ReflTransGen (Step .counting HeapSafe) boot parted := by
  refine Reaches.of_allowed ⟨trivial, fun s o hs => ⟨⟨by decide, fun d hd => ?_⟩, fun _ _ _ =>
    ⟨trivial, fun _ _ _ => ⟨trivial, fun _ _ _ => trivial⟩⟩⟩⟩
  -- The heap is empty before it grows.
  have hcreate : (boot.step .counting (.create 0)).map (fun r => (r.1.proc 0).segTable.heap) =
      some (some ⟨.readWrite, heapStart, heapStart⟩) := by decide +kernel
  rw [hs] at hcreate
  obtain rfl := Option.some.inj (hd.symm.trans (Option.some.inj hcreate))
  intro _ n pte _ hle hlt
  exact absurd (hle.trans_lt hlt) (by decide)

/-- The page is counted once. -/
theorem heapSafe_parted : parted.HeapSafe (.brk 0 heapStart) := by
  refine ⟨by decide, fun d hd _ n pte hm hle hlt => ?_⟩
  have hheap : (parted.proc 0).segTable.heap = some ⟨.readWrite, heapStart, heapStart + pageSize⟩ := by
    decide +kernel
  have hpage : ((parted.proc 0).pmt.lookup (vpn heapStart)).map Pte.page = some 8 := by decide +kernel
  have href : parted.ph.refs.getRef 8 = 1 := by decide +kernel
  obtain ⟨l0, hkept⟩ := reachable_heapKept Pool.counting_lawful
    (fun _ _ => Pool.Counted.zero_notMem) boot_boot reaches_parted
  generalize parted = s at *
  obtain rfl := Option.some.inj (hd.symm.trans hheap)
  obtain rfl : n = vpn heapStart := by
    obtain ⟨-, h1, h0⟩ := hm.2.1
    rw [show pageRoundUp heapStart = heapStart by decide] at hle
    obtain ⟨l2, l1, l0⟩ := n
    simp only [Vpn.addr, heapStart, pageSize, pmtSize] at hle hlt h1 h0
    simp only [vpn, heapStart, Vpn.mk.injEq]
    omega
  rw [hm.2.2] at hpage
  obtain ⟨A, D, howned⟩ := hkept.kept.owned
  have hcount := howned.covers pte.page (Set.notMem_empty _)
  rwa [Option.some.inj hpage, href, ← Option.some.inj hpage] at hcount

/-- The heap shrinks again: its page is handed back, and mapped no more. -/
theorem reachable_freed_parted : ∃ s' o, parted.step .counting (.brk 0 heapStart) = some (s', o) ∧
    parted.Frees s' 8 ∧ ∀ pid n pte, s'.Maps pid n pte → pte.page ≠ 8 := by
  obtain ⟨s', o, hs, hlog⟩ : ∃ s' o, parted.step .counting (.brk 0 heapStart) = some (s', o) ∧
      s'.ph.log = [.back 3, .back 4, .back 8] ++ parted.ph.log := by decide +kernel
  have hfrees : parted.Frees s' 8 := ⟨_, hlog, by decide⟩
  exact ⟨s', o, hs, hfrees, (reachable_freed Pool.counting_lawful
    (fun _ _ => Pool.Counted.zero_notMem) boot_boot reaches_parted).1 _ s' o 8 heapSafe_parted hs
    hfrees⟩

/-- A process grows its heap, forks, and shrinks the heap again: its page is handed back while
    the child maps it. -/
theorem shrink_frees_shared : ∃ s os s' o page pid n pte,
    boot.run .counting [.create 0, .brk 0 (heapStart + pageSize), .fork 0 1] = some (s, os) ∧
      s.step .counting (.brk 0 heapStart) = some (s', o) ∧ s.Frees s' page ∧ s'.Maps pid n pte ∧
      pte.page = page := by
  obtain ⟨s, os, hs, s', o, hs', hlog, hpid, pte, hpte, hp⟩ : ∃ s os,
      boot.run .counting [.create 0, .brk 0 (heapStart + pageSize), .fork 0 1] = some (s, os) ∧
      ∃ s' o, s.step .counting (.brk 0 heapStart) = some (s', o) ∧
      s'.ph.log = [.back 3, .back 4, .back 2] ++ s.ph.log ∧ 1 ∈ s'.pids ∧
      ∃ pte, (s'.proc 1).pmt.lookup (vpn heapStart) = some pte ∧ pte.page = 2 := by
    decide +kernel
  exact ⟨s, os, s', o, 2, 1, vpn heapStart, pte, hs, hs', ⟨_, hlog, by simp⟩,
    ⟨hpid, vpn_user (by decide), hpte⟩, hp⟩

end Sys

end HobbyOS
