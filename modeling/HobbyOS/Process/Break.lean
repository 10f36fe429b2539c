import HobbyOS.Process.Heap
import HobbyOS.Process.Ranges
import HobbyOS.Vm.Demand

/-!
# Failures of `brk`

The pages mapped from the start of the heap up to `MMAP_BASE` are those before its end
(`HeapExact`). `Process::brk` keeps it that way when it shrinks the heap, and when it grows it by
pages which are all there: it takes one page for each, and one for every table which is missing on
the way (`grow_demand`).

When the pages run out in the middle, `brk` returns `-1` and leaves behind what it has mapped so far,
above the end of the heap; after that, the next `brk` comes upon a page which is mapped already
(`brk_runs_out`). When it shrinks the heap, `PMT::clean` may take a page which stays for a table.
So `brk` is atomic iff it gets all pages, or not even the first, and the pages which stay are plain
(`brk_atomic_iff`).
-/

namespace HobbyOS

open Finset List Nat Option

/-- More objects than there are cannot be taken. -/
theorem Pool.takes_none {σ α : Type*} {P : Pool σ α} {m n : ℕ} {s : σ} (h : P.takes m s = none)
    (hle : m ≤ n) : P.takes n s = none := by
  obtain ⟨k, rfl⟩ := Nat.exists_eq_add_of_le hle
  rw [takes_add, h]
  rfl

theorem PMT.missing_mono {pmt : PMT} {f : ℕ → Vpn} {i k : ℕ} (h : i ≤ k) :
    pmt.missing f i ≤ pmt.missing f k :=
  Nat.add_le_add
    (card_le_card (filter_subset_filter _ (image_subset_image
      (range_subset_range.2 h))))
    (card_le_card (filter_subset_filter _ (image_subset_image
      (range_subset_range.2 h))))

namespace Process

variable {σ : Type*} {P : Pool σ ℕ} {alignedOld k newHeapEnd i page va lo hi : ℕ}
  {s t : Phys σ × PMT} {ph : Phys σ} {p : Process} {d : SegmentDesc} {n : Vpn}

/-- The number of pages it takes to grow the heap by `k` pages. -/
def need (pmt : PMT) (alignedOld k : ℕ) : ℕ := k + pmt.missing (pageAt alignedOld) k

/-! ## Growing -/

/-- What the loop which grows the heap has done after some rounds: it has taken the pages it
    needs, mapped the new ones, and given nothing back. -/
structure Grown (P : Pool σ ℕ) (alignedOld : ℕ) (s : Phys σ × PMT) (i : ℕ) (t : Phys σ × PMT) :
    Prop where
  takes : P.takes (need s.2 alignedOld i) s.1.pool = some t.1.pool
  reached : PMT.ReachedAll s.2 t.2 (pageAt alignedOld) i
  filled : Filled (fun _ _ => True) .user (pageAt alignedOld) i s.2 t.2
  drawn : i = 0 ∧ t = s ∨ ∃ page, (P.take s.1.pool).1 = some page ∧
    Drawn (.out page :: s.1.log) t.1.log

/-- How the loop which grows the heap fails: there was not even the first page, and nothing has
    changed, or there was one, and it was not given back. -/
structure Stuck (P : Pool σ ℕ) (s t : Phys σ × PMT) : Prop where
  drawn : ((P.take s.1.pool).1 = none ∧ t.2 = s.2 ∧ t.1.log = .refused :: s.1.log) ∨
    ∃ page, (P.take s.1.pool).1 = some page ∧ Drawn (.out page :: s.1.log) t.1.log

theorem grown_zero : Grown P alignedOld s 0 s :=
  ⟨by simp [need, PMT.missing, Pool.takes], PMT.reachedAll_zero, filled_zero, .inl ⟨rfl, rfl⟩⟩

theorem Grown.need_succ (h : Grown P alignedOld s i t) :
    P.takes (need s.2 alignedOld (i + 1)) s.1.pool =
      P.takes (t.2.missingAt (pageAt alignedOld i) + 1) t.1.pool := by
  have hneed : need s.2 alignedOld (i + 1) =
      need s.2 alignedOld i + (t.2.missingAt (pageAt alignedOld i) + 1) := by
    rw [need, need, h.reached.missing_succ]
    omega
  rw [hneed, Pool.takes_add, h.takes, bind_some]

/-- The first page taken, after one more. -/
theorem Grown.drawn_succ {pool : σ} (h : Grown P alignedOld s i t)
    (htake : P.take t.1.pool = (some page, pool)) : ∃ page', (P.take s.1.pool).1 = some page' ∧
      Drawn (.out page' :: s.1.log) (.out page :: t.1.log) := by
  rcases h.drawn with ⟨-, rfl⟩ | ⟨page', hpage, hd⟩
  · exact ⟨page, by rw [htake], Drawn.refl _⟩
  · exact ⟨page', hpage, hd.cons (by simp)⟩

theorem growStep_demand (h : Grown P alignedOld s i t)
    (hnone : t.2.lookup (pageAt alignedOld i) = none) :
    (growStep P alignedOld i t).Holds (Grown P alignedOld s (i + 1))
      (fun u => P.takes (need s.2 alignedOld (i + 1)) s.1.pool = none ∧ Stuck P s u) False := by
  rw [h.need_succ, growStep, kallocPage]
  rcases htake : P.take t.1.pool with ⟨_ | page, pool⟩
  · refine ⟨by rw [Pool.takes, htake], ⟨?_⟩⟩
    rcases h.drawn with ⟨-, rfl⟩ | ⟨page, hpage, hd⟩
    · exact .inl ⟨by rw [htake], rfl, rfl⟩
    · exact .inr ⟨page, hpage, hd.cons (by simp)⟩
  dsimp only
  set ph : Phys σ := { t.1 with pool := pool, log := .out page :: t.1.log }
  have hdrawn := h.drawn_succ htake
  have hmap := PMT.mapPage_lookup (P := P) (pageAt alignedOld i) page (show Flags.user.v from rfl)
    (ph, t.2)
  have hdemand : (PMT.mapPage (pageAt alignedOld i) P page .user (ph, t.2)).Holds _ _ True :=
    PMT.mapPage_demand
  have hfree : (PMT.mapPage (pageAt alignedOld i) P page .user (ph, t.2)).Holds _ _ False :=
    mapPage_free rfl hnone
  have htakes : P.takes (t.2.missingAt (pageAt alignedOld i) + 1) t.1.pool =
      P.takes (t.2.missingAt (pageAt alignedOld i)) pool := by
    rw [Pool.takes, htake]
  generalize PMT.mapPage _ _ _ _ _ = res at hmap hdemand hfree
  obtain ⟨page', hpage, hd⟩ := hdrawn
  cases res with
  | panic => exact hfree
  | ok u =>
    obtain ⟨hu, hreached, hlog⟩ := hdemand
    refine ⟨?_, h.reached.succ hreached, h.filled.succ trivial hnone hmap.2,
      .inr ⟨page', hpage, hd.trans hlog⟩⟩
    rwa [h.need_succ, htakes]
  | fail u =>
    obtain ⟨hu, hlog⟩ := hdemand
    exact ⟨by rw [htakes]; exact hu, ⟨.inr ⟨page', hpage, hd.trans hlog⟩⟩⟩

/-- The loop which grows the heap into pages which are not mapped takes the pages it needs, and
    fails iff there are not that many. -/
theorem grow_demand (hal : alignedOld % pageSize = 0) (htop : alignedOld + k * pageSize ≤ userTop)
    (hnone : ∀ i < k, s.2.lookup (pageAt alignedOld i) = none) :
    (grow P alignedOld k s).Holds (Grown P alignedOld s k)
      (fun t => P.takes (need s.2 alignedOld k) s.1.pool = none ∧ Stuck P s t) False := by
  have haddr : ∀ i < k, (pageAt alignedOld i).addr = alignedOld + i * pageSize := by
    intro i hi
    refine vpn_addr ?_ (by rwa [add_mul_mod_self_right])
    have := Nat.mul_lt_mul_of_pos_right hi (show 0 < pageSize by decide)
    simp only [userTop] at htop
    omega
  refine tryRange_induct (P := Grown P alignedOld s) grown_zero fun i t hi ht => ?_
  have hfree : t.2.lookup (pageAt alignedOld i) = none := by
    rw [ht.filled.outside _ fun j hj he => ?_]
    · exact hnone i hi
    · have := congrArg Vpn.addr he
      rw [haddr i hi, haddr j (hj.trans hi)] at this
      have := Nat.mul_lt_mul_of_pos_right hj (show 0 < pageSize by decide)
      omega
  refine (growStep_demand ht hfree).imp (fun _ hu => hu) fun u hu => ⟨?_, hu.2⟩
  exact Pool.takes_none hu.1 (Nat.add_le_add hi (PMT.missing_mono hi))

/-! ## Exactness -/

/-- The pages mapped from the start of the heap up to `MMAP_BASE` are those before its end. -/
structure HeapExact (p : Process) (d : SegmentDesc) : Prop where
  heap : p.segTable.heap = some d
  le : d.start ≤ d.stop
  mapped : ∀ n : Vpn, n.User → d.start ≤ n.addr → n.addr < mmapBase →
    ((p.pmt.lookup n).isSome ↔ n.addr < d.stop)

theorem addr_mod (n : Vpn) : n.addr % pageSize = 0 := by
  simp only [Vpn.addr, pageSize]
  omega

/-- Pages have aligned addresses, so that rounding up an address skips none. -/
theorem addr_lt_pageRoundUp (h : va ≤ userTop) : n.addr < pageRoundUp va ↔ n.addr < va := by
  have := addr_mod n
  simp only [pageRoundUp, pageSize, userTop] at *
  omega

theorem le_pageRoundUp (h : va ≤ userTop) : va ≤ pageRoundUp va := by
  simp only [pageRoundUp, pageSize, userTop] at *
  omega

section Ends

variable {lo hi : ℕ} (hle : lo ≤ hi) (hhi : hi ≤ userTop) (hn : n.User)

include hle hhi hn

/-- The pages by which the heap grows from one end to another. -/
theorem exists_pageAt_iff : (∃ i < pageNum lo hi, n = pageAt (pageRoundUp lo) i) ↔
    lo ≤ n.addr ∧ n.addr < hi := by
  obtain ⟨hnum, htop⟩ := pageRoundUp_add hle hhi
  have hal := Mmap.pageRoundUp_mod lo
  have haddr := addr_mod n
  rw [← addr_lt_pageRoundUp hhi, ← hnum, ← Nat.not_lt (a := n.addr),
    ← addr_lt_pageRoundUp (hle.trans hhi), Nat.not_lt]
  generalize pageRoundUp lo = a at *
  constructor
  · rintro ⟨i, hi', rfl⟩
    have hmul := Nat.mul_lt_mul_of_pos_right hi' (show 0 < pageSize by decide)
    have hva : (pageAt a i).addr = a + i * pageSize :=
      vpn_addr (by simp only [userTop] at htop; omega) (by rwa [add_mul_mod_self_right])
    omega
  · rintro ⟨h1, h2⟩
    refine ⟨(n.addr - a) / pageSize, ?_, ?_⟩
    · simp only [pageSize] at *
      omega
    · have hdvd : pageSize ∣ n.addr - a :=
        Nat.dvd_sub (dvd_of_mod_eq_zero haddr) (dvd_of_mod_eq_zero hal)
      rw [pageAt, Nat.div_mul_cancel hdvd, Nat.add_sub_cancel' h1, hn.vpn_addr]

/-- The pages by which the heap shrinks from one end to another. -/
theorem exists_shrinkAt_iff : (∃ i < pageNum lo hi, n = shrinkAt (pageRoundUp hi) i) ↔
    lo ≤ n.addr ∧ n.addr < hi := by
  obtain ⟨hnum, -⟩ := pageRoundUp_add hle hhi
  rw [← exists_pageAt_iff hle hhi hn, ← hnum]
  generalize pageNum lo hi = k
  -- The same pages, from the last one to the first.
  have hrev : ∀ i < k, shrinkAt (pageRoundUp lo + k * pageSize) i =
      pageAt (pageRoundUp lo) (k - 1 - i) := by
    intro i hi
    rw [shrinkAt, pageAt]
    congr 1
    simp only [pageSize]
    omega
  constructor
  · rintro ⟨i, hi, rfl⟩
    exact ⟨k - 1 - i, by omega, hrev i hi⟩
  · rintro ⟨i, hi, rfl⟩
    exact ⟨k - 1 - i, by omega, by rw [hrev _ (by omega)]; congr 1; omega⟩

end Ends

variable (hle : lo ≤ hi) (hhi : hi ≤ userTop)

include hle hhi

theorem pageAt_user (hi' : i < pageNum lo hi) : (pageAt (pageRoundUp lo) i).User := by
  obtain ⟨hnum, htop⟩ := pageRoundUp_add hle hhi
  have := Nat.mul_lt_mul_of_pos_right hi' (show 0 < pageSize by decide)
  exact vpn_user (by omega)

theorem shrinkAt_user (hi' : i < pageNum lo hi) : (shrinkAt (pageRoundUp hi) i).User := by
  obtain ⟨hnum, htop⟩ := pageRoundUp_add hle hhi
  have := Nat.mul_lt_mul_of_pos_right hi' (show 0 < pageSize by decide)
  refine vpn_user ?_
  simp only [pageSize] at *
  omega

theorem shrinkAt_ne {j : ℕ} (hi' : i < pageNum lo hi) (hj : j < i) :
    shrinkAt (pageRoundUp hi) i ≠ shrinkAt (pageRoundUp hi) j := by
  obtain ⟨hnum, htop⟩ := pageRoundUp_add hle hhi
  have hal := Mmap.pageRoundUp_mod hi
  have haddr : ∀ l < pageNum lo hi, (shrinkAt (pageRoundUp hi) l).addr =
      pageRoundUp hi - (l + 1) * pageSize := by
    intro l hl
    refine vpn_addr ?_ ?_
    · simp only [userTop] at htop
      omega
    · simp only [pageSize] at *
      omega
  intro he
  have hva := congrArg Vpn.addr he
  rw [haddr i hi', haddr j (hj.trans hi')] at hva
  simp only [pageSize] at *
  omega

/-- The end of the heap `brk` gets to, if it grows. -/
theorem addr_lt_grownEnd : n.addr < grownEnd lo (pageNum lo hi) ↔ n.addr < hi := by
  obtain ⟨hnum, -⟩ := pageRoundUp_add hle hhi
  rw [grownEnd]
  split
  next h0 =>
    rw [h0, Nat.zero_mul, Nat.add_zero] at hnum
    rw [← addr_lt_pageRoundUp (hle.trans hhi), hnum, addr_lt_pageRoundUp hhi]
  · rw [hnum, addr_lt_pageRoundUp hhi]

/-- The end of the heap `brk` gets to, if it shrinks. -/
theorem addr_lt_shrunkEnd : n.addr < shrunkEnd hi (pageNum lo hi) ↔ n.addr < lo := by
  obtain ⟨hnum, -⟩ := pageRoundUp_add hle hhi
  rw [shrunkEnd]
  split
  next h0 =>
    rw [h0, Nat.zero_mul, Nat.add_zero] at hnum
    rw [← addr_lt_pageRoundUp hhi, ← hnum, addr_lt_pageRoundUp (hle.trans hhi)]
  · rw [← hnum, Nat.add_sub_cancel_right, addr_lt_pageRoundUp (hle.trans hhi)]

omit hle hhi

/-- There is nothing mapped where the heap grows. -/
theorem HeapExact.grow_demand (h : HeapExact p d) (hle : d.stop ≤ newHeapEnd)
    (hnew : newHeapEnd ≤ mmapBase) (ph : Phys σ) :
    (grow P (pageRoundUp d.stop) (pageNum d.stop newHeapEnd) (ph, p.pmt)).Holds
      (Grown P (pageRoundUp d.stop) (ph, p.pmt) (pageNum d.stop newHeapEnd))
      (fun t => P.takes (need p.pmt (pageRoundUp d.stop) (pageNum d.stop newHeapEnd)) ph.pool = none ∧
        Stuck P (ph, p.pmt) t) False := by
  have htop : newHeapEnd ≤ userTop := hnew.trans (by decide)
  obtain ⟨hnum, hend⟩ := pageRoundUp_add hle htop
  refine Process.grow_demand (Mmap.pageRoundUp_mod _) (hnum.trans_le hend) fun i hi => ?_
  have huser := pageAt_user hle htop hi
  obtain ⟨h1, h2⟩ := (exists_pageAt_iff hle htop huser).1 ⟨i, hi, rfl⟩
  rw [← not_isSome_iff_eq_none, h.mapped _ huser (h.le.trans h1) (h2.trans_le hnew)]
  exact Nat.not_lt.2 h1

/-- Where the heap is exact, `brk` does not come upon a page which is mapped already. -/
theorem HeapExact.growHeap_ne_none (h : HeapExact p d) (hle : d.stop ≤ newHeapEnd)
    (hnew : newHeapEnd ≤ mmapBase) (ph : Phys σ) : p.growHeap P newHeapEnd d ph ≠ none := by
  have hgrow := h.grow_demand (P := P) hle hnew ph
  rw [growHeap]
  generalize grow _ _ _ _ = r at hgrow
  cases r with
  | ok t => exact some_ne_none _
  | fail t => exact some_ne_none _
  | panic => exact absurd hgrow not_false

/-! ## Atomicity -/

/-- As many pages were returned as were handed out, each as often. -/
def Balanced (l l' : List (Transfer ℕ)) : Prop :=
  ∃ k, l' = k ++ l ∧ ∀ page, k.count (.out page) = k.count (.back page)

/-- What is asked of `brk` from a state in which the heap is exact: it returns, the heap is exact
    again, `-1` means that nothing has changed, and the next `brk` does not come upon a page which
    is mapped already, whatever has happened to the physical memory. -/
def BrkAtomic (P : Pool σ ℕ) (newHeapEnd : ℕ) (p : Process) (ph : Phys σ) (d : SegmentDesc) : Prop :=
  ∃ v ph' p' d', p.brk P newHeapEnd ph = some (v, ph', p') ∧ HeapExact p' d' ∧ d'.start = d.start ∧
    (v = mmapFailed → d' = d ∧ (∀ n, p'.pmt.lookup n = p.pmt.lookup n) ∧ Balanced ph.log ph'.log) ∧
    ∀ (ph'' : Phys σ) e, d'.stop < e → e ≤ d'.stop + P.room ph''.pool * pageSize →
      d'.stop + P.room ph''.pool * pageSize ≤ mmapBase → p'.growHeap P e d' ph'' ≠ none

/-- `PMT::clean` takes no page for a table, except for the pages from `lo` up to `hi`. -/
def PlainOutside (pmt : PMT) (lo hi : ℕ) : Prop :=
  ∀ n pte, n.User → ¬ (lo ≤ n.addr ∧ n.addr < hi) → pmt.lookup n = some pte → pte.Plain

theorem HeapExact.next (h : HeapExact p d) : ∀ (ph'' : Phys σ) e, d.stop < e →
    e ≤ d.stop + P.room ph''.pool * pageSize → d.stop + P.room ph''.pool * pageSize ≤ mmapBase →
      p.growHeap P e d ph'' ≠ none :=
  fun ph'' _ hlt hle hroom => h.growHeap_ne_none hlt.le (hle.trans hroom) ph''

theorem Balanced.refl (l : List (Transfer ℕ)) : Balanced l l := ⟨[], rfl, by simp⟩

/-- What was handed out and not returned is missing. -/
theorem not_balanced {l l' : List (Transfer ℕ)} (h : Drawn (.out page :: l) l') :
    ¬ Balanced l l' := by
  obtain ⟨k, rfl, hk⟩ := h
  rintro ⟨k', he, hcount⟩
  rw [← singleton_append, ← append_assoc] at he
  obtain rfl := append_cancel_right he
  have hout := hcount page
  have hback : List.count (.back page) (k ++ [.out page]) = 0 := count_eq_zero.2 (by simp [hk page])
  rw [hback] at hout
  simp at hout

section Brk

variable (h : HeapExact p d)

include h

/-- `brk` grows the heap. -/
theorem HeapExact.growHeap_iff (hlt : d.stop < newHeapEnd) (hnew : newHeapEnd ≤ mmapBase)
    (hbrk : p.brk P newHeapEnd ph = p.growHeap P newHeapEnd d ph) :
    BrkAtomic P newHeapEnd p ph d ↔ (P.take ph.pool).1 = none ∨
      (P.takes (need p.pmt (pageRoundUp d.stop) (pageNum d.stop newHeapEnd)) ph.pool).isSome := by
  have htop : newHeapEnd ≤ userTop := hnew.trans (by decide)
  have hgrow := h.grow_demand (P := P) hlt.le hnew ph
  rw [BrkAtomic, hbrk, growHeap]
  generalize hr : grow _ _ _ _ = r at hgrow
  cases r with
  | panic => exact absurd hgrow not_false
  | ok t =>
    -- All pages are there: the heap ends behind the last one.
    refine iff_of_true ?_ (.inr (by rw [hgrow.takes]; rfl))
    have hex : HeapExact { p with
        pmt := t.2
        segTable := p.segTable.setHeap d.flags d.start
          (grownEnd d.stop (pageNum d.stop newHeapEnd)) }
        ⟨d.flags, d.start, grownEnd d.stop (pageNum d.stop newHeapEnd)⟩ := by
      refine ⟨rfl, ?_, fun n hn hstart hbase => ?_⟩
      · rw [grownEnd]
        split
        · exact h.le
        · exact (h.le.trans (le_pageRoundUp (hlt.le.trans htop))).trans (Nat.le_add_right ..)
      rw [addr_lt_grownEnd hlt.le htop]
      by_cases hnew' : ∃ i < pageNum d.stop newHeapEnd, n = pageAt (pageRoundUp d.stop) i
      · have hin := (exists_pageAt_iff hlt.le htop hn).1 hnew'
        obtain ⟨i, hi, rfl⟩ := hnew'
        obtain ⟨-, page, -, hpage⟩ := hgrow.filled.inside i hi
        rw [hpage]
        exact iff_of_true rfl hin.2
      · have hout := (exists_pageAt_iff hlt.le htop hn).not.1 hnew'
        push Not at hnew'
        rw [hgrow.filled.outside n hnew', h.mapped n hn hstart hbase]
        omega
    refine ⟨_, _, _, _, rfl, hex, rfl, fun hv => ?_, hex.next⟩
    have hbound := pageRoundUp_add hlt.le htop
    rw [grownEnd] at hv
    simp only [mmapFailed, userTop, mmapBase] at *
    split at hv <;> omega
  | fail t =>
    obtain ⟨htakes, ⟨hstuck⟩⟩ := hgrow
    rw [htakes]
    rcases hstuck with ⟨hnone, hpmt, hlog⟩ | ⟨page, hpage, hlog⟩
    · -- Nothing has happened.
      refine iff_of_true ⟨mmapFailed, t.1, _, d, rfl, ?_, rfl, fun _ => ⟨rfl, ?_, ?_⟩, ?_⟩ (.inl hnone)
      · rwa [hpmt]
      · rw [hpmt]
        exact fun _ => rfl
      · exact ⟨[.refused], hlog, by simp⟩
      · rw [hpmt]
        exact h.next
    · -- A page is lost, at the least.
      refine iff_of_false ?_ (by simp [hpage])
      rintro ⟨v, ph', p', d', hb, -, -, hfail, -⟩
      simp only [brkFailed, Option.some.injEq, Prod.mk.injEq] at hb
      obtain ⟨rfl, rfl, rfl⟩ := hb
      exact not_balanced hlog (hfail rfl).2.2

/-- `brk` shrinks the heap. -/
theorem HeapExact.shrinkHeap_iff (hle : newHeapEnd ≤ d.stop) (hstart : d.start ≤ newHeapEnd)
    (hstop : d.stop ≤ mmapBase)
    (hzero : ∀ n pte, n.User → d.start ≤ n.addr → n.addr < d.stop → p.pmt.lookup n = some pte →
      pte.page ≠ 0)
    (hbrk : p.brk P newHeapEnd ph = p.shrinkHeap P newHeapEnd d ph) :
    BrkAtomic P newHeapEnd p ph d ↔ PlainOutside p.pmt newHeapEnd d.stop := by
  have htop : d.stop ≤ userTop := hstop.trans (by decide)
  have hshrink := shrink_cleared (P := P) (pageRoundUp d.stop) (pageNum newHeapEnd d.stop) (ph, p.pmt)
  rw [BrkAtomic, hbrk, shrinkHeap]
  generalize shrink _ _ _ _ = r at hshrink
  cases r with
  | panic => exact absurd hshrink not_false
  | fail t =>
    -- Every page of the heap is mapped, so that unmapping it does not fail.
    obtain ⟨i, hi, hpage⟩ := hshrink
    have huser := shrinkAt_user hle htop hi
    obtain ⟨h1, h2⟩ := (exists_shrinkAt_iff hle htop huser).1 ⟨i, hi, rfl⟩
    obtain ⟨pte, hpte⟩ := isSome_iff_exists.1
      ((h.mapped _ huser (hstart.trans h1) (h2.trans_le hstop)).2 h2)
    refine absurd (hpage pte (fun j hj => ?_) hpte) (hzero _ pte huser (hstart.trans h1) h2 hpte)
    exact shrinkAt_ne hle htop hi hj
  | ok t =>
    have hlook : ∀ n, n.User → t.2.lookup n = if newHeapEnd ≤ n.addr ∧ n.addr < d.stop then none else
        p.pmt.lookup n := by
      intro n hn
      have hiff := exists_shrinkAt_iff hle htop hn
      split
      next hin =>
        obtain ⟨i, hi, rfl⟩ := hiff.2 hin
        exact hshrink.inside i hi
      next hout =>
        rw [← hiff] at hout
        push Not at hout
        exact hshrink.outside n hout
    have hplain : t.2.Plain ↔ PlainOutside p.pmt newHeapEnd d.stop := by
      refine forall₃_congr fun n pte hn => ?_
      rw [hlook n hn]
      split <;> simp_all
    dsimp only
    rw [← hplain]
    refine ⟨?_, fun hplain => ?_⟩
    · -- `brk` returns only if `clean` does.
      rintro ⟨v, ph', p', d', hb, -⟩
      cases hr : PMT.clean P t with
      | ok u => exact PMT.plain_of_clean hr
      | fail | panic => rw [hr] at hb; cases hb
    have hclean : (PMT.clean P (t.1, t.2)).Holds (Cleaned _ t.2 0 0) _ _ :=
      PMT.clean_spec (I := fun _ _ _ => True) (fun _ _ _ _ _ => trivial) hplain trivial
    generalize PMT.clean P t = r at hclean
    cases r with
    | panic | fail => exact absurd hclean not_false
    | ok u =>
      have hex : HeapExact { p with
          pmt := u.2
          segTable := p.segTable.setHeap d.flags d.start
            (shrunkEnd d.stop (pageNum newHeapEnd d.stop)) }
          ⟨d.flags, d.start, shrunkEnd d.stop (pageNum newHeapEnd d.stop)⟩ := by
        refine ⟨rfl, ?_, fun n hn hn' hbase => ?_⟩
        · obtain ⟨hnum, -⟩ := pageRoundUp_add hle htop
          have := le_pageRoundUp (hle.trans htop)
          have := h.le
          rw [shrunkEnd]
          dsimp only
          split <;> omega
        · rw [addr_lt_shrunkEnd hle htop, hclean.lookup n hn, hlook n hn]
          split
          next hin => exact iff_of_false (by simp) (Nat.not_lt.2 hin.1)
          next hout =>
            rw [h.mapped n hn hn' hbase]
            omega
      refine ⟨_, _, _, _, rfl, hex, rfl, fun hv => ?_, hex.next⟩
      have hbound := pageRoundUp_add hle htop
      rw [shrunkEnd] at hv
      simp only [mmapFailed, userTop, mmapBase] at *
      split at hv <;> omega

end Brk

/-- `brk` is atomic iff, when it grows the heap, it gets no page at all or all it needs: one for each
    page of the heap, and one for each table which is missing; and when it shrinks the heap, every
    page which stays is mapped with one of `PAGE_R`, `PAGE_W`, `PAGE_X`. -/
theorem brk_atomic_iff (h : HeapExact p d) (hroom : d.stop + P.room ph.pool * pageSize ≤ mmapBase)
    (hzero : ∀ n pte, n.User → d.start ≤ n.addr → n.addr < d.stop → p.pmt.lookup n = some pte →
      pte.page ≠ 0) :
    BrkAtomic P newHeapEnd p ph d ↔
      (d.stop < newHeapEnd → newHeapEnd ≤ d.stop + P.room ph.pool * pageSize →
        (P.take ph.pool).1 = none ∨
          (P.takes (need p.pmt (pageRoundUp d.stop) (pageNum d.stop newHeapEnd)) ph.pool).isSome) ∧
      (newHeapEnd ≠ 0 → d.start ≤ newHeapEnd → newHeapEnd < d.stop →
        PlainOutside p.pmt newHeapEnd d.stop) := by
  have hstop : d.stop ≤ mmapBase := (Nat.le_add_right ..).trans hroom
  have hfailed : ∀ v ≤ mmapBase, v ≠ mmapFailed := by
    intro v hv
    simp only [mmapBase, mmapFailed] at *
    omega
  have hbrk : p.brk P newHeapEnd ph = brkHeap P newHeapEnd d p ph := by
    rw [brk, h.heap, bind_some]
  rw [brkHeap, mod_eq_of_lt (hroom.trans_lt (by decide))] at hbrk
  split at hbrk
  next h1 =>
    have hle := h.le
    refine iff_of_true ⟨d.stop, ph, p, d, hbrk, h, rfl, fun hv => absurd hv (hfailed _ hstop), h.next⟩
      ⟨fun hlt => ?_, fun h0 hstart hlt => ?_⟩ <;> omega
  next h1 =>
    split at hbrk
    next h2 =>
      refine iff_of_true ⟨mmapFailed, ph, p, d, hbrk, h, rfl, fun _ => ⟨rfl, fun _ => rfl, ?_⟩, h.next⟩
        ⟨fun _ hle => absurd hle (Nat.not_le.2 h2), fun _ _ hlt => ?_⟩
      · exact Balanced.refl _
      · omega
    next h2 =>
      rw [Nat.not_lt] at h2
      rw [not_or, not_or] at h1
      split_ifs at hbrk with h3
      · rw [h.growHeap_iff h3 (h2.trans hroom) hbrk]
        exact ⟨fun hc => ⟨fun _ _ => hc, fun _ _ hlt => absurd h3 hlt.asymm⟩, fun hc => hc.1 h3 h2⟩
      have hle := Nat.le_of_not_lt h3
      have hstart := Nat.le_of_not_lt h1.2.1
      rw [h.shrinkHeap_iff hle hstart hstop hzero hbrk]
      exact ⟨fun hc => ⟨fun hlt => absurd hlt h3, fun _ _ _ => hc⟩,
        fun hc => hc.2 h1.1 hstart (lt_of_le_of_ne hle h1.2.2)⟩

/-- A process without any page, whose heap is empty. -/
def fresh : Process := ⟨.new 0, SegmentTable.empty.setHeap .readWrite heapStart heapStart, none⟩

theorem fresh_exact : HeapExact fresh ⟨.readWrite, heapStart, heapStart⟩ :=
  ⟨rfl, le_rfl, fun _ _ hstart _ => iff_of_false (by simp [fresh, PMT.new, PMT.lookup, PMT.slot])
    (Nat.not_lt.2 hstart)⟩

/-- A physical memory with the pages from number 1 on. -/
def unused : Phys ℕ := ⟨1, [], .empty, fun _ _ => 0⟩

/-- The heap grows by a page. -/
theorem brk_atomic_iff_page : BrkAtomic .counting (heapStart + pageSize) fresh unused
    ⟨.readWrite, heapStart, heapStart⟩ :=
  (brk_atomic_iff fresh_exact (by decide)
    (fun _ _ _ h1 h2 => absurd h1 (Nat.not_le.2 h2))).2
    ⟨fun _ _ => .inr (by decide +kernel), fun _ _ h => absurd h (by decide)⟩

/-- There are three pages: one for the heap, and two for its tables. A heap of two pages is refused,
    but its first page stays, and the next `brk` panics, once there are pages again. -/
theorem brk_runs_out : ∃ ph p, fresh.brk (.upTo 4) (heapStart + 2 * pageSize) unused =
      some (mmapFailed, ph, p) ∧ p.segTable.heap = fresh.segTable.heap ∧
    (p.pmt.lookup (vpn heapStart)).isSome ∧ fresh.pmt.lookup (vpn heapStart) = none ∧
    ph.log.count (.out 1) = 1 ∧ ph.log.count (.back 1) = 0 ∧
    p.brk (.upTo 4) (heapStart + pageSize) unused = none := by
  simp only [← Option.isNone_iff_eq_none]
  decide +kernel

end Process

end HobbyOS
