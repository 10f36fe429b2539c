import HobbyOS.Process.Heap

/-!
# The first process

`Process::createInit` creates the first process. Its constructor maps the code to which
the handlers of signals return, which is a page of the kernel's own image: it was never
handed out by the allocator. Children inherit the mapping, and it is counted in
`PageRefCount` like any other page.

Whoever gives the last mapping of the page up hands it to the allocator. As long as every
process which does so finds another one which maps the page, only pages are handed back which
were handed out and not handed back since (`reachable_static`); but the first process only has to call
`exec` before it forks (`exec_frees_static`).

The ledger starts with the page of the image, as if it were handed out when the kernel was
linked. What the allocator does with a page which is none of its own is not looked at: the
pool is left as it is (`Pool.withStatic`), and the ledger shows what was handed to it.
-/

namespace HobbyOS

open Multiset Option Pool

/-- `USER_TRAMPOLINE_ADDR`. -/
def trampolineAddr : ℕ := 0x1000000000

/-- `PAGE_X | PAGE_R | PAGE_U | PAGE_V`. -/
def trampolineFlags : Flags := { Flags.none with v := true, r := true, x := true, u := true }

namespace Sys

variable {σ : Type*} {P : Pool σ ℕ} {live : σ → Set ℕ → Prop} {A0 : Set ℕ} {t pid : ℕ}
  {s0 s s' : Sys σ} {o : Out}

/-- `Process::createInit`, up to the pages of the program: `t` is the page of
    `signal_trampoline`. -/
def createInit (P : Pool σ ℕ) (t pid : ℕ) (s : Sys σ) : Option (Sys σ × Out) :=
  let r := s.create P pid
  if r.2 = .done then
    let p := r.1.proc pid
    match PMT.mapPage (vpn trampolineAddr) P t trampolineFlags (r.1.ph, p.pmt) with
    | .panic => none
    -- The process goes on without the page.
    | .fail (ph, pmt) => some (r.1.set pid { p with pmt := pmt } ph, .failed)
    | .ok (ph, pmt) => some (r.1.set pid { p with pmt := pmt } ph, .done)
  else none

/-- The system before the first process: the ledger starts with the page `t` of the image. -/
structure StaticBoot (live : σ → Set ℕ → Prop) (A0 : Set ℕ) (t : ℕ) (s : Sys σ) : Prop where
  pids : s.pids = ∅
  live : live s.ph.pool A0
  notMem : t ∉ A0
  log : s.ph.log = [.out t]
  refs : ∀ page, s.ph.refs.getRef page = 1

/-- The page of the image is owned before it is mapped. -/
theorem StaticBoot.owned (h : s.StaticBoot live A0 t) :
    HobbyOS.Owned (fun s A => live s (A \ {t})) A0 ∅ s.ph.log (.refused ∉ s.ph.log) s.ph
      (insert t A0) ∅ {t} 0 where
  live := by
    rw [Set.insert_sdiff_of_mem _ (Set.mem_singleton t), Set.sdiff_singleton_eq_self h.notMem]
    exact h.live
  replays := by
    rw [h.log]
    exact ⟨A0, rfl, h.notMem, rfl⟩
  kernel p hp := by
    refine ⟨.inr hp, fun hm => h.notMem ?_, by simp⟩
    rwa [← mem_singleton.1 hm]
  data p hp := .inl (mem_singleton.1 hp)
  tables := by simp
  nodup := by simp
  covers p _ := by
    rw [h.refs, count_singleton]
    split <;> simp
  since := ⟨[], rfl, by simp⟩
  freed := by simp
  all _ p hp := by
    rcases hp with rfl | hp
    · exact .inr (.inl (mem_singleton_self _))
    · exact .inl hp
  tight _ p := by
    rw [h.refs]
    exact le_max_left ..

/-- Nothing but the image. -/
def staticBoot : Sys ℕ := { boot with ph := ⟨2, [.out 1], .empty, fun _ _ => 0⟩ }

/-- The first process. -/
def initial : Sys ℕ :=
  ((createInit (counting.withStatic 1) 1 0 staticBoot).map Prod.fst).getD staticBoot

/-- The first process has forked. -/
def forked : Sys ℕ := lastState (step (counting.withStatic 1)) initial [.fork 0 1]

end Sys

end HobbyOS
