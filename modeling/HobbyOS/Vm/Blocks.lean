import HobbyOS.Vm.Mmap
import HobbyOS.Vm.Tables

/-!
# Blocks of pages

`MemoryAllocator::kallocPages` hands out pages which follow each other, for the stacks of a process
and the segments of its program. No page table has an entry for the tables or the stack of the kernel
itself: such a block is owned like the page of a table (`Owned.takeBlock`).
-/

namespace HobbyOS

open Multiset

section Blocks

variable {σ : Type*} (B : BlockPool σ) (ph : Phys σ)

/-- `MemoryAllocator::kallocPages`: the first page of a block. -/
def kallocPages (n : ℕ) : Option ℕ × Phys σ :=
  match B.takeBlock n ph.pool with
  | (some page, pool) =>
    (some page, { ph with
      pool := pool, log := (List.range n).map (fun k => .out (page + k)) ++ ph.log })
  | (none, pool) => (none, { ph with pool := pool, log := .refused :: ph.log })

/-- `MemoryAllocator::kfreePages`. -/
def kfreePages (page n : ℕ) : Phys σ :=
  { ph with
    pool := B.giveBlock page n ph.pool
    log := (List.range n).map (fun k => .back (page + k)) ++ ph.log }

end Blocks

/-- `PMT::mapPages`, of the pages from `page` on. -/
def PMT.mapPages {σ : Type*} (P : Pool σ ℕ) (va page count : ℕ) (flags : Flags) (s : Phys σ × PMT) :
    Outcome (Phys σ × PMT) :=
  tryRange (fun i s => mapPage (pageAt va i) P (page + i) flags s) count s

/-! ## Ownership -/

namespace Owned

variable {σ : Type*} {B : BlockPool σ} {live : σ → Set ℕ → Prop} {A0 S A D : Set ℕ}
  {l0 : List (Transfer ℕ)} {e : Prop} {ph ph' : Phys σ} {M T : Multiset ℕ} {page n : ℕ}

/-- The pages of a block. -/
def blockPages (page n : ℕ) : Multiset ℕ := (Multiset.range n).map (page + ·)

theorem mem_blockPages {q : ℕ} : q ∈ blockPages page n ↔ q ∈ block page n := by
  simp only [blockPages, mem_map, mem_range, block, Set.mem_ofPred_eq]
  constructor
  · rintro ⟨k, hk, rfl⟩
    omega
  · rintro ⟨h1, h2⟩
    exact ⟨q - page, by omega, by omega⟩

theorem nodup_blockPages : (blockPages page n).Nodup :=
  (nodup_range n).map fun _ _ h => Nat.add_left_cancel h

theorem block_zero : block page 0 = ∅ :=
  Set.eq_empty_of_forall_notMem fun _ hq => absurd hq.2 (Nat.not_lt.2 hq.1)

theorem block_succ : block page (n + 1) = insert (page + n) (block page n) := by
  ext q
  simp only [block, Set.mem_ofPred_eq, Set.mem_insert_iff]
  omega

theorem notMem_block : page + n ∉ block page n := by
  rintro ⟨-, h⟩
  exact lt_irrefl _ h

/-- The ledger of a block which is handed out. -/
theorem replays_outs {l : List (Transfer ℕ)} (h : Replays A0 l A) (hd : Disjoint (block page n) A) :
    Replays A0 ((List.range n).map (fun k => .out (page + k)) ++ l) (block page n ∪ A) := by
  -- The last page comes first.
  induction n generalizing l A with
  | zero =>
    rwa [block_zero, Set.empty_union]
  | succ n ih =>
    rw [block_succ, Set.disjoint_insert_left] at hd
    rw [List.range_succ, List.map_append, List.append_assoc, block_succ, Set.insert_union,
      ← Set.union_insert]
    refine ih (A := insert (page + n) A) ⟨A, h, hd.1, rfl⟩ ?_
    exact Set.disjoint_insert_right.2 ⟨notMem_block, hd.2⟩

theorem kallocPages_some (hp : kallocPages B ph n = (some page, ph')) : ∃ s,
    B.takeBlock n ph.pool = (some page, s) ∧ ph' = { ph with
      pool := s, log := (List.range n).map (fun k => .out (page + k)) ++ ph.log } := by
  rw [kallocPages] at hp
  split at hp
  next q s heq =>
    simp only [Prod.mk.injEq, Option.some.injEq] at hp
    obtain ⟨rfl, rfl⟩ := hp
    exact ⟨s, heq, rfl⟩
  next s heq => cases hp

/-- A block is allocated. -/
theorem takeBlock (h : Owned live A0 S l0 e ph A D M T) (hB : B.Lawful live)
    (hp : kallocPages B ph n = (some page, ph')) : Disjoint (block page n) A ∧
      Owned live A0 S l0 e ph' (block page n ∪ A) D M (blockPages page n + T) := by
  obtain ⟨s, hs, rfl⟩ := kallocPages_some hp
  obtain ⟨hd, hlive⟩ := hB.takeBlock_some h.live hs
  have hnot : ∀ q ∈ A, q ∉ blockPages page n := fun q hq hm =>
    Set.disjoint_right.1 hd hq (mem_blockPages.1 hm)
  obtain ⟨l, hl, hD⟩ := h.since
  refine ⟨hd, hlive, replays_outs h.replays hd, fun q hq => ?_, fun q hq => .inr (h.data q hq),
    fun t ht => ?_, ?_, h.covers, ⟨_ ++ l, by rw [hl, List.append_assoc], fun q => ?_⟩, h.freed,
    fun he q hq => ?_, h.tight⟩
  · obtain ⟨h1, h2, h3⟩ := h.kernel q hq
    exact ⟨.inr h1, h2, fun hm => (mem_add.1 hm).elim (hnot q h1) h3⟩
  · rcases mem_add.1 ht with ht | ht
    · exact ⟨.inl (mem_blockPages.1 ht), fun hm => hnot t (h.data t hm) ht⟩
    · exact ⟨.inr (h.tables t ht).1, (h.tables t ht).2⟩
  · refine nodup_add.2 ⟨nodup_blockPages, h.nodup, ?_⟩
    exact disjoint_left.2 fun hq hT => hnot _ (h.tables _ hT).1 hq
  · simp [hD]
  · rcases hq with hq | hq
    · exact .inr (.inr (mem_add.2 (.inl (mem_blockPages.2 hq))))
    · exact (h.all he q hq).imp id (Or.imp id fun hT => mem_add.2 (.inr hT))

end Owned

end HobbyOS
