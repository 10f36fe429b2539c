import HobbyOS.Vm.Blocks

/-!
# The contents of pages

What the kernel does to page tables, to reference counts and to the allocator does not depend on
what is in the pages. So the operations commute with exchanging the contents of all pages
(`Phys.withMem`); in particular, they leave them alone.
-/

namespace HobbyOS

variable {σ : Type*} {P : Pool σ ℕ} {B : BlockPool σ} {ph : Phys σ} {s : Phys σ × PMT} {n : Vpn}
  {flags : Flags} {page : ℕ}

/-- The same physical memory with other contents. -/
def Phys.withMem (mem : ℕ → ℕ → UInt8) (ph : Phys σ) : Phys σ := { ph with mem := mem }

variable (mem : ℕ → ℕ → UInt8)

theorem kallocPage_withMem : kallocPage P (ph.withMem mem) =
    ((kallocPage P ph).1, (kallocPage P ph).2.withMem mem) := by
  rw [kallocPage, kallocPage, Phys.withMem]
  rcases P.take ph.pool with ⟨_ | page, pool⟩ <;> rfl

theorem kallocPage_mem (ph : Phys σ) : (kallocPage P ph).2.mem = ph.mem := by
  have h : kallocPage P ph = ((kallocPage P ph).1, (kallocPage P ph).2.withMem ph.mem) :=
    kallocPage_withMem ph.mem
  exact congrArg (fun r => r.2.mem) h

theorem kallocPages_mem (ph : Phys σ) (count : ℕ) : (kallocPages B ph count).2.mem = ph.mem := by
  rw [kallocPages]
  rcases B.takeBlock count ph.pool with ⟨_ | page, pool⟩ <;> rfl

namespace PMT

/-- What holds of the physical memory, and of whatever is left of it by an allocation, holds after
    mapping a page. -/
theorem mapPage_phys {I : Phys σ → Prop} (hI : ∀ ph, I ph → I (kallocPage P ph).2) (h : I s.1) :
    (mapPage n P page flags s).Holds (fun t => I t.1) (fun t => I t.1) True := by
  have halloc {ph ph' : Phys σ} {o : Option ℕ} (h : I ph) (hp : kallocPage P ph = (o, ph')) :
      I ph' := by
    have hph := hI ph h
    rwa [hp] at hph
  have hwalk := walk_induct (P := P) (n := n) (I := fun t => I t.1) (J := fun t => I t.1) h
    (fun _ _ ht _ hp => halloc ht hp) fun _ _ ht hadd => halloc ht hadd.take.choose_spec
  refine (hwalk.mono_panic fun _ => trivial).andThen fun t ht => ?_
  split
  · trivial
  · exact ht.1

theorem mapPages_phys {I : Phys σ → Prop} (hI : ∀ ph, I ph → I (kallocPage P ph).2) (h : I s.1)
    (va count : ℕ) :
    (mapPages P va page count flags s).Holds (fun t => I t.1) (fun t => I t.1) True :=
  tryRange_induct (P := fun _ (t : Phys σ × PMT) => I t.1) h fun _ _ _ ht => mapPage_phys hI ht

end PMT

/-! ## Pages which stay handed out -/

/-- The pages `A` are handed out, and maybe others. -/
def Reserved (live : σ → Set ℕ → Prop) (A : Set ℕ) (ph : Phys σ) : Prop :=
  ∃ A', A ⊆ A' ∧ live ph.pool A'

section Reserved

variable {live : σ → Set ℕ → Prop} {A : Set ℕ} {ph ph' : Phys σ} {page n : ℕ}

theorem Reserved.kallocPage (hP : P.Lawful live) (h : Reserved live A ph) :
    Reserved live A (kallocPage P ph).2 := by
  obtain ⟨A', hA, hlive⟩ := h
  rw [HobbyOS.kallocPage]
  rcases htake : P.take ph.pool with ⟨_ | page, pool⟩
  · exact ⟨A', hA, hP.take_none hlive htake⟩
  · exact ⟨insert page A', hA.trans (Set.subset_insert _ _), (hP.take_some hlive htake).2⟩

theorem Reserved.notMem (hP : P.Lawful live) (h : Reserved live A ph)
    (hp : HobbyOS.kallocPage P ph = (some page, ph')) : page ∉ A := by
  obtain ⟨A', hA, hlive⟩ := h
  obtain ⟨s, hs, -⟩ := Owned.kallocPage_some hp
  exact fun hm => (hP.take_some hlive hs).1 (hA hm)

theorem Reserved.kallocPages (hB : B.Lawful live) (h : Reserved live A ph) :
    Reserved live A (kallocPages B ph n).2 := by
  obtain ⟨A', hA, hlive⟩ := h
  rw [HobbyOS.kallocPages]
  rcases htake : B.takeBlock n ph.pool with ⟨_ | page, pool⟩
  · exact ⟨A', hA, hB.takeBlock_none hlive htake⟩
  · exact ⟨_, hA.trans Set.subset_union_right, (hB.takeBlock_some hlive htake).2⟩

theorem Reserved.disjoint (hB : B.Lawful live) (h : Reserved live A ph)
    (hp : HobbyOS.kallocPages B ph n = (some page, ph')) : Disjoint (block page n) A := by
  obtain ⟨A', hA, hlive⟩ := h
  obtain ⟨s, hs, -⟩ := Owned.kallocPages_some hp
  exact (hB.takeBlock_some hlive hs).1.mono_right hA

end Reserved

/-! ## Regions -/

/-- The same for what the operations of `Mmap` work on. -/
def Space.withMem (mem : ℕ → ℕ → UInt8) (s : Space σ) : Space σ := { s with ph := s.ph.withMem mem }

namespace Mmap

variable {addr stop length : ℕ} {m : Mmap} {rs : List MmapRegion} {r : MmapRegion}
  {t : Space σ}

end Mmap

end HobbyOS
