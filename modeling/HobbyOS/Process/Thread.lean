import HobbyOS.Process.Exec
import HobbyOS.Process.Pages

/-!
# The end of a thread

The stack of a cloned thread is one which the user has given: its constructor maps nothing. But
`Thread::exit` unmaps what would be the stack of a thread with this number, if the kernel had mapped
it, and whatever is there instead is lost (`exit_unmaps_other`).

Moreover, it stores to two words of the user; if their pages are shared since a fork, the process
gets pages of its own. So every page stays as it is if, and only if, there is no page at the bottom
of that range, and the words are writable (`exit_keeps_iff`).

The half of the kernel is not part of a `PMT`. A word which is there is one of the kernel's own
memory, and a range which is there is unmapped from gigapages which are taken for tables: then
`Thread::exit` has no result here.
-/

namespace HobbyOS

open Function Option

variable {σ : Type*} {P : Pool σ ℕ} {s s' : Phys σ × PMT} {pmt pmt1 pmt2 : PMT} {n : Vpn} {va : ℕ}

/-- The entries of the level 2 which `VM::createPMT` copies from `VM::bootstrap`: the gigapages of the
    kernel. -/
def kernelEntries : List ℕ := [256, 258, 320]

namespace PMT

/-- `PMT::unmapPages`, from the page `i` on, without the address it returns: it ends where no page
    is mapped. -/
def unmapPages (va i : ℕ) : ℕ → PMT → Option PMT
  | 0, pmt => some pmt
  | count + 1, pmt =>
    if (pageAt va i).l2 ∈ kernelEntries then none
    else
      let (pa, pmt) := pmt.unmapPage (pageAt va i)
      if pa = 0 then some pmt else unmapPages va (i + 1) count pmt

/-- The kernel may store to the page. -/
def Writable (pmt : PMT) (n : Vpn) : Prop := ∃ pte, pmt.lookup n = some pte ∧ pte.flags.r ∧ pte.flags.w

instance (pmt : PMT) (n : Vpn) : Decidable (pmt.Writable n) :=
  decidable_of_iff ((pmt.lookup n).any fun pte => pte.flags.r && pte.flags.w) (by
    simp [Writable, any_eq_true])

end PMT

namespace Thread

/-- A store of the kernel to a page of the user, if the hardware allows it. -/
def write (va : ℕ) (byte : UInt8) (s : Phys σ × PMT) : Phys σ × PMT :=
  let page := s.2.translate (vpn va)
  ({ s.1 with mem := update s.1.mem page (update (s.1.mem page) (va % pageSize) byte) }, s.2)

/-- A store of the kernel to an address of the user: `handleTrap` handles the fault, or panics. -/
def store (P : Pool σ ℕ) (va : ℕ) (byte : UInt8) (s : Phys σ × PMT) : Option (Phys σ × PMT) :=
  if userTop ≤ va then none
  else if s.2.Writable (vpn va) then some (write va byte s)
  else match VM.handleCowFault P (vpn va) s with
    | .ok s => if s.2.Writable (vpn va) then some (write va byte s) else none
    | _ => none

end Thread

/-- A thread made by `clone`. -/
structure Thread where
  pid : ℕ
  clearTidAddr : ℕ
  tidAddress : ℕ
  /-- `m_ustack`, which the constructor of `PCB` allocates, and nobody maps. -/
  ustack : Option ℕ

namespace Thread

variable {t : Thread}

/-- The addresses to which `Thread::exit` stores. -/
def words (t : Thread) : List ℕ :=
  ([t.clearTidAddr, t.tidAddress].filter (· ≠ 0)).flatMap fun a => [a, a + 1, a + 2, a + 3]

/-- The bottom of the stack of a thread, if the kernel had mapped it. -/
def stackBottom (t : Thread) : ℕ :=
  sub64 (sub64 userStackTop (t.pid * (userStackSize + pageSize) % 2 ^ 64)) userStackSize

/-- `Thread::clear`. -/
def clear (t : Thread) (pmt : PMT) : Option PMT :=
  if t.ustack = none then some pmt else pmt.unmapPages t.stackBottom 0 stackPages

/-- `Thread::exit`, unless the kernel panics: what it does to the pages of the process. -/
def exit (P : Pool σ ℕ) (t : Thread) (s : Phys σ × PMT) : Option (Phys σ × PMT) :=
  (t.words.foldlM (fun s va => store P va 0 s) s).bind fun s => (t.clear s.2).map (s.1, ·)

/-! ## What happens to an entry -/

/-- A page can become writable, and it can be unmapped. -/
def rank : Option Pte → ℕ
  | some pte => if pte.flags.r ∧ pte.flags.w then 1 else 0
  | none => 2

/-- Every entry is as before, or has got further. -/
def Climbs (pmt pmt' : PMT) : Prop :=
  ∀ n, pmt'.lookup n = pmt.lookup n ∨ rank (pmt.lookup n) < rank (pmt'.lookup n)

theorem Climbs.refl (pmt : PMT) : Climbs pmt pmt := fun _ => .inl rfl

theorem Climbs.rank_le (h : Climbs pmt pmt1) (n : Vpn) :
    rank (pmt.lookup n) ≤ rank (pmt1.lookup n) :=
  (h n).elim (fun he => he ▸ le_rfl) le_of_lt

theorem Climbs.trans (h : Climbs pmt pmt1) (h' : Climbs pmt1 pmt2) : Climbs pmt pmt2 := by
  intro n
  rcases h n with he | hlt
  · rw [← he]
    exact h' n
  · exact .inr (hlt.trans_le (h'.rank_le n))

/-- What has changed does not change back. -/
theorem Climbs.same_iff (h : Climbs pmt pmt1) (h' : Climbs pmt1 pmt2) :
    (∀ n, pmt2.lookup n = pmt.lookup n) ↔
      (∀ n, pmt1.lookup n = pmt.lookup n) ∧ ∀ n, pmt2.lookup n = pmt1.lookup n := by
  refine ⟨fun hsame => ?_, fun hsame n => (hsame.2 n).trans (hsame.1 n)⟩
  have hfirst : ∀ n, pmt1.lookup n = pmt.lookup n := fun n => (h n).resolve_right fun hlt => by
    have hle := h'.rank_le n
    rw [hsame n] at hle
    exact absurd hlt (not_lt.2 hle)
  exact ⟨hfirst, fun n => (hsame n).trans (hfirst n).symm⟩

theorem rank_of_writable (h : pmt.Writable n) : rank (pmt.lookup n) = 1 := by
  obtain ⟨pte, hpte, hw⟩ := h
  rw [hpte, rank, if_pos hw]

/-- A fault gives the process a page of its own. -/
theorem handleCowFault_lookup (h : VM.handleCowFault P n s = .ok s') : ∃ pte page,
    s.2.lookup n = some pte ∧ ∀ n', s'.2.lookup n' =
      if n' = n then some ⟨page, ownFlags pte.flags⟩ else s.2.lookup n' := by
  obtain ⟨ph, pmt⟩ := s
  cases hcow : (pmt.getFlags n).cow with
  | false =>
    rw [handleCowFault_of_not_cow hcow] at h
    cases h
  | true =>
    obtain ⟨pte, hpte, -⟩ := PMT.exists_of_getFlags_cow hcow
    have hv : (ownFlags pte.flags).v := (PMT.lookup_eq_some.1 hpte).2
    have hflags : pmt.getFlags n = pte.flags := by rw [PMT.getFlags, hpte]
    refine ⟨pte, ?_⟩
    simp only [VM.handleCowFault, hflags, remap_of_lookup hpte] at h
    split at h
    · cases h
    split at h
    · cases h
    split at h
    · cases h
      exact ⟨_, hpte, fun n' => PMT.lookup_remapped hpte hv _⟩
    · split at h
      · cases h
      · cases h
        exact ⟨_, hpte, fun n' => PMT.lookup_remapped hpte hv _⟩

theorem store_climbs {byte : UInt8} (h : store P va byte s = some s') :
    Climbs s.2 s'.2 ∧ ((∀ n, s'.2.lookup n = s.2.lookup n) ↔ va < userTop ∧ s.2.Writable (vpn va)) := by
  rw [store] at h
  split_ifs at h with htop hw
  · cases h
    exact ⟨.refl _, iff_of_true (fun _ => rfl) ⟨not_le.1 htop, hw⟩⟩
  split at h
  next s1 hf =>
    split_ifs at h with hw1
    cases h
    obtain ⟨pte, page, hpte, hlook⟩ := handleCowFault_lookup hf
    -- The page was not writable, and is writable now.
    have hlt : rank (s.2.lookup (vpn va)) < rank (s1.2.lookup (vpn va)) := by
      rw [rank_of_writable hw1, hpte, rank, if_neg fun he => hw ⟨pte, hpte, he⟩]
      exact one_pos
    refine ⟨fun n => ?_, iff_of_false (fun hsame => ?_) fun hc => hw hc.2⟩
    · by_cases hn : n = vpn va
      · rw [hn]
        exact .inr hlt
      · exact .inl ((hlook n).trans (if_neg hn))
    · exact absurd (congrArg rank (hsame (vpn va))) hlt.ne'
  · cases h

theorem stores_climb {vas : List ℕ} (h : vas.foldlM (fun s va => store P va 0 s) s = some s') :
    Climbs s.2 s'.2 ∧
      ((∀ n, s'.2.lookup n = s.2.lookup n) ↔ ∀ va ∈ vas, va < userTop ∧ s.2.Writable (vpn va)) := by
  induction vas generalizing s with
  | nil =>
    cases h
    exact ⟨.refl _, by simp⟩
  | cons va vas ih =>
    rw [List.foldlM_cons] at h
    obtain ⟨s1, h1, h⟩ := bind_eq_some_iff.1 h
    obtain ⟨hc1, hiff1⟩ := store_climbs h1
    obtain ⟨hc, hiff⟩ := ih h
    refine ⟨hc1.trans hc, ?_⟩
    rw [hc1.same_iff hc, List.forall_mem_cons, ← hiff1, hiff]
    refine and_congr_right fun hsame => forall₂_congr fun va _ => ?_
    rw [PMT.Writable, PMT.Writable, hsame]

theorem unmapPage_climbs (pmt : PMT) (n : Vpn) : Climbs pmt (pmt.unmapPage n).2 := by
  intro n'
  rw [PMT.unmapPage_lookup]
  split_ifs
  · cases pmt.lookup n' with
    | none => exact .inl rfl
    | some pte =>
      right
      rw [rank, rank]
      split_ifs <;> decide
  · exact .inl rfl

/-- There is no fault in words which are writable. -/
theorem stores_of_writable {vas : List ℕ} (h : ∀ va ∈ vas, va < userTop ∧ s.2.Writable (vpn va)) :
    ∃ s', vas.foldlM (fun s va => store P va 0 s) s = some s' ∧ s'.2 = s.2 := by
  induction vas generalizing s with
  | nil => exact ⟨s, rfl, rfl⟩
  | cons va vas ih =>
    rw [List.forall_mem_cons] at h
    obtain ⟨s', hs', he⟩ := ih (s := write va 0 s) h.2
    refine ⟨s', ?_, he⟩
    rw [List.foldlM_cons, store, if_neg (not_le.2 h.1.1), if_pos h.1.2]
    exact hs'

/-- Pages are unmapped after the first one. -/
theorem unmapPages_climbs {va i count : ℕ} (h : pmt.unmapPages va i (count + 1) = some pmt1) :
    (pageAt va i).l2 ∉ kernelEntries ∧ Climbs (pmt.unmapPage (pageAt va i)).2 pmt1 := by
  induction count generalizing i pmt with
  | zero =>
    rw [PMT.unmapPages] at h
    dsimp only at h
    split_ifs at h with hk
    · cases h
      exact ⟨hk, .refl _⟩
    · cases h
      exact ⟨hk, .refl _⟩
  | succ count ih =>
    rw [PMT.unmapPages] at h
    dsimp only at h
    split_ifs at h with hk
    · cases h
      exact ⟨hk, .refl _⟩
    · exact ⟨hk, (unmapPage_climbs _ _).trans (ih h).2⟩

/-- Nothing is mapped at the bottom of the range which is unmapped, and it is not one of the
    kernel. -/
def Clear (t : Thread) (pmt : PMT) : Prop :=
  t.ustack ≠ none → (vpn t.stackBottom).l2 ∉ kernelEntries ∧ pmt.lookup (vpn t.stackBottom) = none

theorem clear_climbs (h : t.clear pmt = some pmt1) :
    Climbs pmt pmt1 ∧ ((∀ n, pmt1.lookup n = pmt.lookup n) → t.Clear pmt) := by
  rw [clear] at h
  split_ifs at h with hu
  · cases h
    exact ⟨.refl _, fun _ hu' => absurd hu hu'⟩
  obtain ⟨hk, hrest⟩ : (vpn t.stackBottom).l2 ∉ kernelEntries ∧
      Climbs (pmt.unmapPage (vpn t.stackBottom)).2 pmt1 := unmapPages_climbs h
  have hfirst := unmapPage_climbs pmt (vpn t.stackBottom)
  refine ⟨hfirst.trans hrest, fun hsame _ => ⟨hk, ?_⟩⟩
  rw [← ((hfirst.same_iff hrest).1 hsame).1, PMT.unmapPage_lookup, if_pos rfl]

/-- No page is unmapped if there is not a first one. -/
theorem Clear.clear_eq (h : t.Clear pmt) : t.clear pmt = some pmt := by
  rw [clear]
  split_ifs with hu
  · rfl
  obtain ⟨hk, hnone⟩ : (pageAt t.stackBottom 0).l2 ∉ kernelEntries ∧
    pmt.lookup (pageAt t.stackBottom 0) = none := h hu
  rw [stackPages, PMT.unmapPages, if_neg hk, PMT.unmapPage, hnone]
  rfl

/-- The thread ends, and every page of the process is mapped as before. -/
def Keeps (P : Pool σ ℕ) (t : Thread) (s : Phys σ × PMT) : Prop :=
  ∃ s', t.exit P s = some s' ∧ ∀ n, s'.2.lookup n = s.2.lookup n

/-- The end of a thread leaves every page of the process alone if, and only if, nothing is mapped at
    the bottom of the range it unmaps, and its words are ones of the user, to which it can store
    without a fault. -/
theorem exit_keeps_iff : t.Keeps P s ↔
    (∀ va ∈ t.words, va < userTop ∧ s.2.Writable (vpn va)) ∧ t.Clear s.2 := by
  constructor
  · rintro ⟨s', h, hsame⟩
    obtain ⟨s1, h1, h2⟩ := bind_eq_some_iff.1 h
    obtain ⟨pmt, hclear, rfl⟩ := map_eq_some_iff.1 h2
    obtain ⟨hc1, hiff1⟩ := stores_climb h1
    obtain ⟨hc, hkept⟩ := clear_climbs hclear
    obtain ⟨hsame1, hsame2⟩ := (hc1.same_iff hc).1 hsame
    refine ⟨hiff1.1 hsame1, fun hu => ?_⟩
    rw [← hsame1]
    exact hkept hsame2 hu
  · rintro ⟨hwords, hclear⟩
    obtain ⟨s1, h1, he⟩ := stores_of_writable (P := P) hwords
    refine ⟨(s1.1, s.2), ?_, fun _ => rfl⟩
    rw [exit, h1, bind_some, he, hclear.clear_eq]
    rfl

/-- A process with four pages, which `mmap` has chosen. -/
def mapped : Sys ℕ :=
  lastState (Sys.step .counting) Sys.boot
    [.create 0, .mmap 0 ⟨0, 4 * pageSize, .readWrite, ⟨false, true, false, true⟩, -1, none⟩]

/-- A thread of it ends, whose number is small, and whose word is in the first page. -/
theorem exit_keeps_iff_one : Keeps .counting ⟨1, 0x3EFFFFC008, 0, some 100⟩
    (mapped.ph, (mapped.proc 0).pmt) :=
  exit_keeps_iff.2 ⟨by decide +kernel, fun _ => by decide +kernel⟩

/-- A thread ends whose number is such that its stack would be where these pages are. -/
theorem exit_unmaps_other : ∃ s', exit .counting ⟨209715, 0, 0, some 100⟩
    (mapped.ph, (mapped.proc 0).pmt) = some s' ∧
    ((mapped.proc 0).pmt.lookup (vpn 0x3EFFFFC000)).isSome ∧
    s'.2.lookup (vpn 0x3EFFFFC000) = none := by
  decide +kernel

end Thread

end HobbyOS
