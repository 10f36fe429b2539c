import HobbyOS.Process.Pages

/-!
# Copying on write refines copying at once

In the reference semantics (`Eager`), every process has pages of its own: a fork
copies all of them, with their contents, and a store changes the one page it goes to.
There are no physical pages, and no marks.

The kernel, on the other hand, shares the pages at a fork, and copies them one by one
as they are written to. The two are related by `Sim`: at every address there is a page
in the one iff there is in the other, with the same contents, and with the same flags
once marks are read as permission to write. Every event keeps this, as long as the
allocator does not refuse, and returns the same in both.
-/

namespace HobbyOS

open Finset Function Option

/-- The flags of a page, a mark being a permission to write. -/
def Flags.eager (f : Flags) : Flags := { f with w := f.w || f.cow, cow := false }

theorem protToPte_eager (prot : Access) : (protToPte prot).eager = protToPte prot := by
  simp [Flags.eager, protToPte, Flags.none]

theorem cowPte_eager (pte : Pte) : (VM.cowPte pte).flags.eager = pte.flags.eager := by
  simp only [VM.cowPte, VM.cowFlags]
  split_ifs with hw
  · simp [Flags.eager, hw]
  · rfl

theorem Flags.writable_eager {f : Flags} (h : f.writable) : f.eager.writable := by
  simp_all [Flags.writable, Flags.eager]

/-- The reference semantics: the processes, with the flags and the contents of their pages. -/
structure Eager where
  pids : Finset ℕ
  space : ℕ → Vpn → Option (Flags × (ℕ → UInt8))

namespace Eager

variable (t : Eager)

/-- No processes. -/
def init : Eager := ⟨∅, fun _ _ => none⟩

/-- The pages of a process change. -/
def set (pid : ℕ) (f : Vpn → Option (Flags × (ℕ → UInt8))) : Eager :=
  { t with space := update t.space pid f }

/-- One page of a process changes. -/
def setPage (pid : ℕ) (n : Vpn) (page : Flags × (ℕ → UInt8)) : Eager :=
  t.set pid (update (t.space pid) n (some page))

variable {t} in
@[simp] theorem setPage_space {q : ℕ} {n' : Vpn} {page : Flags × (ℕ → UInt8)} :
    (t.setPage pid n page).space q n' = if q = pid ∧ n' = n then some page else t.space q n' := by
  simp only [setPage, set, update_apply]
  by_cases hq : q = pid
  · subst hq
    simp [update_apply]
  · simp [hq]

def load (pid va : ℕ) : Out :=
  match t.space pid (vpn va) with
  | some (f, data) => if f.readable then .byte (data (va % pageSize)) else .fault
  | none => .fault

def store (pid va : ℕ) (byte : UInt8) : Eager × Out :=
  match t.space pid (vpn va) with
  | some (f, data) =>
    if f.writable then
      (t.setPage pid (vpn va) (f, update data (va % pageSize) byte), .done)
    else (t, .fault)
  | none => (t, .fault)

/-- An event of an existing process; a page cannot be mapped where there is one. -/
def stepOf (pid : ℕ) : Event → Option (Eager × Out)
  | .map _ va prot data =>
    if va < userTop then
      if (t.space pid (vpn va)).isSome then none
      else some (t.setPage pid (vpn va) (protToPte prot, data), .done)
    else some (t, .failed)
  | .fork _ child =>
    if child ∈ t.pids then some (t, .failed)
    else some ({ t.set child (t.space pid) with pids := insert child t.pids }, .done)
  | .load _ va => some (t, if va < userTop then t.load pid va else .fault)
  | .store _ va byte => some (if va < userTop then t.store pid va byte else (t, .fault))
  | .exit _ => some ({ t with pids := t.pids.erase pid }, .done)
  | .clear _ => some (t.set pid fun _ => none, .done)
  | _ => some (t, .failed)

def step (e : Event) : Option (Eager × Out) :=
  if e.pid ∈ t.pids then t.stepOf e.pid e
  else
    match e with
    | .create pid => some ({ t.set pid fun _ => none with pids := insert pid t.pids }, .done)
    | _ => some (t, .failed)

def run (es : List Event) : Option (Eager × List Out) := runs step t es

end Eager

variable {σ : Type*} {P : Pool σ ℕ} {live : σ → Set ℕ → Prop} {A0 : Set ℕ}
  {l0 : List (Transfer ℕ)} {s s' : Sys σ} {t t' : Eager} {pid child va : ℕ} {o : Out} {n : Vpn}
  {pte : Pte}

/-- The pages of the processes are those of the reference semantics. -/
structure Sim (s : Sys σ) (t : Eager) : Prop where
  pids : t.pids = s.pids
  space : ∀ pid ∈ s.pids, ∀ n : Vpn, n.User → t.space pid n =
    ((s.proc pid).pmt.lookup n).map fun pte => (pte.flags.eager, s.ph.mem pte.page)

namespace Sim

/-- A page changes in both. -/
theorem changed (h : Sim s t) (hc : s.Changed s' pid n pte) :
    Sim s' (t.setPage pid n (pte.flags.eager, s'.ph.mem pte.page)) := by
  refine ⟨h.pids.trans hc.pids.symm, fun q hq n' hn' => ?_⟩
  rw [hc.pids] at hq
  rw [hc.lookup, Eager.setPage_space]
  split_ifs with hqn
  · rfl
  · rw [h.space q hq n' hn']
    refine Option.map_congr fun pte' hpte' => ?_
    have hne := hc.alone q n' pte' ⟨hq, hn', hpte'⟩ fun e => hqn (Prod.mk.inj e)
    rw [hc.mem _ hne]

/-- The page stays as it is in the reference semantics. -/
theorem fault (h : Sim s t) (hc : s.Changed s' pid n pte)
    (ht : t.space pid n = some (pte.flags.eager, s'.ph.mem pte.page)) : Sim s' t := by
  have h' := h.changed hc
  refine ⟨h'.pids, fun q hq n' hn' => ?_⟩
  rw [← h'.space q hq n' hn', Eager.setPage_space]
  split_ifs with hqn
  · rw [hqn.1, hqn.2, ht]
  · rfl

end Sim

section Events

variable (hP : P.Lawful live) (h : s.Kept live A0 l0) (hx : s.Exclusive) (hsim : Sim s t)

include hP h hx hsim

theorem create_sim (hpid : pid ∉ s.pids) (hc : s.create P pid = (s', o))
    (hr : .refused ∉ s'.ph.log) : s'.Exclusive ∧ o = .done ∧
      Sim s' { t.set pid fun _ => none with pids := insert pid t.pids } := by
  obtain ⟨-, hmem, ⟨hr', -⟩ | ⟨rfl, page, ph, rfl⟩⟩ :=
    Sys.create_spec hP h.owned hpid hc
  · exact absurd hr' hr
  refine ⟨hx.mono fun q n pte hm => ⟨pte, hm.of_add, rfl, id⟩, rfl, by rw [hsim.pids]; rfl,
    fun q hq n hn => ?_⟩
  dsimp only [Eager.set]
  by_cases hqp : q = pid
  · subst hqp
    rw [Sys.add_proc_self, update_self]
    rfl
  · rw [Sys.add_proc_of_ne hqp, update_of_ne hqp, hmem]
    exact hsim.space q (mem_of_mem_insert_of_ne hq hqp) n hn

variable (hpid : pid ∈ s.pids)

include hpid

/-- Mapping a page panics where there is one, and succeeds elsewhere. -/
theorem map_sim (prot : Access) (data : ℕ → UInt8) (hva : va < userTop) :
    (s.map P pid va prot data = none ∧ (t.space pid (vpn va)).isSome) ∨
    ∃ s' o, s.map P pid va prot data = some (s', o) ∧ (.refused ∉ s'.ph.log →
      s'.Exclusive ∧ o = .done ∧ t.space pid (vpn va) = none ∧
        Sim s' (t.setPage pid (vpn va) (protToPte prot, data))) := by
  rw [hsim.space pid hpid _ (vpn_user hva)]
  refine (Sys.map_spec hP h.owned hpid prot data hva).imp (fun hm => ?_)
    fun ⟨s', o, hs', p, ph, _, hc⟩ => ⟨s', o, hs', fun hr => ?_⟩
  · exact ⟨hm.1, by rw [isSome_map]; exact hm.2⟩
  · obtain ⟨-, hr', -⟩ | ⟨rfl, hnone, -, page, hc, hdata⟩ := hc
    · exact absurd hr' hr
    refine ⟨hx.changed hc, rfl, by rw [hnone]; rfl, ?_⟩
    have hsim' := hsim.changed hc
    rwa [hdata, protToPte_eager] at hsim'

variable {byte : UInt8} {ev : Event}

omit hP in
/-- A store the hardware allows goes to the same page in both. -/
theorem write_sim (hva : va < userTop) (hw : s.write pid va byte = some s') : s'.Exclusive ∧
      ∃ t', t.store pid va byte = (t', .done) ∧ Sim s' t' := by
  obtain ⟨pte, _, hpte, hwr, rfl, -, hmem, hc⟩ := Sys.write_spec h.owned hpid hva hw
  have hspace := hsim.space pid hpid _ (vpn_user hva)
  replace hc := hc hx
  refine ⟨hx.changed hc, _, ?_, hsim.changed hc⟩
  rw [Eager.store, hspace, hpte]
  dsimp only [map_some]
  rw [if_pos (Flags.writable_eager hwr), hmem]

omit hP h hx in
/-- A store the hardware does not allow, to a page without a mark, is not allowed in the
    reference semantics either. -/
theorem store_fault (hva : va < userTop) (hw : s.write pid va byte = none)
    (hcow : ((s.proc pid).pmt.getFlags (vpn va)).cow = false) :
    t.store pid va byte = (t, .fault) := by
  rw [Eager.store, hsim.space pid hpid _ (vpn_user hva)]
  rw [Sys.write] at hw
  rw [PMT.getFlags] at hcow
  cases hpte : (s.proc pid).pmt.lookup (vpn va) with
  | none => rfl
  | some pte =>
    simp only [hpte] at hw hcow
    have hnw : pte.flags.writable = false := by
      by_contra hc
      simp [hc] at hw
    dsimp only [map_some]
    rw [if_neg]
    simpa [Flags.writable, Flags.eager, hcow] using hnw

/-- A store goes to the same page in both, after a fault or not. -/
theorem store_sim (byte : UInt8) (h0 : ∀ s A, live s A → 0 ∉ A) (hva : va < userTop) :
    ∃ s' o, s.store P pid va byte = some (s', o) ∧ (.refused ∉ s'.ph.log →
      s'.Exclusive ∧ ∃ t', t.store pid va byte = (t', o) ∧ Sim s' t') := by
  rcases Sys.store_cases hP h.owned hpid byte h0 hva fun _ _ _ => Set.notMem_empty _ with
    ⟨s1, hw, hs1⟩ | ⟨hw, hcow, hs1⟩ | ⟨ph, hs1, hr', -⟩ |
    ⟨pte, pmt, ph, page, s1, hpte, hcow, rfl, howned, hc, hdata, hs1⟩
  · exact ⟨s1, .done, hs1, fun _ => write_sim h hx hsim hpid hva hw⟩
  · exact ⟨s, .fault, hs1, fun _ => ⟨hx, t, store_fault hsim hpid hva hw hcow, hsim⟩⟩
  · exact ⟨_, _, hs1, fun hr => absurd hr' hr⟩
  -- The page is marked: the fault changes it in the kernel only.
  have hsim' : Sim (s.set pid { s.proc pid with pmt := pmt } ph) t := by
    refine hsim.fault hc ?_
    rw [hsim.space pid hpid _ (vpn_user hva), hpte, map_some, hdata]
    simp [Flags.eager, ownFlags, hcow]
  have hkept := h.set howned.later hpid rfl
  rcases hs1 with ⟨hw, hs1⟩ | ⟨s2, hw, hs1⟩
  · refine ⟨_, .fault, hs1, fun _ => ⟨hx.changed hc, t, store_fault hsim' hpid hva hw ?_, hsim'⟩⟩
    rw [PMT.getFlags, hc.lookup, if_pos ⟨rfl, rfl⟩]
    rfl
  · exact ⟨s2, .done, hs1, fun _ => write_sim hkept (hx.changed hc) hsim' hpid hva hw⟩

theorem fork_sim (hchild : child ∉ s.pids) :
    ∃ s' o, s.fork P pid child = some (s', o) ∧ (.refused ∉ s'.ph.log → s'.Exclusive ∧ o = .done ∧
        Sim s' { t.set child (t.space pid) with pids := insert child t.pids }) := by
  obtain ⟨hint, hm⟩ := h.plain pid hpid
  obtain ⟨s', o, hs', -, -, hc⟩ := Sys.fork_spec hP h.owned hpid hchild hm
  refine ⟨s', o, hs', fun hr => ?_⟩
  obtain ⟨-, hr', -⟩ | ⟨rfl, -, hc, -, -⟩ := hc
  · exact absurd hr' hr
  refine ⟨hx.copied hc hpid, rfl, by rw [hsim.pids, hc.pids], fun q hq n hn => ?_⟩
  rw [hc.pids, mem_insert] at hq
  -- A mark does not count in the reference semantics.
  have hmark : ∀ pte : Pte, ((VM.cowPte pte).flags.eager, s.ph.mem (VM.cowPte pte).page) =
      (pte.flags.eager, s.ph.mem pte.page) := fun pte => by
    rw [cowPte_eager, cowPte_page]
  have hspace := hsim.space pid hpid n hn
  dsimp only [Eager.set]
  by_cases hqc : q = child
  · subst hqc
    rw [update_self, hspace, hc.inDst n hn, hc.mem, inChild]
    cases (s.proc pid).pmt.lookup n with
    | none => rfl
    | some pte => exact congrArg some (hmark pte).symm
  rw [update_of_ne hqc, hc.mem]
  have hq' : q ∈ s.pids := hq.resolve_left hqc
  by_cases hqp : q = pid
  · subst hqp
    rw [hspace, hc.inSrc n hn, inParent]
    cases (s.proc q).pmt.lookup n with
    | none => rfl
    | some pte => exact congrArg some (hmark pte).symm
  · rw [hc.proc q hq' hqp, hsim.space q hq' n hn]

theorem exit_sim : ∃ s', s.exit P pid = some (s', .done) ∧
    s'.Exclusive ∧ Sim s' { t with pids := t.pids.erase pid } := by
  obtain ⟨hint, hm⟩ := h.plain pid hpid
  obtain ⟨ph, hmem, hs', -⟩ := Sys.exit_spec hP h.owned hpid (fun _ _ => Set.notMem_empty _) hm
  refine ⟨_, hs', hx.mono fun q n pte hmaps => ?_, by rw [hsim.pids], fun q hq n hn => ?_⟩
  · exact ⟨pte, ⟨mem_of_mem_erase hmaps.1, hmaps.2⟩, rfl, id⟩
  · rw [hmem]
    exact hsim.space q (mem_of_mem_erase hq) n hn

theorem clear_sim : ∃ s', s.clear P pid = (s', .done) ∧
    s'.Exclusive ∧ Sim s' (t.set pid fun _ => none) := by
  obtain ⟨ph, page, hs', hmem, -⟩ := Sys.clear_spec hP h.owned hpid fun _ _ => Set.notMem_empty _
  refine ⟨_, hs', hx.mono fun q n pte hmaps => ?_, hsim.pids, fun q hq n hn => ?_⟩
  · obtain ⟨hq, hn, hl⟩ := hmaps
    by_cases hqp : q = pid
    · subst hqp
      rw [Sys.set_proc_self] at hl
      cases hl
    · rw [Sys.set_proc_of_ne hqp] at hl
      exact ⟨pte, ⟨hq, hn, hl⟩, rfl, id⟩
  · dsimp only [Eager.set]
    by_cases hqp : q = pid
    · subst hqp
      rw [Sys.set_proc_self, update_self]
      rfl
    · rw [Sys.set_proc_of_ne hqp, update_of_ne hqp, Sys.set_ph, hmem]
      exact hsim.space q hq n hn

omit hP h hx in
theorem load_sim (hva : va < userTop) : s.load pid va = t.load pid va := by
  rw [Sys.load, Eager.load, hsim.space pid hpid _ (vpn_user hva)]
  cases (s.proc pid).pmt.lookup (vpn va) with
  | none => rfl
  | some pte => rfl

/-- An event of an existing process does the same in both, unless the allocator refuses. -/
theorem stepOf_sim (h0 : ∀ s A, live s A → 0 ∉ A) (hev : ev.Basic) :
    (s.stepOf P pid ev = none ∧ t.stepOf pid ev = none) ∨
    ∃ s' o, s.stepOf P pid ev = some (s', o) ∧ (.refused ∉ s'.ph.log →
      s'.Exclusive ∧ ∃ t', t.stepOf pid ev = some (t', o) ∧ Sim s' t') := by
  -- Where nothing happens in either of them.
  have hidle : ∀ o : Out, .refused ∉ s.ph.log →
      s.Exclusive ∧ ∃ t', some (t, o) = some (t', o) ∧ Sim s t' := fun o _ => ⟨hx, t, rfl, hsim⟩
  cases ev with
  | create => exact .inr ⟨s, .failed, rfl, hidle _⟩
  | map _ va prot data =>
    by_cases hva : va < userTop
    · simp only [Sys.stepOf, Eager.stepOf, if_pos hva]
      obtain hm | ⟨s', o, hs', hm⟩ := map_sim hP h hx hsim hpid prot data hva
      · exact .inl ⟨hm.1, if_pos hm.2⟩
      · refine .inr ⟨s', o, hs', fun hr => ?_⟩
        obtain ⟨hx', rfl, hnone, hsim'⟩ := hm hr
        exact ⟨hx', _, if_neg (by rw [hnone]; simp), hsim'⟩
    · simp only [Sys.stepOf, Eager.stepOf, if_neg hva]
      exact .inr ⟨s, .failed, rfl, hidle _⟩
  | fork _ child =>
    by_cases hchild : child ∈ s.pids
    · simp only [Sys.stepOf, Eager.stepOf, hsim.pids, if_pos hchild]
      exact .inr ⟨s, .failed, rfl, hidle _⟩
    simp only [Sys.stepOf, Eager.stepOf, hsim.pids, if_neg hchild]
    obtain ⟨s', o, hs', hf⟩ := fork_sim hP h hx hsim hpid hchild
    refine .inr ⟨s', o, hs', fun hr => ?_⟩
    obtain ⟨hx', rfl, hsim'⟩ := hf hr
    rw [hsim.pids] at hsim'
    exact ⟨hx', _, rfl, hsim'⟩
  | load _ va =>
    refine .inr ⟨s, _, rfl, fun _ => ⟨hx, t, ?_, hsim⟩⟩
    rw [Eager.stepOf]
    by_cases hva : va < userTop
    · simp only [if_pos hva, load_sim hsim hpid hva]
    · simp only [if_neg hva]
  | store _ va byte =>
    by_cases hva : va < userTop
    · simp only [Sys.stepOf, Eager.stepOf, if_pos hva, Option.some.injEq]
      obtain ⟨s', o, hs', hst⟩ := store_sim hP h hx hsim hpid byte h0 hva
      exact .inr ⟨s', o, hs', hst⟩
    · simp only [Sys.stepOf, Eager.stepOf, if_neg hva]
      exact .inr ⟨s, .fault, rfl, hidle _⟩
  | exit =>
    obtain ⟨s', hs', hx', hsim'⟩ := exit_sim hP h hx hsim hpid
    exact .inr ⟨s', .done, hs', fun _ => ⟨hx', _, rfl, hsim'⟩⟩
  | clear =>
    obtain ⟨s', hs', hx', hsim'⟩ := clear_sim hP h hx hsim hpid
    exact .inr ⟨s', .done, congrArg some hs', fun _ => ⟨hx', _, rfl, hsim'⟩⟩
  | brk | mmap | munmap | mprotect => cases hev

omit hpid

/-- Every event does the same in both, unless the allocator refuses. -/
theorem step_sim (h0 : ∀ s A, live s A → 0 ∉ A) (hev : ev.Basic) :
    (s.step P ev = none ∧ t.step ev = none) ∨
    ∃ s' o, s.step P ev = some (s', o) ∧ (.refused ∉ s'.ph.log →
      s'.Exclusive ∧ ∃ t', t.step ev = some (t', o) ∧ Sim s' t') := by
  unfold Sys.step Eager.step
  rw [hsim.pids]
  split_ifs with hpid
  · exact stepOf_sim hP h hx hsim hpid h0 hev
  right
  cases ev with
  | create pid =>
    obtain ⟨s', o, hc⟩ : ∃ s' o, s.create P pid = (s', o) := ⟨_, _, rfl⟩
    refine ⟨s', o, congrArg some hc, fun hr => ?_⟩
    obtain ⟨hx', rfl, hsim'⟩ := create_sim hP h hx hsim hpid hc hr
    rw [hsim.pids] at hsim'
    exact ⟨hx', _, rfl, hsim'⟩
  | _ => exact ⟨s, .failed, rfl, fun _ => ⟨hx, t, rfl, hsim⟩⟩

end Events

/-! ## Runs -/

/-- Copying on write refines copying at once. In a run in which the allocator does not refuse,
    every event returns what it does in the reference semantics, and the system does not panic
    where that goes on. A page which an event hands back is not mapped any more after it; those
    which are mapped are handed out once more than handed back, and once all address spaces are
    gone every page was handed back as often as it was handed out. -/
theorem cow_refines_eager {s0 : Sys σ} {es : List Event} {os : List Out} (hP : P.Lawful live)
    (h0 : ∀ s A, live s A → 0 ∉ A) (hboot : s0.Boot live A0) (hes : ∀ ev ∈ es, ev.Basic) (hrun : s0.run P es = some (s, os))
    (hr : .refused ∉ s.ph.log) : ∃ t, Eager.init.run es = some (t, os) ∧
      (∀ ev, ev.Basic → s.step P ev = none → t.step ev = none) ∧
      (∀ ev s' o page, ev.Basic → s.step P ev = some (s', o) → s.Frees s' page →
        ∀ pid n pte, s'.Maps pid n pte → pte.page ≠ page) ∧
      (∀ pid n pte, s.Maps pid n pte →
        s.ph.log.count (.out pte.page) = s.ph.log.count (.back pte.page) + 1) ∧
      (s.pids = ∅ → ∀ page, s.ph.log.count (.out page) = s.ph.log.count (.back page)) := by
  have hstep : ∀ (s : Sys σ) ev s' o, (∃ l0, s.Kept live A0 l0) → ev.Basic →
      s.step P ev = some (s', o) → (∃ l0, s'.Kept live A0 l0) ∧
        (.refused ∈ s.ph.log → .refused ∈ s'.ph.log) := by
    rintro s ev s' o ⟨l0, h⟩ hev hs
    have h' := Sys.step_kept hP h0 h hev hs
    obtain ⟨l, hl⟩ := h'.owned.log
    exact ⟨⟨_, h'⟩, fun hr => by rw [hl]; exact List.mem_append_right _ hr⟩
  obtain ⟨l0, hkept⟩ := runs_inv (fun s ev s' o h hev hs => (hstep s ev s' o h hev hs).1)
    ⟨_, hboot.kept⟩ hes hrun
  have hinit : s0.Exclusive ∧ Sim s0 Eager.init := by
    refine ⟨fun pid n pte _ _ _ hm => ?_, hboot.pids.symm, fun pid hpid => ?_⟩
    · simp [Sys.Maps, hboot.pids] at hm
    · simp [hboot.pids] at hpid
  obtain ⟨t, ht, hx, hsim⟩ := runs_sim (R := fun (s : Sys σ) t => s.Exclusive ∧ Sim s t) hstep
    (fun s t ev s' o ⟨l0, h⟩ ⟨hx, hsim⟩ hev hs hr => by
      obtain ⟨hn, -⟩ | ⟨s1, o1, hs1, hk⟩ := step_sim hP h hx hsim h0 hev
      · rw [hn] at hs
        cases hs
      · rw [hs1] at hs
        cases hs
        obtain ⟨hx', t', ht', hsim'⟩ := hk hr
        exact ⟨t', ht', hx', hsim'⟩)
    ⟨_, hboot.kept⟩ hinit hes hrun hr
  refine ⟨t, ht, fun ev hev hn => ?_, fun ev s' o page hev hs hf pid n pte hm => ?_,
    fun pid n pte hm => hkept.count_of_mem (Sys.mem_refs hm.1 hm.2.1 hm.2.2),
    hkept.count_of_empty hr⟩
  · obtain ⟨-, ht'⟩ | ⟨s1, o1, hs1, -⟩ := step_sim hP hkept hx hsim h0 hev
    · exact ht'
    · rw [hs1] at hn
      cases hn
  · rintro rfl
    exact (Sys.step_kept hP h0 hkept hev hs).notMem_of_frees hf (Sys.mem_refs hm.1 hm.2.1 hm.2.2)

/-- A process is forked, the child stores to a page, and both load from it. -/
def forkAndStore : List Event :=
  [.create 0, .map 0 0x1000 .readWrite fun _ => 0, .fork 0 1, .store 1 0x1000 7, .load 0 0x1000,
    .load 1 0x1000, .exit 0, .exit 1]

theorem cow_refines_eager_forkAndStore : ∃ t, Eager.init.run forkAndStore =
    some (t, [.done, .done, .done, .done, .byte 0, .byte 7, .done, .done]) := by
  obtain ⟨s, hrun, hr⟩ : ∃ s, Sys.boot.run .counting forkAndStore =
      some (s, [.done, .done, .done, .done, .byte 0, .byte 7, .done, .done]) ∧
        .refused ∉ s.ph.log := by
    decide +kernel
  obtain ⟨t, ht, -⟩ := cow_refines_eager Pool.counting_lawful (fun _ _ => Pool.Counted.zero_notMem)
    Sys.boot_boot (by simp [forkAndStore, Event.Basic]) hrun hr
  exact ⟨t, ht⟩

end HobbyOS
