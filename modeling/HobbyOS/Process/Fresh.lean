import HobbyOS.Elf.Headers
import HobbyOS.Process.Exec
import HobbyOS.Process.Init

/-!
# The address space of a new program

`Process::createInit` builds the address space of the first process: its constructor maps the code to
which the handlers of signals return and the stack, `ElfLoader::load` the segments, and the list of
regions is empty.

`Process::exec` builds that of every other program. It gives all pages of the user up, with them the
code for the handlers, and nothing maps that again; the constructor alone does. So a process never
gets by `exec` what `createInit` would have built for it (`exec_not_fresh`). Nor does `exec` look at
the list of regions: those of the old program stay in it, without their pages (`exec_keeps_region`).
-/

namespace HobbyOS

open ElfLoader Option

namespace Process

variable {σ : Type*} (B : BlockPool σ)

/-- The constructor of `Process`, for the first one: `t` is the page of `signal_trampoline`. That a
    page could not be mapped is not looked at. -/
def construct (t ustack : ℕ) (s : Phys σ × PMT) : Outcome (Phys σ × PMT) :=
  (PMT.mapPage (vpn trampolineAddr) B.toPool t trampolineFlags s).ignore.andThen fun s =>
    (PMT.mapPages B.toPool (userStackTop - userStackSize) ustack stackPages .user s).ignore

/-- `Process::createInit` after the constructor. -/
def createProgram (args : ExecArgs) (ustack : ℕ) (s : Phys σ × PMT) : Option (Phys σ × Process) :=
  let segTable := SegmentTable.empty.setStack .readWrite (userStackTop - userStackSize) userStackTop
  match load B args.file args.junk args.junks s.2 segTable s.1 with
  | some (some info, ph, pmt, segTable) =>
    -- `Process::createInit(): failed to load ELF`
    if info.entry = 0 then none
    else
      some ({ ph with mem := (setupInitialStack args info ustack ph.mem).1 },
        ⟨pmt, segTable.setHeap .readWrite heapStart heapStart, some .new⟩)
  | _ => none

/-- `Process::createInit`, with arguments and an environment. Without memory for the table and the
    stacks the system does not get up. -/
def createInit (t : ℕ) (args : ExecArgs) (ph : Phys σ) : Option (Phys σ × Process) :=
  match VM.createPMT B.toPool ph with
  | (none, _) => none
  | (some pmt, ph) =>
    -- The constructor of `PCB` allocates the stack of the kernel, and that of the user.
    match kallocPages B ph stackPages with
    | (none, _) => none
    | (some _, ph) =>
      match kallocPages B ph stackPages with
      | (none, _) => none
      | (some ustack, ph) =>
        match construct B t ustack (ph, pmt) with
        | .ok s => createProgram B args ustack s
        | _ => none

/-- The address space of a process is the one which was built for another: the same pages are mapped,
    with the same flags, the segments and regions are the same, and system calls accept no address
    which is not mapped. -/
structure Fresh (init p : Process) : Prop where
  pages : ∀ n, n.User → (p.pmt.lookup n).map Pte.flags = (init.pmt.lookup n).map Pte.flags
  segTable : p.segTable = init.segTable
  regions : p.mmap.map Mmap.regions = init.mmap.map Mmap.regions
  checked : ∀ addr op, p.checkOperation addr 1 op = some true → (p.pmt.lookup (vpn addr)).isSome

variable {B} {t ustack : ℕ} {s u : Phys σ × PMT} {args : ExecArgs} {ph ph1 : Phys σ}
  {p : Process}

/-- The constructor maps the code for the handlers, if no page was refused. -/
theorem construct_trampoline (h : construct B t ustack s = .ok u) (hlog : .refused ∉ u.1.log) :
    (u.2.lookup (vpn trampolineAddr)).isSome := by
  have hmap : (PMT.mapPage (vpn trampolineAddr) B.toPool t trampolineFlags s).Holds _ _ _ :=
    mapPage_cases (show trampolineFlags.v from rfl) s
  rw [construct] at h
  generalize PMT.mapPage _ _ _ _ _ = r at h hmap
  -- The ledger only grows, and the mapping stays.
  have hstack : ∀ v : Phys σ × PMT, (PMT.mapPages B.toPool (userStackTop - userStackSize) ustack
      stackPages .user v).ignore = .ok u → (.refused ∈ v.1.log → .refused ∈ u.1.log) ∧
        ∀ n pte, v.2.lookup n = some pte → u.2.lookup n = some pte := by
    intro v hv
    obtain ⟨⟨c, -, hrow, -⟩, hgo⟩ := (mapPages_ignore (show Flags.user.v from rfl) v).of_ok hv
    exact ⟨hgo, fun n pte hn => hrow.keeps hn⟩
  cases r with
  | panic => cases h
  | fail v => exact absurd ((hstack v h).1 hmap.2.2) hlog
  | ok v =>
    have hv := hmap.2.1 (vpn trampolineAddr)
    rw [if_pos rfl] at hv
    rw [(hstack v h).2 _ _ hv]
    rfl

/-- What `createInit` has built. -/
theorem createInit_some (h : createInit B t args ph = some (ph1, p)) : ∃ ustack s u,
    construct B t ustack s = .ok u ∧ createProgram B args ustack u = some (ph1, p) := by
  rw [createInit] at h
  split at h
  · cases h
  next pmt ph2 hpmt =>
    split at h
    · cases h
    next kstack ph3 hkstack =>
      split at h
      · cases h
      next ustack ph4 hustack =>
        split at h
        next u hu => exact ⟨ustack, _, u, hu, h⟩
        · cases h

/-- The program of the first process has been loaded. -/
theorem createProgram_some (h : createProgram B args ustack u = some (ph1, p)) :
    ∃ file segTable v, args.file = some file ∧ tryRange
      (loadStep B (header file args.junk) args.junks)
      (header file args.junk).phnum
      ⟨u.1, u.2, segTable, file.advance Elf64Header.size, 0⟩ = .ok v ∧
      ph1.log = v.ph.log ∧ p.pmt = v.pmt := by
  rw [createProgram] at h
  split at h
  next info ph2 pmt segTable hload =>
    by_cases hentry : info.entry = 0
    · rw [if_pos hentry] at h
      cases h
    rw [if_neg hentry] at h
    obtain ⟨rfl, rfl⟩ := Prod.mk.inj (Option.some.inj h)
    cases hfile : args.file with
    | none =>
      rw [hfile] at hload
      cases hload
    | some file =>
      rw [hfile] at hload
      obtain ⟨-, -, v, hv, rfl, rfl, -⟩ := load_some hload
      exact ⟨file, _, v, rfl, hv, rfl, rfl⟩
  · cases h

end Process

namespace Task

variable {σ : Type*} {B : BlockPool σ} {t : ℕ} {args : ExecArgs} {ph ph' ph0 ph1 : Phys σ}
  {task task' : Task} {init : Process}

/-- The pages of a new program are those of its segments, and the stack. -/
theorem exec_lookup {n : Vpn} {file : Reader} (hfile : args.file = some file)
    (hx : exec B args task ph = some (0, ph', task')) (hn : (task'.proc.pmt.lookup n).isSome) :
    (∃ i < stackPages, n = pageAt (userStackTop - userStackSize) i) ∨
    ∃ i < (header file args.junk).phnum, ElfLoader.Covers
      (headerAt (header file args.junk).phoff args.junks
        (file.advance Elf64Header.size) i) n := by
  rw [exec] at hx
  cases hopens : args.opens with
  | false =>
    rw [hopens] at hx
    cases (Prod.mk.inj (Option.some.inj hx)).1
  | true =>
    rw [hopens, Bool.not_true, if_neg Bool.false_ne_true, hfile] at hx
    split at hx
    · cases (Prod.mk.inj (Option.some.inj hx)).1
    next ustack ph1 halloc =>
      rw [VM.clearUserPages] at hx
      dsimp only at hx
      split at hx
      · cases hx
      · cases (Prod.mk.inj (Option.some.inj hx)).1
      next info ph2 pmt segTable hload =>
        obtain ⟨-, -, v, hv, rfl, rfl, -⟩ := load_some hload
        have hext := (loadSegments_extends rfl).of_ok hv
        have hstack : (PMT.mapPages B.toPool (userStackTop - userStackSize) ustack stackPages .user
            (v.ph, v.pmt)).ignore.Holds _ _ _ :=
          mapPages_ignore (show Flags.user.v from rfl) (v.ph, v.pmt)
        rw [start] at hx
        generalize (PMT.mapPages _ _ _ _ _ _).ignore = r at hx hstack
        cases r with
        | panic => cases hx
        | fail w => cases hx
        | ok w =>
          obtain ⟨-, hx⟩ := Prod.mk.inj (Option.some.inj hx)
          obtain ⟨-, rfl⟩ := Prod.mk.inj hx
          obtain ⟨⟨c, hc, hrow, -⟩, -⟩ := hstack
          rcases hrow.cases n with he | ⟨k, hk, rfl, -⟩
          · right
            by_contra hnot
            push Not at hnot
            -- The tables are empty before the program is loaded.
            rw [he, show v.pmt.lookup n = none from hext.outside n hnot] at hn
            cases hn
          · exact .inl ⟨k, hk.trans_le hc, rfl⟩

/-- A process never gets by `exec` the address space which `createInit` builds for the same file,
    arguments and environment, when it has enough memory. -/
theorem exec_not_fresh (hx : exec B args task ph = some (0, ph', task'))
    (hinit : Process.createInit B t args ph0 = some (ph1, init)) (hlog : .refused ∉ ph1.log) :
    ¬ Process.Fresh init task'.proc := by
  intro hfresh
  obtain ⟨ustack, s, u, hu, hprog⟩ := Process.createInit_some hinit
  obtain ⟨file, segTable, v, hfile, hv, hphys, hpmt⟩ := Process.createProgram_some hprog
  rw [hphys] at hlog
  -- `createInit` maps the code for the handlers …
  have hext := (loadSegments_extends rfl).of_ok hv
  have hmapped := Process.construct_trampoline hu fun hr => hlog (hext.log hr)
  obtain ⟨pte, hpte⟩ := isSome_iff_exists.1 hmapped
  have hlook := hext.kept _ pte hpte
  have hsame := hfresh.pages (vpn trampolineAddr) (vpn_user (by decide))
  rw [hpmt, hlook] at hsame
  -- … and `exec` could only map it as a page of a segment, which `createInit` would not load.
  have hsome : (task'.proc.pmt.lookup (vpn trampolineAddr)).isSome := by
    rw [← isSome_map, hsame]
    rfl
  rcases exec_lookup hfile hx hsome with ⟨i, hi, he⟩ | ⟨i, hi, hc⟩
  · have hne : ∀ i < stackPages, vpn trampolineAddr ≠ pageAt (userStackTop - userStackSize) i := by
      decide +kernel
    exact hne i hi he
  · exact absurd (((hext.placed hlog).free i hi _ hc).symm.trans hpte) nofun

/-- A program without segments. -/
def minimal : ExecArgs where
  path := []
  argv := []
  envp := []
  opens := true
  file := some ⟨fun k => [0x7F, 0x45, 0x4C, 0x46, 2, 1, 0, 0, 0, 0, 0, 0, 0, 0, 0, 0, 2, 0, 243, 0,
    1, 0, 0, 0, 0, 0, 1].getD k 0, Elf64Header.size, 0⟩
  junk _ := 0
  junks _ _ := 0
  junkAddr _ := 0

/-- The program, as the first one and by `exec`. -/
theorem exec_not_fresh_minimal : ∃ ph' task' ph1 init,
    exec .counting minimal running.2 running.1 = some (0, ph', task') ∧
    Process.createInit .counting 0 minimal running.1 = some (ph1, init) ∧
    ¬ Process.Fresh init task'.proc := by
  obtain ⟨ph', task', hx, ph1, init, hinit, hlog⟩ : ∃ ph' task',
      exec .counting minimal running.2 running.1 = some (0, ph', task') ∧ ∃ ph1 init,
      Process.createInit .counting 0 minimal running.1 = some (ph1, init) ∧ .refused ∉ ph1.log := by
    decide +kernel
  exact ⟨ph', task', ph1, init, hx, hinit, exec_not_fresh hx hinit hlog⟩

/-- The first process, after it has mapped a page of its own. -/
def settled : Phys ℕ × Task :=
  let unused : Phys ℕ := ⟨1, [], .empty, fun _ _ => 0⟩
  match Process.createInit .counting 0 minimal unused with
  | none => (unused, running.2)
  | some (ph, p) =>
    let s : Space ℕ := ⟨ph, p.pmt, ⟨fun _ => 0, 0⟩⟩
    match Mmap.new.map .counting ⟨0, pageSize, .readWrite, ⟨false, true, false, true⟩, -1, none⟩ s with
    | none => (unused, running.2)
    | some (_, m, s) => (s.ph, { running.2 with proc := { p with pmt := s.pmt, mmap := some m } })

/-- The code for the handlers is not mapped any more, and the region of the old program is still
    there: system calls accept its addresses, where no page is mapped. -/
theorem exec_keeps_region : ∃ ph t, exec .counting minimal settled.2 settled.1 = some (0, ph, t) ∧
    (settled.2.proc.pmt.lookup (vpn trampolineAddr)).isSome ∧
    t.proc.pmt.lookup (vpn trampolineAddr) = none ∧
    t.proc.checkOperation (mmapTop - pageSize) 1 .write = some true ∧
    t.proc.pmt.lookup (vpn (mmapTop - pageSize)) = none := by
  decide +kernel

end Task

end HobbyOS
