import HobbyOS.Fs.Ends
import HobbyOS.Sched.Garbage

/-!
# The users of a table

A process and its threads use one `FdTable`, which has the number of the process here:

* `Process::fork` clones the table of the process;
* `Process::cloneThread` acquires it;
* `Process::clear` releases it, after the threads have been ended.

`Thread::exit` does not release it. So a table is given up with its process only if the process had
no threads (`Single`). Moreover a process which ends while it has threads does not come to the end of
`Process::clear`: it yields in `Thread::exit`, as one which has ended already.
-/

namespace HobbyOS

open Finset Function Option

namespace Tasks

/-- A thread or a process which has ended. -/
def Exited (s : Tasks) (p : ℕ) : Prop := p ∈ s.garbage ∨ p ∈ s.deleted

instance (s : Tasks) (p : ℕ) : Decidable (s.Exited p) := inferInstanceAs (Decidable (_ ∨ _))

/-- The process and the threads of it which have not ended. -/
def users (s : Tasks) (p : ℕ) : Finset ℕ :=
  (Finset.range s.nextPid).filter fun q => s.owner q = p ∧ ¬ s.Exited q

/-- The process which came to the end of `Process::clear` in a step. -/
def cleared (s s' : Tasks) : Option ℕ :=
  (s'.garbage.filter fun p => p ∉ s.garbage ∧ s'.owner p = p).head?

/-- A process without threads ends, or nothing. -/
def Alone (s : Tasks) : Option Ending → Prop
  | none => True
  | some (.thread _) => False
  | some (.process pid) => s.threads pid = []

instance (s : Tasks) (e : Option Ending) : Decidable (s.Alone e) := by
  unfold Alone
  split <;> infer_instance

end Tasks

/-- The processes and threads, and their files. -/
structure Users where
  tasks : Tasks
  files : Files

/-- What the running process does, or the timer. -/
inductive UsersEvent
  | task (c : TaskCall)
  | file (c : FdCall)

namespace Users

variable (s : Users)

/-- The process which uses the table. -/
def me : ℕ := s.tasks.owner s.tasks.kernel.running

/-- The table of a process which came to the end of `Process::clear` is released. -/
def releaseCleared (tasks : Tasks) : Option (Files × ℤ) :=
  match s.tasks.cleared tasks with
  | some p => s.files.step (.release p)
  | none => some (s.files, 0)

/-- What a step of processes and threads does to the tables. -/
def follows (tasks : Tasks) : TaskCall → Option (Files × ℤ)
  | .fork => s.files.step (.clone s.me s.tasks.nextPid)
  | .clone _ => s.files.step (.acquire s.me)
  | _ => s.releaseCleared tasks

/-- One step. -/
def step : UsersEvent → Option (Users × ℤ)
  | .task c => (s.tasks.step c).bind fun r => (s.follows r.1 c).map fun f => (⟨r.1, f.1⟩, r.2)
  | .file c =>
    if s.tasks.closing s.tasks.kernel.running = none ∧
        s.tasks.kernel.frame s.tasks.kernel.running = .user then
      (s.files.step (.call s.me c)).map fun f => (⟨s.tasks, f.1⟩, f.2)
    else none

/-- `s_init` alone. -/
def start (logBlockSize : ℕ) (regular : ℕ → RegularFile) : Users :=
  ⟨.boot, .start logBlockSize regular⟩

/-- No thread ends, and a process only if it has no threads. -/
def Single : UsersEvent → Prop
  | .task c => s.tasks.Alone (s.tasks.ends c)
  | .file _ => True

instance (ev : UsersEvent) : Decidable (s.Single ev) := by
  cases ev <;> unfold Single <;> infer_instance

end Users

/-! ## What a step does to processes and threads -/

namespace Tasks

variable {s s' : Tasks} {o : ℤ} {pid m : ℕ}

/-- The same processes and threads are there. -/
structure Stays (s s' : Tasks) : Prop where
  owner : s'.owner = s.owner
  threads : s'.threads = s.threads
  closing : ∀ p, s'.closing p = s.closing p ∨ s'.closing p = none
  nextPid : s'.nextPid = s.nextPid
  exited : ∀ p, s'.Exited p ↔ s.Exited p
  garbage : ∀ p ∈ s'.garbage, p ∈ s.garbage

theorem Stays.cleared (h : s.Stays s') : s.cleared s' = none := by
  rw [Tasks.cleared, List.filter_eq_nil_iff.2 fun p hp => by simp [h.garbage p hp]]
  rfl

theorem Stays.users (h : s.Stays s') (p : ℕ) : s'.users p = s.users p := by
  rw [Tasks.users, Tasks.users, h.nextPid, h.owner]
  exact filter_congr fun q _ => and_congr_right' (not_congr (h.exited q))

/-- Nothing ends, and nothing is created. -/
theorem stays_of_step {c : TaskCall} (hends : s.ends c = none) (hc : ¬ Starts c)
    (h : s.step c = some (s', o)) : s.Stays s' := by
  have hlone : s.Lone c := fun pid hp => by
    rw [hends] at hp
    cases hp
  rcases step_effect hlone h with ⟨he, -⟩ | ⟨hs, -, -⟩ | - | - | -
  · rw [hends] at he
    cases he
  · exact absurd hs hc
  · exact ⟨rfl, rfl, fun _ => .inl rfl, rfl, fun _ => Iff.rfl, fun _ hp => hp⟩
  all_goals exact ⟨rfl, rfl, fun _ => .inl rfl, rfl, mem_clearGarbage (s := s.awake),
    fun _ hp => List.mem_of_mem_filter hp⟩

/-- The process `pid` has ended. -/
structure Retires (s : Tasks) (pid : ℕ) (s' : Tasks) : Prop where
  owner : s'.owner = s.owner
  threads : s'.threads = s.threads
  closing : ∀ p, s'.closing p = s.closing p ∨ s'.closing p = none
  nextPid : s'.nextPid = s.nextPid
  garbage : s'.garbage = s.garbage ++ [pid]
  deleted : s'.deleted = s.deleted

theorem endProcess_retires (hlone : s.threads pid = []) (h : s.endProcess pid = some s') :
    s.Retires pid s' := by
  obtain ⟨k, k', parent, children, -, -, -, rfl⟩ := endProcess_eq hlone h
  exact ⟨rfl, rfl, fun _ => .inl rfl, rfl, rfl, rfl⟩

theorem exit_retires (hok : s.Alone (s.ends .exit)) (h : s.exit = some s') :
    s.threads (s.owner s.kernel.running) = [] ∧ s.Retires (s.owner s.kernel.running) s' := by
  rw [exit] at h
  rw [ends] at hok
  split_ifs at h hok with ho
  · rw [ho]
    exact ⟨hok, endProcess_retires hok h⟩
  · exact absurd hok id

theorem exitGroup_retires (hok : s.Alone (s.ends .exitGroup)) (h : s.exitGroup = some s') :
    s.threads (s.owner s.kernel.running) = [] ∧ s.Retires (s.owner s.kernel.running) s' := by
  rw [exitGroup] at h
  rw [ends] at hok
  cases hth : s.threads (s.owner s.kernel.running) with
  | nil =>
    rw [hth, List.head?_nil, closeGroup] at h
    obtain ⟨h1, h2, h3, h4, h5, h6⟩ := endProcess_retires (s := { s with
      closing := update s.closing s.kernel.running none }) hth h
    refine ⟨rfl, h1, h2, fun p => ?_, h4, h5, h6⟩
    rcases h3 p with hp | hp
    · rw [hp]
      by_cases hr : p = s.kernel.running
      · exact .inr (hr ▸ update_self ..)
      · exact .inl (update_of_ne hr _ _)
    · exact .inr hp
  | cons t ts =>
    rw [hth, List.head?_cons, groupEnds] at hok
    split_ifs at hok
    · exact absurd (hth.symm.trans hok) (List.cons_ne_nil _ _)
    · exact absurd hok id

variable (hs : s.Retires pid s')
include hs

theorem Retires.exited (p : ℕ) : s'.Exited p ↔ s.Exited p ∨ p = pid := by
  rw [Exited, Exited, hs.garbage, hs.deleted, List.mem_append, List.mem_singleton, or_right_comm]

theorem Retires.cleared (hp : pid ∉ s.garbage) (ho : s.owner pid = pid) :
    s.cleared s' = some pid := by
  rw [Tasks.cleared, hs.garbage, hs.owner, List.filter_append,
    List.filter_eq_nil_iff.2 fun p hp => by simp [hp], List.nil_append,
    List.filter_cons_of_pos (by simp [hp, ho])]
  rfl

/-- It had ended before. -/
theorem Retires.stays (hp : pid ∈ s.garbage) : s.Stays s' := by
  refine ⟨hs.owner, hs.threads, hs.closing, hs.nextPid, fun q => ?_, fun q hq => ?_⟩
  · rw [hs.exited, or_iff_left_of_imp]
    rintro rfl
    exact .inl hp
  · rw [hs.garbage, List.mem_append, List.mem_singleton] at hq
    obtain hq | rfl := hq
    · exact hq
    · exact hp

theorem Retires.users_of_ne {p : ℕ} (hp : s.owner pid ≠ p) : s'.users p = s.users p := by
  rw [Tasks.users, Tasks.users, hs.nextPid, hs.owner]
  refine filter_congr fun q _ => and_congr_right fun hq => ?_
  rw [hs.exited, or_iff_left]
  rintro rfl
  exact hp hq

omit hs

variable (hnext : s'.nextPid = s.nextPid + 1) (howner : s'.owner = update s.owner s.nextPid m)
  (hexited : ∀ p, s'.Exited p ↔ s.Exited p) (hfresh : ¬ s.Exited s.nextPid) (p : ℕ)

include hnext howner hexited hfresh

/-- A thread of the process `m` is created, or the process `m`. -/
theorem users_of_start :
    s'.users p = if m = p then insert s.nextPid (s.users p) else s.users p := by
  have hold : (Finset.range s.nextPid).filter (fun q => s'.owner q = p ∧ ¬ s'.Exited q) =
      s.users p := by
    refine filter_congr fun q hq => ?_
    rw [howner, update_of_ne (mem_range.1 hq).ne, hexited]
  have hnew : (s'.owner s.nextPid = p ∧ ¬ s'.Exited s.nextPid) ↔ m = p := by
    rw [howner, update_self, hexited, and_iff_left hfresh]
  rw [users, hnext, range_add_one, filter_insert, hold]
  exact if_congr hnew rfl rfl

theorem card_users_of_start :
    (s'.users p).card = (s.users p).card + if m = p then 1 else 0 := by
  rw [users_of_start hnext howner hexited hfresh]
  split_ifs
  · exact card_insert_of_notMem fun h =>
      (mem_range.1 (mem_filter.1 h).1).false
  · rfl

end Tasks

/-! ## Runs -/

namespace Users

variable {s s' : Users} {o : ℤ}

/-- Every process which has not ended has a table, with as many references as it has users. Threads
    do not end. -/
structure Even (s : Users) : Prop where
  accounted : Accounted s.files.heap s.files.all
  closing : ∀ p, s.tasks.closing p = none
  fresh : ∀ q, s.tasks.nextPid ≤ q → s.tasks.owner q = q ∧ ¬ s.tasks.Exited q
  owner : ∀ q < s.tasks.nextPid, s.tasks.owner q < s.tasks.nextPid
  idem : ∀ q, s.tasks.owner (s.tasks.owner q) = s.tasks.owner q
  linked : ∀ q < s.tasks.nextPid, s.tasks.owner q ≠ q → q ∈ s.tasks.threads (s.tasks.owner q)
  live : ∀ p, p ∈ s.files.live ↔ p < s.tasks.nextPid ∧ s.tasks.owner p = p ∧ ¬ s.tasks.Exited p
  refCount : ∀ p ∈ s.files.live, (s.files.table p).refCount = (s.tasks.users p).card

namespace Even

variable (hI : s.Even)

include hI

variable {t : Tasks} {p : ℕ} {f : Files} {n : ℤ}

theorem stays (h : s.tasks.Stays t) : Even ⟨t, s.files⟩ where
  accounted := hI.accounted
  closing p := (h.closing p).elim (fun hp => hp.trans (hI.closing p)) id
  fresh q hq := by
    rw [h.owner, h.exited]
    exact hI.fresh q (h.nextPid ▸ hq)
  owner := by
    rw [h.nextPid, h.owner]
    exact hI.owner
  idem := by
    rw [h.owner]
    exact hI.idem
  linked := by
    rw [h.nextPid, h.owner, h.threads]
    exact hI.linked
  live p := by
    rw [h.nextPid, h.owner, h.exited]
    exact hI.live p
  refCount p hp := by
    rw [h.users]
    exact hI.refCount p hp

/-- A process without threads is the only user of its table. -/
theorem users_eq_singleton (hp : p ∈ s.files.live) (hth : s.tasks.threads p = []) :
    s.tasks.users p = {p} := by
  obtain ⟨hlt, hown, hex⟩ := (hI.live p).1 hp
  refine eq_singleton_iff_unique_mem.2
    ⟨mem_filter.2 ⟨mem_range.2 hlt, hown, hex⟩, fun q hq => ?_⟩
  obtain ⟨hq, hqp, -⟩ := mem_filter.1 hq
  by_contra hne
  have hmem := hI.linked q (mem_range.1 hq) (hqp.trans_ne (Ne.symm hne))
  rw [hqp, hth] at hmem
  cases hmem

/-- A thread of the process `m` is created, or the process `m`. -/
theorem starts {m : ℕ} (hnext : t.nextPid = s.tasks.nextPid + 1)
    (howner : t.owner = update s.tasks.owner s.tasks.nextPid m)
    (hm : m < s.tasks.nextPid ∧ s.tasks.owner m = m ∨ m = s.tasks.nextPid)
    (hexited : ∀ p, t.Exited p ↔ s.tasks.Exited p) (hclosing : t.closing = s.tasks.closing)
    (hthreads : ∀ p, ∀ q ∈ s.tasks.threads p, q ∈ t.threads p)
    (hnew : m ≠ s.tasks.nextPid → s.tasks.nextPid ∈ t.threads m) (ha : Accounted f.heap f.all)
    (hlive : ∀ p, p ∈ f.live ↔ p ∈ s.files.live ∨ p = s.tasks.nextPid ∧ m = p)
    (href : ∀ p ∈ f.live, (f.table p).refCount = (s.tasks.users p).card + if m = p then 1 else 0) :
    Even ⟨t, f⟩ := by
  have hne : ∀ q, q ≠ s.tasks.nextPid → t.owner q = s.tasks.owner q := fun q hq => by
    rw [howner, update_of_ne hq]
  have hself : t.owner s.tasks.nextPid = m := by rw [howner, update_self]
  have hlt : ∀ q, q ≠ s.tasks.nextPid → s.tasks.owner q ≠ s.tasks.nextPid := fun q hq => by
    obtain hq | hq := Nat.lt_or_ge q s.tasks.nextPid
    · exact (hI.owner q hq).ne
    · rwa [(hI.fresh q hq).1]
  refine ⟨ha, fun p => ?_, fun q hq => ?_, fun q hq => ?_, fun q => ?_, fun q hq ho => ?_,
    fun p => ?_, fun p hp => (href p hp).trans
      (Tasks.card_users_of_start hnext howner hexited (hI.fresh _ le_rfl).2 p).symm⟩
  · rw [hclosing]
    exact hI.closing p
  · rw [hnext] at hq
    rw [hne q (by omega), hexited]
    exact hI.fresh q (by omega)
  · rw [hnext] at hq ⊢
    by_cases hqn : q = s.tasks.nextPid
    · rw [hqn, hself]
      omega
    · have := hI.owner q (by omega)
      rw [hne q hqn]
      omega
  · by_cases hqn : q = s.tasks.nextPid
    · rw [hqn, hself]
      obtain ⟨hm, hmm⟩ | rfl := hm
      · rw [hne m hm.ne, hmm]
      · exact hself
    · rw [hne q hqn, hne _ (hlt q hqn)]
      exact hI.idem q
  · rw [hnext] at hq
    by_cases hqn : q = s.tasks.nextPid
    · rw [hqn, hself] at ho ⊢
      exact hnew ho
    · rw [hne q hqn] at ho ⊢
      exact hthreads _ q (hI.linked q (by omega) ho)
  · rw [hlive, hI.live, hnext, hexited]
    by_cases hpn : p = s.tasks.nextPid
    · have hfresh := (hI.fresh _ le_rfl).2
      rw [hpn, hself]
      simp [hfresh]
    · rw [hne p hpn]
      have : p < s.tasks.nextPid + 1 ↔ p < s.tasks.nextPid := by omega
      simp [hpn, this]

theorem fork (h : s.tasks.fork = some (t, o))
    (hf : s.files.step (.clone s.me s.tasks.nextPid) = some (f, n)) : Even ⟨t, f⟩ := by
  obtain ⟨⟨k, o'⟩, -, he⟩ := map_eq_some_iff.1 h
  have ha1 := Files.accounted_of_step hI.accounted hf
  cases he
  rw [Files.step] at hf
  split_ifs at hf with hl
  have ha := hI.accounted
  rw [Files.all_eq hl.1] at ha
  obtain ⟨tbl, h', hc, href, -⟩ := (s.files.table s.me).clone_keeps ha
  rw [hc] at hf
  cases hf
  refine hI.starts (m := s.tasks.nextPid) rfl rfl (.inr rfl) (fun _ => Iff.rfl) rfl
    (fun _ _ hq => hq) (fun hne => absurd rfl hne) ha1 (fun p => ?_) fun p hp => ?_
  · rw [show (s.files.add _ tbl h').live = insert s.tasks.nextPid s.files.live from rfl,
      mem_insert, or_comm]
    exact or_congr_right (by simp [eq_comm])
  · by_cases hpn : p = s.tasks.nextPid
    · rw [hpn, Files.add_table_self, href, if_pos rfl]
      have hno : s.tasks.users s.tasks.nextPid = ∅ := filter_eq_empty_iff.2 fun q hq ho =>
        (hI.owner q (mem_range.1 hq)).ne ho.1
      rw [hno, card_empty]
    · rw [Files.add_table_of_ne _ hpn, if_neg (Ne.symm hpn), add_zero]
      exact hI.refCount p ((mem_insert.1 hp).resolve_left hpn)

theorem clone {clearTid : ℕ} (h : s.tasks.cloneThread clearTid = some (t, o))
    (hf : s.files.step (.acquire s.me) = some (f, n)) : Even ⟨t, f⟩ := by
  obtain ⟨⟨k, o'⟩, -, he⟩ := map_eq_some_iff.1 h
  have ha1 := Files.accounted_of_step hI.accounted hf
  cases he
  rw [Files.step] at hf
  split_ifs at hf with hl
  cases hf
  obtain ⟨hlt, hown, -⟩ := (hI.live s.me).1 hl
  refine hI.starts (m := s.me) rfl rfl (.inl ⟨hlt, hown⟩) (fun _ => Iff.rfl) rfl
    (fun p q hq => ?_) (fun _ => ?_) ha1 (fun p => ?_) fun p hp => ?_
  · show q ∈ update s.tasks.threads s.me (s.tasks.nextPid :: s.tasks.threads s.me) p
    by_cases hpm : p = s.me
    · rw [hpm] at hq ⊢
      rw [update_self]
      exact List.mem_cons_of_mem _ hq
    · rwa [update_of_ne hpm]
  · show _ ∈ update s.tasks.threads s.me (s.tasks.nextPid :: s.tasks.threads s.me) s.me
    rw [update_self]
    exact (.head _)
  · refine ⟨.inl, fun hp => hp.elim id ?_⟩
    rintro ⟨rfl, hm⟩
    exact absurd hm hlt.ne
  · by_cases hpm : p = s.me
    · rw [hpm, Files.set_table_self, if_pos rfl, ← hI.refCount _ hl]
    · rw [Files.set_table_of_ne _ hpm, if_neg (Ne.symm hpm), add_zero]
      exact hI.refCount p hp

/-- Nothing else happens to the tables. -/
theorem rest (h : s.tasks.Stays t) (hf : s.releaseCleared t = some (f, n)) : Even ⟨t, f⟩ := by
  rw [releaseCleared, h.cleared] at hf
  cases hf
  exact hI.stays h

theorem call {c : FdCall} (hf : s.files.step (.call s.me c) = some (f, n)) : Even ⟨s.tasks, f⟩ := by
  rw [Files.step] at hf
  split_ifs at hf with hl
  have ha := hI.accounted
  rw [Files.all_eq hl] at ha
  obtain ⟨hnone, -⟩ | ⟨tbl, h, n', hc, href, ha'⟩ := (s.files.table s.me).call_keeps ha c
  · rw [hnone] at hf
    cases hf
  rw [hc] at hf
  cases hf
  refine ⟨?_, hI.closing, hI.fresh, hI.owner, hI.idem, hI.linked, hI.live, fun p hp => ?_⟩
  · rwa [Files.all_set hl]
  · rw [← hI.refCount p hp]
    by_cases hpm : p = s.me
    · rwa [hpm, Files.set_table_self]
    · rw [Files.set_table_of_ne _ hpm]

/-- A process without threads ends, and its table with it. -/
theorem release (hth : s.tasks.threads p = []) (h : s.tasks.Retires p t)
    (hf : s.files.step (.release p) = some (f, n)) : Even ⟨t, f⟩ := by
  have ha1 := Files.accounted_of_step hI.accounted hf
  rw [Files.step] at hf
  split_ifs at hf with hl
  have hone : (s.files.table p).refCount = 1 := by
    rw [hI.refCount p hl, hI.users_eq_singleton hl hth, card_singleton]
  obtain ⟨hlt, hown, -⟩ := (hI.live p).1 hl
  have ha := hI.accounted
  rw [Files.all_eq hl] at ha
  obtain ⟨tbl, h', hc, -, -⟩ := (s.files.table p).closeAll_keeps ha
  rw [Files.release, hone, if_pos rfl, hc] at hf
  cases hf
  refine ⟨ha1, fun q => (h.closing q).elim (fun hq => hq.trans (hI.closing q)) id,
    fun q hq => ?_, ?_, ?_, ?_, fun q => ?_, fun q hq => ?_⟩
  · rw [h.nextPid] at hq
    rw [h.owner, h.exited]
    obtain ⟨ho, hex⟩ := hI.fresh q hq
    refine ⟨ho, fun he => he.elim hex ?_⟩
    rintro rfl
    exact absurd hlt hq.not_gt
  · rw [h.nextPid, h.owner]
    exact hI.owner
  · rw [h.owner]
    exact hI.idem
  · rw [h.nextPid, h.owner, h.threads]
    exact hI.linked
  · rw [show (s.files.remove p h').live = s.files.live.erase p from rfl, mem_erase,
      hI.live, h.nextPid, h.owner, h.exited]
    tauto
  · obtain ⟨hqp, hq⟩ := mem_erase.1 hq
    rw [h.users_of_ne (hown.trans_ne (Ne.symm hqp))]
    exact hI.refCount q hq

theorem retires (h : s.tasks.threads s.me = [] ∧ s.tasks.Retires s.me t)
    (hf : s.releaseCleared t = some (f, n)) : Even ⟨t, f⟩ := by
  by_cases hp : s.me ∈ s.tasks.garbage
  · exact hI.rest (h.2.stays hp) hf
  · rw [releaseCleared, h.2.cleared hp (hI.idem _)] at hf
    exact hI.release h.1 h.2 hf

theorem step {ev : UsersEvent} (hev : s.Single ev) (h : s.step ev = some (s', o)) : s'.Even := by
  cases ev with
  | file c =>
    rw [Users.step] at h
    split_ifs at h
    obtain ⟨f, hf, ⟨⟩⟩ := map_eq_some_iff.1 h
    exact hI.call hf
  | task c =>
    obtain ⟨⟨t, o'⟩, ht, h⟩ := bind_eq_some_iff.1 h
    obtain ⟨⟨f, n⟩, hf, ⟨⟩⟩ := map_eq_some_iff.1 h
    have hcall (h : (if s.tasks.closing s.tasks.kernel.running = none ∧
        s.tasks.kernel.frame s.tasks.kernel.running = .user then s.tasks.call c else none) =
          some (t, o')) : s.tasks.call c = some (t, o') := by
      split_ifs at h
      exact h
    cases c with
    | fork => exact hI.fork (hcall ht) hf
    | clone clearTid => exact hI.clone (hcall ht) hf
    | exit =>
      obtain ⟨t', ht', ⟨⟩⟩ := map_eq_some_iff.1 (hcall ht)
      exact hI.retires (Tasks.exit_retires hev ht') hf
    | exitGroup =>
      obtain ⟨t', ht', ⟨⟩⟩ := map_eq_some_iff.1 (hcall ht)
      exact hI.retires (Tasks.exitGroup_retires hev ht') hf
    | resume =>
      have hends : s.tasks.ends .resume = none := by rw [Tasks.ends, hI.closing]
      exact hI.rest (Tasks.stays_of_step hends id ht) hf
    | _ => exact hI.rest (Tasks.stays_of_step rfl id ht) hf

end Even

theorem start_even (logBlockSize : ℕ) (regular : ℕ → RegularFile) : (start logBlockSize regular).Even where
  accounted := Files.start_accounted logBlockSize regular
  closing _ := rfl
  fresh q _ := ⟨rfl, fun h => h.elim List.not_mem_nil List.not_mem_nil⟩
  owner q hq := hq
  idem _ := rfl
  linked q _ hq := absurd rfl hq
  live p := by simp [start, Files.start, Tasks.boot, Tasks.Exited]
  refCount p hp := by
    obtain rfl : p = 0 := mem_singleton.1 hp
    show 1 = (Tasks.boot.users 0).card
    decide +kernel

/-- What happens to the tables in a step is a step of theirs, if anything happens. -/
theorem exists_files_step {ev : UsersEvent} (h : s.step ev = some (s', o)) :
    s'.files = s.files ∨ ∃ ev n, s.files.step ev = some (s'.files, n) := by
  cases ev with
  | file c =>
    rw [step] at h
    split_ifs at h
    obtain ⟨⟨f, n⟩, hf, ⟨⟩⟩ := map_eq_some_iff.1 h
    exact .inr ⟨_, n, hf⟩
  | task c =>
    obtain ⟨⟨t, o'⟩, -, h⟩ := bind_eq_some_iff.1 h
    obtain ⟨⟨f, n⟩, hf, ⟨⟩⟩ := map_eq_some_iff.1 h
    unfold follows at hf
    split at hf
    · exact .inr ⟨_, n, hf⟩
    · exact .inr ⟨_, n, hf⟩
    rw [releaseCleared] at hf
    split at hf
    next p _ => exact .inr ⟨_, n, hf⟩
    · cases hf
      exact .inl rfl

/-- In every run in which no thread ends, and no process which has threads: a table has as many
    references as it has users, and there is one; every file is in a table which is used or was
    closed, once, as are those of a table which is given up; and a pipe whose writing ends were in
    tables which are gone has no writers, so that a read returns at the end. -/
theorem reachable_released (logBlockSize : ℕ) (regular : ℕ → RegularFile)
    (hrun : Reaches (fun s : Users => s.step) Single (start logBlockSize regular) s) :
    (∀ p, p ∈ s.files.live ↔ p < s.tasks.nextPid ∧ s.tasks.owner p = p ∧ ¬ s.tasks.Exited p) ∧
    (∀ p ∈ s.files.live, (s.files.table p).refCount = (s.tasks.users p).card ∧
      p ∈ s.tasks.users p) ∧
    s.files.all.map File.id + s.files.heap.closed = Multiset.range s.files.heap.opened ∧
    (∀ ev s' o, s.Single ev → s.step ev = some (s', o) →
      ∀ p ∈ s.files.live, p ∉ s'.files.live → ∀ f ∈ (s.files.table p).files,
        s'.files.heap.closed.count f.id = 1) ∧
    ∀ i pipe, s.files.heap.pipes i = some pipe →
      (∀ p ∈ s.files.live, ∀ f ∈ (s.files.table p).files, ¬ f.End i true) →
        pipe.writers = 0 ∧ (pipe.count = 0 → ∀ len, (pipe.readRound len).2 = some []) := by
  have hI : s.Even := hrun.inv (I := Even) (fun _ _ _ _ hI hev hs => hI.step hev hs)
    (start_even logBlockSize regular)
  refine ⟨hI.live, fun p hp => ⟨hI.refCount p hp, ?_⟩, hI.accounted.ids,
    fun ev s' o hev hs p hp hgone f hf => ?_, fun i pipe hi hno => ?_⟩
  · obtain ⟨hlt, hown, hex⟩ := (hI.live p).1 hp
    exact mem_filter.2 ⟨mem_range.2 hlt, hown, hex⟩
  · obtain he | ⟨fev, n, hfs⟩ := exists_files_step hs
    · rw [he] at hgone
      exact absurd hp hgone
    · exact Files.step_closes hI.accounted hfs hp hgone hf
  · have hw : pipe.writers = 0 := by
      refine (hI.accounted.ends i pipe hi true).trans (Multiset.countP_eq_zero.2 fun f hf => ?_)
      obtain ⟨p, hp, hfp⟩ := Multiset.mem_sum.1 hf
      exact hno p hp f hfp
    refine ⟨hw, fun hc len => ?_⟩
    rw [PipeInode.readRound, hc, if_neg (lt_irrefl 0), if_pos hw]

/-- A pipe, of which a child keeps the writing end; the child ends. -/
def childGone : Users :=
  lastState (guarded (fun s : Users => s.step) Single) (start 0 fun _ => ⟨fun _ => 0, 0⟩)
    [.file (.pipe2 (fun _ => 0) true), .task .fork, .file (.close 4), .task (.tick true),
      .task .exit]

/-- The pipe is at its end. -/
theorem reachable_released_childGone :
    ((childGone.files.heap.pipes 0).map fun pipe => pipe.writers) = some 0 ∧ 1 ∉ childGone.files.live ∧
    ∀ p ∈ childGone.files.live, (childGone.files.table p).refCount = (childGone.tasks.users p).card :=
  ⟨by decide +kernel, by decide +kernel, fun p hp =>
    ((reachable_released 0 (fun _ => ⟨fun _ => 0, 0⟩) (Reaches.lastState _ _)).2.1 p hp).1⟩

/-- The child has a thread for a time. -/
def threadGone : Users :=
  lastState (guarded (fun s : Users => s.step) fun _ _ => True) (start 0 fun _ => ⟨fun _ => 0, 0⟩)
    [.file (.pipe2 (fun _ => 0) true), .task .fork, .file (.close 4), .task (.tick true),
      .task (.clone 0), .task (.tick true), .task (.tick true), .task .exit, .task .exit]

/-- The thread and the child have ended, and the table of the child is there, with a reference. A
    read of the pipe does not come to its end. -/
theorem threadGone_kept :
    Reaches (fun s : Users => s.step) (fun _ _ => True) (start 0 fun _ => ⟨fun _ => 0, 0⟩)
      threadGone ∧
    threadGone.tasks.Exited 1 ∧ threadGone.tasks.Exited 2 ∧ threadGone.tasks.users 1 = ∅ ∧
    1 ∈ threadGone.files.live ∧ (threadGone.files.table 1).refCount = 1 ∧
    ((threadGone.files.heap.pipes 0).map fun pipe => (pipe.count, pipe.writers)) = some (0, 1) ∧
    (threadGone.files.heap.pipes 0).map (fun pipe => (pipe.readRound 1).2) = some none :=
  ⟨.lastState _ _, by decide +kernel, by decide +kernel, by decide +kernel, by decide +kernel,
    by decide +kernel, by decide +kernel, by decide +kernel⟩

end Users

end HobbyOS
