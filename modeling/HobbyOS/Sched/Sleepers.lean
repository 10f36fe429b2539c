import HobbyOS.Sched.Step

/-!
# Sleeping processes

The list of sleeping processes has the time of each of them relative to the one before.

* Every process is released at its tick, and those which are due at the same one in the order in
  which they went to sleep: the list does what a calendar does (`run_eq_byCalendar`).
* `Scheduler::wakeUp` hands the time of a process on only if it is the first one, and does not
  release the lock if it does not find the process (`undisturbed_iff`).
-/

namespace HobbyOS

open Function List

/-- What happens to the list. -/
inductive SleepEvent
  /-- A process goes to sleep. -/
  | putSleep (pid n : ℕ)
  /-- `Scheduler::awake`. -/
  | tick

namespace Kernel

variable {ι : Type*} (k : Kernel ι)

/-- Who is released `t` ticks from now. -/
def dueIn : ℕ → List (ℕ × ℕ) → List ℕ
  | _, [] => []
  | t, (pid, time) :: l =>
    if t < time then [] else if t = time then pid :: dueIn 0 l else dueIn (t - time) l

/-- Processes become ready, and are put into the list of ready ones. -/
def release : List ℕ → Kernel ι := foldl (fun k pid => (k.setState pid .ready).put pid) k

/-- One event. -/
def sleepStep : SleepEvent → Kernel ι
  | .putSleep pid n => (k.setState pid .sleeping).putSleep pid n
  | .tick => k.awake

/-- The events with a calendar: who is to be released at which tick, in the order of going to sleep.
    `now` is the number of the last tick. -/
def byCalendar : (ℕ → List ℕ) → ℕ → List SleepEvent → Kernel ι → Kernel ι
  | _, _, [], k => k
  | due, now, .putSleep pid n :: es, k =>
    byCalendar (update due (now + n) (due (now + n) ++ [pid])) now es (k.setState pid .sleeping)
  | due, now, .tick :: es, k => byCalendar due (now + 1) es (k.release (due (now + 1)))

variable {k} {pid n now : ℕ} {l : List (ℕ × ℕ)} {es : List SleepEvent} {due : ℕ → List ℕ}

/-- A process goes to sleep behind those which are due before or with it. -/
theorem dueIn_insertSleep (pid n : ℕ) (l : List (ℕ × ℕ)) (t : ℕ) :
    dueIn t (insertSleep pid n l) = dueIn t l ++ if t = n then [pid] else [] := by
  induction l generalizing n t with
  | nil =>
    rw [insertSleep, dueIn, dueIn]
    split_ifs <;> first | rfl | omega
  | cons e l ih =>
    obtain ⟨cur, time⟩ := e
    rw [insertSleep]
    split_ifs with hle hn hn <;> grind [dueIn]

/-- `Scheduler::awake` releases the processes for which no time is left. -/
theorem expire_release (l sl : List (ℕ × ℕ)) (k : Kernel ι) : ∃ sl',
    expire l { k with sleep := sl } = { k.release (dueIn 0 l) with sleep := sl' } ∧
      dueIn 0 sl' = [] ∧ ∀ t, 0 < t → dueIn t sl' = dueIn t l := by
  induction l generalizing k with
  | nil => exact ⟨[], rfl, rfl, fun _ _ => rfl⟩
  | cons e l ih =>
    obtain ⟨pid, time⟩ := e
    rw [expire]
    split_ifs with ht
    · subst ht
      obtain ⟨sl', he, hzero, hdue⟩ := ih ((k.setState pid .ready).put pid)
      refine ⟨sl', he, hzero, fun t ht => ?_⟩
      rw [hdue t ht, dueIn, if_neg (Nat.not_lt_zero _), if_neg ht.ne', Nat.sub_zero]
    · have hzero : dueIn 0 ((pid, time) :: l) = [] := by
        rw [dueIn, if_pos (Nat.pos_of_ne_zero ht)]
      rw [hzero]
      exact ⟨_, rfl, hzero, fun _ _ => rfl⟩

theorem awake_release {sl : List (ℕ × ℕ)} (h : dueIn 0 sl = []) : ∃ sl',
    { k with sleep := sl }.awake = { k.release (dueIn 1 sl) with sleep := sl' } ∧
      dueIn 0 sl' = [] ∧ ∀ t, 0 < t → dueIn t sl' = dueIn (t + 1) sl := by
  cases sl with
  | nil => exact ⟨[], rfl, rfl, fun _ _ => rfl⟩
  | cons e l =>
    obtain ⟨pid, time⟩ := e
    cases time with
    | zero => cases h
    | succ time =>
      obtain ⟨sl', he, hzero, hdue⟩ := expire_release ((pid, time) :: l) ((pid, time + 1) :: l) k
      have hpred (t : ℕ) : dueIn t ((pid, time) :: l) = dueIn (t + 1) ((pid, time + 1) :: l) := by
        simp only [dueIn, Nat.add_lt_add_iff_right, Nat.add_right_cancel_iff, Nat.add_sub_add_right]
      exact ⟨sl', hpred 0 ▸ he, hzero, fun t ht => (hdue t ht).trans (hpred t)⟩

theorem foldl_sleepStep (hes : ∀ pid n, .putSleep pid n ∈ es → 1 ≤ n)
    (hzero : dueIn 0 l = []) (hdue : ∀ t, 0 < t → dueIn t l = due (now + t)) : ∃ sl',
      es.foldl sleepStep { k with sleep := l } = { byCalendar due now es k with sleep := sl' } := by
  induction es generalizing k l now due with
  | nil => exact ⟨l, rfl⟩
  | cons e es ih =>
    have hes' := fun pid n he => hes pid n (.tail _ he)
    cases e with
    | putSleep pid n =>
      have hn := hes pid n (.head _)
      have hinsert := dueIn_insertSleep pid n l
      refine ih (k := k.setState pid .sleeping) (l := insertSleep pid n l) hes' ?_ fun t ht => ?_
      · rw [hinsert, hzero, if_neg (by omega), nil_append]
      · rw [hinsert, hdue t ht, update_apply]
        simp only [Nat.add_left_cancel_iff]
        split_ifs with htn
        · rw [htn]
        · exact append_nil _
    | tick =>
      obtain ⟨sl', he, hzero', hdue'⟩ := awake_release (k := k) hzero
      rw [foldl_cons, sleepStep, he, byCalendar, ← hdue 1 one_pos]
      refine ih hes' hzero' fun t ht => ?_
      rw [hdue' t ht, hdue (t + 1) t.succ_pos, Nat.add_assoc, Nat.add_comm 1 t]

/-- **Sleeping.** If nobody sleeps, then the list does what the calendar does from then on, and
    differs in itself only. -/
theorem run_eq_byCalendar (k : Kernel ι) (hes : ∀ pid n, .putSleep pid n ∈ es → 1 ≤ n) :
    ∃ sl, es.foldl sleepStep { k with sleep := [] } =
      { byCalendar (fun _ => []) 0 es k with sleep := sl } :=
  foldl_sleepStep hes rfl fun _ _ => rfl

/-- The second process is released first, and the other two at the same tick. -/
theorem run_eq_byCalendar_three :
    let es := [.putSleep 1 3, .putSleep 2 1, .tick, .putSleep 3 2, .tick, .tick]
    let k := byCalendar (fun _ => []) 0 es (boot 0 fun _ : Unit => 0)
    (∃ sl, es.foldl sleepStep { boot 0 (fun _ : Unit => 0) with sleep := [] } =
      { k with sleep := sl }) ∧ k.ready = [2, 1, 3] :=
  ⟨run_eq_byCalendar _ (by grind), by decide⟩

end Kernel

/-! ## Waking early -/

/-- The list, `m_sleepTail`, and whether `m_lock` is held. -/
structure SleepQueue where
  list : List (ℕ × ℕ)
  tail : Option ℕ
  locked : Bool

namespace SleepQueue

open Kernel

/-- `Scheduler::wakeUp`. The process before becomes the last one if there is nobody behind. A process
    which is not found is looked for with the lock, which is not released. -/
def wakeUp (s : SleepQueue) (pid : ℕ) : SleepQueue :=
  let pids := s.list.map Prod.fst
  if pid ∈ pids then
    let tail := if pids.getLast? = some pid then pids.dropLast.getLast? else s.tail
    ⟨removeSleep pid s.list, tail, false⟩
  else { s with locked := true }

/-- When the processes are due, in their order. -/
def dueTimes : ℕ → List (ℕ × ℕ) → List (ℕ × ℕ)
  | _, [] => []
  | now, (pid, time) :: l => (pid, now + time) :: dueTimes (now + time) l

/-- The process is removed, and nothing else has changed. -/
structure Undisturbed (s : SleepQueue) (pid : ℕ) : Prop where
  others : dueTimes 0 (s.wakeUp pid).list = (dueTimes 0 s.list).filter (·.1 ≠ pid)
  tail : (s.wakeUp pid).tail = ((s.wakeUp pid).list.map Prod.fst).getLast?
  unlocked : (s.wakeUp pid).locked = false

variable {s : SleepQueue} {pid d now : ℕ} {l l1 l2 : List (ℕ × ℕ)}

theorem dueTimes_append :
    dueTimes now (l1 ++ l) = dueTimes now l1 ++ dueTimes (now + (l1.map Prod.snd).sum) l := by
  induction l1 generalizing now with
  | nil => rfl
  | cons e l1 ih => rw [cons_append, dueTimes, ih, map_cons, sum_cons, ← Nat.add_assoc]; rfl

theorem filter_dueTimes (h : pid ∉ l.map Prod.fst) :
    (dueTimes now l).filter (·.1 ≠ pid) = dueTimes now l := by
  induction l generalizing now with
  | nil => rfl
  | cons e l ih =>
    rw [map_cons, mem_cons, not_or] at h
    rw [dueTimes, filter_cons_of_pos (by simpa using Ne.symm h.1), ih h.2]

/-- The times of those behind depend on the one before. -/
theorem dueTimes_eq_iff : dueTimes now l = dueTimes (now + d) l ↔ l = [] ∨ d = 0 := by
  refine ⟨fun h => ?_, ?_⟩
  · rcases l with - | ⟨⟨q, e⟩, l⟩
    · exact .inl rfl
    · have htime := (Prod.mk.inj (cons.inj h).1).2
      exact .inr (by omega)
  · rintro (rfl | rfl)
    · rfl
    · rfl

/-- The first process hands its time on; the others do not. -/
theorem others_iff (h1 : pid ∉ l1.map Prod.fst) (h2 : pid ∉ l2.map Prod.fst) :
    dueTimes 0 (removeSleep pid (l1 ++ (pid, d) :: l2)) =
      (dueTimes 0 (l1 ++ (pid, d) :: l2)).filter (·.1 ≠ pid) ↔ l1 = [] ∨ l2 = [] ∨ d = 0 := by
  rw [dueTimes_append, filter_append, dueTimes, filter_cons_of_neg (by simp), filter_dueTimes h1,
    filter_dueTimes h2]
  rcases l1 with - | ⟨⟨c, e⟩, l1⟩
  · refine iff_of_true ?_ (.inl rfl)
    rcases l2 with - | ⟨⟨q, e⟩, l2⟩
    · simp [removeSleep, dueTimes]
    · simp [removeSleep, dueTimes, Nat.add_comm e d]
  rw [map_cons, mem_cons, not_or] at h1
  have herase : (l1 ++ (pid, d) :: l2).eraseP (·.1 = pid) = l1 ++ l2 := by
    rw [eraseP_append_right, eraseP_cons_of_pos (by simp)]
    rintro e he
    exact fun hp => h1.2 (of_decide_eq_true hp ▸ mem_map_of_mem he)
  have hremove : removeSleep pid ((c, e) :: (l1 ++ (pid, d) :: l2)) = (c, e) :: (l1 ++ l2) :=
    (if_neg (Ne.symm h1.1)).trans (congrArg _ herase)
  rw [cons_append, hremove, ← cons_append, dueTimes_append, append_right_inj, dueTimes_eq_iff,
    or_iff_right (cons_ne_nil _ _)]

/-- `m_sleepTail` is the last one, if it was before. -/
theorem getLast?_erase {pids : List ℕ} (h : pids.Nodup) : (pids.erase pid).getLast? =
    if pids.getLast? = some pid then pids.dropLast.getLast? else pids.getLast? := by
  rcases eq_nil_or_concat' pids with rfl | ⟨pids, q, rfl⟩
  · rfl
  have hq : q ∉ pids := (nodup_concat ..).1 (concat_eq_append ▸ h) |>.1
  rw [getLast?_concat, dropLast_concat]
  split_ifs with he
  · rw [← Option.some.inj he, erase_append_right _ hq, erase_cons_head, append_nil]
  · rw [erase_append]
    split_ifs
    · exact getLast?_concat
    · rw [erase_cons_tail (by simpa using he), erase_nil]
      exact getLast?_concat

theorem undisturbed_append_iff (hl : s.list = l1 ++ (pid, d) :: l2)
    (hnd : (s.list.map Prod.fst).Nodup) (htail : s.tail = (s.list.map Prod.fst).getLast?) :
    s.Undisturbed pid ↔ l1 = [] ∨ l2 = [] ∨ d = 0 := by
  have hm : pid ∈ s.list.map Prod.fst := by simp [hl]
  have hnot := hnd
  rw [hl, map_append, map_cons, nodup_middle, nodup_cons, mem_append, not_or] at hnot
  rw [← others_iff hnot.1.1 hnot.1.2, ← hl]
  refine ⟨fun h => ?_, fun h => ⟨?_, ?_, ?_⟩⟩
  · have := h.others
    rwa [wakeUp, if_pos hm] at this
  all_goals rw [wakeUp, if_pos hm]
  · exact h
  · rw [map_removeSleep, getLast?_erase hnd, htail]

/-- **Waking early.** Exactly then is nobody else disturbed: the process is in the list, and is the
    first or the last one, or has no time of its own. -/
theorem undisturbed_iff (hnd : (s.list.map Prod.fst).Nodup)
    (htail : s.tail = (s.list.map Prod.fst).getLast?) : s.Undisturbed pid ↔
      ∃ l1 d l2, s.list = l1 ++ (pid, d) :: l2 ∧ (l1 = [] ∨ l2 = [] ∨ d = 0) := by
  refine ⟨fun h => ?_, fun ⟨l1, d, l2, hl, h⟩ => (undisturbed_append_iff hl hnd htail).2 h⟩
  by_cases hm : pid ∈ s.list.map Prod.fst
  · obtain ⟨⟨_, d⟩, hmem, rfl⟩ := mem_map.1 hm
    obtain ⟨l1, l2, hl⟩ := append_of_mem hmem
    exact ⟨l1, d, l2, hl, (undisturbed_append_iff hl hnd htail).1 h⟩
  · -- The lock is not released.
    have hlock := h.unlocked
    rw [wakeUp, if_neg hm] at hlock
    cases hlock

theorem undisturbed_first :
    (⟨[(1, 1), (2, 1), (3, 1)], some 3, false⟩ : SleepQueue).Undisturbed 1 :=
  (undisturbed_iff (by decide) rfl).2 ⟨[], 1, [(2, 1), (3, 1)], rfl, .inl rfl⟩

/-- The process behind wakes up one tick early. -/
theorem not_undisturbed_between :
    ¬ (⟨[(1, 1), (2, 1), (3, 1)], some 3, false⟩ : SleepQueue).Undisturbed 2 := by
  intro h
  cases h.others

end SleepQueue

end HobbyOS
