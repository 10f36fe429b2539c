import HobbyOS.Sched.Family

/-!
# Waiting for children

What `m_selfSem` of a process is worth, and the token of a process which was woken and has
not gone on yet (`Kernel.credit`), are as many as there are children which have ended and
were not waited for (`Accounted`), as long as every call of `Process::wait` which gets a
token finds the child it asks for (`Matched`).

If it asks for a child which has not ended, and gets the token of another one, then the
token is lost (`wait_takes_other`).
-/

namespace HobbyOS

open Function List Option

namespace Kernel

variable {k k' : Kernel ℕ} {o : ℤ} {p : ℕ}

/-! ## The semaphores of the processes -/

/-- Every process waits for its own semaphore only. -/
structure SelfSems (k : Kernel ℕ) : Prop where
  frame : ∀ p, k.frame p = .user ∨ k.frame p = .sem p
  blocked : ∀ p, k.state p = .blocked → p ∈ (k.sem p).blocked
  value : ∀ p, (k.sem p).blocked ≠ [] → (k.sem p).value = 0

/-- The tokens of a process with this semaphore: those of the semaphore, and the one it was
    handed if it goes on there. -/
def tokens (sem : Semaphore) (f : Frame ℕ) (p : ℕ) : ℕ :=
  sem.value + if f = .sem p ∧ p ∉ sem.blocked then 1 else 0

/-- The tokens of a process. -/
def credit (k : Kernel ℕ) (p : ℕ) : ℕ := tokens (k.sem p) (k.frame p) p

/-- A step moves no tokens, and no process ends, blocks or is woken from a semaphore. -/
structure Same (k k' : Kernel ℕ) : Prop where
  sem : k'.sem = k.sem
  frame : k'.frame = k.frame
  zombie : ∀ p, k'.state p = .zombie ↔ k.state p = .zombie
  blocked : ∀ p, k'.state p = .blocked ↔ k.state p = .blocked

theorem Same.trans {k1 k2 k3 : Kernel ℕ} (h : k1.Same k2) (h' : k2.Same k3) : k1.Same k3 :=
  ⟨h'.sem.trans h.sem, h'.frame.trans h.frame, fun p => (h'.zombie p).trans (h.zombie p),
    fun p => (h'.blocked p).trans (h.blocked p)⟩

theorem Same.credit (h : k.Same k') (p : ℕ) : k'.credit p = k.credit p := by
  unfold Kernel.credit
  rw [h.sem, h.frame]

theorem SelfSems.same (hk : k.SelfSems) (h : k.Same k') : k'.SelfSems := by
  refine ⟨fun p => ?_, fun p hp => ?_, fun p hp => ?_⟩
  · rw [h.frame]
    exact hk.frame p
  · rw [h.sem]
    exact hk.blocked p ((h.blocked p).1 hp)
  · rw [h.sem] at hp ⊢
    exact hk.value p hp

theorem dispatch_same (h : k.dispatch = some k') : k.Same k' := by
  refine ⟨?_, ?_, fun _ => dispatch_state h (by decide) (by decide),
    fun _ => dispatch_state h (by decide) (by decide)⟩
  · obtain ⟨st, rd, me, rfl⟩ := dispatch_eq h
    rfl
  · obtain ⟨st, rd, me, rfl⟩ := dispatch_eq h
    rfl

theorem awake_same (h : k.Tidy none) : k.Same k.awake := by
  have hstate {st : ProcState} (hr : st ≠ .ready) (hs : st ≠ .sleeping) (p : ℕ) :
      k.awake.state p = st ↔ k.state p = st := awake_state h.sleep h.sleep_nodup hr hs
  obtain ⟨-, st, rd, sl, he⟩ := awake_eq k
  refine ⟨?_, ?_, hstate (by decide) (by decide), hstate (by decide) (by decide)⟩ <;> rw [he]

theorem kill_sigchld (k : Kernel ℕ) (p : ℕ) : k.kill p sigchld =
    if k.state p = .sleeping ∨ k.state p = .blocked then (k.interrupt p).map fun k => (k, 0)
    else some (k, 0) := by
  simp [kill, sigchld, nsig, sigcont]

theorem unlinkSem_sem (h : k.Tidy none) (hp : k.state p ≠ .blocked) :
    (k.unlinkSem p).sem = k.sem := by
  unfold unlinkSem
  split
  · rfl
  next i hi =>
    have hnot : p ∉ (k.sem i).blocked := fun hm => hp (h.blocked i p hm).1
    dsimp only [semForceRemove]
    rw [erase_of_not_mem hnot]
    exact update_eq_self ..

/-- `SIGCHLD` wakes a process which sleeps, and has nothing to do with the semaphores if the
    process does not block. -/
theorem kill_same (h : k.Tidy none) (hp : k.state p ≠ .blocked)
    (hkill : k.kill p sigchld = some (k', o)) : k.Same k' := by
  rw [kill_sigchld] at hkill
  split at hkill
  next hs =>
    have hst : k.state p = .sleeping := hs.resolve_right hp
    obtain ⟨k1, hi, ⟨⟩⟩ := map_eq_some_iff.1 hkill
    obtain ⟨-, -, hstate⟩ := h.interrupt hs.symm hi
    have hiff {st : ProcState} (hr : st ≠ .ready) (hsl : st ≠ .sleeping) (q : ℕ) :
        k'.state q = st ↔ k.state q = st := by
      rw [hstate]
      split
      next hq =>
        subst hq
        rw [hst]
        exact iff_of_false hr.symm hsl.symm
      · exact Iff.rfl
    refine ⟨?_, ?_, hiff (by decide) (by decide), hiff (by decide) (by decide)⟩
    · obtain ⟨k2, hk2, rfl⟩ := map_eq_some_iff.1 hi
      obtain ⟨fk, qu, he⟩ := unlinkFutex_eq (k.unlinkSem p) p
      rw [he] at hk2
      obtain ⟨sl, rfl⟩ := unlinkSleep_eq hk2
      exact unlinkSem_sem h hp
    · obtain ⟨wo, fk, sl, sm, qu, rfl⟩ := interrupt_eq hi
      rfl
  · cases hkill
    exact ⟨rfl, rfl, fun _ => Iff.rfl, fun _ => Iff.rfl⟩

/-- A process alone may be in the queue of its semaphore. -/
theorem SelfSems.blocked_eq (hk : k.SelfSems) (h : k.Tidy none) (p : ℕ) :
    (k.sem p).blocked = [] ∨ (k.sem p).blocked = [p] ∧ k.state p = .blocked ∧ k.frame p = .sem p := by
  have hself (q : ℕ) (hq : q ∈ (k.sem p).blocked) : q = p := by
    have hf := h.waitingOn q p (h.blocked p q hq).2
    rcases hk.frame q with hu | hs
    · rw [hu] at hf
      cases hf
    · rw [hs] at hf
      cases hf
      rfl
  cases hb : (k.sem p).blocked with
  | nil => exact .inl rfl
  | cons q qs =>
    have hnd := h.blocked_nodup p
    rw [hb] at hnd hself
    obtain rfl := hself q (.head _)
    obtain rfl : qs = [] := eq_nil_iff_forall_not_mem.2 fun r hr => by
      obtain rfl := hself r (.tail _ hr)
      exact (nodup_cons.1 hnd).1 hr
    obtain ⟨hst, hw⟩ := h.blocked q q (by rw [hb]; exact (.head _))
    exact .inr ⟨rfl, hst, h.waitingOn q q hw⟩

/-- What concerns one process only leaves the tokens of the others as they are. -/
theorem SelfSems.change (hk : k.SelfSems) (k' : Kernel ℕ) (p : ℕ)
    (hother : ∀ q, q ≠ p → k'.sem q = k.sem q ∧ k'.frame q = k.frame q ∧
      (k'.state q = .blocked → k.state q = .blocked))
    (hf : k'.frame p = .user ∨ k'.frame p = .sem p)
    (hb : k'.state p = .blocked → p ∈ (k'.sem p).blocked)
    (hv : (k'.sem p).blocked ≠ [] → (k'.sem p).value = 0) :
    k'.SelfSems ∧ ∀ q, q ≠ p → k'.credit q = k.credit q := by
  refine ⟨⟨fun q => ?_, fun q => ?_, fun q => ?_⟩, fun q hq => ?_⟩
  · obtain rfl | hq := eq_or_ne q p
    · exact hf
    · rw [(hother q hq).2.1]
      exact hk.frame q
  · obtain rfl | hq := eq_or_ne q p
    · exact hb
    · rw [(hother q hq).1]
      exact fun hst => hk.blocked q ((hother q hq).2.2 hst)
  · obtain rfl | hq := eq_or_ne q p
    · exact hv
    · rw [(hother q hq).1]
      exact hk.value q
  · unfold Kernel.credit
    rw [(hother q hq).1, (hother q hq).2.1]

/-- What a signal does: the process gets a token. -/
theorem SelfSems.semSignal (hk : k.SelfSems) (h : k.Tidy none) (p : ℕ) :
    (k.semSignal p).SelfSems ∧ (k.semSignal p).state p ≠ .blocked ∧
      (∀ q, (k.semSignal p).credit q = k.credit q + if q = p then 1 else 0) ∧
      (∀ q, (k.semSignal p).state q = .zombie ↔ k.state q = .zombie) ∧
      (k.semSignal p).frame = k.frame := by
  rcases hk.blocked_eq h p with hb | ⟨hb, hst, hf⟩
  · have he : k.semSignal p =
        { k with sem := update k.sem p ⟨(k.sem p).value + 1, []⟩ } := by
      unfold Kernel.semSignal
      rw [hb]
    have hst : k.state p ≠ .blocked := fun hst => by
      have := hk.blocked p hst
      rw [hb] at this
      cases this
    rw [he]
    refine And.imp_right (fun hcredit => ⟨hst, fun q => ?_, fun q => Iff.rfl, rfl⟩) (hk.change _ p
      (fun q hq => ⟨update_of_ne hq .., rfl, id⟩) (hk.frame p) (fun h => absurd h hst) (by simp))
    by_cases hq : q = p
    · subst hq
      simp only [Kernel.credit, tokens, update_self, hb, if_pos]
      omega
    · rw [hcredit q hq, if_neg hq, add_zero]
  · have he : k.semSignal p = ({ k with
        sem := update k.sem p ⟨(k.sem p).value, []⟩
        waitingOn := update k.waitingOn p none }.setState p .ready).put p := by
      unfold Kernel.semSignal
      rw [hb]
    rw [he]
    refine And.imp_right (fun hcredit => ⟨by simp [setState, Kernel.put], fun q => ?_,
      fun q => state_of_ready hst (by decide) (by decide), rfl⟩) (hk.change _ p
      (fun q hq => ⟨update_of_ne hq .., rfl, (update_of_ne hq ..).symm.trans⟩) (hk.frame p)
      (by simp [setState, Kernel.put]) (by simp [setState, Kernel.put]))
    by_cases hq : q = p
    · subst hq
      simp [Kernel.credit, tokens, setState, Kernel.put, hb, hf]
    · rw [hcredit q hq, if_neg hq, add_zero]

/-- A process which waits gives a token away, or blocks. -/
theorem SelfSems.semWait (hk : k.SelfSems) (h : k.Orderly) (hu : k.frame k.running = .user)
    (hw : k.semWait k.running = some k') : k'.SelfSems ∧
      (∀ q, k'.credit q + (if q = k.running ∧ (k.sem q).value ≠ 0 then 1 else 0) = k.credit q) ∧
      ∀ q, k'.state q = .zombie ↔ k.state q = .zombie := by
  have hfree := h.tidy.free_running h.running
  unfold Kernel.semWait at hw
  split at hw
  next hv =>
    have hsame := dispatch_same hw
    obtain ⟨hself, hcredit⟩ := hk.change (k.pushBlocked k.running) k.running
      (fun q hq => ⟨update_of_ne hq .., update_of_ne hq .., (update_of_ne hq ..).symm.trans⟩)
      (.inr (update_self ..)) (by simp [pushBlocked, setState]) (by simp [pushBlocked, setState, hv])
    refine ⟨hself.same hsame, fun q => ?_, fun q => (hsame.zombie q).trans ?_⟩
    · rw [hsame.credit]
      by_cases hq : q = k.running
      · subst hq
        simp [Kernel.credit, pushBlocked, setState, tokens, hv, hu]
      · simp [hq, hcredit q hq]
    · exact state_of_ready h.running (by decide) (by decide)
  next hv =>
    cases hw
    refine And.imp_right (fun hcredit => ⟨fun q => ?_, fun q => Iff.rfl⟩) (hk.change _ k.running
      (fun q hq => ⟨update_of_ne hq .., rfl, id⟩) (hk.frame _)
      (fun hst => by simpa using hk.blocked _ hst)
      fun hne => absurd (hk.value _ (by simpa using hne)) hv)
    by_cases hq : q = k.running
    · subst hq
      simp only [Kernel.credit, tokens, update_self, hu, hv, reduceCtorEq, false_and, if_false,
        not_false_eq_true, ne_eq, and_self, if_true]
      omega
    · simp [hq, hcredit q hq]

/-- A process which goes on takes the token it was handed. -/
theorem SelfSems.resume (hk : k.SelfSems) (h : k.Orderly) {i : ℕ}
    (hf : k.frame k.running = .sem i) (hr : k.resume = some (k', o)) : k'.SelfSems ∧
      (∀ q, k'.credit q + (if q = k.running then 1 else 0) = k.credit q) ∧ k'.state = k.state := by
  obtain rfl : i = k.running := by
    rcases hk.frame k.running with hu | hs
    · rw [hu] at hf
      cases hf
    · rw [hs] at hf
      cases hf
      rfl
  simp only [Kernel.resume, hf] at hr
  cases hr
  refine And.imp_right (fun hcredit => ⟨fun q => ?_, rfl⟩) (hk.change _ k.running
    (fun q hq => ⟨rfl, update_of_ne hq .., id⟩) (.inl (update_self ..)) (hk.blocked _) (hk.value _))
  by_cases hq : q = k.running
  · subst hq
    simp [Kernel.credit, tokens, hf, (h.tidy.free_running h.running).blocked]
  · simp [hq, hcredit q hq]

end Kernel

namespace Family

open Kernel

/-! ## Accounting -/

/-- The children of a process are those which name it as their parent, and have not been waited
    for; a process which has not ended has as many tokens as it has children which have. -/
structure Accounted (s : Family) : Prop where
  orderly : s.kernel.Orderly
  sems : s.kernel.SelfSems
  nodup : ∀ p, (s.children p).Nodup
  parent : ∀ p, ∀ c ∈ s.children p, s.parent c = some p
  live : ∀ c p, s.kernel.state c ≠ .zombie → s.kernel.state p ≠ .zombie → s.parent c = some p →
    c ∈ s.children p
  root : s.parent 0 = none
  irrefl : ∀ p, s.parent p ≠ some p
  born : ∀ c p, s.parent c = some p → p ≠ 0 → s.parent p ≠ none
  unborn : ∀ p, p ≠ 0 → s.parent p = none →
    s.kernel.state p = .zombie ∧ s.children p = [] ∧ s.kernel.credit p = 0
  account : ∀ p, s.kernel.state p ≠ .zombie → s.kernel.credit p = s.zombies p

variable {s s' : Family} {o : ℤ} {k : Kernel ℕ} {l : List ℕ} {c me : ℕ} {pid : Option ℕ}
  {nohang : Bool}

/-- A step which leaves the tokens and the family as they are. -/
theorem Accounted.of_kernel (h : s.Accounted) (hch : s'.children = s.children)
    (hpar : s'.parent = s.parent) (hk : s'.kernel.Orderly) (hsems : s'.kernel.SelfSems)
    (hcredit : ∀ q, s'.kernel.credit q = s.kernel.credit q)
    (hzombie : ∀ q, s'.kernel.state q = .zombie ↔ s.kernel.state q = .zombie) : s'.Accounted := by
  refine ⟨hk, hsems, ?_, ?_, fun c p hc hp hcp => ?_, ?_, ?_, ?_, fun p hp hn => ?_, fun p hp => ?_⟩
  · rw [hch]
    exact h.nodup
  · rw [hch, hpar]
    exact h.parent
  · rw [hpar] at hcp
    rw [hch]
    exact h.live c p (fun hz => hc ((hzombie c).2 hz)) (fun hz => hp ((hzombie p).2 hz)) hcp
  · rw [hpar]
    exact h.root
  · rw [hpar]
    exact h.irrefl
  · rw [hpar]
    exact h.born
  · rw [hpar] at hn
    obtain ⟨hst, hnil, hcr⟩ := h.unborn p hp hn
    exact ⟨(hzombie p).2 hst, by rw [hch, hnil], by rw [hcredit, hcr]⟩
  · rw [hcredit, h.account p fun hz => hp ((hzombie p).2 hz)]
    unfold zombies
    rw [hch]
    simp only [hzombie]

/-- The kernel may take any step which is none of the family's. -/
theorem Accounted.same (h : s.Accounted) (hk : k.Orderly) (hsame : s.kernel.Same k) :
    Accounted { s with kernel := k } :=
  h.of_kernel rfl rfl hk (h.sems.same hsame) hsame.credit hsame.zombie

/-- The children which have ended, after one of them has been waited for. -/
theorem countP_erase {p : ℕ → Bool} (hc : c ∈ l) (hp : p c = true) :
    (l.erase c).countP p + 1 = l.countP p := by
  rw [(perm_cons_erase hc).countP_eq, countP_cons_of_pos hp]

/-- A token is spent, and a child is waited for. -/
theorem Accounted.reap (h : s.Accounted) (hk : k.Orderly) (hsems : k.SelfSems)
    (hcredit : ∀ q, k.credit q + (if q = s.kernel.running then 1 else 0) = s.kernel.credit q)
    (hzombie : ∀ q, k.state q = .zombie ↔ s.kernel.state q = .zombie)
    (hfind : s.findZombie s.kernel.running pid ≠ none) :
    ∃ c : ℕ, ({ s with kernel := k }.reap s.kernel.running pid).2 = (c : ℤ) ∧
      ({ s with kernel := k }.reap s.kernel.running pid).1.Accounted := by
  have hfind' : findZombie { s with kernel := k } s.kernel.running pid =
      s.findZombie s.kernel.running pid := by
    unfold findZombie
    simp only [hzombie]
  obtain ⟨c, hc⟩ := ne_none_iff_exists'.1 hfind
  have hmem := mem_of_find?_eq_some hc
  have hprop := List.find?_some hc
  simp only [Bool.and_eq_true, decide_eq_true_eq] at hprop
  refine ⟨c, ?_⟩
  unfold Family.reap
  rw [hfind', hc]
  have hch (q : ℕ) : update s.children s.kernel.running
      ((s.children s.kernel.running).erase c) q =
      if q = s.kernel.running then (s.children s.kernel.running).erase c else s.children q :=
    update_apply ..
  have hsub (q : ℕ) {x : ℕ} (hx : x ∈ update s.children s.kernel.running
      ((s.children s.kernel.running).erase c) q) : x ∈ s.children q := by
    rw [hch] at hx
    split_ifs at hx with hq
    · rw [hq]
      exact mem_of_mem_erase hx
    · exact hx
  refine ⟨rfl, { h with
                 orderly := hk, sems := hsems, nodup := fun q => ?_
                 parent := fun q x hx => h.parent q x (hsub q hx), live := fun x q hx hlive hq => ?_
                 unborn := fun q hq hn => ?_, account := fun q hq => ?_ }⟩
  · dsimp only
    rw [hch]
    split
    · exact (h.nodup _).erase c
    · exact h.nodup q
  · have hx' : s.kernel.state x ≠ .zombie := fun hz => hx ((hzombie x).2 hz)
    have hxq := h.live x q hx' (fun hz => hlive ((hzombie q).2 hz)) hq
    dsimp only
    rw [hch]
    split
    next he =>
      subst he
      refine (mem_erase_of_ne ?_).2 hxq
      rintro rfl
      exact hx' hprop.1
    · exact hxq
  · obtain ⟨hst, hnil, hcr⟩ := h.unborn q hq hn
    refine ⟨(hzombie q).2 hst, ?_, ?_⟩
    · exact eq_nil_iff_forall_not_mem.2 fun x hx => by
        have := hsub q hx
        rw [hnil] at this
        cases this
    · show k.credit q = 0
      have := hcredit q
      omega
  · have hacc := h.account q fun hz => hq ((hzombie q).2 hz)
    have hcr := hcredit q
    unfold zombies at hacc ⊢
    simp only [hzombie]
    rw [hch]
    split
    next he =>
      subst he
      rw [if_pos rfl] at hcr
      have := countP_erase hmem (p := fun c => s.kernel.state c = .zombie) (by simpa using hprop.1)
      omega
    next he =>
      rw [if_neg he] at hcr
      omega

/-- A process is born. -/
theorem Accounted.fork {pid : ℕ} (h : s.Accounted) (hu : s.kernel.frame s.kernel.running = .user)
    (hs : s.fork pid = some s') : s'.Accounted := by
  unfold Family.fork at hs
  split_ifs at hs with hpid
  obtain ⟨hp0, hpn⟩ := hpid
  obtain ⟨⟨k, o⟩, hk, rfl⟩ := map_eq_some_iff.1 hs
  have horderly := h.orderly.step (c := .start pid) trivial (by simpa only [Kernel.step, hu] using hk)
  simp only [Kernel.call] at hk
  split_ifs at hk with hz
  cases hk
  obtain ⟨-, hnil, hcr⟩ := h.unborn pid hp0 hpn
  have hrun : s.kernel.state s.kernel.running ≠ .zombie := by
    rw [h.orderly.running]
    decide
  have hne : pid ≠ s.kernel.running := by
    rintro rfl
    exact hrun hz.1
  have hnot (p : ℕ) : pid ∉ s.children p := fun hm => by
    rw [h.parent p pid hm] at hpn
    cases hpn
  have hstate (p : ℕ) : ((s.kernel.setState pid .ready).put pid).state p =
      if p = pid then .ready else s.kernel.state p := update_apply ..
  have hch (p : ℕ) : update s.children s.kernel.running
      (pid :: s.children s.kernel.running) p =
      if p = s.kernel.running then pid :: s.children p else s.children p := by
    rw [update_apply]
    split
    next hp => rw [hp]
    · rfl
  have hpar (c : ℕ) : update s.parent pid (some s.kernel.running) c =
      if c = pid then some s.kernel.running else s.parent c := update_apply ..
  have hcredit (p : ℕ) : ((s.kernel.setState pid .ready).put pid).credit p =
      s.kernel.credit p := rfl
  -- The child is in no list of children before, and has not ended.
  have hz' (p : ℕ) : (s.children p).countP (fun c =>
      ((s.kernel.setState pid .ready).put pid).state c = .zombie) = s.zombies p := by
    refine countP_congr fun c hc => ?_
    rw [hstate, if_neg (by rintro rfl; exact hnot p hc)]
  refine ⟨horderly, ⟨h.sems.frame, fun p hp => ?_, h.sems.value⟩, fun p => ?_, fun p c hc => ?_,
    fun c p hc hp hcp => ?_, ?_, fun p hp => ?_, fun c p hcp hp0' => ?_, fun p hp0' hpn' => ?_,
    fun p hp => ?_⟩
  · refine h.sems.blocked p ?_
    rw [hstate] at hp
    split at hp
    · cases hp
    · exact hp
  · dsimp only
    rw [hch]
    split
    · exact nodup_cons.2 ⟨hnot p, h.nodup p⟩
    · exact h.nodup p
  · dsimp only at hc ⊢
    rw [hch] at hc
    rw [hpar]
    have := h.parent p c
    have := hnot p
    grind
  · dsimp only at hc hp hcp ⊢
    rw [hstate] at hc hp
    rw [hpar] at hcp
    rw [hch]
    have hlive := h.live c p
    have hunborn : s.parent c = some p → p ≠ pid := by
      rintro hx rfl
      exact h.born c p hx hp0 hpn
    grind
  · dsimp only
    rw [hpar, if_neg (Ne.symm hp0)]
    exact h.root
  · dsimp only at hp
    rw [hpar] at hp
    have := h.irrefl p
    grind
  · dsimp only at hcp ⊢
    rw [hpar] at hcp ⊢
    have := h.born c p
    have := h.unborn p hp0'
    grind
  · dsimp only at hpn' ⊢
    rw [hpar] at hpn'
    split at hpn'
    · cases hpn'
    next hp =>
      obtain ⟨hst, hnil', hcr'⟩ := h.unborn p hp0' hpn'
      refine ⟨by rw [hstate, if_neg hp, hst], ?_, hcr'⟩
      rwa [hch, if_neg (by rintro rfl; exact hrun hst)]
  rw [hcredit]
  unfold zombies
  dsimp only
  rw [hch]
  by_cases hpid : p = pid
  · subst hpid
    rw [if_neg hne, hnil, hcr]
    rfl
  rw [hstate, if_neg hpid] at hp
  rw [h.account p hp]
  split
  · rw [countP_cons_of_neg, hz']
    rw [hstate, if_pos rfl]
    decide
  · rw [hz']

/-- The children of a process are given to `s_init`, which gets a token for each which has ended. -/
theorem adopt_spec (cs : List ℕ) (hk : s.kernel.Orderly) (hsems : s.kernel.SelfSems) :
    (adopt cs s).children = update s.children 0 (cs.reverse ++ s.children 0) ∧
    (∀ c, (adopt cs s).parent c = if c ∈ cs then some 0 else s.parent c) ∧
    (adopt cs s).kernel.Orderly ∧ (adopt cs s).kernel.SelfSems ∧
    (adopt cs s).kernel.running = s.kernel.running ∧ (adopt cs s).kernel.frame = s.kernel.frame ∧
    (∀ q, (adopt cs s).kernel.state q = .zombie ↔ s.kernel.state q = .zombie) ∧
    ∀ q, (adopt cs s).kernel.credit q =
      s.kernel.credit q + if q = 0 then cs.countP fun c => s.kernel.state c = .zombie else 0 := by
  induction cs generalizing s with
  | nil =>
    refine ⟨?_, by simp [adopt], hk, hsems, rfl, rfl, fun _ => Iff.rfl, by simp [adopt]⟩
    simp only [adopt, reverse_nil, nil_append]
    exact (update_eq_self ..).symm
  | cons c cs ih =>
    -- The kernel after the first child.
    obtain ⟨k1, hk1, horderly, hself, hrun, hframe, hzombie, hcredit⟩ : ∃ k1,
        (if s.kernel.state c = .zombie then s.kernel.semSignal 0 else s.kernel) = k1 ∧
        k1.Orderly ∧ k1.SelfSems ∧ k1.running = s.kernel.running ∧
        k1.frame = s.kernel.frame ∧
        (∀ q, k1.state q = .zombie ↔ s.kernel.state q = .zombie) ∧
        ∀ q, k1.credit q =
          s.kernel.credit q + if q = 0 ∧ s.kernel.state c = .zombie then 1 else 0 := by
      refine ⟨_, rfl, ?_⟩
      split
      next hz =>
        obtain ⟨hself, -, hcredit, hzombie, hframe⟩ := hsems.semSignal hk.tidy 0
        obtain ⟨st, wo, rd, sm, he⟩ := semSignal_eq s.kernel 0
        refine ⟨hk.semSignal 0, hself, by rw [he], hframe, hzombie, fun q => ?_⟩
        rw [hcredit]
        simp [hz]
      next hz => exact ⟨hk, hsems, rfl, rfl, fun _ => Iff.rfl, fun q => by simp [hz]⟩
    obtain ⟨i1, i2, i3, i4, i5, i6, i7, i8⟩ := ih (s := { s with
      parent := update s.parent c (some 0)
      children := update s.children 0 (c :: s.children 0)
      kernel := k1 }) horderly hself
    unfold adopt
    rw [hk1]
    refine ⟨?_, fun x => ?_, i3, i4, i5.trans hrun, i6.trans hframe,
      fun q => (i7 q).trans (hzombie q), fun q => ?_⟩
    · rw [i1]
      simp
    · rw [i2]
      simp only [update_apply, mem_cons]
      grind
    · rw [i8]
      rw [hcredit, countP_cons]
      simp only [hzombie, decide_eq_true_eq]
      grind

/-- The parent gets a token. -/
theorem notify_spec (hs : s.notify me = some s') (hk : s.kernel.Orderly)
    (hsems : s.kernel.SelfSems) :
    s'.children = s.children ∧ s'.parent = s.parent ∧ s'.kernel.Orderly ∧ s'.kernel.SelfSems ∧
    s'.kernel.running = s.kernel.running ∧ s'.kernel.frame = s.kernel.frame ∧
    (∀ q, s'.kernel.state q = .zombie ↔ s.kernel.state q = .zombie) ∧
    ∀ q, s'.kernel.credit q = s.kernel.credit q + if s.parent me = some q then 1 else 0 := by
  unfold notify at hs
  split at hs
  next hp =>
    cases hs
    exact ⟨rfl, rfl, hk, hsems, rfl, rfl, fun _ => Iff.rfl, by simp [hp]⟩
  next p hp =>
    obtain ⟨⟨k, o⟩, hkill, rfl⟩ := map_eq_some_iff.1 hs
    obtain ⟨h₁, hnot, hcredit, hzombie, hframe⟩ := hsems.semSignal hk.tidy p
    obtain ⟨st, wo, rd, sm, he⟩ := semSignal_eq s.kernel p
    have horderly := (hk.semSignal p).kill hkill
    have hsame := kill_same (hk.semSignal p).tidy hnot hkill
    have hrun : k.running = s.kernel.running := by
      obtain ⟨st', wo', fk, rd', sl, sm', qu, he'⟩ := kill_eq hkill
      rw [he', he]
    refine ⟨rfl, rfl, horderly, h₁.same hsame, hrun, hsame.frame.trans hframe,
      fun q => (hsame.zombie q).trans (hzombie q), fun q => ?_⟩
    rw [hsame.credit, hcredit, hp]
    simp only [Option.some.injEq, eq_comm]

/-- The running process ends. -/
theorem end_spec {k' : Kernel ℕ} (hk : k.Orderly) (hsems : k.SelfSems)
    (hd : (k.setState k.running .zombie).dispatch = some k') :
    k'.Orderly ∧ k'.SelfSems ∧ (∀ q, k'.credit q = k.credit q) ∧
      ∀ q, k'.state q = .zombie ↔ q = k.running ∨ k.state q = .zombie := by
  have hsame := dispatch_same hd
  have hstate (q : ℕ) : (k.setState k.running .zombie).state q =
      if q = k.running then .zombie else k.state q := update_apply ..
  refine ⟨hk.yield ⟨by decide, by decide⟩ hd, ?_, hsame.credit, fun q => ?_⟩
  · have hset : (k.setState k.running .zombie).SelfSems := by
      refine ⟨hsems.frame, fun q hq => hsems.blocked q ?_, hsems.value⟩
      rw [hstate] at hq
      split at hq
      · cases hq
      · exact hq
    exact hset.same hsame
  · rw [hsame.zombie, hstate]
    grind

/-- One more child has ended. -/
theorem countP_or {z : ℕ → Prop} [DecidablePred z] (hnd : l.Nodup) (hme : ¬ z me) :
    l.countP (fun c => c = me ∨ z c) = l.countP (fun c => z c) + if me ∈ l then 1 else 0 := by
  induction l with
  | nil => rfl
  | cons c cs ih =>
    have hnd := nodup_cons.1 hnd
    rw [countP_cons, countP_cons, ih hnd.2]
    simp only [decide_eq_true_eq, mem_cons]
    by_cases hc : c = me
    · subst hc
      simp [hme, hnd.1]
    · simp [hc, Ne.symm hc]
      omega

variable (h : s.Accounted)

include h

theorem Accounted.exit (hs : s.exit = some s') : s'.Accounted := by
  obtain ⟨s2, hs2, hs⟩ := bind_eq_some_iff.1 hs
  obtain ⟨k, hk, rfl⟩ := map_eq_some_iff.1 hs
  obtain ⟨a1, a2, a3, a4, a5, a6, a7, a8⟩ :=
    adopt_spec (s.children s.kernel.running) h.orderly h.sems
  obtain ⟨n1, n2, n3, n4, n5, n6, n7, n8⟩ := notify_spec hs2 a3 a4
  have hrun : s2.kernel.running = s.kernel.running := n5.trans a5
  rw [← hrun] at hk
  obtain ⟨e1, e2, e3, e4⟩ := end_spec n3 n4 hk
  rw [hrun] at e4
  generalize hme : s.kernel.running = me at *
  have hlive : s.kernel.state me ≠ .zombie := by
    rw [← hme, h.orderly.running]
    decide
  have hself : me ∉ s.children me := fun hm => h.irrefl me (h.parent me me hm)
  -- The family after the exit, in terms of the one before.
  have hzombie (q : ℕ) : k.state q = .zombie ↔ q = me ∨ s.kernel.state q = .zombie := by
    rw [e4, n7, a7]
  have hcredit (q : ℕ) : k.credit q = s.kernel.credit q +
      (if q = 0 then (s.children me).countP fun c => s.kernel.state c = .zombie else 0) +
      if s.parent me = some q then 1 else 0 := by
    rw [e3, n8, a8, a2, if_neg hself]
  have hchildren (q : ℕ) : s2.children q = if q = me then [] else
      if q = 0 then (s.children me).reverse ++ s.children 0 else s.children q := by
    rw [n1, a1]
    simp only [update_apply]
  have hparent (c : ℕ) : s2.parent c = if c ∈ s.children me then some 0 else s.parent c := by
    rw [n2, a2]
  -- A child of another process is none of those which are given away.
  have hother {p c : ℕ} (hp : p ≠ me) (hc : c ∈ s.children p) : c ∉ s.children me := fun hm => by
    have := h.parent p c hc
    rw [h.parent me c hm] at this
    exact hp (Option.some.inj this).symm
  refine ⟨e1, e2, fun p => ?_, fun p c hc => ?_, fun c p hc hp hcp => ?_, ?_, fun p hp => ?_,
    fun c p hcp hp0 => ?_, fun p hp0 hpn => ?_, fun p hp => ?_⟩
  · rw [hchildren]
    split
    · exact .nil
    next hpme =>
      split
      next hp0 =>
        subst hp0
        refine nodup_append.2 ⟨nodup_reverse.2 (h.nodup me), h.nodup 0, ?_⟩
        rintro a ha _ hb rfl
        exact hother hpme hb (mem_reverse.1 ha)
      · exact h.nodup p
  · rw [hchildren] at hc
    rw [hparent]
    split at hc
    · cases hc
    next hpme =>
      split at hc
      next hp0 =>
        subst hp0
        rcases mem_append.1 hc with hc | hc
        · rw [if_pos (mem_reverse.1 hc)]
        · rw [if_neg (hother hpme hc)]
          exact h.parent 0 c hc
      · rw [if_neg (hother hpme hc)]
        exact h.parent p c hc
  · rw [Ne, hzombie, not_or] at hc hp
    rw [hparent] at hcp
    rw [hchildren, if_neg hp.1]
    split at hcp
    next hcm =>
      cases hcp
      rw [if_pos rfl]
      exact mem_append_left _ (mem_reverse.2 hcm)
    next hcm =>
      have hmem := h.live c p hc.2 hp.2 hcp
      split_ifs with hp0
      · subst hp0
        exact mem_append_right _ hmem
      · exact hmem
  · rw [hparent, if_neg fun hm => ?_]
    · exact h.root
    · have := h.parent me 0 hm
      rw [h.root] at this
      cases this
  · rw [hparent] at hp
    split at hp
    next hm =>
      cases hp
      have := h.parent me 0 hm
      rw [h.root] at this
      cases this
    · exact h.irrefl p hp
  · rw [hparent] at hcp ⊢
    split at hcp
    · cases hcp
      exact absurd rfl hp0
    · split
      · exact nofun
      · exact h.born c p hcp hp0
  · rw [hparent] at hpn
    split_ifs at hpn
    obtain ⟨hst, hnil, hcr⟩ := h.unborn p hp0 hpn
    refine ⟨(hzombie p).2 (.inr hst), ?_, ?_⟩
    · rw [hchildren, if_neg (by rintro rfl; exact hlive hst), if_neg hp0, hnil]
    · rw [hcredit, hcr, if_neg hp0, if_neg fun hm => h.born me p hm hp0 hpn]
  · rw [Ne, hzombie, not_or] at hp
    have hmem : s.parent me = some p ↔ me ∈ s.children p :=
      ⟨h.live me p hlive hp.2, h.parent p me⟩
    have hcount (l : List ℕ) (hnd : l.Nodup) : (l.countP fun c => k.state c = .zombie) =
        (l.countP fun c => s.kernel.state c = .zombie) + if me ∈ l then 1 else 0 := by
      simp only [hzombie]
      exact countP_or hnd hlive
    rw [hcredit, h.account p hp.2]
    unfold zombies
    rw [hchildren, if_neg hp.1]
    simp only [hmem]
    split
    next hp0 =>
      subst hp0
      rw [countP_append, hcount _ (nodup_reverse.2 (h.nodup me)), hcount _ (h.nodup 0),
        if_neg fun hm => hself (mem_reverse.1 hm), countP_reverse]
      omega
    · rw [hcount _ (h.nodup p), add_zero]

/-- A call which finds the child it asks for spends the token of this child. -/
theorem Accounted.wait (hu : s.kernel.frame s.kernel.running = .user)
    (hm : s.Matched (.wait pid nohang)) (hs : s.wait pid nohang = some (s', o)) :
    s'.Accounted ∧ (o = -1 → ∀ c ∈ pid, c ∉ s.children s.kernel.running) := by
  unfold Family.wait at hs
  dsimp only at hs
  split at hs
  next hnil =>
    cases hs
    exact ⟨h, fun _ c _ => by rw [hnil]; exact not_mem_nil⟩
  split at hs
  next hex =>
    cases hs
    obtain ⟨c, hc, hnot⟩ := hex
    refine ⟨h, fun _ d hd => ?_⟩
    rwa [mem_unique hd hc]
  next hnil hex =>
    split at hs
    · cases hs
      exact ⟨h, fun he => absurd he (by decide)⟩
    next hfound =>
      obtain ⟨k, hk, he⟩ := map_eq_some_iff.1 hs
      obtain ⟨hsems, hcredit, hzombie⟩ := h.sems.semWait h.orderly hu hk
      obtain ⟨ht, hr⟩ := h.orderly.tidy.semWait h.orderly.running hu hk
      split at he
      next hv =>
        cases he
        refine ⟨h.of_kernel rfl rfl ⟨ht, hr⟩ hsems (fun q => ?_) hzombie,
          fun he => absurd he (by decide)⟩
        rw [← hcredit q, if_neg fun hq => hq.2 (by rw [hq.1, hv]), add_zero]
      next hv =>
        have hspent (q : ℕ) :
            k.credit q + (if q = s.kernel.running then 1 else 0) = s.kernel.credit q := by
          rw [← hcredit q]
          by_cases hq : q = s.kernel.running
          · simp [hq, hv]
          · simp [hq]
        have hfind : s.findZombie s.kernel.running pid ≠ none := by
          rcases (hm.resolve_left hnil).resolve_left hex with hn | hm
          · exact fun hnone => hfound ⟨hn, hnone⟩
          · exact hm.resolve_left hv
        obtain ⟨c, ho, hacc⟩ := h.reap ⟨ht, hr⟩ hsems hspent hzombie hfind
        rw [he] at ho hacc
        refine ⟨hacc, fun hneg => ?_⟩
        rw [hneg] at ho
        omega

theorem Accounted.resume {i : ℕ} (hf : s.kernel.frame s.kernel.running = .sem i)
    (hm : s.Matched .resume) (hs : s.resume = some (s', o)) : s'.Accounted ∧ o ≠ -1 := by
  obtain ⟨⟨k, o'⟩, hk, he⟩ := map_eq_some_iff.1 hs
  obtain ⟨hsems, hcredit, hstate⟩ := h.sems.resume h.orderly hf hk
  obtain ⟨c, ho, hacc⟩ := h.reap (h.orderly.resume hk) hsems hcredit (fun q => by rw [hstate]) hm
  rw [he] at ho hacc
  refine ⟨hacc, ?_⟩
  omega

/-- The other steps. -/
theorem Accounted.elsewhere {c : Call ℕ}
    (hc : ∀ k o, s.kernel.step c = some (k, o) → k.Orderly ∧ s.kernel.Same k)
    (hs : s.elsewhere c = some (s', o)) : s'.Accounted := by
  obtain ⟨⟨k, o'⟩, hk, ⟨⟩⟩ := map_eq_some_iff.1 hs
  obtain ⟨hk, hsame⟩ := hc _ _ hk
  exact h.same hk hsame

theorem Accounted.tick (hs : s.elsewhere .tick = some (s', o)) : s'.Accounted := by
  refine h.elsewhere (fun k o hk => ?_) hs
  have hpolite : s.kernel.Polite .tick := fun pid _ w hw => by
    rcases h.sems.frame pid with hf | hf <;> rw [hf] at hw <;> cases hw
  refine ⟨h.orderly.step hpolite hk, ?_⟩
  unfold Kernel.step at hk
  split at hk
  · cases hk
    exact awake_same h.orderly.tidy
  · cases hk
    exact awake_same h.orderly.tidy
  all_goals contradiction

theorem Accounted.preempt (hu : s.kernel.frame s.kernel.running = .user)
    (hs : s.elsewhere .preempt = some (s', o)) : s'.Accounted := by
  refine h.elsewhere (fun k o hk => ⟨h.orderly.step (c := .preempt) trivial hk, ?_⟩) hs
  simp only [Kernel.step, hu, Kernel.call] at hk
  obtain ⟨k1, hk1, ⟨⟩⟩ := map_eq_some_iff.1 hk
  exact dispatch_same hk1

theorem Accounted.sleep {time : ℕ} (hu : s.kernel.frame s.kernel.running = .user)
    (hs : s.elsewhere (.sleep time) = some (s', o)) : s'.Accounted := by
  refine h.elsewhere (fun k o hk => ⟨h.orderly.step (c := .sleep time) trivial hk, ?_⟩) hs
  simp only [Kernel.step, hu, Kernel.call] at hk
  obtain ⟨k1, hk1, ⟨⟩⟩ := map_eq_some_iff.1 hk
  have hset : s.kernel.Same
      ((s.kernel.setState s.kernel.running .sleeping).putSleep s.kernel.running time) :=
    ⟨rfl, rfl, fun q => state_of_ready h.orderly.running (by decide) (by decide),
      fun q => state_of_ready h.orderly.running (by decide) (by decide)⟩
  exact hset.trans (dispatch_same hk1)

theorem Accounted.step {c : FamilyCall} (hm : s.Matched c)
    (hs : s.step c = some (s', o)) : s'.Accounted := by
  unfold Family.step at hs
  split at hs
  next hu =>
    obtain ⟨s1, hs1, ⟨⟩⟩ := map_eq_some_iff.1 hs
    exact h.fork hu hs1
  · obtain ⟨s1, hs1, ⟨⟩⟩ := map_eq_some_iff.1 hs
    exact h.exit hs1
  next hu => exact (h.wait hu hm hs).1
  next hf => exact (h.resume hf hm hs).1
  next hu => exact h.sleep hu hs
  next hu => exact h.preempt hu hs
  · exact h.tick hs
  · cases hs

omit h

theorem boot_accounted : boot.Accounted := by
  refine ⟨(boot_boot 0 fun _ => 0).orderly, ⟨fun _ => .inl rfl, fun p hp => ?_, fun p hp => ?_⟩,
    fun _ => .nil, fun p c hc => ?_, fun c p hc hp hcp => ?_, rfl, fun _ => nofun, fun _ _ hcp => ?_,
    fun p hp _ => ⟨?_, rfl, rfl⟩, fun _ _ => rfl⟩
  · exact absurd (.inl hp) ((boot_boot 0 fun _ : ℕ => 0).state p)
  · exact absurd rfl hp
  · cases hc
  · cases hcp
  · cases hcp
  · simp [boot, Kernel.boot, hp]

theorem step_wait (hu : s.kernel.frame s.kernel.running = .user) :
    s.step (.wait pid nohang) = s.wait pid nohang := by
  simp [Family.step, hu]

theorem user_of_step_wait (hs : s.step (.wait pid nohang) = some (s', o)) :
    s.kernel.frame s.kernel.running = .user ∧ s.wait pid nohang = some (s', o) := by
  cases hf : s.kernel.frame s.kernel.running with
  | user => exact ⟨rfl, by rwa [step_wait hf] at hs⟩
  | sem | futex => simp [Family.step, hf] at hs

theorem sem_of_step_resume (hs : s.step .resume = some (s', o)) :
    ∃ i, s.kernel.frame s.kernel.running = .sem i ∧ s.resume = some (s', o) := by
  cases hf : s.kernel.frame s.kernel.running with
  | user | futex => simp [Family.step, hf] at hs
  | sem i => exact ⟨i, rfl, by simpa [Family.step, hf] using hs⟩

theorem findZombie_self (hc : c ∈ s.children me) (hz : s.kernel.state c = .zombie) :
    s.findZombie me (some c) = some c := by
  have hsome : s.findZombie me (some c) ≠ none := by
    unfold findZombie
    rw [Ne, List.find?_eq_none]
    exact fun hno => hno c hc (by simp [hz, asksFor])
  obtain ⟨d, hd⟩ := ne_none_iff_exists'.1 hsome
  have hprop := List.find?_some hd
  simp only [asksFor, all_some, Bool.and_eq_true, decide_eq_true_eq] at hprop
  rw [hd, hprop.2]

/-- `Process::wait` with a token, for a child which has ended, returns it. -/
theorem wait_child (hc : c ∈ s.children s.kernel.running)
    (hfind : s.findZombie s.kernel.running (some c) = some c)
    (hv : (s.kernel.sem s.kernel.running).value ≠ 0) :
    ∃ s', s.wait (some c) nohang = some (s', (c : ℤ)) := by
  unfold Family.wait
  rw [if_neg (ne_nil_of_mem hc), if_neg (by simpa using hc), if_neg (by simp [hfind])]
  unfold Kernel.semWait
  rw [if_neg hv, map_some, if_neg hv]
  unfold Family.reap
  have hfind' : findZombie { s with kernel := { s.kernel with
      sem := update s.kernel.sem s.kernel.running
        ⟨(s.kernel.sem s.kernel.running).value - 1, (s.kernel.sem s.kernel.running).blocked⟩ } }
      s.kernel.running (some c) = some c := hfind
  rw [hfind']
  exact ⟨_, rfl⟩

/-- In every run in which each call of `Process::wait` which gets a token finds the child it asks
    for: the semaphore of a process which has not ended, and is not in `Process::wait`, is worth
    as many tokens as it has children which have ended; `Process::wait` for such a child does not
    block; and it does not return `-1` for a process which is a child. -/
theorem reachable_accounted (hrun : Reaches (fun s => s.step) Matched boot s) :
    (∀ p, s.kernel.state p ≠ .zombie → s.kernel.frame p = .user →
      (s.kernel.sem p).value = s.zombies p) ∧
    (∀ c nohang, s.kernel.frame s.kernel.running = .user → c ∈ s.children s.kernel.running →
      s.kernel.state c = .zombie → ∃ s', s.step (.wait (some c) nohang) = some (s', (c : ℤ))) ∧
    (∀ c nohang s', s.Matched (.wait (some c) nohang) →
      s.step (.wait (some c) nohang) = some (s', -1) → c ∉ s.children s.kernel.running) ∧
    ∀ s', s.Matched .resume → s.step .resume ≠ some (s', -1) := by
  have h : s.Accounted := hrun.inv (fun _ _ _ _ h hm hs => h.step hm hs) boot_accounted
  have hvalue (p : ℕ) (hp : s.kernel.state p ≠ .zombie) (hf : s.kernel.frame p = .user) :
      (s.kernel.sem p).value = s.zombies p := by
    rw [← h.account p hp]
    simp [credit, tokens, hf]
  refine ⟨hvalue, fun c nohang hu hc hz => ?_, fun c nohang s' hm hs hc => ?_, fun s' hm hs => ?_⟩
  · have hfind : s.findZombie s.kernel.running (some c) = some c :=
      findZombie_self hc hz
    have hlive : s.kernel.state s.kernel.running ≠ .zombie := by
      rw [h.orderly.running]
      decide
    have hv : (s.kernel.sem s.kernel.running).value ≠ 0 := by
      rw [hvalue _ hlive hu]
      exact (countP_pos_iff.2 ⟨c, hc, by simpa using hz⟩).ne'
    rw [step_wait hu]
    exact wait_child hc hfind hv
  · obtain ⟨hu, hs⟩ := user_of_step_wait hs
    exact (h.wait hu hm hs).2 rfl c rfl hc
  · obtain ⟨i, hf, hs⟩ := sem_of_step_resume hs
    exact (h.resume hf hm hs).2 rfl

/-- `s_init` has two children, of which one ends. -/
def oneEnded : Family :=
  lastState (guarded (fun s => s.step) Matched) boot [.fork 1, .fork 2, .preempt, .preempt, .exit]

/-- `s_init` waits for the child which has ended, and gets it. -/
theorem reachable_accounted_oneEnded : oneEnded.zombies 0 = 1 ∧
    ∃ s', oneEnded.step (.wait (some 2) false) = some (s', 2) := by
  refine ⟨by decide +kernel, ?_⟩
  exact (reachable_accounted (.lastState boot _)).2.1 2 false (by decide +kernel) (by decide +kernel)
    (by decide +kernel)

/-- `s_init` has two children, of which the second one ends, and waits for the first one: it takes
    the token, and returns `-1`, although the process is a child. The semaphore is worth nothing
    then, and waiting for the child which has ended blocks. -/
theorem wait_takes_other : ∃ (s : Family) (os : List ℤ),
    runs (fun s => s.step) boot [.fork 1, .fork 2, .preempt, .preempt, .exit] = some (s, os) ∧
    ∃ s', s.step (.wait (some 1) false) = some (s', -1) ∧ s'.kernel.running = 0 ∧
    1 ∈ s'.children 0 ∧ s'.zombies 0 = 1 ∧ (s'.kernel.sem 0).value = 0 ∧
    2 ∈ s'.children 0 ∧ s'.kernel.state 2 = .zombie ∧
    ∃ s'' o, s'.step (.wait (some 2) false) = some (s'', o) ∧ s''.kernel.state 0 = .blocked := by
  decide +kernel

end Family

end HobbyOS
