import HobbyOS.Disk.Driver

/-!
# What a step of the driver can do

A process which calls `Disk::sendRequest` waits for a request for the same sector, waits for a
slot, or puts its request into one (`Sent`). With this, `Next` lists what a step does.

Nobody ever finds a token in `m_coalesceSem`: it is only signalled while somebody waits
(`Blocking`). Under this condition every step is one of the list (`step_next`).
-/

namespace HobbyOS

open Function Option

namespace Driver

variable {D : Type*} {s s' t : Driver D} {pid i : ℕ} {is : List ℕ} {e : DriverEvent D} {r : Reply D}

/-- There are no tokens in `m_coalesceSem`. -/
def Blocking (s : Driver D) : Prop := ∀ i, (s.coalesceSem i).value = 0

/-- A process calls `Disk::sendRequest`. -/
def calling (s : Driver D) (pid : ℕ) (op : OpType) (sector : ℕ) : Driver D :=
  { s with call := update s.call pid (op, sector) }

/-- There is a request for the sector a process is interested in. -/
def Busy (s : Driver D) (pid i : ℕ) : Prop :=
  s.free i = true ∧ s.slotSector i = some (s.call pid).2

/-- What `Disk::sendRequest` does, after the slots `is` were looked at. -/
inductive Sent (s : Driver D) (pid : ℕ) (is : List ℕ) : Driver D → Prop
  | coalesce (i : ℕ) (hi : i ∈ is) (hbusy : s.Busy pid i) :
    Sent s pid is { s with
      coalesceSem := update s.coalesceSem i ((s.coalesceSem i).push pid)
      pc := update s.pc pid (.coalesce i) }
  | wait (hbusy : ∀ i ∈ is, ¬ s.Busy pid i) (hv : s.allocSem.value = 0) :
    Sent s pid is { s with
      allocSem := s.allocSem.push pid
      pc := update s.pc pid .alloc }
  | submit (i : ℕ) (hbusy : ∀ i ∈ is, ¬ s.Busy pid i) (hv : s.allocSem.value ≠ 0)
      (hi : s.freeIndex = some i) :
    Sent s pid is ({ s with allocSem := s.allocSem.take }.fill pid i)

/-- A process gets past `m_slotSem[i]->wait()`, which leaves these semaphores. -/
inductive Passed (s : Driver D) (pid i : ℕ) : (ℕ → Semaphore) → Prop
  | token (hpc : s.pc pid = .notified i) (hv : (s.slotSem i).value ≠ 0) :
    Passed s pid i (update s.slotSem i (s.slotSem i).take)
  | woken (hpc : s.pc pid = .slot i) (hb : pid ∉ (s.slotSem i).blocked) : Passed s pid i s.slotSem

/-- What a step does. -/
inductive Next (s : Driver D) : DriverEvent D → Driver D → Reply D → Prop
  | readHit {pid sector : ℕ} {disk : Disk D} {data : D} (hpc : s.pc pid = .idle)
      (hl : s.disk.lookup sector = some (disk, some data)) :
    Next s (.read pid sector) { s with disk := disk } (.read data)
  | readMiss {pid sector : ℕ} {disk : Disk D} {s' : Driver D} (hpc : s.pc pid = .idle)
      (hl : s.disk.lookup sector = some (disk, none))
      (hs : Sent ({ s with disk := disk }.calling pid .read sector) pid (List.range numSlots) s') :
    Next s (.read pid sector) s' .pending
  | writeHit {pid sector : ℕ} {disk : Disk D} {data old : D} (hpc : s.pc pid = .idle)
      (hl : s.disk.lookup sector = some (disk, some old)) :
    Next s (.write pid sector data)
      { s with disk := { disk with cache := disk.cache.map (overwrite sector data true) } } .written
  | writeMiss {pid sector : ℕ} {disk : Disk D} {data : D} {s' : Driver D} (hpc : s.pc pid = .idle)
      (hl : s.disk.lookup sector = some (disk, none))
      (hs : Sent ({ s with disk := disk, buf := update s.buf pid data }.calling
        pid .write sector) pid (List.range numSlots) s') :
    Next s (.write pid sector data) s' .pending
  | coalesced {pid i : ℕ} {disk : Disk D} {data : D} (hpc : s.pc pid = .coalesce i)
      (hb : pid ∉ (s.coalesceSem i).blocked) (hop : (s.call pid).1 = .read)
      (hl : s.disk.lookup (s.call pid).2 = some (disk, some data)) :
    Next s (.resume pid)
      ({ s with disk := disk, buf := update s.buf pid data }.returned pid) (.read data)
  | again {pid i : ℕ} {disk : Disk D} {found : Option D} {s' : Driver D}
      (hpc : s.pc pid = .coalesce i) (hb : pid ∉ (s.coalesceSem i).blocked)
      (hl : s.disk.lookup (s.call pid).2 = some (disk, found))
      (hop : found = none ∨ (s.call pid).1 = .write)
      (hs : Sent ({ s with disk := disk }.returned pid) pid
        (List.range' (i + 1) (numSlots - (i + 1))) s') :
    Next s (.resume pid) s' .pending
  | woken {pid i : ℕ} (hpc : s.pc pid = .alloc) (hb : pid ∉ s.allocSem.blocked)
      (hi : s.freeIndex = some i) :
    Next s (.resume pid) (s.fill pid i) .pending
  | block {pid i : ℕ} (hpc : s.pc pid = .notified i) (hv : (s.slotSem i).value = 0) :
    Next s (.resume pid) { s with
      slotSem := update s.slotSem i ((s.slotSem i).push pid)
      pc := update s.pc pid (.slot i) } .pending
  | finish {pid i : ℕ} {slotSem : ℕ → Semaphore} {disk : Disk D} (hp : s.Passed pid i slotSem)
      (hst : s.status i = 0)
      (hd : s.disk.insert (fun _ _ _ => none) (s.call pid).2 (s.buf pid) = some disk) :
    Next s (.resume pid) (({ s with slotSem := slotSem, disk := disk }.returned pid).freeSlot i)
      (s.reply pid)
  | evict {pid i : ℕ} {slotSem : ℕ → Semaphore} {b : CachedBlock D} {s' : Driver D}
      (hp : s.Passed pid i slotSem) (hst : s.status i = 0)
      (hd : s.disk.evicted (s.call pid).2 = some b)
      (hs : Sent ({ s with
        slotSem := slotSem
        disk := { s.disk with locked := true }
        buf := update s.buf pid b.data }.returned pid |>.calling pid .write b.sectorNum)
        pid (List.range numSlots) s') :
    Next s (.resume pid) s' .pending
  | take {s' : Driver D} (h : s.take = some s') : Next s .take s' .pending
  | complete {id : ℕ} {s' : Driver D} (h : s.complete id = some s') : Next s (.complete id) s' .pending
  | interrupt {s' : Driver D} (h : handle idxSize s = some s') : Next s .interrupt s' .pending

/-! ## Every step is one of these -/

theorem scan_returned (hs : s.Blocking) : scan pid is (s.returned pid) = scan pid is s := by
  induction is with
  | nil =>
    simp only [scan, allocWait, submit, freeIndex, returned, fill, setDesc, update_idem]
  | cons i is ih =>
    have hv : (s.coalesceSem i).value = 0 := hs i
    have hv' : ((s.returned pid).coalesceSem i).value = 0 := hv
    rw [scan, scan, if_pos hv, if_pos hv', ih]
    simp only [returned, update_idem]

theorem allocWait_sent (hbusy : ∀ i ∈ is, ¬ s.Busy pid i) (h : s.allocWait pid = some (s', r)) :
    s.Sent pid is s' ∧ r = .pending := by
  unfold allocWait at h
  split_ifs at h with hv
  · cases h
    exact ⟨.wait hbusy hv, rfl⟩
  · obtain ⟨i, hi, ⟨⟩⟩ := map_eq_some_iff.1 h
    exact ⟨.submit i hbusy hv hi, rfl⟩

theorem Sent.cons (hi : ¬ s.Busy pid i) (h : s.Sent pid is s') : s.Sent pid (i :: is) s' := by
  cases h with
  | coalesce j hj hbusy => exact .coalesce j (.tail _ hj) hbusy
  | wait hbusy hv => exact .wait (List.forall_mem_cons.2 ⟨hi, hbusy⟩) hv
  | submit j hbusy hv hj => exact .submit j (List.forall_mem_cons.2 ⟨hi, hbusy⟩) hv hj

theorem scan_sent (hs : s.Blocking) (h : scan pid is s = some (s', r)) :
    s.Sent pid is s' ∧ r = .pending := by
  induction is with
  | nil => exact allocWait_sent (by simp) h
  | cons i is ih =>
    rw [scan, if_pos (show (s.coalesceSem i).value = 0 from hs i)] at h
    split_ifs at h with hbusy
    · cases h
      exact ⟨.coalesce i List.mem_cons_self hbusy, rfl⟩
    · exact (ih h).imp (Sent.cons hbusy) id

theorem coalesced_next {rest : Driver D → Option (Driver D × Reply D)}
    (h : s.coalesced pid rest = some (s', r)) :
    (∃ disk data, (s.call pid).1 = .read ∧ s.disk.lookup (s.call pid).2 = some (disk, some data) ∧
      s' = { s with disk := disk, buf := update s.buf pid data }.returned pid ∧
      r = .read data) ∨
    ∃ disk found, s.disk.lookup (s.call pid).2 = some (disk, found) ∧
      (found = none ∨ (s.call pid).1 = .write) ∧ rest { s with disk := disk } = some (s', r) := by
  obtain ⟨⟨disk, found⟩, hl, h⟩ := bind_eq_some_iff.1 h
  cases found with
  | none => exact .inr ⟨disk, none, hl, .inl rfl, h⟩
  | some data =>
    cases hop : (s.call pid).1 with
    | read =>
      simp only [hop] at h
      cases h
      exact .inl ⟨disk, data, rfl, hl, rfl, rfl⟩
    | write =>
      simp only [hop] at h
      exact .inr ⟨disk, some data, hl, .inr rfl, h⟩

/-- After `m_slotSem[i]->wait()`. -/
theorem finish_next {slotSem : ℕ → Semaphore} (hs : s.Blocking) (hp : s.Passed pid i slotSem)
    (h : { s with slotSem := slotSem }.finish pid i = some (s', r)) :
    s.Next (.resume pid) s' r := by
  unfold finish at h
  split_ifs at h with hst
  have hst : s.status i = 0 := not_not.1 hst
  split at h
  next b hd =>
    rw [sendRequest, ← scan_returned (by exact hs)] at h
    obtain ⟨hsent, rfl⟩ := scan_sent (by exact hs) h
    exact .evict hp hst hd hsent
  next hd =>
    obtain ⟨disk, hd, ⟨⟩⟩ := map_eq_some_iff.1 h
    exact .finish hp hst hd

theorem resume_next (hs : s.Blocking) (h : s.resume pid = some (s', r)) :
    s.Next (.resume pid) s' r := by
  unfold resume at h
  split at h
  · cases h
  next i hpc =>
    split_ifs at h with hb
    obtain ⟨disk, data, hop, hl, rfl, rfl⟩ | ⟨disk, found, hl, hop, hscan⟩ := coalesced_next h
    · exact .coalesced hpc hb hop hl
    · rw [← scan_returned (by exact hs)] at hscan
      obtain ⟨hsent, rfl⟩ := scan_sent (by exact hs) hscan
      exact .again hpc hb hl hop hsent
  next hpc =>
    split_ifs at h with hb
    obtain ⟨i, hi, ⟨⟩⟩ := map_eq_some_iff.1 h
    exact .woken hpc hb hi
  next i hpc =>
    unfold slotWait at h
    split_ifs at h with hv
    · cases h
      exact .block hpc hv
    · exact finish_next hs (.token hpc hv) h
  next i hpc =>
    split at h
    · cases h
    next hb => exact finish_next hs (.woken hpc hb) h

theorem step_next (hs : s.Blocking) (h : s.step e = some (s', r)) : s.Next e s' r := by
  cases e with
  | read pid sector =>
    simp only [step] at h
    split_ifs at h with hpc
    obtain ⟨⟨disk, found⟩, hl, h⟩ := bind_eq_some_iff.1 h
    cases found with
    | none =>
      obtain ⟨hsent, rfl⟩ := scan_sent (by exact hs) h
      exact .readMiss hpc hl hsent
    | some data =>
      cases h
      exact .readHit hpc hl
  | write pid sector data =>
    simp only [step] at h
    split_ifs at h with hpc
    obtain ⟨⟨disk, found⟩, hl, h⟩ := bind_eq_some_iff.1 h
    cases found with
    | none =>
      obtain ⟨hsent, rfl⟩ := scan_sent (by exact hs) h
      exact .writeMiss hpc hl hsent
    | some old =>
      cases h
      exact .writeHit hpc hl
  | resume pid => exact resume_next hs h
  | take =>
    obtain ⟨t, ht, ⟨⟩⟩ := map_eq_some_iff.1 h
    exact .take ht
  | complete id =>
    obtain ⟨t, ht, ⟨⟩⟩ := map_eq_some_iff.1 h
    exact .complete ht
  | interrupt =>
    obtain ⟨t, ht, ⟨⟩⟩ := map_eq_some_iff.1 h
    exact .interrupt ht

/-! ## The frame of the other steps -/

theorem handle_eq {fuel : ℕ} (h : handle fuel s = some s') : ∃ seenIdx slotSem signals,
    s' = { s with seenIdx := seenIdx, slotSem := slotSem, signals := signals } := by
  induction fuel generalizing s with
  | zero => cases h
  | succ fuel ih =>
    unfold handle at h
    split at h
    · cases h
      exact ⟨_, _, _, rfl⟩
    · split at h
      · cases h
      · obtain ⟨seenIdx, slotSem, signals, rfl⟩ := ih h
        exact ⟨seenIdx, slotSem, signals, rfl⟩

theorem transfer_eq (s : Driver D) (pid : ℕ) (req : OpType × ℕ) : ∃ disk buf,
    s.transfer pid req = { s with disk := disk, buf := buf } := by
  obtain ⟨op, sector⟩ := req
  cases op with
  | read => exact ⟨s.disk, _, rfl⟩
  | write => exact ⟨_, s.buf, rfl⟩

theorem Sent.blocking (h : s.Sent pid is s') (hs : s.Blocking) : s'.Blocking := by
  cases h with
  | coalesce i _ _ =>
    intro j
    by_cases hj : j = i
    · subst hj
      simpa [Semaphore.push] using hs j
    · simpa [hj] using hs j
  | wait _ _ => exact hs
  | submit _ _ _ _ => exact hs

theorem Next.blocking (hs : s.Blocking) (h : s.Next e s' r) : s'.Blocking := by
  cases h with
  | readHit | writeHit | coalesced | woken | block => exact hs
  | readMiss _ _ h | writeMiss _ _ h | again _ _ _ _ h | evict _ _ _ h => exact h.blocking hs
  | @finish pid i slotSem disk _ _ _ =>
    intro j
    by_cases hj : j = i
    · subst hj
      simpa [freeSlot, returned, Semaphore.signalAll] using hs j
    · simpa [freeSlot, returned, hj] using hs j
  | take h =>
    unfold Driver.take at h
    split_ifs at h
    cases h
    exact hs
  | @complete id _ h =>
    unfold Driver.complete at h
    split_ifs at h
    obtain ⟨c, _, rfl⟩ := map_eq_some_iff.1 h
    obtain ⟨disk, buf, ht⟩ := s.transfer_eq c.2.1 (s.req c.1)
    rwa [ht]
  | interrupt h =>
    obtain ⟨_, _, _, rfl⟩ := handle_eq h
    exact hs

end Driver

end HobbyOS
