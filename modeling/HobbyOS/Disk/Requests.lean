import HobbyOS.Disk.Slots

/-!
# The requests of the disk driver

The ring of the available descriptors holds the slots whose requests are sent, unless the device
has taken them, and the ring of the used ones those whose requests are completed (`Rings`). All
steps of processes, of the device and of the interrupt handler keep the protocol
(`Next.protocol`), wherever the indices of the rings are.
-/

namespace HobbyOS

open Function List

namespace Driver

variable {D : Type*} {s s' : Driver D} {pid p q i j id : ℕ} {is la lu : List ℕ}
  {e : DriverEvent D} {r : Reply D} {phase : ℕ → Phase} {phase' x : Phase}
  {slotSem : ℕ → Semaphore}

/-- The rings agree with the phases of the slots. -/
structure Rings (s : Driver D) (phase : ℕ → Phase) (la lu : List ℕ) : Prop where
  deviceIdx : s.deviceIdx < idxSize
  seenIdx : s.seenIdx < idxSize
  avail : Queued queueSize idxSize s.availRing s.deviceIdx s.availIdx la
  used : Queued queueSize idxSize s.usedRing s.seenIdx s.usedIdx lu
  sentNodup : (la ++ s.inFlight).Nodup
  completedNodup : lu.Nodup
  sent : ∀ id, id ∈ la ++ s.inFlight ↔ ∃ i, id = i * 3 ∧ phase i = .sent
  completed : ∀ id, id ∈ lu ↔ ∃ i, id = i * 3 ∧ phase i = .completed

theorem queueSize_dvd : queueSize ∣ idxSize := by decide

theorem exists_update : (∃ j, id = j * 3 ∧ update phase i phase' j = x) ↔
      (id = i * 3 ∧ phase' = x) ∨ (id ≠ i * 3 ∧ ∃ j, id = j * 3 ∧ phase j = x) := by
  constructor
  · rintro ⟨j, rfl, hj⟩
    by_cases he : j = i
    · subst he
      exact .inl ⟨rfl, by simpa using hj⟩
    · rw [update_of_ne he] at hj
      exact .inr ⟨by omega, j, rfl, hj⟩
  · rintro (⟨rfl, hx⟩ | ⟨hne, j, rfl, hj⟩)
    · exact ⟨i, rfl, by simpa using hx⟩
    · have he : j ≠ i := fun he => hne (by rw [he])
      exact ⟨j, rfl, (update_of_ne he ..).trans hj⟩

theorem exists_update_of_ne (hi : phase i ≠ x) (hx : phase' ≠ x) :
    (∃ j, id = j * 3 ∧ update phase i phase' j = x) ↔ ∃ j, id = j * 3 ∧ phase j = x :=
  exists_congr fun j => and_congr_right' (update_eq_iff hi hx j)

/-- There are fewer requests than places in a ring. -/
theorem Slots.length_lt {l : List ℕ} (h : s.Slots phase) (hx : x ≠ .unused) (hl : l.Nodup)
    (hmem : ∀ id ∈ l, ∃ i, id = i * 3 ∧ phase i = x) : l.length < queueSize := by
  have hsub : l ⊆ (List.range numSlots).map (· * 3) := by
    intro id hid
    obtain ⟨i, rfl, hi⟩ := hmem id hid
    exact mem_map.2 ⟨i, mem_range.2 (h.lt (hi ▸ hx)), rfl⟩
  have hle := (hl.subperm hsub).length_le
  rw [length_map, length_range] at hle
  exact lt_of_le_of_lt hle (by decide)

variable (h : s.Rings phase la lu)

include h

theorem Rings.quiet (hq : s.Quiet s') : s'.Rings phase la lu := by
  refine ⟨?_, ?_, ?_, ?_, ?_, h.completedNodup, ?_, h.completed⟩
  · rw [hq.deviceIdx]
    exact h.deviceIdx
  · rw [hq.seenIdx]
    exact h.seenIdx
  · rw [hq.availRing, hq.deviceIdx, hq.availIdx]
    exact h.avail
  · rw [hq.usedRing, hq.seenIdx, hq.usedIdx]
    exact h.used
  · rw [hq.inFlight]
    exact h.sentNodup
  · rw [hq.inFlight]
    exact h.sent

theorem Rings.fill (hs : s.Slots phase) (hi : phase i = .unused) :
    (s.fill pid i).Rings (update phase i .sent) (la ++ [i * 3]) lu := by
  have hnot : i * 3 ∉ la ++ s.inFlight := by
    intro hm
    obtain ⟨j, hj, hsent⟩ := (h.sent _).1 hm
    obtain rfl : i = j := by omega
    rw [hi] at hsent
    cases hsent
  have hperm : (la ++ [i * 3] ++ s.inFlight).Perm (i * 3 :: (la ++ s.inFlight)) := by
    rw [append_assoc]
    exact perm_middle
  have hlen : la.length < queueSize := hs.length_lt (x := .sent) (by simp) h.sentNodup.of_append_left
    fun id hid => (h.sent id).1 (mem_append_left _ hid)
  refine ⟨h.deviceIdx, h.seenIdx, h.avail.push queueSize_dvd hlen h.deviceIdx _, h.used, ?_,
    h.completedNodup, fun id => ?_, fun id => ?_⟩
  · exact hperm.nodup_iff.2 (nodup_cons.2 ⟨hnot, h.sentNodup⟩)
  · refine hperm.mem_iff.trans ?_
    rw [exists_update, mem_cons, h.sent id]
    by_cases hid : id = i * 3 <;> simp [hid]
  · exact (h.completed id).trans (exists_update_of_ne (by simp [hi]) (by simp)).symm

theorem Rings.leave (hi : phase i = .signalled) :
    ({ s with slotSem := slotSem }.returned pid).Rings (update phase i .unused) la lu := by
  have hmem {x : Phase} (hx : .unused ≠ x) (hx' : .signalled ≠ x) (id : ℕ) :
      (∃ j, id = j * 3 ∧ update phase i .unused j = x) ↔ ∃ j, id = j * 3 ∧ phase j = x :=
    exists_update_of_ne (hi ▸ hx') hx
  exact { h with
    sent := fun id => (h.sent id).trans (hmem (by simp) (by simp) id).symm
    completed := fun id => (h.completed id).trans (hmem (by simp) (by simp) id).symm }

/-- The device takes a request. -/
theorem Rings.take (ht : s.take = some s') :
    ∃ la', s'.Rings phase la' lu ∧ (∀ phase', s.Slots phase' → s'.Slots phase') := by
  unfold Driver.take at ht
  split_ifs at ht with hne
  cases ht
  cases la with
  | nil => exact absurd h.avail.symm hne
  | cons id la =>
    obtain ⟨hid, hq⟩ := h.avail.pop
    have hperm : (la ++ s.availRing (s.deviceIdx % queueSize) :: s.inFlight).Perm
        (id :: la ++ s.inFlight) := by
      rw [hid]
      exact perm_middle
    refine ⟨la, ⟨Nat.mod_lt _ (by decide), h.seenIdx, hq, h.used, ?_, h.completedNodup, ?_,
      h.completed⟩, fun phase' hs => { hs with
        filled := fun p i hp => { hs.filled p i hp with } }⟩
    · exact hperm.nodup_iff.2 h.sentNodup
    · exact fun id => hperm.mem_iff.trans (h.sent id)

/-- What the device does to complete the request in a slot. -/
theorem Slots.complete_eq (hs : s.Slots phase) (hc : s.complete id = some s') :
    ∃ p i, id = i * 3 ∧ phase i = .sent ∧ id ∈ s.inFlight ∧ s.Outstanding p i ∧
      s' = { s.transfer p (s.call p) with
        status := update s.status i 0
        usedRing := update s.usedRing (s.usedIdx % queueSize) id
        usedIdx := (s.usedIdx + 1) % idxSize
        inFlight := s.inFlight.erase id
        completes := update s.completes i (s.completes i + 1) } := by
  unfold Driver.complete at hc
  split_ifs at hc with hid
  obtain ⟨i, rfl, hi⟩ := (h.sent id).1 (mem_append_right _ hid)
  obtain ⟨p, hp⟩ := (hs.used i).1 (by simp [hi])
  have hf := hs.filled p i hp
  rw [hf.chain] at hc
  cases hc
  refine ⟨p, i, rfl, hi, hid, hp, ?_⟩
  dsimp only
  rw [hf.req]

theorem Rings.complete (hs : s.Slots phase) (hi : phase i = .sent) (hid : i * 3 ∈ s.inFlight) :
    { s with
      status := update s.status i 0
      usedRing := update s.usedRing (s.usedIdx % queueSize) (i * 3)
      usedIdx := (s.usedIdx + 1) % idxSize
      inFlight := s.inFlight.erase (i * 3)
      completes := update s.completes i (s.completes i + 1) }.Rings
      (update phase i .completed) la (lu ++ [i * 3]) := by
  have hlen : lu.length < queueSize := hs.length_lt (x := .completed) (by simp) h.completedNodup
    fun id hid => (h.completed id).1 hid
  have hnot : i * 3 ∉ lu := by
    intro hm
    obtain ⟨j, hj, hc⟩ := (h.completed _).1 hm
    obtain rfl : i = j := by omega
    rw [hi] at hc
    cases hc
  have hla : i * 3 ∉ la := fun hm => (nodup_append.1 h.sentNodup).2.2 _ hm _ hid rfl
  have hfl : s.inFlight.Nodup := h.sentNodup.of_append_right
  refine ⟨h.deviceIdx, h.seenIdx, h.avail, h.used.push queueSize_dvd hlen h.seenIdx _, ?_, ?_,
    fun id => ?_, fun id => ?_⟩
  · exact h.sentNodup.sublist ((List.Sublist.refl la).append erase_sublist)
  · exact h.completedNodup.append (nodup_singleton _) (by simpa using hnot)
  · have hsent := h.sent id
    rw [mem_append] at hsent
    rw [exists_update, ← hsent, mem_append, hfl.mem_erase_iff]
    constructor
    · rintro (hm | ⟨hne, hm⟩)
      · exact .inr ⟨fun he => hla (he ▸ hm), .inl hm⟩
      · exact .inr ⟨hne, .inr hm⟩
    · rintro (⟨-, hx⟩ | ⟨hne, hm | hm⟩)
      · cases hx
      · exact .inl hm
      · exact .inr ⟨hne, hm⟩
  · rw [exists_update, ← h.completed id, mem_append, mem_singleton]
    by_cases he : id = i * 3
    · simp [he]
    · simp [he]

omit h

theorem Rings.signal (h : s.Rings phase (la) (i * 3 :: lu)) :
    (s.signalSlot i).Rings (update phase i .signalled) la lu := by
  have hnodup := nodup_cons.1 h.completedNodup
  have hi : phase i = .completed := by
    obtain ⟨j, hj, hc⟩ := (h.completed _).1 (.head _)
    obtain rfl : i = j := by omega
    exact hc
  refine { h with
    seenIdx := Nat.mod_lt _ (by decide)
    used := h.used.pop.2
    completedNodup := hnodup.2
    sent := fun id => (h.sent id).trans (exists_update_of_ne (by simp [hi]) (by simp)).symm
    completed := fun id => ?_ }
  · have hc := h.completed id
    rw [exists_update, ← hc, mem_cons]
    by_cases he : id = i * 3
    · subst he
      simp [hnodup.1]
    · simp [he]

/-- The interrupt handler signals all slots whose requests are completed, and ends. -/
theorem Rings.handle {fuel : ℕ} (h : s.Rings phase la lu) (hs : s.Slots phase)
    (hfuel : lu.length < fuel) : ∃ s' phase', handle fuel s = some s' ∧ s'.Slots phase' ∧
      s'.Rings phase' la [] := by
  induction lu generalizing s phase fuel with
  | nil =>
    obtain ⟨fuel, rfl⟩ := Nat.exists_eq_add_of_lt hfuel
    refine ⟨s, phase, ?_, hs, h⟩
    rw [Driver.handle, if_pos]
    exact h.used.symm
  | cons id lu ih =>
    obtain ⟨fuel, rfl⟩ : ∃ n, fuel = n + 1 := ⟨fuel - 1, by omega⟩
    have hlen := hs.length_lt (x := .completed) (by simp) h.completedNodup
      fun id hid => (h.completed id).1 hid
    have hne : s.seenIdx ≠ s.usedIdx := by
      intro he
      have hlt : queueSize < idxSize := by decide
      cases (h.used.eq_nil h.seenIdx (by omega)).1 he
    obtain ⟨i, rfl, hi⟩ := (h.completed id).1 (.head _)
    have hslot : s.usedRing (s.seenIdx % queueSize) / 3 = i := by
      rw [h.used.pop.1]
      omega
    have hst : s.status i ≠ 0xFF := by
      rw [hs.done i (.inl hi)]
      decide
    rw [Driver.handle, if_neg hne, hslot, if_neg hst]
    exact ih h.signal (hs.signal hi) (by simpa using hfuel)

/-! ## The protocol -/

/-- The slots are in some phases, and the rings agree with them. -/
def Tracked (s : Driver D) : Prop := ∃ phase la lu, s.Slots phase ∧ s.Rings phase la lu

/-- What every step keeps. -/
structure Protocol (s : Driver D) : Prop where
  blocking : s.Blocking
  room : ∃ woken, s.Room woken
  tracked : s.Tracked

theorem Tracked.quiet (h : s.Tracked) (hq : s.Quiet s') : s'.Tracked := by
  obtain ⟨phase, la, lu, hs, hr⟩ := h
  exact ⟨phase, la, lu, hs.quiet hq, hr.quiet hq⟩

/-- The cache, the buffers and the semaphore for slots are elsewhere. -/
theorem quiet_outside (s : Driver D) (disk : Disk D) (buf : ℕ → D) (sem : Semaphore) :
    s.Quiet { s with disk := disk, buf := buf, allocSem := sem } :=
  ⟨rfl, rfl, rfl, rfl, rfl, rfl, rfl, rfl, rfl, rfl, rfl, rfl, rfl, rfl, rfl, rfl,
    fun _ _ => .rfl, fun _ _ => .rfl, fun _ _ _ => rfl⟩

theorem quiet_disk (s : Driver D) (disk : Disk D) : s.Quiet { s with disk := disk } :=
  s.quiet_outside ..

variable (ho : ∀ j, ¬ s.Outstanding pid j)

include ho

/-- A process which has made no request makes another call. -/
theorem quiet_calling (op : OpType) (sector : ℕ) : s.Quiet (s.calling pid op sector) := by
  refine ⟨rfl, rfl, rfl, rfl, rfl, rfl, rfl, rfl, rfl, rfl, rfl, rfl, rfl, rfl, rfl, rfl,
    fun _ _ => .rfl, fun _ _ => .rfl, fun p j hp => ?_⟩
  have hne : p ≠ pid := fun he => ho j (he ▸ hp)
  exact update_of_ne hne ..

theorem Tracked.calling (h : s.Tracked) (disk : Disk D) (buf : ℕ → D) (op : OpType) (sector : ℕ) :
    ({ s with disk := disk, buf := buf }.calling pid op sector).Tracked :=
  (h.quiet (s.quiet_outside disk buf _)).quiet (quiet_calling (by exact ho) op sector)

/-- A process which has made no request goes to a place where it has made none. -/
theorem quiet_pc {c : DiskPc} (hn : ∀ j, c ≠ .notified j) (hw : ∀ j, c ≠ .slot j)
    (allocSem : Semaphore) (coalesceSem : ℕ → Semaphore) : s.Quiet { s with
      allocSem := allocSem
      coalesceSem := coalesceSem
      pc := update s.pc pid c } := by
  refine ⟨rfl, rfl, rfl, rfl, rfl, rfl, rfl, rfl, rfl, rfl, rfl, rfl, rfl, rfl, rfl, rfl,
    fun p j => ?_, fun p j => ?_, fun _ _ _ => rfl⟩
  · by_cases hp : p = pid
    · subst hp
      simpa [hn j] using fun he => ho j (.inl he)
    · simp [hp]
  · by_cases hp : p = pid
    · subst hp
      simpa [hw j] using fun he => ho j (.inr he)
    · simp [hp]

theorem Tracked.fill (h : s.Tracked) (hi : s.freeIndex = some i) : (s.fill pid i).Tracked := by
  obtain ⟨phase, la, lu, hs, hr⟩ := h
  obtain ⟨hlt, hf⟩ := freeIndex_eq_some hi
  exact ⟨_, _, lu, hs.fill ho hlt hf, hr.fill hs (hs.unused_of_free hf)⟩

theorem Sent.protocol (h : s.Sent pid is s') (hs : s.Protocol) (hpc : s.pc pid ≠ .alloc) :
    s'.Protocol := by
  refine ⟨h.blocking hs.blocking, ?_, ?_⟩
  · obtain ⟨woken, hr⟩ := hs.room
    cases h with
    | coalesce i _ _ => exact ⟨woken, hr.congr rfl rfl (update_eq_iff hpc (by simp))⟩
    | wait _ _ => exact ⟨woken, hr.wait hpc⟩
    | submit i _ hv hi => exact ⟨woken, hr.submit hpc hv hi⟩
  · cases h with
    | coalesce | wait => exact hs.tracked.quiet (quiet_pc ho (by simp) (by simp) _ _)
    | submit i _ hv hi =>
      exact (hs.tracked.quiet (s.quiet_outside _ _ s.allocSem.take)).fill ho hi

omit ho

/-- A process leaves its slot, which stays in use for now. -/
theorem Protocol.leave (h : s.Protocol) (hp : s.Passed pid i slotSem) :
    ({ s with slotSem := slotSem }.returned pid).Protocol ∧ i < numSlots ∧ s.free i = true ∧
      ∃ phase la lu, ({ s with slotSem := slotSem }.returned pid).Slots phase ∧
        ({ s with slotSem := slotSem }.returned pid).Rings phase la lu ∧ phase i = .unused := by
  obtain ⟨phase, la, lu, hs, hr⟩ := h.tracked
  obtain ⟨woken, hroom⟩ := h.room
  have hf := hs.filled pid i hp.outstanding
  have hpc : s.pc pid ≠ .alloc := by
    obtain hpc | hpc := hp.outstanding <;> simp [hpc]
  have hs' := hs.leave hp
  have hr' : ({ s with slotSem := slotSem }.returned pid).Rings _ la lu :=
    hr.leave (hs.passed hp).1
  exact ⟨⟨h.blocking, ⟨woken, hroom.congr rfl rfl (update_eq_iff hpc (by simp))⟩,
    ⟨_, _, _, hs', hr'⟩⟩, hf.lt, hf.free, _, _, _, hs', hr', update_self ..⟩

theorem Protocol.quiet (h : s.Protocol) (hq : s.Quiet s') (hb : s'.coalesceSem = s.coalesceSem)
    (ha : s'.allocSem = s.allocSem) (hpc : ∀ p, s'.pc p = .alloc ↔ s.pc p = .alloc) :
    s'.Protocol := by
  obtain ⟨woken, hr⟩ := h.room
  refine ⟨?_, ⟨woken, hr.congr ha hq.free hpc⟩, h.tracked.quiet hq⟩
  intro i
  rw [hb]
  exact h.blocking i

theorem not_outstanding_of_pc {c : DiskPc} (hpc : s.pc pid = c)
    (hc : ∀ j, c ≠ .notified j ∧ c ≠ .slot j) (j : ℕ) : ¬ s.Outstanding pid j := fun h =>
  h.elim (fun hn => (hc j).1 (hpc.symm.trans hn)) fun hs => (hc j).2 (hpc.symm.trans hs)

/-- A process which was woken by the end of another request. -/
theorem Protocol.returned (h : s.Protocol) (hpc : s.pc pid = .coalesce i) :
    (s.returned pid).Protocol :=
  h.quiet (quiet_pc (not_outstanding_of_pc hpc (by simp)) (by simp) (by simp)
    _ _) rfl rfl (update_eq_iff (by simp [hpc]) (by simp))

/-- A process which makes a call. -/
theorem Protocol.calling (h : s.Protocol) (hpc : s.pc pid = .idle) (disk : Disk D) (buf : ℕ → D)
    (op : OpType) (sector : ℕ)
    (hs : ({ s with disk := disk, buf := buf }.calling pid op sector).Sent pid is s') :
    s'.Protocol := by
  have h1 : Protocol { s with disk := disk, buf := buf } :=
    h.quiet (s.quiet_outside disk buf _) rfl rfl fun _ => .rfl
  have ho : ∀ j, ¬ Outstanding { s with disk := disk, buf := buf } pid j :=
    not_outstanding_of_pc hpc (by simp)
  have h2 := h1.quiet (quiet_calling ho op sector) rfl rfl fun _ => .rfl
  exact hs.protocol (by exact ho) h2 (by simp [Driver.calling, hpc])

theorem Next.protocol (h : s.Next e s' r) (hs : s.Protocol) : s'.Protocol := by
  cases h with
  | readHit | writeHit => exact hs.quiet (s.quiet_disk _) rfl rfl fun _ => .rfl
  | readMiss hpc _ h => exact hs.calling hpc _ s.buf _ _ h
  | writeMiss hpc _ h => exact hs.calling hpc _ _ _ _ h
  | @coalesced pid i disk data hpc _ _ _ =>
    have h1 := hs.quiet (s.quiet_outside disk (update s.buf pid data) _) rfl rfl fun _ => .rfl
    exact h1.returned hpc
  | @again pid i disk found _ hpc _ _ _ h =>
    have h1 := hs.quiet (s.quiet_disk disk) rfl rfl fun _ => .rfl
    exact h.protocol (not_outstanding_of_pc (update_self ..) (by simp))
      (h1.returned hpc) (by simp [returned])
  | @woken pid i hpc hb hi =>
    obtain ⟨woken, hr⟩ := hs.room
    have ho : ∀ j, ¬ s.Outstanding pid j := not_outstanding_of_pc hpc (by simp)
    exact ⟨hs.blocking, ⟨_, hr.fill hpc hb hi⟩, hs.tracked.fill ho hi⟩
  | @block pid i hpc hv =>
    obtain ⟨woken, hr⟩ := hs.room
    obtain ⟨phase, la, lu, hsl, hri⟩ := hs.tracked
    exact ⟨hs.blocking, ⟨woken, hr.congr rfl rfl (update_eq_iff (by simp [hpc]) (by simp))⟩,
      ⟨phase, la, lu, hsl.block hpc hv, { hri with }⟩⟩
  | @finish pid i slotSem disk hp hst hd =>
    refine ⟨Next.blocking hs.blocking (.finish hp hst hd), ?_, ?_⟩
    all_goals obtain ⟨h1, hlt, hf, phase, la, lu, hsl, hri, hun⟩ := hs.leave hp
    · obtain ⟨woken, hr⟩ := (h1.quiet (quiet_disk _ disk) rfl rfl fun _ => .rfl).room
      exact hr.freeSlot hlt hf
    · exact ⟨phase, la, lu, (hsl.quiet (quiet_disk _ disk)).freeSlot hun,
        { hri.quiet (quiet_disk _ disk) with }⟩
  | @evict pid i slotSem b _ hp _ _ h =>
    obtain ⟨h1, -⟩ := hs.leave hp
    exact h1.calling (update_self ..) _ _ _ _ h
  | take h =>
    obtain ⟨phase, la, lu, hsl, hri⟩ := hs.tracked
    obtain ⟨la', hri', hsl'⟩ := hri.take h
    obtain ⟨woken, hr⟩ := hs.room
    refine ⟨Next.blocking hs.blocking (.take h), ?_, ⟨phase, la', lu, hsl' phase hsl, hri'⟩⟩
    unfold Driver.take at h
    split_ifs at h
    cases h
    exact ⟨woken, hr.congr rfl rfl fun _ => .rfl⟩
  | @complete id _ h =>
    obtain ⟨phase, la, lu, hsl, hri⟩ := hs.tracked
    obtain ⟨woken, hr⟩ := hs.room
    have hb := Next.blocking hs.blocking (.complete h)
    obtain ⟨p, i, rfl, hi, hid, -, rfl⟩ := hsl.complete_eq hri h
    obtain ⟨disk, buf, ht⟩ := s.transfer_eq p (s.call p)
    rw [ht] at hb ⊢
    have hri' := hri.complete hsl hi hid
    have hsl' := hsl.complete hi
    refine ⟨hb, ⟨woken, hr.congr rfl rfl fun _ => .rfl⟩, _, la, _, ?_, { hri' with }⟩
    exact { hsl' with filled := fun p i hp => { hsl'.filled p i hp with } }
  | interrupt h =>
    obtain ⟨phase, la, lu, hsl, hri⟩ := hs.tracked
    obtain ⟨woken, hr⟩ := hs.room
    have hlen := hsl.length_lt (x := .completed) (by simp) hri.completedNodup
      fun id hid => (hri.completed id).1 hid
    have hlt : queueSize < idxSize := by decide
    obtain ⟨s1, phase', hh, hsl', hri'⟩ := hri.handle hsl (hlen.trans hlt)
    obtain rfl : s1 = s' := Option.some.inj (hh.symm.trans h)
    refine ⟨Next.blocking hs.blocking (.interrupt h), ?_, ⟨phase', la, [], hsl', hri'⟩⟩
    obtain ⟨_, _, _, rfl⟩ := handle_eq h
    exact ⟨woken, hr.congr rfl rfl fun _ => .rfl⟩

/-- The protocol holds in the beginning. -/
theorem start_protocol (disk : Disk D) (data : D) (idx : ℕ) : (start disk data idx).Protocol where
  blocking _ := rfl
  room := ⟨[], by simp [start], by simp [start], nodup_nil, by simp [start], by simp [start, inUse]⟩
  tracked := by
    have hidx : idx % idxSize < idxSize := Nat.mod_lt _ (by decide)
    refine ⟨fun _ => .unused, [], [], ⟨?_, ?_, ?_, ?_, ?_, ?_, ?_, ?_, ?_, ?_⟩,
      ⟨hidx, hidx, rfl, rfl, nodup_nil, nodup_nil, by simp [start], by simp⟩⟩
    all_goals simp [start, Outstanding]

theorem Protocol.step (hs : s.Protocol) (h : s.step e = some (s', r)) : s'.Protocol :=
  (step_next hs.blocking h).protocol hs

/-! ## Every submitter is released once -/

/-- A process which has made a request can go on. -/
def Released (s : Driver D) (pid i : ℕ) : Prop :=
  (s.pc pid = .notified i ∧ (s.slotSem i).value ≠ 0) ∨
    (s.pc pid = .slot i ∧ pid ∉ (s.slotSem i).blocked)

instance (s : Driver D) (pid i : ℕ) : Decidable (s.Outstanding pid i) :=
  inferInstanceAs (Decidable (_ ∨ _))

instance (s : Driver D) (pid i : ℕ) : Decidable (s.Released pid i) :=
  inferInstanceAs (Decidable (_ ∨ _))

/-- The descriptors of a slot. -/
def triple (i : ℕ) : List ℕ := [i * 3, i * 3 + 1, i * 3 + 2]

/-- What is expected of the slots. -/
structure Sound (s : Driver D) : Prop where
  /-- A slot and its descriptors hold the request of the process, and are not out of range. -/
  slot : ∀ p i, s.Outstanding p i → i < numSlots ∧ (∀ d ∈ triple i, d < queueSize) ∧
    s.req i = s.call p ∧ s.chain (i * 3) = some (i, p, i)
  /-- Two requests are in different slots, with different descriptors. -/
  distinct : ∀ p q i j, s.Outstanding p i → s.Outstanding q j → p ≠ q →
    i ≠ j ∧ (triple i).Disjoint (triple j)
  /-- `Disk::allocSlot` finds a slot. -/
  alloc : s.allocSem.value ≠ 0 ∨ (∃ p, s.pc p = .alloc ∧ p ∉ s.allocSem.blocked) →
    s.freeIndex ≠ none
  /-- A slot is signalled once for a request, and after it was completed. -/
  counts : ∀ i, s.signals i ≤ s.completes i ∧ s.completes i ≤ s.submits i ∧
    s.submits i ≤ s.signals i + 1
  /-- Who can go on was signalled, and the request was completed. -/
  released : ∀ p i, s.Released p i → s.completes i = s.submits i ∧ s.signals i = s.submits i ∧
    s.status i = 0
  /-- Who waits was not signalled. -/
  waiting : ∀ p i, s.Outstanding p i → ¬ s.Released p i → s.signals i + 1 = s.submits i
  /-- After the handler, all whose requests are completed can go on. -/
  handled : s.seenIdx = s.usedIdx → ∀ p i, s.Outstanding p i → s.completes i = s.submits i →
    s.Released p i
  /-- The handler ends, and has seen everything by then. -/
  handler : ∃ s', s.step .interrupt = some (s', .pending) ∧ s'.seenIdx = s'.usedIdx
  /-- A slot is not used again before its process can go on, and goes on. -/
  kept : ∀ e s' r p i, s.step e = some (s', r) → s.Outstanding p i →
    (s'.Outstanding p i ∧ s'.submits i = s.submits i) ∨ (e = .resume p ∧ s.Released p i)

theorem Slots.released_iff (h : s.Slots phase) (ho : s.Outstanding p i) :
    s.Released p i ↔ phase i = .signalled := by
  obtain hpc | hpc := ho
  · have hsem := h.token p i hpc
    by_cases hi : phase i = .signalled <;> simp [Released, hpc, hsem, hi]
  · have hsem := h.waiting p i hpc
    by_cases hi : phase i = .signalled <;> simp [Released, hpc, hsem, hi]

theorem Released.outstanding (h : s.Released p i) : s.Outstanding p i := h.imp And.left And.left

theorem Passed.released (h : s.Passed p i slotSem) : s.Released p i := by
  cases h with
  | token hpc hv => exact .inl ⟨hpc, hv⟩
  | woken hpc hb => exact .inr ⟨hpc, hb⟩

theorem Tracked.fill_kept (h : s.Tracked) (ho : ∀ j, ¬ s.Outstanding pid j)
    (hj : s.freeIndex = some j) (hp : s.Outstanding p i) :
    (s.fill pid j).Outstanding p i ∧ (s.fill pid j).submits i = s.submits i := by
  obtain ⟨phase, la, lu, hs, -⟩ := h
  have hne : p ≠ pid := fun he => ho i (he ▸ hp)
  have hij : i ≠ j := by
    intro he
    have hf := (freeIndex_eq_some hj).2
    rw [← he, (hs.filled p i hp).free] at hf
    cases hf
  exact ⟨outstanding_fill.2 (.inr ⟨hne, hp⟩), update_of_ne hij ..⟩

theorem Sent.kept (h : s.Sent pid is s') (hs : s.Tracked) (ho : ∀ j, ¬ s.Outstanding pid j)
    (hp : s.Outstanding p i) : s'.Outstanding p i ∧ s'.submits i = s.submits i := by
  have hne : p ≠ pid := fun he => ho i (he ▸ hp)
  cases h with
  | coalesce | wait => exact ⟨by simpa [Outstanding, hne] using hp, rfl⟩
  | submit j _ _ hj =>
    exact (hs.quiet (s.quiet_outside _ _ s.allocSem.take)).fill_kept ho hj hp

/-- A request stays where it is until its process goes on. -/
theorem Next.kept (h : s.Next e s' r) (hs : s.Protocol) (hp : s.Outstanding p i) :
    (s'.Outstanding p i ∧ s'.submits i = s.submits i) ∨ (e = .resume p ∧ s.Released p i) := by
  cases h with
  | readHit | writeHit => exact .inl ⟨hp, rfl⟩
  | @readMiss pid sector disk _ hpc _ h | @writeMiss pid sector disk data _ hpc _ h =>
    have ho : ∀ j, ¬ s.Outstanding pid j := not_outstanding_of_pc hpc (by simp)
    exact .inl (h.kept (hs.tracked.calling ho _ _ _ _) ho hp)
  | @coalesced pid j disk data hpc _ _ _ =>
    have hne : p ≠ pid := by
      rintro rfl
      exact not_outstanding_of_pc hpc (by simp) i hp
    exact .inl ⟨by simpa [Outstanding, returned, hne] using hp, rfl⟩
  | @again pid j disk found _ hpc _ _ _ h =>
    have hne : p ≠ pid := by
      rintro rfl
      exact not_outstanding_of_pc hpc (by simp) i hp
    have h1 := hs.quiet (s.quiet_disk disk) rfl rfl fun _ => .rfl
    exact .inl (h.kept (h1.returned hpc).tracked
      (not_outstanding_of_pc (update_self ..) (by simp))
      (outstanding_returned.2 ⟨hne, hp⟩))
  | @woken pid j hpc _ hj =>
    have ho : ∀ j, ¬ s.Outstanding pid j := not_outstanding_of_pc hpc (by simp)
    exact .inl (hs.tracked.fill_kept ho hj hp)
  | @block pid j hpc _ =>
    refine .inl ⟨?_, rfl⟩
    by_cases hne : p = pid
    · subst hne
      obtain rfl := hp.eq (.inl hpc)
      simp [Outstanding]
    · simpa [Outstanding, hne] using hp
  | @finish pid j slotSem disk hpass _ _ =>
    by_cases hne : p = pid
    · subst hne
      obtain rfl := hp.eq hpass.outstanding
      exact .inr ⟨rfl, hpass.released⟩
    · exact .inl ⟨by simpa [Outstanding, freeSlot, returned, hne] using hp, rfl⟩
  | @evict pid j slotSem b _ hpass _ _ h =>
    by_cases hne : p = pid
    · subst hne
      obtain rfl := hp.eq hpass.outstanding
      exact .inr ⟨rfl, hpass.released⟩
    · obtain ⟨h1, -⟩ := hs.leave hpass
      have ho : ∀ j, ¬ ({ s with slotSem := slotSem }.returned pid).Outstanding pid j :=
        not_outstanding_of_pc (update_self ..) (by simp)
      exact .inl (h.kept (h1.tracked.calling ho _ _ _ _) ho (outstanding_returned.2 ⟨hne, hp⟩))
  | take h =>
    unfold Driver.take at h
    split_ifs at h
    cases h
    exact .inl ⟨hp, rfl⟩
  | complete h =>
    obtain ⟨phase, la, lu, hsl, hri⟩ := hs.tracked
    obtain ⟨q, j, -, -, -, -, rfl⟩ := hsl.complete_eq hri h
    obtain ⟨disk, buf, ht⟩ := s.transfer_eq q (s.call q)
    rw [ht]
    exact .inl ⟨hp, rfl⟩
  | interrupt h =>
    obtain ⟨_, _, _, rfl⟩ := handle_eq h
    exact .inl ⟨hp, rfl⟩

theorem Protocol.sound (hs : s.Protocol) : s.Sound := by
  obtain ⟨woken, hr⟩ := hs.room
  obtain ⟨phase, la, lu, hsl, hri⟩ := hs.tracked
  have hlen := hsl.length_lt (x := .completed) (by simp) hri.completedNodup
    fun id hid => (hri.completed id).1 hid
  have hlt : queueSize < idxSize := by decide
  refine ⟨fun p i hp => ?_, fun p q i j hp hq hne => ?_, fun h => freeIndex_ne_none ?_, fun i => ?_,
    fun p i hp => ?_, fun p i hp hn => ?_, fun he p i hp hc => ?_, ?_,
    fun e s' r p i h hp => (step_next hs.blocking h).kept hs hp⟩
  · have hf := hsl.filled p i hp
    have hi : i < 2 := hf.lt
    refine ⟨hf.lt, fun d hd => ?_, hf.req, hf.chain⟩
    have hq : queueSize = 8 := rfl
    simp only [triple, mem_cons, not_mem_nil, or_false] at hd
    omega
  · have hij : i ≠ j := fun he => hne (hsl.unique p q i hp (he ▸ hq))
    refine ⟨hij, fun d hd hd' => ?_⟩
    simp only [triple, mem_cons, not_mem_nil, or_false] at hd hd'
    omega
  · have hroom := hr.room
    obtain hv | ⟨p, hp⟩ := h
    · omega
    · have hpos : 0 < woken.length := length_pos_of_mem ((hr.mem p).2 hp)
      omega
  · have hc := hsl.completes i
    have hsig := hsl.signals i
    cases hi : phase i <;> simp [hi] at hc hsig <;> omega
  · have hi := (hsl.released_iff hp.outstanding).1 hp
    have hc := hsl.completes i
    have hsig := hsl.signals i
    simp only [hi, reduceCtorEq, or_self, if_false, add_zero] at hc hsig
    exact ⟨hc.symm, hsig.symm, hsl.done i (.inr hi)⟩
  · have hi := mt (hsl.released_iff hp).2 hn
    have hu := (hsl.used i).2 ⟨p, hp⟩
    have hsig := hsl.signals i
    cases hph : phase i <;> simp_all
  · rw [hsl.released_iff hp]
    have hu := (hsl.used i).2 ⟨p, hp⟩
    have hcc := hsl.completes i
    obtain rfl := (hri.used.eq_nil hri.seenIdx (hlen.trans hlt)).1 he
    have hnot : phase i ≠ .completed := fun hi => by
      simpa using (hri.completed (i * 3)).2 ⟨i, rfl, hi⟩
    cases hph : phase i <;> simp_all
  · obtain ⟨s', phase', hh, -, hri'⟩ := hri.handle hsl (hlen.trans hlt)
    refine ⟨s', ?_, hri'.used.symm⟩
    rw [Driver.step, hh]
    rfl

/-- In every state which the driver, the device and the interrupt handler reach, the slots are as
    expected. -/
theorem reachable_slots (disk : Disk D) (data : D) (idx : ℕ)
    (h : Reaches step (fun _ _ => True) (start disk data idx) s) : s.Sound :=
  (h.inv (I := Protocol) (fun _ _ _ _ hs _ h => hs.step h) (start_protocol disk data idx)).sound

/-- Two requests around the end of the indices, the second of which is completed first. -/
theorem reachable_slots_wrapped :
    let s := lastState (guarded step fun _ _ => True) (start (.start fun _ => 7) 0 65535)
      [.read 0 10, .resume 0, .read 1 11, .take, .take, .complete 3, .interrupt]
    (s.availIdx = 1 ∧ s.Outstanding 0 0 ∧ ¬ s.Released 0 0 ∧ s.Released 1 1) ∧ s.Sound :=
  ⟨by decide +kernel, reachable_slots _ _ _ (Reaches.lastState _ _)⟩

end Driver

end HobbyOS
