import HobbyOS.Disk.Moves
import HobbyOS.Ring

/-!
# The slots of the disk driver

A slot goes through four phases: it is unused, a request in it is sent to the device, the device
has completed it, and the process is signalled (`Phase`). The semaphore of the slot, the status
and the process agree with the phase (`Slots`), and the rings hold the slots whose requests are
sent, and those whose requests are completed (`Rings`). There are as many tokens as there are
free slots (`Room`).
-/

namespace HobbyOS

open Function List Semaphore

/-- Of a nodup list, one more element satisfies the predicate. -/
theorem countP_update_true {f : ℕ → Bool} {l : List ℕ} {i : ℕ} (hl : l.Nodup) (hi : i ∈ l)
    (hf : f i = false) : l.countP (update f i true) = l.countP f + 1 := by
  induction l with
  | nil => cases hi
  | cons x l ih =>
    rw [nodup_cons] at hl
    rw [countP_cons, countP_cons]
    by_cases hx : i = x
    · subst hx
      have hrest : l.countP (update f i true) = l.countP f := by
        refine countP_congr fun y hy => ?_
        have hne : y ≠ i := fun he => hl.1 (he ▸ hy)
        rw [update_of_ne hne]
      simp [hrest, hf]
    · rw [ih hl.2 ((mem_cons.1 hi).resolve_left hx), update_of_ne (Ne.symm hx)]
      omega

namespace Driver

variable {D : Type*} {s s' : Driver D} {pid p q i j : ℕ}

/-- A process has made a request in a slot, and is not past `m_slotSem->wait()`. -/
def Outstanding (s : Driver D) (pid i : ℕ) : Prop := s.pc pid = .notified i ∨ s.pc pid = .slot i

/-- A process makes one request at a time. -/
theorem Outstanding.eq (hi : s.Outstanding p i) (hj : s.Outstanding p j) : i = j := by
  obtain hi | hi := hi <;> obtain hj | hj := hj <;> rw [hi] at hj <;> cases hj <;> rfl

/-! ## Room -/

/-- How many slots are in use. -/
def inUse (s : Driver D) : ℕ := (List.range numSlots).countP s.free

/-- There is a free slot for every token and for every process which was woken to get one. -/
structure Room (s : Driver D) (woken : List ℕ) : Prop where
  alloc : ∀ p ∈ s.allocSem.blocked, s.pc p = .alloc
  blocked : s.allocSem.blocked.Nodup
  nodup : woken.Nodup
  mem : ∀ p, p ∈ woken ↔ s.pc p = .alloc ∧ p ∉ s.allocSem.blocked
  room : s.allocSem.value + woken.length + s.inUse ≤ numSlots

variable {woken : List ℕ} {α : Type*} {f : ℕ → α} {x y : α} {slotSem : ℕ → Semaphore}

theorem freeIndex_eq_some (h : s.freeIndex = some i) : i < numSlots ∧ s.free i = false := by
  have hi := mem_of_find?_eq_some h
  have hf := List.find?_some h
  exact ⟨mem_range.1 hi, by simpa using hf⟩

theorem freeIndex_ne_none (h : s.inUse < numSlots) : s.freeIndex ≠ none := by
  intro hn
  have hall := List.find?_eq_none.1 hn
  have hc : s.inUse = (List.range numSlots).length :=
    countP_eq_length.2 fun i hi => by simpa using hall i hi
  rw [hc, length_range] at h
  exact lt_irrefl _ h

theorem inUse_true (hi : i < numSlots) (hf : s.free i = false) :
    (List.range numSlots).countP (update s.free i true) = s.inUse + 1 :=
  countP_update_true nodup_range (mem_range.2 hi) hf

theorem inUse_false (hi : i < numSlots) (hf : s.free i = true) :
    (List.range numSlots).countP (update s.free i false) + 1 = s.inUse := by
  have h := countP_update_true (f := update s.free i false) nodup_range
    (mem_range.2 hi) (update_self ..)
  rw [update_idem, ← hf, update_eq_self] at h
  exact h.symm

/-- Only who is at `m_allocSem`, the semaphore and the slots matter. -/
theorem Room.congr (h : s.Room woken) (ha : s'.allocSem = s.allocSem) (hf : s'.free = s.free)
    (hpc : ∀ p, s'.pc p = .alloc ↔ s.pc p = .alloc) : s'.Room woken := by
  refine ⟨fun p hp => ?_, ?_, h.nodup, fun p => ?_, ?_⟩
  · rw [hpc]
    exact h.alloc p (ha ▸ hp)
  · rw [ha]
    exact h.blocked
  · rw [hpc, ha]
    exact h.mem p
  · rw [ha, inUse, hf]
    exact h.room

theorem update_eq_iff (hf : f i ≠ y) (hx : x ≠ y) (j : ℕ) : update f i x j = y ↔ f j = y := by
  by_cases hj : j = i
  · subst hj
    simp [hf, hx]
  · rw [update_of_ne hj]

theorem ne_of_update (hx : x ≠ y) (h : update f i x j = y) : j ≠ i ∧ f j = y := by
  by_cases hj : j = i
  · subst hj
    exact absurd ((update_self ..).symm.trans h) hx
  · exact ⟨hj, (update_of_ne hj ..).symm.trans h⟩

/-- A process waits for a slot. -/
theorem Room.wait (h : s.Room woken) (hpc : s.pc pid ≠ .alloc) : { s with
      allocSem := s.allocSem.push pid
      pc := update s.pc pid .alloc }.Room woken := by
  have hnot : pid ∉ s.allocSem.blocked := fun hm => hpc (h.alloc pid hm)
  have hw : pid ∉ woken := fun hm => hpc ((h.mem pid).1 hm).1
  refine ⟨fun p hp => ?_, ?_, h.nodup, fun p => ?_, h.room⟩
  · by_cases he : p = pid
    · exact he ▸ update_self ..
    · have hp : p ∈ s.allocSem.blocked := by simpa [push, he] using hp
      exact (update_of_ne he ..).trans (h.alloc p hp)
  · exact h.blocked.append (nodup_singleton _) (by simpa using hnot)
  · by_cases he : p = pid
    · subst he
      simp [push, hw]
    · rw [h.mem p]
      simp [push, he]

/-- A process takes a token and then a slot. -/
theorem Room.submit (h : s.Room woken) (hpc : s.pc pid ≠ .alloc) (hv : s.allocSem.value ≠ 0)
    (hi : s.freeIndex = some i) : ({ s with allocSem := s.allocSem.take }.fill pid i).Room woken := by
  obtain ⟨hlt, hf⟩ := freeIndex_eq_some hi
  have halloc := update_eq_iff (x := .notified i) hpc (by simp)
  refine ⟨fun p hp => (halloc p).2 (h.alloc p hp), h.blocked, h.nodup,
    fun p => (h.mem p).trans (and_congr_left' (halloc p).symm), ?_⟩
  have hroom := h.room
  have hu := inUse_true hlt hf
  change s.allocSem.value - 1 + woken.length +
    (List.range numSlots).countP (update s.free i true) ≤ numSlots
  omega

/-- A process which was woken takes a slot. -/
theorem Room.fill (h : s.Room woken) (hpc : s.pc pid = .alloc) (hb : pid ∉ s.allocSem.blocked)
    (hi : s.freeIndex = some i) : (s.fill pid i).Room (woken.erase pid) := by
  obtain ⟨hlt, hf⟩ := freeIndex_eq_some hi
  have hmem : pid ∈ woken := (h.mem pid).2 ⟨hpc, hb⟩
  refine ⟨fun p hp => ?_, h.blocked, h.nodup.erase _, fun p => ?_, ?_⟩
  · have hne : p ≠ pid := fun he => hb (he ▸ hp)
    exact (update_of_ne hne ..).trans (h.alloc p hp)
  · rw [h.nodup.mem_erase_iff, h.mem p]
    by_cases he : p = pid
    · subst he
      simp [Driver.fill]
    · simp [Driver.fill, he]
  · have hroom := h.room
    have hu := inUse_true hlt hf
    have hl := length_erase_of_mem hmem
    have hpos : 0 < woken.length := length_pos_of_mem hmem
    change s.allocSem.value + (woken.erase pid).length +
      (List.range numSlots).countP (update s.free i true) ≤ numSlots
    omega

/-- A slot is given back, with a token or to a process. -/
theorem Room.freeSlot (h : s.Room woken) (hlt : i < numSlots) (hf : s.free i = true) :
    ∃ woken', (s.freeSlot i).Room woken' := by
  have hroom := h.room
  have hu := inUse_false hlt hf
  cases hb : s.allocSem.blocked with
  | nil =>
    have hsig : s.allocSem.signal = ⟨s.allocSem.value + 1, []⟩ := by simp [signal, hb]
    refine ⟨woken, fun p hp => ?_, ?_, h.nodup, fun p => ?_, ?_⟩
    · exact absurd (show p ∈ s.allocSem.signal.blocked from hp) (by simp [hsig])
    · change s.allocSem.signal.blocked.Nodup
      rw [hsig]
      exact nodup_nil
    · rw [h.mem p, hb]
      simp [Driver.freeSlot, hsig]
    · change s.allocSem.signal.value + woken.length +
        (List.range numSlots).countP (update s.free i false) ≤ numSlots
      rw [hsig]
      dsimp only
      omega
  | cons p0 pids =>
    have hsig : s.allocSem.signal = ⟨s.allocSem.value, pids⟩ := by simp [signal, hb]
    have hnodup := h.blocked
    rw [hb, nodup_cons] at hnodup
    have hp0 : s.pc p0 = .alloc := h.alloc p0 (by simp [hb])
    refine ⟨p0 :: woken, fun p hp => ?_, ?_, ?_, fun p => ?_, ?_⟩
    · have hp : p ∈ pids := by simpa [Driver.freeSlot, hsig] using hp
      exact h.alloc p (by simp [hb, hp])
    · change s.allocSem.signal.blocked.Nodup
      rw [hsig]
      exact hnodup.2
    · exact nodup_cons.2 ⟨fun hm => ((h.mem p0).1 hm).2 (by simp [hb]), h.nodup⟩
    · have hm := h.mem p
      rw [hb] at hm
      by_cases he : p = p0
      · subst he
        simp [Driver.freeSlot, hsig, hp0, hnodup.1]
      · simp [Driver.freeSlot, hsig, hm, he]
    · change s.allocSem.signal.value + (p0 :: woken).length +
        (List.range numSlots).countP (update s.free i false) ≤ numSlots
      rw [hsig, length_cons]
      dsimp only
      omega

/-! ## The phases of the slots -/

/-- What has happened to the request in a slot. -/
inductive Phase
  /-- There is none, or its process is past `m_slotSem->wait()`. -/
  | unused
  /-- It is sent to the device. -/
  | sent
  /-- The device has completed it. -/
  | completed
  /-- `Disk::interruptHandler` has signalled the semaphore. -/
  | signalled
  deriving DecidableEq

/-- A slot, with its descriptors, holds the request of a process. -/
structure Filled (s : Driver D) (pid i : ℕ) : Prop where
  lt : i < numSlots
  free : s.free i = true
  sector : s.slotSector i = some (s.call pid).2
  req : s.req i = s.call pid
  desc₀ : s.desc (i * 3) = ⟨.req i, some (i * 3 + 1)⟩
  desc₁ : s.desc (i * 3 + 1) = ⟨.buf pid, some (i * 3 + 2)⟩
  desc₂ : s.desc (i * 3 + 2) = ⟨.status i, none⟩

/-- The slots agree with their phases. -/
structure Slots (s : Driver D) (phase : ℕ → Phase) : Prop where
  used : ∀ i, phase i ≠ .unused ↔ ∃ p, s.Outstanding p i
  unique : ∀ p q i, s.Outstanding p i → s.Outstanding q i → p = q
  filled : ∀ p i, s.Outstanding p i → s.Filled p i
  token : ∀ p i, s.pc p = .notified i → s.slotSem i = ⟨if phase i = .signalled then 1 else 0, []⟩
  waiting : ∀ p i, s.pc p = .slot i → s.slotSem i = ⟨0, if phase i = .signalled then [] else [p]⟩
  unused : ∀ i, phase i = .unused → s.slotSem i = ⟨0, []⟩
  sent : ∀ i, phase i = .sent → s.status i = 0xFF
  done : ∀ i, phase i = .completed ∨ phase i = .signalled → s.status i = 0
  completes : ∀ i, s.submits i = s.completes i + if phase i = .sent then 1 else 0
  signals : ∀ i, s.submits i = s.signals i + if phase i = .sent ∨ phase i = .completed then 1 else 0

/-- A slot agrees with its phase. -/
structure SlotAt (s : Driver D) (i : ℕ) (ph : Phase) : Prop where
  used : ph ≠ .unused ↔ ∃ p, s.Outstanding p i
  unique : ∀ p q, s.Outstanding p i → s.Outstanding q i → p = q
  filled : ∀ p, s.Outstanding p i → s.Filled p i
  token : ∀ p, s.pc p = .notified i → s.slotSem i = ⟨if ph = .signalled then 1 else 0, []⟩
  waiting : ∀ p, s.pc p = .slot i → s.slotSem i = ⟨0, if ph = .signalled then [] else [p]⟩
  unused : ph = .unused → s.slotSem i = ⟨0, []⟩
  sent : ph = .sent → s.status i = 0xFF
  done : ph = .completed ∨ ph = .signalled → s.status i = 0
  completes : s.submits i = s.completes i + if ph = .sent then 1 else 0
  signals : s.submits i = s.signals i + if ph = .sent ∨ ph = .completed then 1 else 0

/-- A slot and those who have made requests in it are left alone. -/
structure SameSlot (s s' : Driver D) (i : ℕ) : Prop where
  notified : ∀ p, s'.pc p = .notified i ↔ s.pc p = .notified i
  slot : ∀ p, s'.pc p = .slot i ↔ s.pc p = .slot i
  filled : ∀ p, s.Outstanding p i → s.Filled p i → s'.Filled p i
  slotSem : s'.slotSem i = s.slotSem i
  status : s'.status i = s.status i
  submits : s'.submits i = s.submits i
  completes : s'.completes i = s.completes i
  signals : s'.signals i = s.signals i

variable {phase : ℕ → Phase} {ph : Phase}

theorem slots_iff : s.Slots phase ↔ ∀ i, s.SlotAt i (phase i) :=
  ⟨fun h i => ⟨h.used i, fun p q => h.unique p q i, fun p => h.filled p i, fun p => h.token p i,
    fun p => h.waiting p i, h.unused i, h.sent i, h.done i, h.completes i, h.signals i⟩,
   fun h => ⟨fun i => (h i).used, fun p q i => (h i).unique p q, fun p i => (h i).filled p,
    fun p i => (h i).token p, fun p i => (h i).waiting p, fun i => (h i).unused, fun i => (h i).sent,
    fun i => (h i).done, fun i => (h i).completes, fun i => (h i).signals⟩⟩

theorem SlotAt.congr (h : s.SlotAt i ph) (hs : s.SameSlot s' i) : s'.SlotAt i ph := by
  have ho (p : ℕ) : s'.Outstanding p i ↔ s.Outstanding p i := or_congr (hs.notified p) (hs.slot p)
  refine ⟨h.used.trans (exists_congr fun p => (ho p).symm),
    fun p q hp hq => h.unique p q ((ho p).1 hp) ((ho q).1 hq), fun p hp => ?_, fun p hp => ?_,
    fun p hp => ?_, ?_, ?_, ?_, ?_, ?_⟩
  · exact hs.filled p ((ho p).1 hp) (h.filled p ((ho p).1 hp))
  · rw [hs.slotSem]
    exact h.token p ((hs.notified p).1 hp)
  · rw [hs.slotSem]
    exact h.waiting p ((hs.slot p).1 hp)
  · rw [hs.slotSem]
    exact h.unused
  · rw [hs.status]
    exact h.sent
  · rw [hs.status]
    exact h.done
  · rw [hs.submits, hs.completes]
    exact h.completes
  · rw [hs.submits, hs.signals]
    exact h.signals

/-- One slot changes its phase, and the others are left alone. -/
theorem Slots.change (h : s.Slots phase) (hi : s'.SlotAt i ph)
    (hs : ∀ j, j ≠ i → s.SameSlot s' j) : s'.Slots (update phase i ph) := by
  refine slots_iff.2 fun j => ?_
  by_cases hj : j = i
  · subst hj
    rwa [update_self]
  · rw [update_of_ne hj]
    exact (slots_iff.1 h j).congr (hs j hj)

theorem Filled.chain (h : s.Filled pid i) : s.chain (i * 3) = some (i, pid, i) := by
  simp only [Driver.chain, h.desc₀, h.desc₁, h.desc₂]

/-- A step which leaves alone the rings, the slots and those who have made requests in them. -/
structure Quiet (s s' : Driver D) : Prop where
  availRing : s'.availRing = s.availRing
  availIdx : s'.availIdx = s.availIdx
  usedRing : s'.usedRing = s.usedRing
  usedIdx : s'.usedIdx = s.usedIdx
  seenIdx : s'.seenIdx = s.seenIdx
  deviceIdx : s'.deviceIdx = s.deviceIdx
  inFlight : s'.inFlight = s.inFlight
  free : s'.free = s.free
  slotSector : s'.slotSector = s.slotSector
  slotSem : s'.slotSem = s.slotSem
  req : s'.req = s.req
  status : s'.status = s.status
  desc : s'.desc = s.desc
  submits : s'.submits = s.submits
  completes : s'.completes = s.completes
  signals : s'.signals = s.signals
  notified : ∀ p i, s'.pc p = .notified i ↔ s.pc p = .notified i
  slot : ∀ p i, s'.pc p = .slot i ↔ s.pc p = .slot i
  call : ∀ p i, s.Outstanding p i → s'.call p = s.call p

theorem Quiet.outstanding (h : s.Quiet s') : s'.Outstanding p i ↔ s.Outstanding p i :=
  or_congr (h.notified p i) (h.slot p i)

variable (h : s.Slots phase)

include h

theorem Slots.quiet (hq : s.Quiet s') : s'.Slots phase := by
  refine slots_iff.2 fun i => (slots_iff.1 h i).congr ⟨fun p => hq.notified p i, fun p => hq.slot p i,
    fun p hp hf => ?_, congrFun hq.slotSem i, congrFun hq.status i, congrFun hq.submits i,
    congrFun hq.completes i, congrFun hq.signals i⟩
  obtain ⟨h1, h2, h3, h4, h5, h6, h7⟩ := hf
  have hc := hq.call p i hp
  exact ⟨h1, hq.free ▸ h2, by rw [hq.slotSector, hc, h3], by rw [hq.req, hc, h4],
    hq.desc ▸ h5, hq.desc ▸ h6, hq.desc ▸ h7⟩

theorem Slots.lt (hi : phase i ≠ .unused) : i < numSlots := by
  obtain ⟨p, hp⟩ := (h.used i).1 hi
  exact (h.filled p i hp).lt

/-- A slot which is not in use is in no phase. -/
theorem Slots.unused_of_free (hf : s.free i = false) : phase i = .unused := by
  by_contra hi
  obtain ⟨p, hp⟩ := (h.used i).1 hi
  have := (h.filled p i hp).free
  rw [hf] at this
  cases this

omit h in
theorem setDesc_of_ne {d : ℕ} (h0 : d ≠ i * 3) (h1 : d ≠ i * 3 + 1) (h2 : d ≠ i * 3 + 2) :
    s.setDesc pid i d = s.desc d := by
  rw [setDesc, update_of_ne h2, update_of_ne h1, update_of_ne h0]

omit h in
theorem outstanding_fill : (s.fill pid i).Outstanding p j ↔
    (p = pid ∧ j = i) ∨ (p ≠ pid ∧ s.Outstanding p j) := by
  by_cases hp : p = pid
  · subst hp
    simp [Outstanding, fill, eq_comm]
  · simp [Outstanding, fill, hp]

omit h in
theorem filled_fill_self (hi : i < numSlots) : (s.fill pid i).Filled pid i where
  lt := hi
  free := update_self ..
  sector := update_self ..
  req := update_self ..
  desc₀ := by simp [fill, setDesc]
  desc₁ := by simp [fill, setDesc]
  desc₂ := by simp [fill, setDesc]

omit h in
theorem Filled.fill (h : s.Filled p j) (hj : j ≠ i) : (s.fill pid i).Filled p j where
  lt := h.lt
  free := (update_of_ne hj ..).trans h.free
  sector := (update_of_ne hj ..).trans h.sector
  req := (update_of_ne hj ..).trans h.req
  desc₀ := (setDesc_of_ne (by omega) (by omega) (by omega)).trans h.desc₀
  desc₁ := (setDesc_of_ne (by omega) (by omega) (by omega)).trans h.desc₁
  desc₂ := (setDesc_of_ne (by omega) (by omega) (by omega)).trans h.desc₂

/-- A request is put into a slot which is not in use. -/
theorem Slots.fill (hpc : ∀ j, ¬ s.Outstanding pid j) (hi : i < numSlots) (hf : s.free i = false) :
    (s.fill pid i).Slots (update phase i .sent) := by
  have hun := h.unused_of_free hf
  have honly (p : ℕ) (hp : (s.fill pid i).Outstanding p i) : p = pid := by
    obtain ⟨hp, -⟩ | ⟨-, hp⟩ := outstanding_fill.1 hp
    · exact hp
    · exact absurd hun ((h.used i).2 ⟨p, hp⟩)
  have hc := h.completes i
  have hs := h.signals i
  refine h.change ⟨?_, fun p q hp hq => ?_, fun p hp => ?_, fun p _ => h.unused i hun, fun p hp => ?_,
    nofun, fun _ => update_self .., fun hd => ?_, ?_, ?_⟩ fun j hj => ⟨fun p => ?_, fun p => ?_,
      fun p _ hp => hp.fill hj, rfl, update_of_ne hj .., update_of_ne hj .., rfl, rfl⟩
  · exact iff_of_true nofun ⟨pid, outstanding_fill.2 (.inl ⟨rfl, rfl⟩)⟩
  · rw [honly p hp, honly q hq]
  · rw [honly p hp]
    exact filled_fill_self hi
  · rw [honly p (.inr hp)] at hp
    exact absurd ((update_self ..).symm.trans hp) (by simp)
  · simp at hd
  · simpa [Driver.fill, hun] using hc
  · simpa [Driver.fill, hun] using hs
  all_goals
    have hno := not_or.1 (hpc j)
    by_cases hp : p = pid
    · subst hp
      simp [Driver.fill, hno, Ne.symm hj]
    · simp [Driver.fill, hp]

omit h in
theorem Passed.outstanding (hp : s.Passed pid i slotSem) : s.Outstanding pid i := by
  cases hp with
  | token hpc _ => exact .inl hpc
  | woken hpc _ => exact .inr hpc

/-- Nobody gets past the semaphore of a slot which is not signalled. -/
theorem Slots.passed (hp : s.Passed pid i slotSem) :
    phase i = .signalled ∧ slotSem = update s.slotSem i ⟨0, []⟩ := by
  cases hp with
  | token hpc hv =>
    have hsem := h.token pid i hpc
    by_cases hi : phase i = .signalled
    · rw [if_pos hi] at hsem
      rw [hsem]
      exact ⟨hi, rfl⟩
    · rw [if_neg hi] at hsem
      rw [hsem] at hv
      exact absurd rfl hv
  | woken hpc hb =>
    have hsem := h.waiting pid i hpc
    by_cases hi : phase i = .signalled
    · rw [if_pos hi] at hsem
      rw [← hsem, update_eq_self]
      exact ⟨hi, rfl⟩
    · rw [if_neg hi] at hsem
      rw [hsem] at hb
      exact absurd mem_cons_self hb

omit h in
theorem outstanding_returned : (s.returned pid).Outstanding p j ↔ p ≠ pid ∧ s.Outstanding p j := by
  by_cases hp : p = pid
  · subst hp
    simp [Outstanding, returned]
  · simp [Outstanding, returned, hp]

/-- A process gets past the semaphore of its slot. -/
theorem Slots.leave (hp : s.Passed pid i slotSem) :
    ({ s with slotSem := slotSem }.returned pid).Slots (update phase i .unused) := by
  obtain ⟨hi, rfl⟩ := h.passed hp
  have ho := hp.outstanding
  have hno (p : ℕ) : ¬ ({ s with slotSem := update s.slotSem i ⟨0, []⟩ }.returned pid).Outstanding
      p i := by
    intro hp
    obtain ⟨hne, hp⟩ := outstanding_returned.1 hp
    exact hne (h.unique p pid i hp ho)
  have hc := h.completes i
  have hs := h.signals i
  refine h.change ⟨iff_of_false (fun hu => hu rfl) (not_exists.2 hno), fun p _ hp => absurd hp (hno p),
    fun p hp => absurd hp (hno p), fun p hp => absurd (.inl hp) (hno p),
    fun p hp => absurd (.inr hp) (hno p), fun _ => update_self .., nofun, fun hd => ?_, ?_, ?_⟩
    fun j hj => ⟨fun p => ?_, fun p => ?_, fun p _ hp => { hp with }, update_of_ne hj .., rfl, rfl, rfl,
      rfl⟩
  · simp at hd
  · simpa [returned, hi] using hc
  · simpa [returned, hi] using hs
  all_goals
    by_cases hp : p = pid
    · subst hp
      have hno := not_or.1 fun hj' : s.Outstanding p j => hj (hj'.eq ho)
      simp [returned, hno]
    · simp [returned, hp]

/-- A slot whose process is past the semaphore is given back. -/
theorem Slots.freeSlot (hi : phase i = .unused) : (s.freeSlot i).Slots phase := by
  refine { h with filled := fun p j hp => ?_ }
  have hj : j ≠ i := fun he => (h.used j).2 ⟨p, hp⟩ (he ▸ hi)
  have hf := h.filled p j hp
  exact { hf with
    free := (update_of_ne hj ..).trans hf.free
    sector := (update_of_ne hj ..).trans hf.sector }

/-- A process waits for its request. -/
theorem Slots.block (hpc : s.pc pid = .notified i) (hv : (s.slotSem i).value = 0) : { s with
      slotSem := update s.slotSem i ((s.slotSem i).push pid)
      pc := update s.pc pid (.slot i) }.Slots phase := by
  have hsem := h.token pid i hpc
  have hi : phase i ≠ .signalled := by
    intro hi
    rw [hsem, if_pos hi] at hv
    cases hv
  rw [if_neg hi] at hsem
  have ho (p j : ℕ) : Outstanding { s with
      slotSem := update s.slotSem i ((s.slotSem i).push pid)
      pc := update s.pc pid (.slot i) } p j ↔ s.Outstanding p j := by
    by_cases hp : p = pid
    · subst hp
      simp [Outstanding, hpc]
    · simp [Outstanding, hp]
  have honly {p : ℕ} (hp : s.Outstanding p i) : p = pid := h.unique p pid i hp (.inl hpc)
  have hat := slots_iff.1 h i
  rw [← update_eq_self i phase]
  refine h.change ⟨hat.used.trans (exists_congr fun p => (ho p i).symm),
    fun p q hp hq => hat.unique p q ((ho p i).1 hp) ((ho q i).1 hq),
    fun p hp => { hat.filled p ((ho p i).1 hp) with }, fun p hp => ?_, fun p hp => ?_, fun hu => ?_,
    hat.sent, hat.done, hat.completes, hat.signals⟩ fun j hj => ⟨fun p => ?_, fun p => ?_,
      fun p _ hp => { hp with }, update_of_ne hj .., rfl, rfl, rfl, rfl⟩
  · rw [honly ((ho p i).1 (.inl hp))] at hp
    exact absurd ((update_self ..).symm.trans hp) (by simp)
  · rw [honly ((ho p i).1 (.inr hp))]
    simp [hsem, hi, push]
  · exact absurd hu (hat.used.2 ⟨pid, .inl hpc⟩)
  all_goals
    by_cases hp : p = pid
    · subst hp
      simp [hpc, Ne.symm hj]
    · simp [hp]

/-- The device completes the request in a slot. -/
theorem Slots.complete (hi : phase i = .sent) : { s with
      status := update s.status i 0
      completes := update s.completes i (s.completes i + 1) }.Slots
      (update phase i .completed) := by
  have hat := slots_iff.1 h i
  rw [hi] at hat
  refine h.change ⟨iff_of_true nofun (hat.used.1 nofun), hat.unique,
    fun p hp => { hat.filled p hp with }, hat.token, hat.waiting, nofun, nofun,
    fun _ => update_self .., ?_, hat.signals⟩ fun j hj => ⟨fun _ => Iff.rfl, fun _ => Iff.rfl,
      fun p _ hp => { hp with }, rfl, update_of_ne hj .., rfl, update_of_ne hj .., rfl⟩
  simpa using hat.completes

/-- The process of a slot is signalled. -/
theorem Slots.signal (hi : phase i = .completed) :
    (s.signalSlot i).Slots (update phase i .signalled) := by
  have hat := slots_iff.1 h i
  rw [hi] at hat
  refine h.change ⟨iff_of_true nofun (hat.used.1 nofun), hat.unique,
    fun p hp => { hat.filled p hp with }, fun p hp => ?_, fun p hp => ?_, nofun, nofun,
    fun _ => hat.done (.inl rfl), hat.completes, ?_⟩ fun j hj => ⟨fun _ => Iff.rfl, fun _ => Iff.rfl,
      fun p _ hp => { hp with }, update_of_ne hj .., rfl, rfl, rfl, update_of_ne hj ..⟩
  · simp [signalSlot, Semaphore.signal, hat.token p hp]
  · simp [signalSlot, Semaphore.signal, hat.waiting p hp]
  · simpa [signalSlot] using hat.signals

end Driver

end HobbyOS
