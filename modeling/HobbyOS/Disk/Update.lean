import HobbyOS.Disk.Requests
import HobbyOS.Disk.Watch

/-!
# Lost updates of sectors

A read which waits for a free slot looked for the sector in the cache, and for other requests for
it, before it waited. When it goes on it does not look again: it reads the sector from the device
and puts it into the cache, over what somebody else may have written there in the meantime
(`late_read_overwrites`).

No update is lost as long as a request which is not coalesced finds a free slot, and a clean block
which is evicted from the cache is on the device, with no call for it in progress (`Calm`). Then a
sector which is not in the cache has at most one request, and a read is a request for a sector
which is not in the cache (`Shape`); a settled sector is in the cache, or on the device
(`Truth`).
-/

namespace HobbyOS

open Disk Function List

namespace Driver

variable {D : Type*} {s s' : Driver D} {pid p q i j x : ℕ} {is : List ℕ}
  {phase : ℕ → Phase} {slotSem : ℕ → Semaphore} {settled' : ℕ → Option D} {c : PendingCall D}

/-! ## Who uses a sector -/

/-- How the requests and those who wait for them go with the cache. -/
structure Shape (s : Driver D) : Prop where
  flushing : s.disk.flushing = false
  alloc : ∀ p, s.pc p ≠ .alloc
  owner : ∀ i < numSlots, s.free i = true → ∃ p, s.Outstanding p i
  blocked : ∀ p i, s.pc p = .coalesce i → p ∈ (s.coalesceSem i).blocked →
    ∃ q, s.Outstanding q i ∧ (s.call q).2 = (s.call p).2
  woken : ∀ p i, s.pc p = .coalesce i → p ∉ (s.coalesceSem i).blocked →
    s.disk.cached (s.call p).2 ≠ none
  alone : ∀ p q i j, s.Outstanding p i → s.Outstanding q j → (s.call p).2 = (s.call q).2 →
    s.disk.cached (s.call p).2 = none → p = q
  reading : ∀ p i, s.Outstanding p i → (s.call p).1 = .read → s.disk.cached (s.call p).2 = none

theorem Outstanding.ne_idle (h : s.Outstanding p i) : s.pc p ≠ .idle := by
  obtain h | h := h <;> simp [h]

/-- The same requests are made, and the same sectors are in the cache. -/
theorem Shape.congr (h : s.Shape) (hfl : s'.disk.flushing = false)
    (ho : ∀ p i, s'.Outstanding p i ↔ s.Outstanding p i)
    (hco : ∀ p i, s'.pc p = .coalesce i → s.pc p = .coalesce i)
    (hal : ∀ p, s'.pc p = .alloc → s.pc p = .alloc) (hfree : s'.free = s.free)
    (hsem : s'.coalesceSem = s.coalesceSem) (hcall : ∀ p, s.pc p ≠ .idle → s'.call p = s.call p)
    (hc : ∀ x, s'.disk.cached x = none ↔ s.disk.cached x = none) : s'.Shape where
  flushing := hfl
  alloc p := mt (hal p) (h.alloc p)
  owner i hi hf := by
    obtain ⟨p, hp⟩ := h.owner i hi (hfree ▸ hf)
    exact ⟨p, (ho p i).2 hp⟩
  blocked p i hp hb := by
    have hp := hco p i hp
    obtain ⟨q, hq, he⟩ := h.blocked p i hp (hsem ▸ hb)
    exact ⟨q, (ho q i).2 hq, by rw [hcall q hq.ne_idle, hcall p (by simp [hp]), he]⟩
  woken p i hp hb := by
    have hp := hco p i hp
    rw [hcall p (by simp [hp]), Ne, hc]
    exact h.woken p i hp (hsem ▸ hb)
  alone p q i j hp hq he hn := by
    have hp := (ho p i).1 hp
    have hq := (ho q j).1 hq
    rw [hcall p hp.ne_idle] at he hn
    rw [hcall q hq.ne_idle] at he
    exact h.alone p q i j hp hq he ((hc _).1 hn)
  reading p i hp hr := by
    have hp := (ho p i).1 hp
    rw [hcall p hp.ne_idle] at hr ⊢
    exact (hc _).2 (h.reading p i hp hr)

/-- A process which has made no request returns. -/
theorem Shape.returned (h : s.Shape) (ho : ∀ j, ¬ s.Outstanding pid j) : (s.returned pid).Shape := by
  refine h.congr h.flushing (fun p j => ?_) (fun p i hp => ?_) (fun p hp => ?_) rfl rfl
    (fun _ _ => rfl) fun _ => .rfl
  · exact outstanding_returned.trans (and_iff_right_of_imp fun hp he => ho j (he ▸ hp))
  · exact (ne_of_update (by simp) hp).2
  · exact (ne_of_update (by simp) hp).2

/-- No request is made for a sector if no slot is busy with it. -/
theorem Slots.not_busy (h : s.Slots phase) (hb : ∀ i ∈ List.range numSlots, ¬ s.Busy pid i)
    (ho : s.Outstanding q j) : (s.call q).2 ≠ (s.call pid).2 := by
  intro he
  have hf := h.filled q j ho
  exact hb j (mem_range.2 hf.lt) ⟨hf.free, he ▸ hf.sector⟩

theorem Sent.disk (h : s.Sent pid is s') : s'.disk = s.disk := by
  cases h <;> rfl

theorem Sent.others (h : s.Sent pid is s') : s'.pc pid ≠ .idle ∧
    (∀ p, p ≠ pid → s'.pc p = s.pc p) ∧ s'.call = s.call ∧ s'.buf = s.buf := by
  cases h <;> refine ⟨by simp [fill], fun p hp => by simp [fill, hp], rfl, rfl⟩

/-- There is a free slot, or one of the slots `is` is busy with the sector. -/
def Placeable (s : Driver D) (sector : ℕ) (is : List ℕ) : Prop :=
  s.allocSem.value ≠ 0 ∨ ∃ i ∈ is, s.free i = true ∧ s.slotSector i = some sector

instance (s : Driver D) (sector : ℕ) (is : List ℕ) : Decidable (s.Placeable sector is) :=
  inferInstanceAs (Decidable (_ ∨ ∃ i ∈ is, _))

/-- A process makes a request for a sector which is not in the cache, or writes to one which is. -/
theorem Sent.shape (h : s.Sent pid is s') (hs : s.Shape) (hsl : s.Slots phase)
    (hpc : s.pc pid = .idle)
    (hx : (s.disk.cached (s.call pid).2 = none ∧ is = List.range numSlots) ∨
      (s.disk.cached (s.call pid).2 ≠ none ∧ (s.call pid).1 = .write))
    (his : ∀ i ∈ is, i < numSlots) (hroom : s.Placeable (s.call pid).2 is) : s'.Shape := by
  have hidle {p j : ℕ} (hp : s.Outstanding p j) : p ≠ pid := fun he => hp.ne_idle (he ▸ hpc)
  cases h with
  | coalesce i hi hbusy =>
    have hout (p j : ℕ) : Outstanding { s with
        coalesceSem := update s.coalesceSem i ((s.coalesceSem i).push pid)
        pc := update s.pc pid (.coalesce i) } p j ↔ s.Outstanding p j := by
      by_cases hp : p = pid
      · subst hp
        simp [Outstanding, hpc]
      · simp [Outstanding, hp]
    -- the others are in the semaphores as before
    have hmem {p j : ℕ} (hp : p ≠ pid) :
        p ∈ (update s.coalesceSem i ((s.coalesceSem i).push pid) j).blocked ↔
          p ∈ (s.coalesceSem j).blocked := by
      by_cases hj : j = i
      · subst hj
        simp [Semaphore.push, hp]
      · simp [hj]
    refine ⟨hs.flushing, fun p hp => ?_, fun j hj hf => ?_, fun p j hp hb => ?_,
      fun p j hp hb => ?_, fun p q j k hp hq => ?_, fun p j hp => ?_⟩
    · by_cases he : p = pid
      · subst he
        simp at hp
      · exact hs.alloc p ((update_of_ne he ..).symm.trans hp)
    · exact (hs.owner j hj hf).imp fun p => (hout p j).2
    · by_cases he : p = pid
      · subst he
        have hij : i = j := by simpa using hp
        subst hij
        obtain ⟨q, hq⟩ := hs.owner i (his i hi) hbusy.1
        have hsec := (hsl.filled q i hq).sector
        rw [hbusy.2] at hsec
        exact ⟨q, (hout q i).2 hq, (Option.some.inj hsec).symm⟩
      · obtain ⟨q, hq, hcall⟩ := hs.blocked p j ((update_of_ne he ..).symm.trans hp)
          ((hmem he).1 hb)
        exact ⟨q, (hout q j).2 hq, hcall⟩
    · by_cases he : p = pid
      · subst he
        have hij : i = j := by simpa using hp
        subst hij
        simp [Semaphore.push] at hb
      · exact hs.woken p j ((update_of_ne he ..).symm.trans hp) (mt (hmem he).2 hb)
    · exact hs.alone p q j k ((hout p j).1 hp) ((hout q k).1 hq)
    · exact hs.reading p j ((hout p j).1 hp)
  | wait hbusy hv =>
    obtain hroom | ⟨i, hi, hbusy'⟩ := hroom
    · exact absurd hv hroom
    · exact absurd hbusy' (hbusy i hi)
  | submit i hbusy _ hi =>
    have hother {p j : ℕ} (hp : (Driver.fill { s with allocSem := s.allocSem.take } pid i).Outstanding
        p j) (hne : p ≠ pid) : s.Outstanding p j :=
      ((outstanding_fill.1 hp).resolve_left fun h => hne h.1).2
    have hkeep {p j : ℕ} (hp : s.Outstanding p j) :
        (Driver.fill { s with allocSem := s.allocSem.take } pid i).Outstanding p j :=
      outstanding_fill.2 (.inr ⟨hidle hp, hp⟩)
    -- if the sector is not in the cache, there is no other request for it
    have hnone {q j : ℕ} (hn : s.disk.cached (s.call pid).2 = none) (hq : s.Outstanding q j) :
        (s.call q).2 ≠ (s.call pid).2 := by
      obtain ⟨-, rfl⟩ | ⟨hn', -⟩ := hx
      · exact hsl.not_busy hbusy hq
      · exact absurd hn hn'
    refine ⟨hs.flushing, fun p hp => ?_, fun j hj hf => ?_, fun p j hp hb => ?_,
      fun p j hp hb => ?_, fun p q j k hp hq he hn => ?_, fun p j hp hr => ?_⟩
    · exact hs.alloc p (ne_of_update (by simp) hp).2
    · by_cases hji : j = i
      · exact ⟨pid, outstanding_fill.2 (.inl ⟨rfl, hji⟩)⟩
      · exact (hs.owner j hj ((update_of_ne hji ..).symm.trans hf)).imp fun _ => hkeep
    · obtain ⟨q, hq, he⟩ := hs.blocked p j (ne_of_update (by simp) hp).2 hb
      exact ⟨q, hkeep hq, he⟩
    · exact hs.woken p j (ne_of_update (by simp) hp).2 hb
    · by_cases hp' : p = pid
      · subst hp'
        by_contra hq'
        exact hnone hn (hother hq (Ne.symm hq')) he.symm
      · by_cases hq' : q = pid
        · subst hq'
          exact absurd he (hnone (he ▸ hn) (hother hp hp'))
        · exact hs.alone p q j k (hother hp hp') (hother hq hq') he hn
    · by_cases hp' : p = pid
      · subst hp'
        obtain ⟨hn, -⟩ | ⟨-, hw⟩ := hx
        · exact hn
        · exact absurd (hr.symm.trans hw) (by simp)
      · exact hs.reading p j (hother hp hp') hr

/-- A request is finished, and its sector is in the cache then. Nobody uses the sectors which are
    evicted. -/
theorem Shape.finish {disk : Disk D} (h : s.Shape) (hsl : s.Slots phase)
    (ho : s.Outstanding pid i) (hfl : disk.flushing = false)
    (hin : disk.cached (s.call pid).2 ≠ none)
    (hev : ∀ y, y ≠ (s.call pid).2 → disk.cached y = s.disk.cached y ∨
      (disk.cached y = none ∧ ∀ q, q ≠ pid → s.pc q ≠ .idle → (s.call q).2 ≠ y)) :
    (({ s with slotSem := slotSem, disk := disk }.returned pid).freeSlot i).Shape := by
  have hout {p j : ℕ} : (({ s with slotSem := slotSem, disk := disk }.returned pid).freeSlot
      i).Outstanding p j ↔ p ≠ pid ∧ s.Outstanding p j := outstanding_returned
  -- what somebody uses is in the cache as before, unless it is the sector of the request
  have hcached {q : ℕ} (hq : q ≠ pid) (hi : s.pc q ≠ .idle) (hne : (s.call q).2 ≠ (s.call pid).2) :
      disk.cached (s.call q).2 = s.disk.cached (s.call q).2 :=
    (hev _ hne).resolve_right fun hn => hn.2 q hq hi rfl
  have hother {p j : ℕ} (hp : s.Outstanding p j) (hne : p ≠ pid) : j ≠ i :=
    fun he => hne (hsl.unique p pid i (he ▸ hp) ho)
  refine ⟨hfl, fun p hp => h.alloc p (ne_of_update (by simp) hp).2, fun j hj hf => ?_, fun p j hp hb => ?_,
    fun p j hp hb => ?_, fun p q j k hp hq he hn => ?_, fun p j hp hr => ?_⟩
  · obtain ⟨hji, hf⟩ := ne_of_update (by simp) hf
    obtain ⟨p, hp⟩ := h.owner j hj hf
    exact ⟨p, hout.2 ⟨fun he => hji ((he ▸ hp).eq ho), hp⟩⟩
  · obtain ⟨hne, hp⟩ := ne_of_update (by simp) hp
    have hji : j ≠ i := by
      rintro rfl
      simp [Driver.freeSlot, Semaphore.signalAll] at hb
    have hb : p ∈ (s.coalesceSem j).blocked := by
      simpa [Driver.freeSlot, Driver.returned, hji] using hb
    obtain ⟨q, hq, he⟩ := h.blocked p j hp hb
    exact ⟨q, hout.2 ⟨fun he => hji ((he ▸ hq).eq ho), hq⟩, he⟩
  · obtain ⟨hne, hco⟩ : p ≠ pid ∧ s.pc p = .coalesce j := ne_of_update (by simp) hp
    by_cases hx : (s.call p).2 = (s.call pid).2
    · change disk.cached (s.call p).2 ≠ none
      rwa [hx]
    change disk.cached (s.call p).2 ≠ none
    rw [hcached hne (by simp [hco]) hx]
    by_cases hji : j = i
    · -- who waited for this request waited for its sector
      subst hji
      by_cases hb' : p ∈ (s.coalesceSem j).blocked
      · obtain ⟨q, hq, he⟩ := h.blocked p j hco hb'
        rw [hsl.unique q pid j hq ho] at he
        exact absurd he.symm hx
      · exact h.woken p j hco hb'
    · exact h.woken p j hco (by simpa [Driver.freeSlot, Driver.returned, hji] using hb)
  · obtain ⟨hp', hp⟩ := hout.1 hp
    obtain ⟨hq', hq⟩ := hout.1 hq
    have hn : disk.cached (s.call p).2 = none := hn
    have hx : (s.call p).2 ≠ (s.call pid).2 := fun he => hin (he ▸ hn)
    rw [hcached hp' hp.ne_idle hx] at hn
    exact h.alone p q j k hp hq he hn
  · obtain ⟨hp', hp⟩ := hout.1 hp
    have hr' := h.reading p j hp hr
    by_cases hx : (s.call p).2 = (s.call pid).2
    · exact absurd (h.alone p pid j i hp ho hx hr') hp'
    · exact (hcached hp' hp.ne_idle hx).trans hr'

/-! ## What is known of the sectors -/

/-- A settled sector is in the cache; or it is on the device, and nobody has read anything else. -/
def Truth (s : Driver D) (settled : ℕ → Option D) : Prop :=
  ∀ x d, settled x = some d → s.disk.cached x = some d ∨
    (s.disk.cached x = none ∧ s.disk.device x = d ∧
      ∀ p i, s.Outstanding p i → (s.call p).2 = x → s.status i = 0 → s.buf p = d)

variable {settled : ℕ → Option D}

/-- Nothing is known of more sectors than before, and the rest is as it was. -/
theorem Truth.congr (h : s.Truth settled) (hset : ∀ x d, settled' x = some d → settled x = some d)
    (hc : ∀ x, settled' x ≠ none → s'.disk.cached x = s.disk.cached x)
    (hdev : ∀ x, settled' x ≠ none → s'.disk.device x = s.disk.device x)
    (hreq : ∀ p i x, settled' x ≠ none → s'.Outstanding p i → (s'.call p).2 = x → s'.status i = 0 →
      s.Outstanding p i ∧ (s.call p).2 = x ∧ s.status i = 0 ∧ s'.buf p = s.buf p) :
    s'.Truth settled' := by
  intro x d hx
  have hne : settled' x ≠ none := by simp [hx]
  rw [hc x hne, hdev x hne]
  refine (h x d (hset x d hx)).imp id fun ⟨hn, hd, hbuf⟩ => ⟨hn, hd, fun p i ho hx' hst => ?_⟩
  obtain ⟨ho, hx', hst, hb⟩ := hreq p i x hne ho hx' hst
  rw [hb]
  exact hbuf p i ho hx' hst

theorem Sent.truth (h : s.Sent pid is s') (hs : s.Truth settled) : s'.Truth settled := by
  have hdisk := h.disk
  refine hs.congr (fun _ _ h => h) (fun x _ => by rw [hdisk]) (fun x _ => by rw [hdisk])
    fun p i x _ ho hx hst => ?_
  cases h with
  | coalesce | wait =>
    have hne : p ≠ pid := by
      rintro rfl
      simp [Outstanding] at ho
    exact ⟨by simpa [Outstanding, hne] using ho, hx, hst, rfl⟩
  | submit k _ _ hk =>
    -- the new request is not completed
    obtain ⟨hik, hst⟩ := ne_of_update (by decide) hst
    obtain ⟨-, he⟩ | ⟨hne, ho⟩ := outstanding_fill.1 ho
    · exact absurd he hik
    · exact ⟨ho, hx, hst, rfl⟩

/-- A request is finished. -/
theorem Truth.finish {disk : Disk D} (h : s.Truth settled)
    (hsub : ∀ y d, y ≠ (s.call pid).2 → settled' y = some d → settled y = some d)
    (hdev : disk.device = s.disk.device) (hin : disk.cached (s.call pid).2 = some (s.buf pid))
    (hset : ∀ d, settled' (s.call pid).2 = some d → s.buf pid = d)
    (hev : ∀ y, y ≠ (s.call pid).2 → disk.cached y = s.disk.cached y ∨
      (disk.cached y = none ∧ (∀ d, s.disk.cached y = some d → s.disk.device y = d) ∧
        ∀ q, q ≠ pid → s.pc q ≠ .idle → (s.call q).2 ≠ y)) :
    (({ s with slotSem := slotSem, disk := disk }.returned pid).freeSlot i).Truth settled' := by
  intro x d hx
  change disk.cached x = some d ∨ (disk.cached x = none ∧ disk.device x = d ∧ _)
  by_cases he : x = (s.call pid).2
  · subst he
    rw [hin, hset d hx]
    exact .inl rfl
  obtain hsame | ⟨hn, hclean, hrest⟩ := hev x he
  · rw [hsame, hdev]
    exact (h x d (hsub x d he hx)).imp id fun ⟨hn, hd, hold⟩ =>
      ⟨hn, hd, fun p k ho => hold p k (outstanding_returned.1 ho).2⟩
  refine .inr ⟨hn, ?_, fun p k ho hpx _ => ?_⟩
  · rw [hdev]
    exact (h x d (hsub x d he hx)).elim (hclean d) fun hd => hd.2.1
  · obtain ⟨hne, ho⟩ := outstanding_returned.1 ho
    exact absurd hpx (hrest p hne ho.ne_idle)

/-! ## The calls in progress -/

/-- The watcher knows who is in a call. -/
structure Calls (s : Driver D) (calls : List (PendingCall D)) : Prop where
  nodup : (calls.map PendingCall.pid).Nodup
  mem : ∀ p, s.pc p ≠ .idle ↔ ∃ c ∈ calls, c.pid = p
  call : ∀ c ∈ calls, s.call c.pid = (c.op, c.sector)
  data : ∀ c ∈ calls, c.op = .write → c.data = some (s.buf c.pid)

variable {calls : List (PendingCall D)}

section

variable (h : s.Calls calls)

include h

theorem Calls.ne_idle (hc : c ∈ calls) : s.pc c.pid ≠ .idle := (h.mem _).2 ⟨c, hc, rfl⟩

theorem Calls.congr (hpc : ∀ p, s'.pc p = .idle ↔ s.pc p = .idle)
    (hcall : ∀ p, s.pc p ≠ .idle → s'.call p = s.call p)
    (hbuf : ∀ p, s.pc p ≠ .idle → (s.call p).1 = .write → s'.buf p = s.buf p) : s'.Calls calls where
  nodup := h.nodup
  mem p := (not_congr (hpc p)).trans (h.mem p)
  call c hc := (hcall _ (h.ne_idle hc)).trans (h.call c hc)
  data c hc hw := by
    rw [hbuf _ (h.ne_idle hc) (by rw [h.call c hc, hw])]
    exact h.data c hc hw

theorem Calls.enter (hpc : s.pc c.pid = .idle) (hpc' : s'.pc c.pid ≠ .idle)
    (hother : ∀ p, p ≠ c.pid → (s'.pc p = .idle ↔ s.pc p = .idle) ∧ s'.call p = s.call p ∧ s'.buf p = s.buf p)
    (hcall : s'.call c.pid = (c.op, c.sector))
    (hdata : c.op = .write → c.data = some (s'.buf c.pid)) : s'.Calls (c :: calls) := by
  have hne {c' : PendingCall D} (hc' : c' ∈ calls) : c'.pid ≠ c.pid :=
    fun he => h.ne_idle hc' (he ▸ hpc)
  refine ⟨?_, fun p => ?_, ?_, ?_⟩
  · rw [map_cons, nodup_cons, mem_map]
    exact ⟨fun ⟨c', hc', he⟩ => hne hc' he, h.nodup⟩
  · by_cases hp : p = c.pid
    · subst hp
      simp [hpc']
    · rw [Ne, (hother p hp).1, ← Ne, h.mem p]
      simp [Ne.symm hp]
  · rw [forall_mem_cons]
    exact ⟨hcall, fun c' hc' => (hother _ (hne hc')).2.1.trans (h.call c' hc')⟩
  · rw [forall_mem_cons]
    refine ⟨hdata, fun c' hc' hw => ?_⟩
    rw [(hother _ (hne hc')).2.2]
    exact h.data c' hc' hw

theorem Calls.leave (hpc : s'.pc pid = .idle)
    (hother : ∀ p, p ≠ pid → (s'.pc p = .idle ↔ s.pc p = .idle) ∧ s'.call p = s.call p ∧ s'.buf p = s.buf p) :
    s'.Calls (calls.filter fun c => c.pid ≠ pid) := by
  have hmem {c : PendingCall D} (hc : c ∈ calls.filter fun c => c.pid ≠ pid) :
      c ∈ calls ∧ c.pid ≠ pid := by simpa using hc
  refine ⟨h.nodup.sublist (filter_sublist.map _), fun p => ?_, fun c hc => ?_, fun c hc hw => ?_⟩
  · by_cases hp : p = pid
    · subst hp
      simp [hpc]
    · rw [Ne, (hother p hp).1, ← Ne, h.mem p]
      refine exists_congr fun c => ?_
      constructor
      · rintro ⟨hc, rfl⟩
        exact ⟨by simp [hc, hp], rfl⟩
      · rintro ⟨hc, rfl⟩
        exact ⟨(hmem hc).1, rfl⟩
  · obtain ⟨hc, hne⟩ := hmem hc
    exact (hother _ hne).2.1.trans (h.call c hc)
  · obtain ⟨hc, hne⟩ := hmem hc
    rw [(hother _ hne).2.2]
    exact h.data c hc hw

theorem Calls.forget (x : ℕ) : s.Calls (calls.map fun c => c.forget x) := by
  have hpid (c : PendingCall D) : (c.forget x).pid = c.pid := by
    unfold PendingCall.forget
    split <;> rfl
  have hop (c : PendingCall D) : (c.forget x).op = c.op ∧ (c.forget x).sector = c.sector := by
    unfold PendingCall.forget
    split <;> exact ⟨rfl, rfl⟩
  refine ⟨?_, fun p => (h.mem p).trans ?_, ?_, ?_⟩
  · rw [map_map]
    convert h.nodup using 2
    exact funext hpid
  · simp [hpid]
  · intro c hc
    obtain ⟨c, hm, rfl⟩ := mem_map.1 hc
    rw [hpid, (hop c).1, (hop c).2]
    exact h.call c hm
  · intro c hc hw
    obtain ⟨c, hm, rfl⟩ := mem_map.1 hc
    rw [(hop c).1] at hw
    rw [hpid, ← h.data c hm hw, PendingCall.forget, if_neg (by simp [hw])]

end

/-! ## The steps -/

end Driver

/-- What the watcher knows is consistent. -/
structure Known {D : Type*} (calls : List (PendingCall D)) (settled : ℕ → Option D) : Prop where
  reads : ∀ c ∈ calls, c.op = .read → ∀ d, c.data = some d → settled c.sector = some d
  writes : ∀ c ∈ calls, c.op = .write → settled c.sector = none

namespace Watch

variable {D : Type*} {w w' : Watch D} {s' : Driver D} {e : DriverEvent D} {r : Reply D}
  {pid sector x i : ℕ} {calls : List (PendingCall D)} {settled : ℕ → Option D} {c : PendingCall D}
  {data : D}

/-- If a process finishes its request, and evicts a clean block, then the device holds what the block
    holds, and nobody else is in a call for its sector. -/
def Spares (w : Watch D) (pid : ℕ) : Prop :=
  ∀ b ∈ w.driver.disk.victim (w.driver.call pid).2, b.dirty = false →
    w.driver.disk.device b.sectorNum = b.data ∧ ∀ c ∈ w.calls, c.pid ≠ pid → c.sector ≠ b.sectorNum

instance [DecidableEq D] (w : Watch D) (pid : ℕ) : Decidable (w.Spares pid) :=
  inferInstanceAs (Decidable (∀ b ∈ _, _ → _ ∧ ∀ c ∈ _, _ → _))

/-- A process goes on from where it is: a write which was coalesced finds a free slot, or another
    request for its sector. -/
def CalmAt (w : Watch D) (pid : ℕ) : DiskPc → Prop
  | .coalesce i => (w.driver.call pid).1 = .write →
      w.driver.Placeable (w.driver.call pid).2 (List.range' (i + 1) (numSlots - (i + 1)))
  | .notified i => (w.driver.slotSem i).value ≠ 0 → w.Spares pid
  | .slot _ => w.Spares pid
  | .idle | .alloc => True

instance [DecidableEq D] (w : Watch D) (pid : ℕ) (pc : DiskPc) : Decidable (w.CalmAt pid pc) := by
  cases pc <;> unfold CalmAt <;> infer_instance

/-- A call for a sector which is not in the cache finds a free slot, or another request for it; and so
    on, for a process which was woken. -/
def Calm (w : Watch D) : DriverEvent D → Prop
  | .read _ sector | .write _ sector _ =>
    w.driver.disk.cached sector = none → w.driver.Placeable sector (List.range numSlots)
  | .resume pid => w.CalmAt pid (w.driver.pc pid)
  | .take | .complete _ | .interrupt => True

instance [DecidableEq D] (w : Watch D) (e : DriverEvent D) : Decidable (w.Calm e) := by
  cases e <;> unfold Calm <;> infer_instance

/-- What holds as long as the lock of the cache is free. -/
structure Good (w : Watch D) : Prop where
  shape : w.driver.Shape
  truth : w.driver.Truth w.settled
  calls : w.driver.Calls w.calls
  known : Known w.calls w.settled

theorem known_enter (h : Known calls settled)
    (hr : c.op = .read → ∀ d, c.data = some d → settled c.sector = some d)
    (hw : c.op = .write → settled c.sector = none) : Known (c :: calls) settled :=
  ⟨forall_mem_cons.2 ⟨hr, h.reads⟩, forall_mem_cons.2 ⟨hw, h.writes⟩⟩

theorem mem_forget (hc : c ∈ calls.map fun c => c.forget sector) :
    (c.op = .read ∧ c.data = none) ∨
      (c ∈ calls ∧ ¬ (c.op = .read ∧ c.sector = sector)) := by
  obtain ⟨c, hm, rfl⟩ := mem_map.1 hc
  unfold PendingCall.forget
  split_ifs with h
  · exact .inl ⟨h.1, rfl⟩
  · exact .inr ⟨hm, h⟩

theorem known_issue (h : Known w.calls w.settled) :
    Known (w.issue sector).calls (w.issue sector).settled := by
  refine ⟨fun c hc hop d hd => ?_, fun c hc hop => ?_⟩
  · obtain ⟨-, hn⟩ | ⟨hm, hne⟩ := mem_forget hc
    · rw [hn] at hd
      cases hd
    · have hx : c.sector ≠ sector := fun he => hne ⟨hop, he⟩
      exact (update_of_ne hx ..).trans (h.reads c hm hop d hd)
  · obtain ⟨hr, -⟩ | ⟨hm, -⟩ := mem_forget hc
    · rw [hop] at hr
      cases hr
    · by_cases hx : c.sector = sector
      · rw [hx]
        exact update_self ..
      · exact (update_of_ne hx ..).trans (h.writes c hm hop)

/-- A sector nothing is known of is settled. -/
theorem known_settle (h : Known w.calls w.settled) (hn : w.settled sector = none) (data : D) :
    Known (w.settle sector data).calls (w.settle sector data).settled := by
  refine ⟨fun c hc hop d hd => ?_, fun c hc hop => ?_⟩
  · have hs := h.reads c hc hop d hd
    have hx : c.sector ≠ sector := by
      intro he
      rw [he, hn] at hs
      cases hs
    exact (update_of_ne hx ..).trans hs
  · by_cases hx : c.sector = sector
    · have hw : w.Writing sector := ⟨c, hc, hop, hx⟩
      rw [hx]
      exact (update_self ..).trans (if_pos hw)
    · exact (update_of_ne hx ..).trans (h.writes c hc hop)

theorem settle_settled {d : D} (h : (w.settle sector data).settled sector = some d) : data = d := by
  have h : update w.settled sector (if w.Writing sector then none else some data) sector = some d := h
  rw [update_self] at h
  split at h
  · cases h
  · exact Option.some.inj h

theorem known_leave (h : Known w.calls w.settled) (pid : ℕ) :
    Known (w.leave pid).calls (w.leave pid).settled :=
  ⟨fun c hc => h.reads c (mem_of_mem_filter hc), fun c hc => h.writes c (mem_of_mem_filter hc)⟩

theorem callOf_spec (h : w.driver.Calls w.calls) (hpc : w.driver.pc pid ≠ .idle) :
    ∃ c ∈ w.calls, w.callOf pid = some c ∧ w.driver.call pid = (c.op, c.sector) ∧
      (c.op = .write → c.data = some (w.driver.buf pid)) := by
  obtain ⟨c0, hc0, he0⟩ := (h.mem pid).1 hpc
  have hsome : (w.callOf pid).isSome := List.find?_isSome.2 ⟨c0, hc0, by simpa using he0⟩
  obtain ⟨c, hc⟩ := Option.isSome_iff_exists.1 hsome
  have hm := mem_of_find?_eq_some hc
  have hp : c.pid = pid := by simpa using List.find?_some hc
  exact ⟨c, hm, hc, hp ▸ h.call c hm, fun hw => hp ▸ h.data c hm hw⟩

theorem written_eq (hc : w.callOf pid = some c) (hd : c.data = some data) :
    w.written pid = (w.leave pid).settle c.sector data := by
  obtain ⟨_, _, _, _⟩ := c
  cases hd
  unfold written
  rw [hc]

variable (h : w.Good)

include h

/-- A call which finds its sector in the cache returns what is expected. -/
theorem Good.cached_eq {d : D} (hc : w.driver.disk.cached x = some data)
    (hx : w.settled x = some d) : data = d := by
  obtain hd | ⟨hn, -⟩ := h.truth x d hx
  · exact Option.some.inj (hc.symm.trans hd)
  · rw [hc] at hn
    cases hn

/-- The driver does something which concerns nobody's call. -/
theorem Good.quiet (hfl : s'.disk.flushing = false)
    (hpc : ∀ p, s'.pc p = .idle ↔ w.driver.pc p = .idle)
    (ho : ∀ p i, s'.Outstanding p i ↔ w.driver.Outstanding p i)
    (hco : ∀ p i, s'.pc p = .coalesce i → w.driver.pc p = .coalesce i)
    (hal : ∀ p, s'.pc p = .alloc → w.driver.pc p = .alloc) (hfree : s'.free = w.driver.free)
    (hsem : s'.coalesceSem = w.driver.coalesceSem) (hcall : s'.call = w.driver.call)
    (hbuf : s'.buf = w.driver.buf) (hst : s'.status = w.driver.status)
    (hdev : s'.disk.device = w.driver.disk.device)
    (hc : ∀ x, s'.disk.cached x = w.driver.disk.cached x) : Good { w with driver := s' } where
  shape := h.shape.congr hfl ho hco hal hfree hsem (fun p _ => by rw [hcall]) fun x => by rw [hc x]
  truth := h.truth.congr (fun _ _ hx => hx) (fun x _ => hc x) (fun x _ => by rw [hdev])
    fun p i x _ hp hx hs => ⟨(ho p i).1 hp, by rw [← hcall, hx], by rw [← hst, hs], by rw [hbuf]⟩
  calls := h.calls.congr hpc (fun p _ => by rw [hcall]) fun p _ _ => by rw [hbuf]
  known := h.known

theorem Good.lookup {disk : Disk D} {found : Option D}
    (hl : w.driver.disk.lookup x = some (disk, found)) :
    Good { w with driver := { w.driver with disk := disk } } := by
  obtain ⟨-, -, hdev, hfl, hc⟩ := lookup_cached hl
  exact h.quiet (hfl.trans h.shape.flushing) (fun _ => .rfl) (fun _ _ => .rfl) (fun _ _ h => h)
    (fun _ h => h) rfl rfl rfl rfl rfl hdev hc

/-- A call which does not find its sector in the cache. -/
theorem Good.miss (hp : w.driver.Protocol) {buf : ℕ → D} (hpc : w.driver.pc c.pid = .idle)
    (hn : w.driver.disk.cached c.sector = none) (hbuf : ∀ p, p ≠ c.pid → buf p = w.driver.buf p)
    (hdata : c.op = .write → c.data = some (buf c.pid))
    (hs : ({ w.driver with buf := buf }.calling c.pid c.op c.sector).Sent c.pid
      (List.range numSlots) s') (hroom : w.driver.Placeable c.sector (List.range numSlots)) :
    s'.Shape ∧ s'.Truth w.settled ∧ s'.Calls (c :: w.calls) := by
  set s₀ := { w.driver with buf := buf }.calling c.pid c.op c.sector
  have hcall (p : ℕ) (hi : w.driver.pc p ≠ .idle) : s₀.call p = w.driver.call p := by
    have hne : p ≠ c.pid := fun he => hi (he ▸ hpc)
    exact update_of_ne hne ..
  have hself : s₀.call c.pid = (c.op, c.sector) := update_self ..
  have hshape : s₀.Shape :=
    h.shape.congr h.shape.flushing (fun _ _ => .rfl) (fun _ _ h => h) (fun _ h => h) rfl rfl hcall
      fun _ => .rfl
  have htruth : s₀.Truth w.settled := by
    refine h.truth.congr (fun _ _ hx => hx) (fun _ _ => rfl) (fun _ _ => rfl)
      fun p i x _ ho hx hst => ⟨ho, ?_, hst, ?_⟩
    · rw [← hx, hcall p ho.ne_idle]
    · exact hbuf p fun he => ho.ne_idle (he ▸ hpc)
  have ho : ∀ j, ¬ w.driver.Outstanding c.pid j :=
    Driver.not_outstanding_of_pc hpc (by simp)
  obtain ⟨phase, la, lu, hsl, -⟩ := hp.tracked.calling ho w.driver.disk buf c.op c.sector
  obtain ⟨hpc', hother, hc', hb'⟩ := hs.others
  refine ⟨hs.shape hshape hsl hpc (.inl ⟨?_, rfl⟩) (fun i => mem_range.1) ?_, hs.truth htruth,
    h.calls.enter hpc hpc' (fun p hp => ⟨?_, ?_, ?_⟩) ?_ ?_⟩
  · rwa [hself]
  · rwa [hself]
  · rw [hother p hp]
    exact .rfl
  · rw [hc']
    exact update_of_ne hp ..
  · rw [hb']
    exact hbuf p hp
  · rw [hc', hself]
  · rwa [hb']

/-- A write is issued. -/
theorem Good.issue (sector : ℕ) : (w.issue sector).Good where
  shape := h.shape
  truth := h.truth.congr (fun _ _ hx => (Driver.ne_of_update (by simp) hx).2) (fun _ _ => rfl)
    (fun _ _ => rfl) fun _ _ _ _ ho hx hst => ⟨ho, hx, hst, rfl⟩
  calls := h.calls.forget sector
  known := known_issue h.known

/-- A write which finds its sector in the cache. -/
theorem Good.writeHit {disk : Disk D} (hfl : disk.flushing = false)
    (hdev : disk.device = w.driver.disk.device) (hin : disk.cached sector = some data)
    (hwas : w.driver.disk.cached sector ≠ none)
    (hc : ∀ x, x ≠ sector → disk.cached x = w.driver.disk.cached x) :
    Good { (w.issue sector).settle sector data with
      driver := { w.driver with disk := disk } } := by
  have hi := h.issue sector
  refine ⟨?_, ?_, ?_, known_settle hi.known (update_self ..) data⟩
  · refine h.shape.congr hfl (fun _ _ => .rfl) (fun _ _ h => h) (fun _ h => h) rfl rfl
      (fun _ _ => rfl) fun x => ?_
    by_cases hx : x = sector
    · subst hx
      simp [hin, hwas]
    · rw [hc x hx]
  · intro x d hx
    by_cases he : x = sector
    · subst he
      exact .inl (hin.trans (congrArg some (settle_settled hx)))
    · have hx : (w.issue sector).settled x = some d := (update_of_ne he ..).symm.trans hx
      rw [hc x he, hdev]
      exact hi.truth x d hx
  · exact hi.calls.congr (fun _ => .rfl) (fun _ _ => rfl) fun _ _ _ => rfl

/-- The device completes a request. -/
theorem Good.complete (hp : w.driver.Protocol) {id : ℕ}
    (hc : w.driver.complete id = some s') : Good { w with driver := s' } := by
  obtain ⟨phase, la, lu, hsl, hri⟩ := hp.tracked
  obtain ⟨p, i, -, -, -, ho, rfl⟩ := hsl.complete_eq hri hc
  obtain ⟨c, hm, -, hcall, -⟩ := callOf_spec h.calls ho.ne_idle
  have hone {q j : ℕ} (hq : w.driver.Outstanding q j) (hne : q ≠ p) : j ≠ i :=
    fun he => hne (hsl.unique q p i (he ▸ hq) ho)
  rw [hcall]
  obtain hop | hop : c.op = .read ∨ c.op = .write := by cases c.op <;> simp
  · rw [hop] at hcall ⊢
    refine ⟨{ h.shape with }, fun x d hx => ?_, ?_, h.known⟩
    · refine (h.truth x d hx).imp (fun hc => hc) fun ⟨hn, hd, hbuf⟩ =>
        ⟨hn, hd, fun q j hq hqx hst => ?_⟩
      by_cases hqp : q = p
      · subst hqp
        obtain rfl : c.sector = x := (congrArg Prod.snd hcall).symm.trans hqx
        exact (update_self ..).trans hd
      · have hst : w.driver.status j = 0 :=
          (update_of_ne (hone hq hqp) ..).symm.trans hst
        exact (update_of_ne hqp ..).trans (hbuf q j hq hqx hst)
    · refine h.calls.congr (fun _ => .rfl) (fun _ _ => rfl) fun q _ hw => ?_
      have hqp : q ≠ p := by
        rintro rfl
        rw [hcall] at hw
        cases hw
      exact update_of_ne hqp ..
  · have hnone := h.known.writes c hm hop
    rw [hop] at hcall ⊢
    -- nothing is known of a sector to which a write is in progress
    have hne {x : ℕ} (hx : w.settled x ≠ none) : x ≠ c.sector := fun he => hx (he ▸ hnone)
    refine ⟨{ h.shape with }, ?_, { h.calls with }, h.known⟩
    refine h.truth.congr (fun _ _ hx => hx) (fun _ _ => rfl)
      (fun x hx => update_of_ne (hne hx) ..) fun q j x hx hq hqx hst => ?_
    have hqp : q ≠ p := by
      rintro rfl
      exact hne hx (hqx.symm.trans (congrArg Prod.snd hcall))
    exact ⟨hq, hqx, (update_of_ne (hone hq hqp) ..).symm.trans hst, rfl⟩

/-- Who is in a call does not use a sector which is evicted. -/
theorem Good.evicted {disk : Disk D} {y : ℕ}
    (hev : disk.cached y = w.driver.disk.cached y ∨ (disk.cached y = none ∧
      ∃ b, w.driver.disk.victim (w.driver.call pid).2 = some b ∧ b.dirty = false ∧ b.sectorNum = y ∧
        w.driver.disk.cached y = some b.data)) (hcalm : w.Spares pid) :
    disk.cached y = w.driver.disk.cached y ∨ (disk.cached y = none ∧
      (∀ d, w.driver.disk.cached y = some d → w.driver.disk.device y = d) ∧
      ∀ q, q ≠ pid → w.driver.pc q ≠ .idle → (w.driver.call q).2 ≠ y) := by
  refine hev.imp_right ?_
  rintro ⟨hn, b, hb, hclean, rfl, hwas⟩
  obtain ⟨hdev, hrest⟩ := hcalm b hb hclean
  refine ⟨hn, fun d hd => ?_, fun q hq hi he => ?_⟩
  · rw [hdev]
    exact Option.some.inj (hwas.symm.trans hd)
  · obtain ⟨c, hc, rfl⟩ := (h.calls.mem q).1 hi
    refine hrest c hc hq ?_
    rw [← he, h.calls.call c hc]

/-- A request is finished. -/
theorem Good.finish (hp : w.driver.Protocol) {slotSem : ℕ → Semaphore} {disk : Disk D}
    (ho : w.driver.Outstanding pid i) (hst : w.driver.status i = 0)
    (hd : w.driver.disk.insert (fun _ _ _ => none) (w.driver.call pid).2 (w.driver.buf pid) =
      some disk) (hcalm : w.Spares pid)
    (hs' : s' = ({ w.driver with slotSem := slotSem, disk := disk }.returned pid).freeSlot i) :
    Good { w.record (.resume pid) (w.driver.reply pid) with driver := s' } ∧
      (w.driver.reply pid).Agrees (w.expected (.resume pid)) := by
  subst hs'
  obtain ⟨phase, la, lu, hsl, -⟩ := hp.tracked
  obtain ⟨-, hdev, hfl, hin, hev⟩ := insert_cached h.shape.flushing hd
  have hevict (y : ℕ) (hy : y ≠ (w.driver.call pid).2) := h.evicted (hev y hy) hcalm
  have hshape : (({ w.driver with slotSem := slotSem, disk := disk }.returned pid).freeSlot i).Shape :=
    h.shape.finish hsl ho hfl (by simp [hin])
      fun y hy => (hevict y hy).imp (fun h => h) fun h => ⟨h.1, h.2.2⟩
  have hcalls : (({ w.driver with slotSem := slotSem, disk := disk }.returned pid).freeSlot i).Calls
      (w.leave pid).calls := by
    refine h.calls.leave (update_self ..) fun p hne => ⟨?_, rfl, rfl⟩
    exact (update_of_ne hne DiskPc.idle w.driver.pc).congr_left
  obtain ⟨c, hm, hof, hcall, hdata⟩ := callOf_spec h.calls ho.ne_idle
  have hsec : (w.driver.call pid).2 = c.sector := by rw [hcall]
  obtain hop | hop : c.op = .read ∨ c.op = .write := by cases c.op <;> simp
  · have hreply : w.driver.reply pid = .read (w.driver.buf pid) := by
      simp [Driver.reply, hcall, hop]
    -- the sector was not in the cache, so that its data came from the device
    have hbuf (d : D) (hx : w.settled (w.driver.call pid).2 = some d) : w.driver.buf pid = d := by
      have hn := h.shape.reading pid i ho (by rw [hcall, hop])
      obtain hc | ⟨-, -, hold⟩ := h.truth _ d hx
      · rw [hn] at hc
        cases hc
      · exact hold pid i ho rfl hst
    rw [hreply]
    refine ⟨⟨hshape, h.truth.finish (fun _ _ _ hx => hx) hdev hin hbuf hevict, hcalls,
      known_leave h.known pid⟩, fun data d he hx => ?_⟩
    cases he
    have hx : c.data = some d := by simpa [expected, hof] using hx
    exact hbuf d (hsec ▸ h.known.reads c hm hop d hx)
  · have hreply : w.driver.reply pid = .written := by simp [Driver.reply, hcall, hop]
    have hnone : (w.leave pid).settled c.sector = none := h.known.writes c hm hop
    rw [hreply]
    refine ⟨?_, fun data d he _ => by cases he⟩
    change Good { w.written pid with driver := _ }
    rw [written_eq hof (hdata hop)]
    refine ⟨hshape, h.truth.finish (fun y d hy hx => ?_) hdev hin (fun d hx => ?_) hevict, hcalls,
      known_settle (known_leave h.known pid) hnone _⟩
    · exact (update_of_ne (hsec ▸ hy) ..).symm.trans hx
    · exact settle_settled (w := w.leave pid) (hsec ▸ hx)

/-- A process which was woken makes a request of its own: it writes to a sector in the cache. -/
theorem Good.again (hp : w.driver.Protocol) {disk : Disk D} {found : Option D}
    (hpc : w.driver.pc pid = .coalesce i) (hb : pid ∉ (w.driver.coalesceSem i).blocked)
    (hl : w.driver.disk.lookup (w.driver.call pid).2 = some (disk, found))
    (hop : found = none ∨ (w.driver.call pid).1 = .write)
    (hs : ({ w.driver with disk := disk }.returned pid).Sent pid
      (List.range' (i + 1) (numSlots - (i + 1))) s')
    (hroom : (w.driver.call pid).1 = .write →
      w.driver.Placeable (w.driver.call pid).2 (List.range' (i + 1) (numSlots - (i + 1)))) :
    Good { w with driver := s' } := by
  obtain ⟨-, hfound, -, -, hc⟩ := lookup_cached hl
  have h1 := h.lookup hl
  have ho : ∀ j, ¬ Driver.Outstanding { w.driver with disk := disk } pid j :=
    Driver.not_outstanding_of_pc hpc (by simp)
  have hp1 : Driver.Protocol { w.driver with disk := disk } :=
    hp.quiet (w.driver.quiet_disk disk) rfl rfl fun _ => .rfl
  obtain ⟨phase, la, lu, hsl, -⟩ := (hp1.returned hpc).tracked
  have hin : w.driver.disk.cached (w.driver.call pid).2 ≠ none := h.shape.woken pid i hpc hb
  have hwrite : (w.driver.call pid).1 = .write :=
    hop.resolve_left fun hn => hin (hfound.symm.trans hn)
  have htruth : ({ w.driver with disk := disk }.returned pid).Truth w.settled :=
    h1.truth.congr (fun _ _ hx => hx) (fun _ _ => rfl) (fun _ _ => rfl) fun p j x _ hp hx hst =>
      ⟨(Driver.outstanding_returned.1 hp).2, hx, hst, rfl⟩
  obtain ⟨hpc', hother, hcall, hbuf⟩ := hs.others
  refine ⟨hs.shape (h1.shape.returned ho) hsl (update_self ..) (.inr ⟨?_, hwrite⟩)
    (fun j hj => ?_) (hroom hwrite), hs.truth htruth, h.calls.congr (fun p => ?_) (fun p _ => by rw [hcall]; rfl)
    (fun p _ _ => by rw [hbuf]; rfl), h.known⟩
  · rwa [← hc] at hin
  · have hj := mem_range'_1.1 hj
    omega
  · by_cases he : p = pid
    · subst he
      simp [hpc', hpc]
    · rw [hother p he]
      exact (update_of_ne he DiskPc.idle w.driver.pc).congr_left

/-- A read which was woken finds its sector in the cache. -/
theorem Good.coalesced {disk : Disk D} (hpc : w.driver.pc pid = .coalesce i)
    (hl : w.driver.disk.lookup (w.driver.call pid).2 = some (disk, some data)) :
    Good { w.leave pid with driver := { w.driver with
        disk := disk, buf := update w.driver.buf pid data }.returned pid } := by
  have h1 := h.lookup hl
  have ho : ∀ j, ¬ Driver.Outstanding { w.driver with disk := disk } pid j :=
    Driver.not_outstanding_of_pc hpc (by simp)
  have hshape := h1.shape.returned ho
  refine ⟨{ hshape with }, ?_, ?_, known_leave h.known pid⟩
  · refine h1.truth.congr (fun _ _ hx => hx) (fun _ _ => rfl) (fun _ _ => rfl)
      fun p j x _ hp hx hst => ?_
    obtain ⟨hne, hp⟩ := Driver.outstanding_returned.1 hp
    exact ⟨hp, hx, hst, update_of_ne hne ..⟩
  · refine h.calls.leave (update_self ..) fun p hne => ⟨?_, rfl, update_of_ne hne ..⟩
    exact (update_of_ne hne DiskPc.idle w.driver.pc).congr_left

omit h

/-- What every calm step keeps, and what a read returns in it. -/
theorem Good.next (h : w.Good) (hp : w.driver.Protocol) (hn : w.driver.Next e s' r)
    (hcalm : w.Calm e) :
    ((s'.disk.locked = true ∧ s'.disk.flushing = false) ∨
      Good { w.record e r with driver := s' }) ∧ r.Agrees (w.expected e) := by
  have hpending {o : Option D} : (Reply.pending : Reply D).Agrees o := fun _ _ he => by cases he
  have hfl0 := h.shape.flushing
  cases hn with
  | @readHit pid sector disk data hpc hl =>
    refine ⟨.inr (h.lookup hl), fun data' d he hx => ?_⟩
    cases he
    exact h.cached_eq (lookup_cached hl).2.1.symm hx
  | @readMiss pid sector disk _ hpc hl hs =>
    obtain ⟨-, hfound, -, -, hc⟩ := lookup_cached hl
    have h1 := h.lookup hl
    have hp1 := hp.quiet (w.driver.quiet_disk disk) rfl rfl fun _ => .rfl
    obtain ⟨hshape, htruth, hcalls⟩ := h1.miss hp1 (c := ⟨pid, sector, .read, w.settled sector⟩) hpc
      ((hc sector).trans hfound.symm) (fun _ _ => rfl) nofun hs (hcalm hfound.symm)
    exact ⟨.inr ⟨hshape, htruth, hcalls, known_enter h.known (fun _ _ hd => hd) nofun⟩, hpending⟩
  | @writeHit pid sector disk data old hpc hl =>
    obtain ⟨-, hfound, hdev, hfl, hc⟩ := lookup_cached hl
    refine ⟨.inr (h.writeHit (hfl.trans hfl0) hdev ?_ (by simp [← hfound]) fun x hx => ?_),
      fun _ _ he => by cases he⟩
    · rw [overwrite_cached rfl, if_pos rfl, hc, ← hfound]
      rfl
    · rw [overwrite_cached rfl, if_neg hx, hc]
  | @writeMiss pid sector disk data _ hpc hl hs =>
    obtain ⟨-, hfound, -, -, hc⟩ := lookup_cached hl
    have h1 := (h.issue sector).lookup hl
    have hp1 := hp.quiet (w.driver.quiet_disk disk) rfl rfl fun _ => .rfl
    obtain ⟨hshape, htruth, hcalls⟩ := h1.miss hp1 (c := ⟨pid, sector, .write, some data⟩) hpc
      ((hc sector).trans hfound.symm) (fun _ hne => update_of_ne hne ..)
      (fun _ => congrArg some (update_self pid data w.driver.buf).symm) hs (hcalm hfound.symm)
    exact ⟨.inr ⟨hshape, htruth, hcalls,
      known_enter (known_issue h.known) nofun fun _ => update_self ..⟩, hpending⟩
  | @coalesced pid i disk data hpc hb hop hl =>
    refine ⟨.inr (h.coalesced hpc hl), fun data' d he hx => ?_⟩
    cases he
    have hidle : w.driver.pc pid ≠ .idle := by simp [hpc]
    obtain ⟨c, hm, hof, hcall, -⟩ := callOf_spec h.calls hidle
    have hx : c.data = some d := by simpa [expected, hof] using hx
    have hset := h.known.reads c hm (by rw [hcall] at hop; exact hop) d hx
    have hfound := (lookup_cached hl).2.1
    rw [hcall] at hfound
    exact h.cached_eq hfound.symm hset
  | @again pid i _ _ _ hpc hb hl hop hs =>
    have hroom : w.CalmAt pid (w.driver.pc pid) := hcalm
    rw [hpc] at hroom
    exact ⟨.inr (h.again hp hpc hb hl hop hs hroom), hpending⟩
  | woken hpc _ _ => exact absurd hpc (h.shape.alloc _)
  | @block pid i hpc _ =>
    refine ⟨.inr (h.quiet hfl0 (fun p => ?_) (fun p j => ?_) (fun p j => ?_) (fun p => ?_) rfl rfl rfl
      rfl rfl rfl fun _ => rfl), hpending⟩
    all_goals
      by_cases hne : p = pid
      · subst hne
        simp [Driver.Outstanding, hpc]
      · simp [Driver.Outstanding, hne]
  | @finish pid i slotSem disk hpass hst hd =>
    have hspares : w.CalmAt pid (w.driver.pc pid) := hcalm
    have hspares : w.Spares pid := by
      cases hpass with
      | token hpc hv => rw [hpc] at hspares; exact hspares hv
      | woken hpc hb => rw [hpc] at hspares; exact hspares
    obtain ⟨hgood, hagree⟩ := h.finish hp hpass.outstanding hst hd hspares rfl
    exact ⟨.inr hgood, hagree⟩
  | evict _ _ _ hs =>
    refine ⟨.inl ?_, hpending⟩
    rw [hs.disk]
    exact ⟨rfl, hfl0⟩
  | take ht =>
    refine ⟨.inr ?_, hpending⟩
    unfold Driver.take at ht
    split_ifs at ht
    cases ht
    exact ⟨{ h.shape with }, h.truth, { h.calls with }, h.known⟩
  | complete hc => exact ⟨.inr (h.complete hp hc), hpending⟩
  | interrupt hh =>
    refine ⟨.inr ?_, hpending⟩
    obtain ⟨_, _, _, rfl⟩ := Driver.handle_eq hh
    exact ⟨{ h.shape with }, h.truth, { h.calls with }, h.known⟩

/-- Once the lock of the cache is held for good, no call returns. -/
theorem locked_next {s : Driver D} (hl : s.disk.locked = true) (hf : s.disk.flushing = false)
    (hn : s.Next e s' r) : (s'.disk.locked = true ∧ s'.disk.flushing = false) ∧ r = .pending := by
  have hno {x : ℕ} {disk : Disk D} {o : Option D} (h : s.disk.lookup x = some (disk, o)) : False := by
    rw [(lookup_cached h).1] at hl
    cases hl
  cases hn with
  | readHit _ h | readMiss _ h | writeHit _ h | writeMiss _ h | coalesced _ _ _ h | again _ _ h =>
    exact (hno h).elim
  | woken | block => exact ⟨⟨hl, hf⟩, rfl⟩
  | finish _ _ hd =>
    rw [(insert_cached hf hd).1] at hl
    cases hl
  | evict _ _ hd _ => simp [evicted, hl] at hd
  | take h =>
    unfold Driver.take at h
    split_ifs at h
    cases h
    exact ⟨⟨hl, hf⟩, rfl⟩
  | complete h =>
    refine ⟨?_, rfl⟩
    unfold Driver.complete at h
    split_ifs at h
    obtain ⟨c, -, rfl⟩ := Option.map_eq_some_iff.1 h
    obtain ⟨op, sector⟩ := s.req c.1
    cases op <;> exact ⟨hl, hf⟩
  | interrupt h =>
    obtain ⟨_, _, _, rfl⟩ := Driver.handle_eq h
    exact ⟨⟨hl, hf⟩, rfl⟩

/-- What calm steps keep. -/
structure Invariant (w : Watch D) : Prop where
  protocol : w.driver.Protocol
  good : (w.driver.disk.locked = true ∧ w.driver.disk.flushing = false) ∨ w.Good

theorem Invariant.step (h : w.Invariant) (hc : w.Calm e) (hs : w.step e = some (w', r)) :
    w'.Invariant ∧ r.Agrees (w.expected e) := by
  obtain ⟨⟨s', r'⟩, hstep, ⟨⟩⟩ := Option.map_eq_some_iff.1 hs
  have hn := Driver.step_next h.protocol.blocking hstep
  obtain ⟨hl, hf⟩ | hg := h.good
  · obtain ⟨hl', rfl⟩ := locked_next hl hf hn
    exact ⟨⟨h.protocol.step hstep, .inl hl'⟩, fun _ _ he => by cases he⟩
  · obtain ⟨hg', ha⟩ := hg.next h.protocol hn hc
    exact ⟨⟨h.protocol.step hstep, hg'⟩, ha⟩

theorem start_invariant (disk : Disk D) (hf : disk.flushing = false) (data : D) (idx : ℕ) :
    (start disk data idx).Invariant := by
  refine ⟨Driver.start_protocol disk data idx, .inr ⟨⟨hf, ?_, ?_, ?_, ?_, ?_, ?_⟩, ?_, ?_, ?_⟩⟩
  any_goals simp [start, Driver.start, Driver.Outstanding]
  · intro x d hx
    cases hx
  · exact ⟨nodup_nil, by simp, by simp, by simp⟩
  · exact ⟨by simp, by simp⟩

/-- In every run whose steps are calm, a read which starts after a write has returned returns what
    was written, if no other write is in progress or issued later. -/
theorem reachable_agrees (disk : Disk D) (hf : disk.flushing = false) (data : D) (idx : ℕ)
    (h : Reaches step Calm (start disk data idx) w) (hc : w.Calm e) (hs : w.step e = some (w', r)) :
    r.Agrees (w.expected e) :=
  ((h.inv (I := Invariant) (fun _ _ _ _ hI hc hs => (hI.step hc hs).1)
    (start_invariant disk hf data idx)).step hc hs).2

/-- A process reads a sector, and another one, which waits for this, writes to it. -/
def calmRun : List (DriverEvent ℕ) :=
  [.read 0 5, .resume 0, .take, .complete 0, .write 1 5 1, .interrupt, .resume 0, .resume 1, .resume 1,
    .take, .complete 0, .interrupt, .resume 1]

theorem reachable_agrees_one :
    let w := lastState (guarded step Calm) (start (.start fun _ => 0) 0 65535) calmRun
    w.expected (.read 2 5) = some 1 ∧
      ∃ w', w.step (.read 2 5) = some (w', .read 1) ∧ (Reply.read 1).Agrees (w.expected (.read 2 5)) := by
  intro w
  have hexp : w.expected (.read 2 5) = some 1 := by decide +kernel
  have hcalm : w.Calm (.read 2 5) := by decide +kernel
  have hstep : (w.step (.read 2 5)).map Prod.snd = some (.read 1) := by decide +kernel
  obtain ⟨⟨w', r⟩, hs, rfl⟩ := Option.map_eq_some_iff.1 hstep
  exact ⟨hexp, w', hs, reachable_agrees _ rfl _ _ (Reaches.lastState _ _) hcalm hs⟩

/-- Two processes wait for a slot to read a sector. The first one gets it, somebody writes to the
    sector in the cache, and the second one puts the old data there. -/
def lateRun : List (DriverEvent ℕ) :=
  [.read 0 10, .resume 0, .read 1 11, .resume 1, .read 2 5, .read 3 5, .take, .take, .complete 0,
    .complete 3, .interrupt, .resume 0, .resume 2, .resume 2, .resume 1, .resume 3, .resume 3, .take,
    .take, .complete 0, .complete 3, .interrupt, .resume 2, .write 4 5 1, .resume 3]

/-- The write of `1` has returned, and no other write was made; but a read returns `0`. -/
theorem late_read_overwrites : ∃ w w' : Watch ℕ,
    Reaches step (fun _ _ => True) (start (.start fun _ => 0) 0 0) w ∧ w.calls = [] ∧
      w.expected (.read 5 5) = some 1 ∧ w.step (.read 5 5) = some (w', .read 0) ∧
      ¬ (Reply.read 0).Agrees (w.expected (.read 5 5)) := by
  have hexp : (lastState (guarded step fun _ _ => True) (start (.start fun _ => 0) 0 0)
      lateRun).expected (.read 5 5) = some 1 := by decide +kernel
  have hcalls : (lastState (guarded step fun _ _ => True) (start (.start fun _ => 0) 0 0)
      lateRun).calls = [] := by decide +kernel
  have hstep : ((lastState (guarded step fun _ _ => True) (start (.start fun _ => 0) 0 0)
      lateRun).step (.read 5 5)).map Prod.snd = some (.read 0) := by decide +kernel
  obtain ⟨⟨w', r⟩, hs, rfl⟩ := Option.map_eq_some_iff.1 hstep
  exact ⟨_, w', Reaches.lastState _ _, hcalls, hexp, hs, fun h => by cases h 0 1 rfl hexp⟩

end Watch

end HobbyOS
