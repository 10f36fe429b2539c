import HobbyOS.Slab.Lists

/-!
# Runs of a cache

A run of a cache is a sequence of calls of `alloc` and `free`, with writes of the
holders of the objects, and of the rest of the kernel, to the memory in between.
The invariant of the lists is kept by `free` (`Lists.free`) and by an `alloc` in a
settled state (`Lists.alloc`), so it holds in every run which allocates in settled
states only (`reachable_sound`). An allocation with no slab in `m_partial` and two
in `m_empty` breaks it: the lists share a slab afterwards (`shared_slab`).
-/

namespace HobbyOS.MemCache

open Function List Nat

variable {c c' : MemCache} {out : Set ℕ} {a i obj page header x : ℕ} {P F E l1 l2 : List ℕ}

/-! ## Allocation -/

/-- Creating a slab, for an empty cache. -/
theorem Lists.newSlab (h : Lists c out [] F []) (hf : Fresh c page) :
    Lists { c.newSlab page with partialHead := page, emptyHead := 0 } out [page] F [] := by
  have hnone : ∀ y ∈ out, page ≤ y → ¬ y < page + pageSize := by
    intro y hy h1 h₂
    obtain ⟨b, hb, i, hi, rfl⟩ := h.mem_out y hy
    obtain ⟨gs, hgs⟩ := h.slots b hb
    have := hgs.slot_mem hi
    have := h.sized.four_le
    exact hf.notMem (page_inj hf.aligned hgs.aligned h1 h₂ (by omega) (by omega) ▸ hb)
  have hpage := slots_newSlab h.sized hf.ne_zero hf.aligned hnone
  have hnext : ∀ b, b ≠ page → (c.newSlab page).slab b = c.slab b := fun b hb =>
    update_of_ne hb _ _
  have hne : ∀ b ∈ c.slabs, b ≠ page := fun b hb e => hf.notMem (e ▸ hb)
  have hF : ∀ b ∈ F, b ≠ page := fun b hb => hne b (h.links.mem_slabs.2 (.inr (.inl hb)))
  have hzero : (c.newSlab page).next page = 0 := by
    simp [MemCache.newSlab, createAt, next, setSlab]
  refine ⟨h.sized.congr rfl rfl, ⟨?_, ?_, ?_, ?_, ?_⟩, ?_, fun b hb => ?_, by simp, fun b hb => ?_,
    fun p hp => ?_⟩
  · exact Chain.cons_iff.2 ⟨rfl, hf.ne_zero, Chain.nil_iff.2 hzero⟩
  · refine h.links.fullChain.congr fun b hb => ?_
    exact congrArg Slab.next (hnext b (hF b hb))
  · exact Chain.nil_iff.2 rfl
  · exact List.Perm.cons page (by simpa using h.links.perm)
  · have hnd := h.links.nodup
    simp only [nil_append, append_nil, singleton_append, nodup_cons] at hnd ⊢
    exact ⟨fun hm => hF page hm rfl, hnd⟩
  · intro b hb
    rw [mem_singleton] at hb
    subst hb
    have := h.sized.two_le
    rw [show ({ c.newSlab b with partialHead := b, emptyHead := 0 } : MemCache).slab =
      (c.newSlab b).slab from rfl, ← hpage.length_eq, length_range]
    omega
  · exact (congrArg Slab.freeSlots (hnext b (hF b hb))).trans (h.full b hb)
  · rcases mem_cons.1 hb with rfl | hb
    · exact ⟨_, hpage.frame (h.sized.congr rfl rfl) rfl ⟨_, rfl⟩ (fun _ _ _ => rfl)
        fun _ _ _ => Iff.rfl⟩
    · exact h.slots_of_ne rfl (fun x hx => newSlab_mem h.sized hx) (fun _ _ => Iff.rfl)
        hf.aligned hb (hne b hb) ⟨_, hnext b (hne b hb)⟩
  · obtain ⟨b, hb, i, hi, rfl⟩ := h.mem_out p hp
    refine ⟨b, mem_cons_of_mem _ hb, i, hi, ?_⟩
    exact congrArg (·.start + i * c.objSize) (hnext b (hne b hb)).symm

/-- Where the slabs are settled, `alloc` finds or makes a slab with a free slot,
    and keeps the lists apart. -/
theorem Lists.refill (h : Lists c out P F E) (header : ℕ) (hu : Used c P) (hs : Settled c) (hf : Fresh c page) :
    ∃ a P' E', Lists (c.refill page header) out (a :: P') F E' ∧
      Used (c.refill page header) P' := by
  by_cases hp : c.partialHead = 0
  · obtain rfl := (hp ▸ h.links.partialChain).eq_nil
    by_cases he : c.emptyHead = 0
    · obtain rfl := (he ▸ h.links.emptyChain).eq_nil
      refine ⟨page, [], [], ?_, by simp [Used]⟩
      have hnext : ({ c.newSlab page with emptyHead := page } : MemCache).next page = 0 := by
        simp [MemCache.newSlab, createAt, next, setSlab]
      simp only [MemCache.refill, hp, he, if_true, h.sized.create, hnext]
      exact h.newSlab hf
    obtain ⟨E', rfl, hE⟩ := h.links.emptyChain.exists_cons he
    obtain rfl := (hs hp he ▸ hE).eq_nil
    have hm : c.emptyHead ∈ [c.emptyHead] := mem_singleton_self _
    have hcount : (c.slab c.emptyHead).freeSlots ≠ 0 := by
      have := h.sized.two_le
      rw [h.empty _ hm]
      omega
    refine ⟨c.emptyHead, [], [], ?_, by simp [Used]⟩
    simp only [MemCache.refill, hp, he, if_true, if_false, hs hp he]
    refine ⟨h.sized.congr rfl rfl, ⟨?_, h.links.fullChain, Chain.nil_iff.2 rfl, ?_, ?_⟩,
      ?_, h.full, by simp, fun b hb => ?_, h.mem_out⟩
    · exact Chain.cons_iff.2 ⟨rfl, he, Chain.nil_iff.2 (hs hp he)⟩
    · refine List.Perm.trans ?_ h.links.perm
      simpa using (perm_append_singleton c.emptyHead F).symm
    · have := h.links.nodup
      simp only [nil_append] at this
      simpa using (perm_append_singleton c.emptyHead F).nodup_iff.1 this
    · intro b hb
      rw [mem_singleton] at hb
      exact hb ▸ hcount
    · obtain ⟨fs, hfs⟩ := h.slots b hb
      exact ⟨fs, hfs.frame h.sized rfl ⟨_, rfl⟩ (fun _ _ _ => rfl) fun _ _ _ => Iff.rfl⟩
  · obtain ⟨P', rfl, -⟩ := h.links.partialChain.exists_cons hp
    rw [MemCache.refill, if_neg hp]
    exact ⟨_, P', E, h, fun b hb => hu b (.tail _ hb)⟩

theorem Slots.freeSlots_le {fs : List ℕ} (h : Slots c out a fs) :
    (c.slab a).freeSlots ≤ c.slotCount := by
  rw [← h.length_eq]
  have := (h.chain.nodup.subperm fun j hj => mem_range.2 (h.lt j hj)).length_le
  simpa using this

/-- Taking a slot of the first slab, which had one. -/
theorem Lists.takeSlot (h : Lists c out (a :: P) F E) (hu : Used c P) :
    ∃ p c' P' F', c.takeSlot = (some p, c') ∧ p ≠ 0 ∧ p ∉ out ∧
      Lists c' (insert p out) P' F' E ∧ Used c' P' := by
  have hu' : ∀ b ∈ a :: P, b ≠ a → (c.slab b).freeSlots < c.slotCount := fun b hb hne =>
    hu b ((mem_cons.1 hb).resolve_left hne)
  have ha : a ∈ c.slabs := h.links.mem_slabs.2 (.inl (.head _))
  have hhead : c.partialHead = a := (Chain.cons_iff.1 h.links.partialChain).1
  obtain ⟨fs, hfs⟩ := h.slots _ ha
  have hle := hfs.freeSlots_le
  obtain ⟨hget, hi, hnot, fs', hfs'⟩ := hfs.getSlot h.sized (h.ne_full _ (.head _))
  set p := c.slotAddr a (c.slab a).free with hp
  have hpm := hfs.slot_mem hi
  have h4 := h.sized.four_le
  have hfree : ((c.popSlot a).slab a).freeSlots = (c.slab a).freeSlots - 1 := by
    rw [popSlot_slab]
  have hP : ∀ b ∈ P, b ≠ a := fun b hb e =>
    (nodup_cons.1 h.links.partialChain.nodup).1 (e ▸ hb)
  have hF : ∀ b ∈ F, b ≠ a := fun b hb e => h.links.disjoint.1 mem_cons_self (e ▸ hb)
  have hE : ∀ b ∈ E, b ≠ a := fun b hb e => h.links.disjoint.2.1 mem_cons_self (e ▸ hb)
  have hslab : ∀ b ≠ a, (c.popSlot a).slab b = c.slab b := fun b hb => update_of_ne hb _ _
  have hout : ∀ x, x < a ∨ a + pageSize ≤ x → (x ∈ insert p out ↔ x ∈ out) := fun x hx =>
    Set.mem_insert_iff.trans (or_iff_right (by rintro rfl; omega))
  have hnew : ∀ q ∈ insert p out, q ∈ out ∨ ∃ i < c.slotCount, q = c.slotAddr a i := by
    rintro q (rfl | hq)
    · exact .inr ⟨_, hi, rfl⟩
    · exact .inl hq
  have hp0 : p ≠ 0 := by omega
  by_cases hz : (c.slab a).freeSlots - 1 = 0
  · -- The last slot: the slab goes to `m_full`.
    set c' : MemCache :=
      { (c.popSlot a).setNext a c.fullHead with fullHead := a, partialHead := c.next a } with hc'
    have hn : c'.next = update c.next a c.fullHead :=
      (setNext_next (c := c.popSlot a)).trans (by rw [popSlot_next])
    have hfull : c'.slab a = { (c.popSlot a).slab a with next := c.fullHead } :=
      update_self _ _ _
    have hslab' : ∀ b ≠ a, c'.slab b = c.slab b := fun b hb =>
      (update_of_ne hb _ _).trans (hslab b hb)
    refine ⟨p, c', P, a :: F, ?_, hp0, hnot, ?_⟩
    · simp only [MemCache.takeSlot, hhead, hget, show (c.popSlot a).partialHead = a from hhead,
        hfree, hz, if_true, popSlot_next, hc']
      rfl
    have h₀ : Links c ([] ++ a :: P) F E := h.links
    have hl : Links c' ([] ++ P) (a :: F) E :=
      h₀.partialToFull rfl (by simp [unlinked, hhead, hc']) (by simp [unlinked, hhead, hn])
        rfl rfl
    refine h.change (by rfl) (fun _ _ => by rfl) hout ha hl rfl rfl (fun b hb => ⟨_, hslab' b hb⟩) ?_
      hnew hu' (fun b hb => .inl ⟨mem_cons_of_mem _ hb, hP b hb⟩) (fun b hb => ?_)
      fun b hb => .inl ⟨hb, hE b hb⟩
    · exact ⟨fs', hfs'.frame (h.sized.congr rfl rfl) rfl ⟨_, hfull⟩ (fun _ _ _ => rfl)
        fun _ _ _ => Iff.rfl⟩
    · rcases mem_cons.1 hb with rfl | hb
      · exact .inr ⟨rfl, (congrArg Slab.freeSlots hfull).trans (hfree.trans hz)⟩
      · exact .inl ⟨hb, hF b hb⟩
  · refine ⟨p, c.popSlot a, a :: P, F, ?_, hp0, hnot, ?_⟩
    · simp only [MemCache.takeSlot, hhead, hget, show (c.popSlot a).partialHead = a from hhead,
        hfree, hz, if_false]
    · refine h.change (by rfl) (fun _ _ => by rfl) hout ha (h.links.congr popSlot_next rfl rfl rfl rfl)
        rfl rfl (fun b hb => ⟨_, hslab b hb⟩) ⟨fs', hfs'⟩ hnew hu' (fun b hb => ?_)
        (fun b hb => .inl ⟨hb, hF b hb⟩) fun b hb => .inl ⟨hb, hE b hb⟩
      rcases mem_cons.1 hb with rfl | hb
      · exact .inr ⟨rfl, by omega⟩
      · exact .inl ⟨mem_cons_of_mem _ hb, hP b hb⟩

/-! ## Release -/

/-- What `free` finds: the slab the object is in. -/
theorem Lists.find (h : Lists c out P F E) (ha : a ∈ c.slabs) (hi : i < c.slotCount)
    {head : ℕ} {l : List ℕ} (hl : Chain c.next 0 head l) (hsub : ∀ b ∈ l, b ∈ c.slabs)
    (hlen : l.length ≤ c.slabs.length) : (a ∉ l ∧ c.find (c.slotAddr a i) head = some none) ∨
      ∃ l1 l2, l = l1 ++ a :: l2 ∧ c.find (c.slotAddr a i) head = some (some (a, lastOr 0 l1)) := by
  rcases findLoop_spec (c.slotAddr a i) 0 hl (lt_succ_of_le hlen) with
    ⟨he, hn⟩ | ⟨l1, b, l2, rfl, hb, he⟩
  · refine .inl ⟨fun hm => ?_, he⟩
    have := hn a hm
    rw [(h.contains_iff ha ha hi).2 rfl] at this
    cases this
  · obtain rfl := (h.contains_iff ha (hsub b (by simp)) hi).1 hb
    exact .inr ⟨l1, l2, rfl, he⟩

/-- Giving a slot of the slab `a` back, and moving the slab, keeps the invariant if
    the slab is in the right list afterwards. -/
theorem Lists.pushSlot (h : Lists c out P F E) (hu : Used c P) {P' F' E' : List ℕ}
    (ha : a ∈ c.slabs) (hi : i < c.slotCount) (hobj : c.slotAddr a i ∈ out) (hr : Relinked (c.pushSlot a i) c')
    (hl : Links c' P' F' E')
    (hP : ∀ b ∈ P', b ∈ P ∧ b ≠ a ∨ b = a ∧ (c.slab a).freeSlots + 1 < c.slotCount)
    (hF : ∀ b ∈ F', b ∈ F ∧ b ≠ a)
    (hE : ∀ b ∈ E', b ∈ E ∧ b ≠ a ∨ b = a ∧ (c.slab a).freeSlots + 1 = c.slotCount) :
    Lists c' (out \ {c.slotAddr a i}) P' F' E' ∧ Used c' P' := by
  obtain ⟨fs, hfs⟩ := h.slots a ha
  obtain ⟨-, hfs'⟩ := hfs.freeSlot h.sized hi hobj
  have hpm := hfs.slot_mem hi
  have h4 := h.sized.four_le
  obtain ⟨n, hn⟩ := hr.slab_eq a
  have hfree : (c'.slab a).freeSlots = (c.slab a).freeSlots + 1 := by
    rw [hn, pushSlot_slab]
  refine h.change hr.objSize_eq (fun x hx => ?_) (fun x hx => ?_) ha hl hr.slabSize_eq hr.slabs_eq
    (fun b hb => ?_) ?_ (fun q hq => .inl hq.1) (fun b hb _ => hu b hb) (fun b hb => ?_)
    (fun b hb => .inl (hF b hb)) fun b hb => ?_
  · rw [hr.mem_eq]
    exact storeLE_of_notMem (by omega)
  · exact (Set.mem_sdiff _).trans (and_iff_left (by rintro rfl; omega))
  · obtain ⟨m, hm⟩ := hr.slab_eq b
    exact ⟨m, hm.trans (by rw [show (c.pushSlot a i).slab b = c.slab b from
      update_of_ne hb _ _])⟩
  · exact ⟨_, hfs'.frame (h.sized.congr rfl rfl) hr.objSize_eq ⟨n, hn⟩
      (fun _ _ _ => by rw [hr.mem_eq]) fun _ _ _ => Iff.rfl⟩
  · exact (hP b hb).imp id fun e => ⟨e.1, by omega⟩
  · exact (hE b hb).imp id fun e => ⟨e.1, hfree.trans e.2⟩

/-- Giving an object back keeps the lists, whichever of the two its slab is in. -/
theorem Lists.free (h : Lists c out P F E) (hu : Used c P) (hobj : obj ∈ out) :
    ∃ c' P' F' E', c.free obj = some (0, c') ∧ Lists c' (out \ {obj}) P' F' E' ∧ Used c' P' := by
  obtain ⟨a, ha, i, hi, rfl⟩ := h.mem_out obj hobj
  obtain ⟨fs, hfs⟩ := h.slots a ha
  have hfree := (hfs.freeSlot h.sized hi hobj).1
  have hlt := hfs.length_lt hi ((hfs.mem_out i hi).1 hobj)
  rw [hfs.length_eq] at hlt
  have htwo := h.sized.two_le
  have hE : ∀ b ∈ E, b ≠ a := fun b hb e => by
    have := h.empty b hb
    rw [e] at this
    omega
  rcases h.find ha hi h.links.partialChain (fun b hb => h.links.mem_slabs.2 (.inl hb))
    h.links.partial_length_le with ⟨haP, hfind⟩ | ⟨l1, l2, rfl, hfind⟩
  · -- The slab is in `m_full`, and goes to `m_partial`.
    rcases h.find ha hi h.links.fullChain (fun b hb => h.links.mem_slabs.2 (.inr (.inl hb)))
      h.links.full_length_le with ⟨haF, -⟩ | ⟨l1, l2, rfl, hfind'⟩
    · rcases h.links.mem_slabs.1 ha with hm | hm | hm
      · exact absurd hm haP
      · exact absurd hm haF
      · exact absurd rfl (hE a hm)
    set d := (c.pushSlot a i).unlinkFull a (lastOr 0 l1) with hd
    set c' : MemCache := { d.setNext a d.partialHead with partialHead := a } with hc'
    have hr : Relinked (c.pushSlot a i) c' :=
      ((Relinked.unlinkFull _ _ _).trans (Relinked.setNext _ _ _)).trans
        (Relinked.setHeads _ _ _ _)
    obtain ⟨hn, hf, hp, he⟩ := unlinkFull_eq (c.pushSlot a i) a (lastOr 0 l1)
    rw [← hd] at hn hf hp he
    have hl : Links c' (a :: P) (l1 ++ l2) E := by
      refine h.links.fullToPartial ?_ rfl ?_ ?_ ?_
      · refine (setNext_next (c := d)).trans ?_
        rw [hn, hp, pushSlot_next]
        rfl
      · exact hf.trans (by rw [pushSlot_next]; rfl)
      · exact he
      · exact hr.slabs_eq
    refine ⟨c', _, _, _, ?_, h.pushSlot hu ha hi hobj hr hl (fun b hb => ?_)
      (fun b => (mem_splice_out h.links.fullChain.nodup).1) fun b hb => .inl ⟨hb, hE b hb⟩⟩
    · simp [MemCache.free, hfind, hfind', freeFull, hfree, hc', hd]
    · rcases mem_cons.1 hb with rfl | hb
      · have hfull : (c.slab b).freeSlots = 0 := h.full b (by simp)
        exact .inr ⟨rfl, by omega⟩
      · exact .inl ⟨hb, fun e => haP (e ▸ hb)⟩
  · have hF : ∀ b ∈ F, b ≠ a := fun b hb e => h.links.disjoint.1 (by simp) (e ▸ hb)
    have hmax : ((c.pushSlot a i).slab a).freeSlots = ((c.pushSlot a i).slab a).maxSlots ↔
        (c.slab a).freeSlots + 1 = c.slotCount := by
      rw [pushSlot_slab, ← hfs.maxSlots_eq]
    by_cases hz : (c.slab a).freeSlots + 1 = c.slotCount
    · -- All slots are free again: the slab goes to `m_empty`.
      set d := (c.pushSlot a i).unlinkPartial a (lastOr 0 l1) with hd
      set c' : MemCache := { d.setNext a d.emptyHead with emptyHead := a } with hc'
      have hr : Relinked (c.pushSlot a i) c' :=
        ((Relinked.unlinkPartial _ _ _).trans (Relinked.setNext _ _ _)).trans
          (Relinked.setHeads _ _ _ _)
      obtain ⟨hn, hp, hf, he⟩ := unlinkPartial_eq (c.pushSlot a i) a (lastOr 0 l1)
      rw [← hd] at hn hf hp he
      have hl : Links c' (l1 ++ l2) F (a :: E) := by
        refine h.links.partialToEmpty hr.slabs_eq ?_ ?_ hf rfl
        · exact hp.trans (by rw [pushSlot_next]; rfl)
        · refine (setNext_next (c := d)).trans ?_
          rw [hn, he, pushSlot_next]
          rfl
      refine ⟨c', _, _, _, ?_, h.pushSlot hu ha hi hobj hr hl
        (fun b hb => .inl ((mem_splice_out h.links.partialChain.nodup).1 hb))
        (fun b hb => ⟨hb, hF b hb⟩) fun b hb => ?_⟩
      · simp [MemCache.free, hfind, freePartial, hfree, hmax.2 hz, hc', hd]
      · rcases mem_cons.1 hb with rfl | hb
        · exact .inr ⟨rfl, hz⟩
        · exact .inl ⟨hb, hE b hb⟩
    · refine ⟨c.pushSlot a i, _, _, _, ?_, h.pushSlot hu ha hi hobj
        ⟨rfl, rfl, rfl, rfl, fun _ => ⟨_, rfl⟩⟩ (h.links.congr pushSlot_next rfl rfl rfl rfl)
        (fun b hb => ?_) (fun b hb => ⟨hb, hF b hb⟩) fun b hb => .inl ⟨hb, hE b hb⟩⟩
      · simp [MemCache.free, hfind, freePartial, hfree, hmax, hz]
      · by_cases hb' : b = a
        · exact .inr ⟨hb', by omega⟩
        · exact .inl ⟨hb, hb'⟩

/-! ## New caches -/

theorem powLoop_spec (objSize fuel pow : ℕ) :
    powLoop objSize fuel pow = pow ∨ pow < powLoop objSize fuel pow ∧
      intShl (powLoop objSize fuel pow - 1) < objSize := by
  induction fuel generalizing pow with
  | zero => exact .inl rfl
  | succ fuel ih =>
    rw [powLoop]
    split_ifs with h
    · rcases ih (pow + 1) with e | ⟨e, hlt⟩
      · rw [e]
        exact .inr ⟨lt_succ_self _, h⟩
      · exact .inr ⟨by omega, hlt⟩
    · exact .inl rfl

/-- A slab has several slots only if it occupies one page. -/
theorem sized_new {objSize : ℕ} (slab : ℕ → Slab) (mem : ℕ → UInt8) (h4 : 4 ≤ objSize)
    (hle : objSize ≤ 2 ^ 27) (h2 : 2 ≤ (new objSize slab mem).slotsPerSlab) :
    Sized (new objSize slab mem) := by
  have hsmall : objSize < objSizeThreshold := by
    -- The slab of a large object is less than twice its size.
    by_contra hge
    have hge' : objSizeThreshold ≤ objSize := not_lt.1 hge
    rw [slotsPerSlab, if_neg (show ¬ (new objSize slab mem).objSize < objSizeThreshold from hge),
      Nat.le_div_iff_mul_le (show 0 < (new objSize slab mem).objSize from by
        change 0 < objSize; omega)] at h2
    change 2 * objSize ≤ intShl (powLoop objSize 20 startPow) at h2
    simp only [objSizeThreshold] at hge'
    rcases powLoop_spec objSize 20 startPow with e | ⟨hlt, hpow⟩
    · rw [e] at h2
      norm_num [intShl, startPow] at h2
      omega
    generalize powLoop objSize 20 startPow = r at *
    have hr : r - 1 < 27 := by
      by_contra hr
      have h27 : 2 ^ 27 ≤ intShl (r - 1) := by
        rw [intShl]
        split_ifs
        · exact Nat.pow_le_pow_right two_pos (not_lt.1 hr)
        · norm_num
      omega
    obtain ⟨k, rfl⟩ : ∃ k, r = k + 1 := ⟨r - 1, by omega⟩
    rw [Nat.add_sub_cancel] at hpow hr
    rw [intShl, if_pos (by omega)] at hpow h2
    rw [pow_succ] at h2
    omega
  have hsize : (new objSize slab mem).slabSize = pageSize := by
    change intShl (powLoop objSize 20 startPow) = pageSize
    have : ¬ objSize > intShl startPow := by
      simp only [objSizeThreshold] at hsmall
      norm_num [intShl, startPow]
      omega
    rw [powLoop, if_neg this]
    rfl
  refine ⟨h4, hsize, ?_⟩
  rwa [slotsPerSlab, if_pos (show (new objSize slab mem).objSize < objSizeThreshold from hsmall),
    hsize] at h2

theorem lists_new {objSize : ℕ} {slab : ℕ → Slab} {mem : ℕ → UInt8}
    (h : Sized (new objSize slab mem)) : Lists (new objSize slab mem) ∅ [] [] [] := by
  refine ⟨h, ⟨?_, ?_, ?_, ?_, ?_⟩, ?_, ?_, ?_, ?_, ?_⟩ <;> simp [new]

/-! ## Runs -/

/-- The steps of a cache, with the objects handed out, allocating only in states
    which are `ok`: a call of `alloc` or `free`, or a write, to an object handed
    out or off the slabs. -/
inductive Step (ok : MemCache → Prop) : MemCache × Set ℕ → MemCache × Set ℕ → Prop
  | alloc {c c' : MemCache} {out : Set ℕ} {page header p : ℕ} : ok c → Fresh c page →
      c.alloc page header = (some p, c') → Step ok (c, out) (c', insert p out)
  | allocNull {c c' : MemCache} {out : Set ℕ} {page header : ℕ} : ok c → Fresh c page →
      c.alloc page header = (none, c') → Step ok (c, out) (c', out)
  | free {c c' : MemCache} {out : Set ℕ} {obj : ℕ} {r : ℤ} : obj ∈ out →
      c.free obj = some (r, c') → Step ok (c, out) (c', out \ {obj})
  | write {c : MemCache} {out : Set ℕ} {x : ℕ} {v : UInt8} :
      (∃ p ∈ out, p ≤ x ∧ x < p + c.objSize) ∨ (∀ a ∈ c.slabs, x < a ∨ a + pageSize ≤ x) →
      Step ok (c, out) ({ c with mem := update c.mem x v }, out)

/-- What is expected of a cache: its lists are lists, apart from each other, with
    exactly the slabs without a free slot in `m_full`; the next `alloc` returns an
    address which is not handed out, and every object can be given back. -/
structure Sound (c : MemCache) (out : Set ℕ) : Prop where
  lists : ∃ P F E, Chain c.next 0 c.partialHead P ∧ Chain c.next 0 c.fullHead F ∧
    Chain c.next 0 c.emptyHead E ∧ P.Disjoint F ∧ P.Disjoint E ∧ F.Disjoint E ∧
    ∀ a, a ∈ F ↔ a ∈ c.slabs ∧ (c.slab a).freeSlots = 0
  alloc : ∀ page header, Fresh c page → ∃ p c', c.alloc page header = (some p, c') ∧ p ≠ 0 ∧ p ∉ out
  free : ∀ obj ∈ out, ∃ c', c.free obj = some (0, c')

/-- Writing to an object handed out, or off the slabs. -/
theorem Lists.write (h : Lists c out P F E) {v : UInt8}
    (hx : (∃ p ∈ out, p ≤ x ∧ x < p + c.objSize) ∨ ∀ a ∈ c.slabs, x < a ∨ a + pageSize ≤ x) :
    Lists { c with mem := update c.mem x v } out P F E := by
  refine ⟨h.sized.congr rfl rfl, h.links.congr rfl rfl rfl rfl rfl, h.ne_full, h.full, h.empty,
    fun a ha => ?_, h.mem_out⟩
  obtain ⟨fs, hfs⟩ := h.slots a ha
  refine ⟨fs, hfs.ne_zero, hfs.aligned, hfs.start_eq, hfs.maxSlots_eq, ?_, hfs.length_eq, hfs.lt,
    hfs.mem_out⟩
  refine hfs.chain.congr fun j hj => loadLE_update ?_ v
  change x < c.slotAddr a j ∨ c.slotAddr a j + 4 ≤ x
  have hjm := hfs.slot_mem (hfs.lt j hj)
  have h4 := h.sized.four_le
  rcases hx with ⟨p, hp, h1, h₂⟩ | hx
  · obtain ⟨b, hb, i, hi, rfl⟩ := h.mem_out p hp
    obtain ⟨gs, hgs⟩ := h.slots b hb
    have him := hgs.slot_mem hi
    by_cases hba : b = a
    · -- In the same slab: the slot is not a free one.
      subst hba
      have hij : i ≠ j := fun e => (hfs.mem_out i hi).1 hp (e ▸ hj)
      rcases lt_or_gt_of_ne hij with hij | hij
      · have := Nat.mul_le_mul_right c.objSize hij
        rw [succ_mul] at this
        simp only [slotAddr] at *
        omega
      · have := h.sized.slot_le (a := b) hij
        omega
    · by_contra hno
      exact hba (page_inj (x := x) hgs.aligned hfs.aligned (by omega) (by omega) (by omega)
        (by omega))
  · rcases hx a ha with hx | hx <;> omega

/-- With no slab in `m_partial`, `alloc` takes a slot of the first one in `m_empty`,
    and makes what follows it in `m_empty` the rest of both lists. -/
theorem Lists.alloc_of_empty (h : Lists c out P F E) (page header : ℕ) (hp : c.partialHead = 0)
    (he : c.emptyHead ≠ 0) : ∃ p, p ≠ 0 ∧ p ∉ out ∧ c.alloc page header = (some p,
      ({ c with partialHead := c.emptyHead, emptyHead := c.next c.emptyHead } : MemCache).popSlot
        c.emptyHead) := by
  obtain ⟨E', rfl, -⟩ := h.links.emptyChain.exists_cons he
  have hcount := h.empty _ (.head _)
  have htwo := h.sized.two_le
  obtain ⟨fs, hfs⟩ := h.slots _ (h.links.mem_slabs.2 (.inr (.inr (.head _))))
  have hrefill : c.refill page header =
      { c with partialHead := c.emptyHead, emptyHead := c.next c.emptyHead } := by
    simp only [MemCache.refill, hp, he, if_true, if_false]
  set a := c.emptyHead
  set c' : MemCache := { c with partialHead := a, emptyHead := c.next a }
  have hfs' : Slots c' out a fs := hfs.frame h.sized rfl ⟨_, rfl⟩ (fun _ _ _ => rfl)
    fun _ _ _ => Iff.rfl
  obtain ⟨hget, hi, hnot, -⟩ :=
    hfs'.getSlot (h.sized.congr rfl rfl) (show (c.slab a).freeSlots ≠ 0 by omega)
  have := hfs'.slot_mem hi
  refine ⟨_, by omega, hnot, ?_⟩
  rw [MemCache.alloc, hrefill, MemCache.takeSlot, show c'.partialHead = a from rfl, hget]
  refine if_neg (show ((c'.popSlot a).slab a).freeSlots ≠ 0 from ?_)
  rw [popSlot_slab]
  change (c.slab a).freeSlots - 1 ≠ 0
  omega

/-- Whether the lists are settled or not, the next address is not handed out. -/
theorem Lists.alloc_fst (h : Lists c out P F E) (header : ℕ) (hu : Used c P) (hf : Fresh c page) :
    ∃ p, (c.alloc page header).1 = some p ∧ p ≠ 0 ∧ p ∉ out := by
  by_cases hs : Settled c
  · obtain ⟨a, P', E', h', hu'⟩ := h.refill header hu hs hf
    obtain ⟨p, c', -, -, he, hp, hout, -⟩ := h'.takeSlot hu'
    exact ⟨p, by rw [MemCache.alloc, he], hp, hout⟩
  · simp only [Settled, Classical.not_imp] at hs
    obtain ⟨p, hne, hout, he⟩ := h.alloc_of_empty page header hs.1 hs.2.1
    exact ⟨p, by rw [he], hne, hout⟩

theorem Lists.alloc (h : Lists c out P F E) (hu : Used c P) (hs : Settled c) (hf : Fresh c page) :
    ∃ p c' P' F' E', c.alloc page header = (some p, c') ∧ Lists c' (insert p out) P' F' E' ∧
      Used c' P' := by
  obtain ⟨a, P', E', h', hu'⟩ := h.refill header hu hs hf
  obtain ⟨p, c', P'', F', he, -, -, h'', hu''⟩ := h'.takeSlot hu'
  exact ⟨p, c', P'', F', E', he, h'', hu''⟩

theorem Lists.step {s s' : MemCache × Set ℕ} (h : Lists s.1 s.2 P F E) (hu : Used s.1 P)
    (hs : Step Settled s s') : ∃ P' F' E', Lists s'.1 s'.2 P' F' E' ∧ Used s'.1 P' := by
  cases hs with
  | alloc hok hf ha =>
    obtain ⟨p, c', P', F', E', he, h', hu'⟩ := h.alloc hu hok hf
    rw [ha] at he
    cases he
    exact ⟨P', F', E', h', hu'⟩
  | allocNull hok hf ha =>
    obtain ⟨p, c', P', F', E', he, -⟩ := h.alloc hu hok hf
    rw [ha] at he
    cases he
  | free hobj hf =>
    obtain ⟨c', P', F', E', he, h', hu'⟩ := h.free hu hobj
    rw [hf] at he
    cases he
    exact ⟨P', F', E', h', hu'⟩
  | write hx => exact ⟨P, F, E, h.write hx, hu⟩

theorem Lists.reachable {s0 s : MemCache × Set ℕ} (h : Lists s0.1 s0.2 P F E) (hu : Used s0.1 P)
    (hs : Relation.ReflTransGen (Step Settled) s0 s) :
    ∃ P F E, Lists s.1 s.2 P F E ∧ Used s.1 P := by
  induction hs with
  | refl => exact ⟨P, F, E, h, hu⟩
  | tail _ hst ih =>
    obtain ⟨P, F, E, h, hu⟩ := ih
    exact h.step hu hst

theorem Lists.sound (h : Lists c out P F E) (hu : Used c P) : Sound c out := by
  refine ⟨⟨P, F, E, h.links.partialChain, h.links.fullChain, h.links.emptyChain, h.links.disjoint.1,
    h.links.disjoint.2.1, h.links.disjoint.2.2, fun a => ⟨fun ha => ?_, fun ⟨ha, hz⟩ => ?_⟩⟩,
    fun page header hf => ?_, fun obj hobj => ?_⟩
  · exact ⟨h.links.mem_slabs.2 (.inr (.inl ha)), h.full a ha⟩
  · rcases h.links.mem_slabs.1 ha with hm | hm | hm
    · exact absurd hz (h.ne_full a hm)
    · exact hm
    · have := h.empty a hm
      have := h.sized.two_le
      omega
  · obtain ⟨p, hp, hne, hout⟩ := h.alloc_fst header hu hf
    exact ⟨p, _, Prod.ext hp rfl, hne, hout⟩
  · obtain ⟨c', -, -, -, hc', -⟩ := h.free hu hobj
    exact ⟨c', hc'⟩

/-- `m_partial` must not run on into `m_empty`. -/
theorem not_sound_of_shared (hp : c.partialHead ≠ 0) (he : c.emptyHead ≠ 0)
    (hn : c.next c.partialHead = c.emptyHead) : ¬ Sound c out := by
  rintro ⟨⟨P, F, E, hP, -, hE, -, hd, -⟩, -, -⟩
  obtain ⟨l, rfl, hl⟩ := hP.exists_cons hp
  obtain ⟨l', rfl, -⟩ := (hn ▸ hl).exists_cons he
  obtain ⟨l'', rfl, -⟩ := hE.exists_cons he
  exact hd (.tail _ (.head _)) (.head _)

/-- An allocation which finds no slab in `m_partial` and two in `m_empty` leaves
    the second one in both lists. -/
theorem Lists.not_sound (h : Lists c out P F E) (hs : ¬ Settled c) :
    ¬ Sound (c.alloc page header).2 (insert x out) := by
  simp only [Settled, Classical.not_imp] at hs
  obtain ⟨hp, he, hn⟩ := hs
  obtain ⟨p, -, -, halloc⟩ := h.alloc_of_empty page header hp he
  rw [halloc]
  exact not_sound_of_shared he hn (by rw [popSlot_next]; rfl)

/-- In every run of a cache which allocates in settled states only, the cache is
    sound, whatever the memory holds. -/
theorem reachable_sound {objSize : ℕ} (slab : ℕ → Slab) (mem : ℕ → UInt8) (h4 : 4 ≤ objSize)
    (hle : objSize ≤ 2 ^ 27) (h2 : 2 ≤ (new objSize slab mem).slotsPerSlab) {s : MemCache × Set ℕ}
    (hs : Relation.ReflTransGen (Step Settled) (new objSize slab mem, ∅) s) : Sound s.1 s.2 := by
  obtain ⟨P, F, E, h, hu⟩ := (lists_new (sized_new slab mem h4 hle h2)).reachable (by simp [Used]) hs
  exact h.sound hu

/-! ## A cache with two slots in a slab -/

/-- The cache after `obj` is given back. -/
def freed (c : MemCache) (obj : ℕ) : MemCache := ((c.free obj).map Prod.snd).getD c

theorem free_eq {r : ℤ} (h : (c.free obj).map Prod.fst = some r) :
    c.free obj = some (r, c.freed obj) := by
  obtain ⟨⟨r', c'⟩, he, rfl⟩ := Option.map_eq_some_iff.1 h
  rw [freed, he]
  rfl

/-- A cache of objects of 2028 bytes, in a memory full of zeros. -/
def twoSlots : MemCache := new 2028 (fun _ => ⟨0, 0, 0, 0, 0⟩) fun _ => 0

/-- A slab is filled. -/
def oneFull : MemCache := ((twoSlots.alloc 4096 0).2.alloc 8192 0).2

/-- Both objects are given back, and taken again. -/
def refilled : MemCache :=
  ((((oneFull.freed 4136).freed 6164).alloc 8192 0).2.alloc 8192 0).2

/-- A second slab is started, and all three objects are given back: both slabs are in `m_empty`. -/
def twoEmpty : MemCache := (((oneFull.alloc 8192 0).2.freed 4136).freed 6164).freed 8232

section

variable {ok ok' : MemCache → Prop} {s s' : MemCache × Set ℕ}

theorem Step.mono (hok : ∀ c, ok c → ok' c) (h : Step ok s s') : Step ok' s s' := by
  cases h with
  | alloc h hf ha => exact .alloc (hok _ h) hf ha
  | allocNull h hf ha => exact .allocNull (hok _ h) hf ha
  | free hobj hf => exact .free hobj hf
  | write hx => exact .write hx

theorem reaches_alloc (page p : ℕ) (hs : Relation.ReflTransGen (Step ok) s (c, out)) (hok : ok c)
    (hne : page ≠ 0) (hpage : page % pageSize = 0) (hslab : page ∉ c.slabs)
    (h : (c.alloc page 0).1 = some p) :
    Relation.ReflTransGen (Step ok) s ((c.alloc page 0).2, insert p out) :=
  hs.tail (.alloc hok ⟨hne, hpage, hslab⟩ (Prod.ext h rfl))

theorem reaches_freed (obj : ℕ) (hs : Relation.ReflTransGen (Step ok) s (c, out)) (hobj : obj ∈ out)
    (h : (c.free obj).map Prod.fst = some 0) :
    Relation.ReflTransGen (Step ok) s (c.freed obj, out \ {obj}) := hs.tail (.free hobj (free_eq h))

end

theorem reaches_oneFull :
    Relation.ReflTransGen (Step Settled) (twoSlots, ∅) (oneFull, insert 6164 (insert 4136 ∅)) := by
  refine reaches_alloc 8192 6164 (reaches_alloc 4096 4136 .refl ?_ ?_ ?_ ?_ ?_) ?_ ?_ ?_ ?_ ?_
  all_goals decide +kernel

/-- The slab is emptied, and filled again. -/
theorem sound_refilled : 2 ≤ twoSlots.slotsPerSlab ∧ refilled.fullHead = 4096 ∧
    ∃ out, Relation.ReflTransGen (Step Settled) (twoSlots, ∅) (refilled, out) ∧
      Sound refilled out := by
  have h2 : 2 ≤ twoSlots.slotsPerSlab := by decide +kernel
  have hrun : ∃ out, Relation.ReflTransGen (Step Settled) (twoSlots, ∅) (refilled, out) := by
    refine ⟨_, reaches_alloc 8192 4136 (reaches_alloc 8192 6164
      (reaches_freed 6164 (reaches_freed 4136 reaches_oneFull ?_ ?_) ?_ ?_) ?_ ?_ ?_ ?_ ?_)
      ?_ ?_ ?_ ?_ ?_⟩
    all_goals decide +kernel
  obtain ⟨out, hrun⟩ := hrun
  exact ⟨h2, by decide +kernel, out, hrun,
    reachable_sound _ _ (by norm_num) (by norm_num) h2 hrun⟩

/-- Two slabs are filled and emptied again. The next object comes from the second
    one, and leaves the first one in `m_partial` and in `m_empty`. -/
theorem shared_slab : 2 ≤ twoSlots.slotsPerSlab ∧
    ∃ s, Relation.ReflTransGen (Step fun _ => True) (twoSlots, ∅) s ∧ ¬ Sound s.1 s.2 := by
  have h2 : 2 ≤ twoSlots.slotsPerSlab := by decide +kernel
  have hrun : ∃ out, Relation.ReflTransGen (Step Settled) (twoSlots, ∅) (twoEmpty, out) := by
    refine ⟨_, reaches_freed 8232 (reaches_freed 6164 (reaches_freed 4136
      (reaches_alloc 8192 8232 reaches_oneFull ?_ ?_ ?_ ?_ ?_) ?_ ?_) ?_ ?_) ?_ ?_⟩
    all_goals decide +kernel
  obtain ⟨out, hrun⟩ := hrun
  obtain ⟨P, F, E, h, -⟩ := (lists_new (sized_new _ _ (by norm_num) (by norm_num) h2)).reachable
    (by simp [Used]) hrun
  have hnot : ¬ Settled twoEmpty := by decide +kernel
  have hslab : 12288 ∉ twoEmpty.slabs := by decide +kernel
  have halloc : (twoEmpty.alloc 12288 0).1 = some 8232 := by decide +kernel
  have hrun' := hrun.lift id fun _ _ => Step.mono fun _ _ => trivial
  exact ⟨h2, _, reaches_alloc 12288 8232 hrun' trivial (by decide) (by decide) hslab halloc,
    h.not_sound hnot⟩

end HobbyOS.MemCache
