import HobbyOS.Disk

/-!
# The block cache is coherent

A disk behaves as a memory of sectors (`sectorStep`): what is read is what was written last,
and after `BlockCache::flush` the device holds it. This is so as long as a block which is
evicted is clean (`EvictsClean`); in particular if no block is evicted at all
(`run_coherent`). If the block is dirty then the call hangs (`evict_dirty_hangs`).

The relation between the disk and the memory it stands for is `Coherent`: a block in the
cache has the data of its sector, and so has the device, except where there is a dirty block.
-/

namespace HobbyOS

open Function List Option

variable {D : Type*} {l : List (CachedBlock D)} {sector : ℕ} {b : CachedBlock D}

/-! ## `LRUCache` -/

theorem mem_of_findBlock (h : findBlock sector l = some b) : b ∈ l ∧ b.sectorNum = sector :=
  ⟨mem_of_find?_eq_some h, by simpa using List.find?_some h⟩

theorem findBlock_eq_none : findBlock sector l = none ↔ ∀ b ∈ l, b.sectorNum ≠ sector := by
  simp [findBlock]

/-- A block which is used keeps its data, and the others keep their order. -/
theorem moveFront_perm (sector : ℕ) (l : List (CachedBlock D)) : (moveFront sector l).Perm l := by
  unfold moveFront
  split
  · exact .refl l
  next b hb =>
    unfold findBlock at hb
    induction l with
    | nil => cases hb
    | cons c l ih =>
      by_cases hc : c.sectorNum = sector
      · simp only [List.find?_cons, hc, decide_true] at hb
        cases hb
        simp [hc]
      · simp only [List.find?_cons, hc, decide_false] at hb
        simp only [eraseP_cons, hc, decide_false, cond_false]
        exact (List.Perm.swap ..).trans ((ih hb).cons c)

theorem map_overwrite (sector : ℕ) (data : D) (dirty : Bool) (l : List (CachedBlock D)) :
    (overwrite sector data dirty l).map CachedBlock.sectorNum = l.map CachedBlock.sectorNum := by
  unfold overwrite
  rw [List.map_map]
  refine map_congr_left fun b _ => ?_
  dsimp only [comp]
  split
  next h => exact h.symm
  · rfl

/-- The blocks after one of them was overwritten. -/
theorem mem_overwrite {data : D} {dirty : Bool} : b ∈ overwrite sector data dirty l ↔
    (b ∈ l ∧ b.sectorNum ≠ sector) ∨
      ∃ c ∈ l, c.sectorNum = sector ∧ b = ⟨sector, data, c.dirty || dirty⟩ := by
  unfold overwrite
  rw [List.mem_map]
  constructor
  · rintro ⟨c, hc, rfl⟩
    split_ifs with h
    · exact .inr ⟨c, hc, h, rfl⟩
    · exact .inl ⟨hc, h⟩
  · rintro (⟨hb, hne⟩ | ⟨c, hc, h, rfl⟩)
    · exact ⟨b, hb, if_neg hne⟩
    · exact ⟨c, hc, if_pos h⟩

/-! ## The disk and the memory it stands for -/

namespace Disk

variable {s s' : Disk D} {content : ℕ → D}

/-- The blocks of a cache, and the device, hold the contents of the sectors; the device need not
    where a block is dirty. -/
structure Holds (l : List (CachedBlock D)) (device content : ℕ → D) : Prop where
  nodup : (l.map CachedBlock.sectorNum).Nodup
  data : ∀ b ∈ l, b.data = content b.sectorNum
  device : ∀ sector, (∀ b ∈ l, b.sectorNum = sector → b.dirty = false) →
    device sector = content sector

/-- The disk holds the contents, and nobody is in the cache. -/
structure Coherent (s : Disk D) (content : ℕ → D) : Prop where
  unlocked : s.locked = false
  notFlushing : s.flushing = false
  holds : Holds s.blocks s.device content

variable {device : ℕ → D}

variable (h : Holds l device content)

include h

theorem Holds.perm {l' : List (CachedBlock D)} (hp : l'.Perm l) : Holds l' device content :=
  ⟨(hp.map _).nodup_iff.2 h.nodup, fun b hb => h.data b (hp.mem_iff.1 hb),
    fun sector hs => h.device sector fun b hb => hs b (hp.mem_iff.2 hb)⟩

/-- A sector which is not in the cache is on the device. -/
theorem Holds.device_of_miss (hf : findBlock sector l = none) : device sector = content sector :=
  h.device sector fun b hb he => absurd he (findBlock_eq_none.1 hf b hb)

/-- The last block is removed, if it is clean. -/
theorem Holds.dropLast (hb : l.getLast? = some b)
    (hd : b.dirty = false) : Holds l.dropLast device content := by
  have hl : l.dropLast ++ [b] = l := dropLast_append_getLast? b hb
  have hsub : l.dropLast.Sublist l := dropLast_sublist l
  refine ⟨h.nodup.sublist (hsub.map _), fun c hc => h.data c (hsub.subset hc), fun sector hs => ?_⟩
  refine h.device sector fun c hc he => ?_
  rw [← hl] at hc
  rcases mem_append.1 hc with hc | hc
  · exact hs c hc he
  · rwa [mem_singleton.1 hc]

/-- A block with the contents of the device is added. -/
theorem Holds.cons {data : D} (hf : findBlock sector l = none)
    (hd : data = content sector) : Holds (⟨sector, data, false⟩ :: l) device content := by
  refine ⟨?_, fun b hb => ?_, fun sec hs => h.device sec fun b hb => hs b (.tail _ hb)⟩
  · rw [map_cons, nodup_cons]
    refine ⟨fun hm => ?_, h.nodup⟩
    obtain ⟨b, hb, he⟩ := List.mem_map.1 hm
    exact findBlock_eq_none.1 hf b hb he
  · rcases mem_cons.1 hb with rfl | hb
    · exact hd
    · exact h.data b hb

/-- A block is overwritten, and dirty then. -/
theorem Holds.overwrite {data : D} (hf : (findBlock sector l).isSome) :
    Holds (overwrite sector data true l) device (update content sector data) := by
  obtain ⟨b0, hb0⟩ := isSome_iff_exists.1 hf
  obtain ⟨hm0, he0⟩ := mem_of_findBlock hb0
  refine ⟨by rw [map_overwrite]; exact h.nodup, fun b hb => ?_, fun sec hs => ?_⟩
  · rcases mem_overwrite.1 hb with ⟨hb, hne⟩ | ⟨c, -, -, rfl⟩
    · rw [update_of_ne hne]
      exact h.data b hb
    · rw [update_self]
  · by_cases hsec : sec = sector
    · subst hsec
      have := hs ⟨sec, data, b0.dirty || true⟩ (mem_overwrite.2 (.inr ⟨b0, hm0, he0, rfl⟩)) rfl
      simp at this
    · rw [update_of_ne hsec]
      refine h.device sec fun b hb he => hs b (mem_overwrite.2 (.inl ⟨hb, ?_⟩)) he
      rwa [he]

/-- A sector which is not in the cache is written on the device. -/
theorem Holds.write {data : D} (hf : findBlock sector l = none) :
    Holds l (update device sector data) (update content sector data) := by
  refine ⟨h.nodup, fun b hb => ?_, fun sec hs => ?_⟩
  · rw [update_of_ne (findBlock_eq_none.1 hf b hb)]
    exact h.data b hb
  · by_cases hsec : sec = sector
    · subst hsec
      rw [update_self, update_self]
    · rw [update_of_ne hsec, update_of_ne hsec]
      exact h.device sec hs

omit h

/-! ## Calls -/

/-- The block which a call evicts, if it does, is clean. -/
def EvictsClean (s : Disk D) (sector : ℕ) : Prop :=
  findBlock sector s.blocks = none → defaultCapacity ≤ s.blocks.length →
    ∀ b ∈ s.blocks.getLast?, b.dirty = false

/-- No call evicts a dirty block. -/
def Evicting (s : Disk D) : DiskCall D → Prop
  | .read sector => s.EvictsClean sector
  | .write sector _ => s.EvictsClean sector
  | .flush => True

/-- The sectors in the cache are among these. -/
def Within (s : Disk D) (seen : Finset ℕ) : Prop := ∀ b ∈ s.blocks, b.sectorNum ∈ seen

variable {data : D} {seen : Finset ℕ} {n : ℕ}

/-- Whether or not a block is evicted, there is room then. -/
theorem makeRoom_spec (write : Disk D → ℕ → D → Option (Disk D))
    (h : Holds s.blocks s.device content) (hf : findBlock sector s.blocks = none) (hc : s.EvictsClean sector) :
    ∃ s', s.makeRoom write = some s' ∧ s'.device = s.device ∧
      s'.flushing = s.flushing ∧ Holds s'.blocks s.device content ∧ s'.blocks ⊆ s.blocks := by
  unfold makeRoom
  split_ifs with hlt
  · exact ⟨s, rfl, rfl, rfl, h, List.Subset.refl _⟩
  split
  · exact ⟨s, rfl, rfl, rfl, h, List.Subset.refl _⟩
  next b hb =>
    have hd := hc hf (Nat.le_of_not_lt hlt) b hb
    exact ⟨{ s with cache := some s.blocks.dropLast }, by simp [freeCachedBlock, hd], rfl,
      rfl, h.dropLast hb hd, (dropLast_sublist _).subset⟩

/-- A sector which is not in the cache is put into it. -/
theorem insert_spec (write : Disk D → ℕ → D → Option (Disk D)) (h : s.Coherent content)
    (hf : findBlock sector s.blocks = none) (hc : s.EvictsClean sector)
    (hd : data = content sector) : ∃ s', s.insert write sector data = some s' ∧
      s'.Coherent content ∧ ∀ seen, s.Within seen → s'.Within (Insert.insert sector seen) := by
  obtain ⟨s1, hs1, hdev, hfl, hholds, hsub⟩ := makeRoom_spec
    (s := { s with locked := true }) write h.holds hf hc
  have hf1 : findBlock sector s1.blocks = none :=
    findBlock_eq_none.2 fun c hc => findBlock_eq_none.1 hf c (hsub hc)
  refine ⟨{ s1 with cache := some (⟨sector, data, false⟩ :: s1.blocks) }.release, ?_,
    ⟨rfl, hfl.trans h.notFlushing, ?_⟩, fun seen hseen b hb => ?_⟩
  · unfold insert acquire
    rw [if_neg (by simp [h.notFlushing]), if_neg (by simp [h.unlocked])]
    dsimp only [bind_some]
    rw [if_neg]
    · rw [hs1]
      rfl
    · show ¬ (findBlock sector s.blocks).isSome
      simp [hf]
  · rw [hdev]
    exact hholds.cons hf1 hd
  · rcases mem_cons.1 hb with rfl | hb
    · exact Finset.mem_insert_self ..
    · exact Finset.mem_insert_of_mem (hseen b (hsub hb))

/-- `BlockCache::lookup` changes the order of the blocks only. -/
theorem blocks_moveFront (s : Disk D) (sector : ℕ) :
    blocks { s with cache := s.cache.map (moveFront sector) } = moveFront sector s.blocks := by
  unfold blocks
  cases s.cache <;> rfl

theorem lookup_spec (h : s.Coherent content) (sector : ℕ) :
    ∃ s', s.lookup sector = some (s', (findBlock sector s.blocks).map CachedBlock.data) ∧
      s'.Coherent content ∧ s'.device = s.device ∧ s'.blocks = moveFront sector s.blocks ∧
      s'.cache = s.cache.map (moveFront sector) := by
  have hblocks := s.blocks_moveFront sector
  refine ⟨{ s with cache := s.cache.map (moveFront sector) }, ?_, ⟨h.unlocked, h.notFlushing, ?_⟩, rfl,
    hblocks, rfl⟩
  · unfold lookup acquire
    rw [if_neg (by simp [h.unlocked])]
    simp only [map_some, release, ← h.unlocked]
    rfl
  · rw [hblocks]
    exact h.holds.perm (moveFront_perm sector _)

theorem findBlock_moveFront (sector : ℕ) (l : List (CachedBlock D)) :
    (findBlock sector (moveFront sector l)).isSome = (findBlock sector l).isSome := by
  have hperm := moveFront_perm sector l
  rw [Bool.eq_iff_iff, ← not_iff_not, Bool.not_eq_true, Bool.not_eq_true, isSome_eq_false_iff,
    isSome_eq_false_iff, isNone_iff_eq_none, isNone_iff_eq_none,
    findBlock_eq_none, findBlock_eq_none]
  simp only [hperm.mem_iff]

/-- A miss changes nothing. -/
theorem evictsClean_of_miss (hf : findBlock sector s.blocks = none)
    (hb : s'.blocks = moveFront sector s.blocks) : s'.EvictsClean sector ↔ s.EvictsClean sector := by
  have hsame : s'.blocks = s.blocks := by
    rw [hb, moveFront, hf]
  unfold EvictsClean
  rw [hsame]

theorem Within.moveFront (h : s.Within seen) (hb : s'.blocks = moveFront sector s.blocks) :
    s'.Within seen := by
  intro b hm
  rw [hb] at hm
  exact h b ((moveFront_perm sector _).mem_iff.1 hm)

theorem read_spec (h : s.Coherent content) (hc : s.EvictsClean sector) :
    ∃ s', s.read sector = some (s', content sector) ∧ s'.Coherent content ∧
      ∀ seen, s.Within seen → s'.Within (Insert.insert sector seen) := by
  obtain ⟨s1, hs1, h1, hdev, hb, -⟩ := lookup_spec h sector
  unfold read
  rw [hs1, bind_some]
  cases hf : findBlock sector s.blocks with
  | some b =>
    obtain ⟨hm, he⟩ := mem_of_findBlock hf
    refine ⟨s1, ?_, h1, fun seen hseen b hb' => Finset.mem_insert_of_mem (hseen.moveFront hb b hb')⟩
    simp [h.holds.data b hm, he]
  | none =>
    have hf1 : findBlock sector s1.blocks = none := by
      rwa [hb, moveFront, hf]
    have hcontent := h1.holds.device_of_miss hf1
    obtain ⟨s2, hs2, h2, hw⟩ := insert_spec (forceWrite depth) h1 hf1 ((evictsClean_of_miss hf hb).2 hc) hcontent
    refine ⟨s2, ?_, h2, fun seen hseen => hw seen (hseen.moveFront hb)⟩
    dsimp only [map_none]
    rw [hs2, map_some, hcontent]

theorem write_spec (h : s.Coherent content) (hc : s.EvictsClean sector) (data : D) :
    ∃ s', s.write sector data = some s' ∧ s'.Coherent (update content sector data) ∧
      ∀ seen, s.Within seen → s'.Within (Insert.insert sector seen) := by
  obtain ⟨s1, hs1, h1, hdev, hb, hcache⟩ := lookup_spec h sector
  unfold write
  rw [hs1, bind_some]
  cases hf : findBlock sector s.blocks with
  | some b =>
    have hblocks : blocks { s1 with cache := s1.cache.map (overwrite sector data true) } =
        overwrite sector data true s1.blocks := by
      unfold blocks
      cases s1.cache <;> rfl
    refine ⟨{ s1 with cache := s1.cache.map (overwrite sector data true) }, rfl,
      ⟨h1.unlocked, h1.notFlushing, ?_⟩, fun seen hseen b hb' => ?_⟩
    · rw [hblocks]
      refine h1.holds.overwrite ?_
      rw [hb, findBlock_moveFront, hf]
      rfl
    · rw [hblocks] at hb'
      have hmem : b.sectorNum ∈ (overwrite sector data true s1.blocks).map CachedBlock.sectorNum :=
        List.mem_map_of_mem hb'
      rw [map_overwrite] at hmem
      obtain ⟨c, hc', he⟩ := List.mem_map.1 hmem
      rw [← he]
      exact Finset.mem_insert_of_mem (hseen.moveFront hb c hc')
  | none =>
    have hf1 : findBlock sector s1.blocks = none := by
      rwa [hb, moveFront, hf]
    have h2 : Coherent { s1 with device := update s1.device sector data }
        (update content sector data) :=
      ⟨h1.unlocked, h1.notFlushing, h1.holds.write hf1⟩
    obtain ⟨s2, hs2, h3, hw⟩ := insert_spec (forceWrite 1) h2 hf1 ((evictsClean_of_miss hf hb).2 hc)
      (by rw [update_self] : data = update content sector data sector)
    exact ⟨s2, hs2, h3, fun seen hseen => hw seen (hseen.moveFront hb)⟩

/-- The dirty blocks are written to the device. -/
theorem flushBlocks_spec (hfl : s.flushing = true) (h : Holds l s.device content) :
    flushBlocks l s = some { s with device := content } := by
  induction l generalizing s with
  | nil =>
    have hdev : s.device = content := funext fun sector => h.device sector nofun
    rw [← hdev]
    rfl
  | cons b l ih =>
    obtain ⟨hnot, hnd⟩ := nodup_cons.1 h.nodup
    have hdata : ∀ c ∈ l, c.data = content c.sectorNum :=
      fun c hc => h.data c (.tail _ hc)
    unfold flushBlocks freeCachedBlock
    split
    next hd =>
      have hrest : Holds l (update s.device b.sectorNum b.data) content := by
        refine ⟨hnd, hdata, fun sector hs => ?_⟩
        by_cases he : sector = b.sectorNum
        · rw [he, update_self, h.data b (.head _)]
        rw [update_of_ne he]
        refine h.device sector fun c hc => ?_
        rcases mem_cons.1 hc with rfl | hc
        · exact fun hcs => absurd hcs.symm he
        · exact hs c hc
      have hwrite : forceWrite depth s b.sectorNum b.data =
          some { s with device := update s.device b.sectorNum b.data } := by
        simp [depth, forceWrite, insert, hfl]
      rw [hwrite, bind_some]
      exact ih hfl hrest
    next hd =>
      refine ih hfl ⟨hnd, hdata, fun sector hs => h.device sector fun c hc he => ?_⟩
      rcases mem_cons.1 hc with rfl | hc
      · simpa using hd
      · exact hs c hc he

/-- After `BlockCache::flush` the device holds the contents, and the cache is empty. -/
theorem flush_spec (h : s.Coherent content) : s.flush = some (start content) := by
  unfold flush acquire
  rw [if_neg (by simp [h.unlocked]), bind_some]
  cases hcache : s.cache with
  | none =>
    have hdev : s.device = content :=
      funext fun sector => h.holds.device sector (by simp [blocks, hcache])
    rw [hdev, h.notFlushing]
    rfl
  | some l =>
    have hl : Holds l s.device content := by
      have := h.holds
      rwa [blocks, hcache] at this
    have hflush := flushBlocks_spec
      (s := { s with locked := true, flushing := true, cache := some l }) rfl hl
    dsimp only at hflush ⊢
    rw [hflush]
    rfl

theorem start_coherent (device : ℕ → D) : (start device).Coherent device :=
  ⟨rfl, rfl, .nil, nofun, fun _ _ => rfl⟩

/-- What is touched by a call, given what was touched since the cache was empty. -/
def touch (seen : Finset ℕ) : DiskCall D → Finset ℕ
  | .read sector => Insert.insert sector seen
  | .write sector _ => Insert.insert sector seen
  | .flush => ∅

/-- A call which evicts no dirty block gives what the memory gives. -/
theorem Coherent.step (h : s.Coherent content) (c : DiskCall D) (hc : s.Evicting c) :
    ∃ s' content' o, s.step c = some (s', o) ∧ sectorStep content c = some (content', o) ∧
      s'.Coherent content' ∧ ∀ seen, s.Within seen → s'.Within (touch seen c) := by
  cases c with
  | read sector =>
    obtain ⟨s', hs', h', hw⟩ := read_spec h hc
    exact ⟨s', content, _, by rw [Disk.step, hs']; rfl, rfl, h', hw⟩
  | write sector buf =>
    obtain ⟨s', hs', h', hw⟩ := write_spec h hc buf
    exact ⟨s', _, _, by rw [Disk.step, hs']; rfl, rfl, h', hw⟩
  | flush =>
    exact ⟨_, content, _, by rw [Disk.step, flush_spec h]; rfl, rfl, start_coherent content, fun _ _ => nofun⟩

/-! ## Without eviction -/

/-- At most as many sectors are touched between two flushes as the cache has room for. -/
def Fits : Finset ℕ → List (DiskCall D) → Prop
  | _, [] => True
  | seen, c :: cs => (touch seen c).card ≤ defaultCapacity ∧ Fits (touch seen c) cs

instance decidableFits : (seen : Finset ℕ) → (cs : List (DiskCall D)) → Decidable (Fits seen cs)
  | _, [] => isTrue trivial
  | seen, c :: cs =>
    have := decidableFits (touch seen c) cs
    inferInstanceAs (Decidable (_ ∧ _))

/-- A cache which is full has as many sectors as it has room for. -/
theorem Coherent.evictsClean (h : s.Coherent content) (hw : s.Within seen)
    (hcard : (Insert.insert sector seen).card ≤ defaultCapacity) : s.EvictsClean sector := by
  intro hf hlen
  have hnot : sector ∉ (s.blocks.map CachedBlock.sectorNum).toFinset := fun hm => by
    obtain ⟨b, hb, he⟩ := List.mem_map.1 (List.mem_toFinset.1 hm)
    exact findBlock_eq_none.1 hf b hb he
  have hsub : Insert.insert sector (s.blocks.map CachedBlock.sectorNum).toFinset ⊆
      Insert.insert sector seen := by
    refine Finset.insert_subset_insert _ fun x hx => ?_
    obtain ⟨b, hb, rfl⟩ := List.mem_map.1 (List.mem_toFinset.1 hx)
    exact hw b hb
  have hle := Finset.card_le_card hsub
  rw [Finset.card_insert_of_notMem hnot, toFinset_card_of_nodup h.holds.nodup, length_map] at hle
  omega

theorem Fits.allowed {cs : List (DiskCall D)} (hcs : Fits seen cs) (h : s.Coherent content)
    (hw : s.Within seen) : Allowed Disk.step Evicting s cs := by
  induction cs generalizing s content seen with
  | nil => trivial
  | cons c cs ih =>
    have hc : s.Evicting c := by
      cases c with
      | read | write => exact h.evictsClean hw hcs.1
      | flush => trivial
    refine ⟨hc, fun s' o hs' => ?_⟩
    obtain ⟨s1, content', o', hs1, -, h1, hw1⟩ := h.step c hc
    rw [hs1] at hs'
    cases hs'
    exact ih hcs.2 h1 (hw1 seen hw)

theorem runs_coherent {device : ℕ → D} {cs : List (DiskCall D)}
    (hcs : Allowed Disk.step Evicting (start device) cs) :
    ∃ s content os, runs Disk.step (start device) cs = some (s, os) ∧
      runs sectorStep device cs = some (content, os) ∧ s.Coherent content :=
  hcs.runs (fun s content c h hc => by
    obtain ⟨s', content', o, hs', hcontent, h', -⟩ := h.step c hc
    exact ⟨s', content', o, hs', hcontent, h'⟩) (start_coherent device)

/-- In every run which touches no more sectors between two flushes than the cache has room for,
    what is read is what was written last, or what was on the device in the beginning, and
    `BlockCache::flush` leaves just this on the device. -/
theorem run_coherent (device : ℕ → D) (cs : List (DiskCall D)) (hcs : Fits ∅ cs) :
    ∃ s content os, runs Disk.step (start device) cs = some (s, os) ∧
      runs sectorStep device cs = some (content, os) ∧ s.flush = some (start content) := by
  obtain ⟨s, content, os, hs, hcontent, h⟩ :=
    runs_coherent (hcs.allowed (start_coherent device) nofun)
  exact ⟨s, content, os, hs, hcontent, flush_spec h⟩

/-- A sector is written twice and read, before and after a flush. -/
theorem run_coherent_twice : ∃ s os,
    runs Disk.step (start fun n => n) [.write 3 10, .write 3 11, .read 3, .flush, .read 3] = some (s, os) ∧
      os = [none, none, some 11, none, some 11] := by
  obtain ⟨s, content, os, hs, hcontent, -⟩ := run_coherent (fun n => n)
    [.write 3 10, .write 3 11, .read 3, .flush, .read 3] (by decide)
  refine ⟨s, os, hs, ?_⟩
  have hos : (runs sectorStep (fun n => n) [.write 3 10, .write 3 11, .read 3, .flush, .read 3]).map
      Prod.snd = some [none, none, some 11, none, some 11] := by decide
  rw [hcontent] at hos
  exact Option.some.inj hos

/-! ## Eviction -/

/-- A write to the device which is made while the lock of the cache is held hangs. -/
theorem forceWrite_locked (n : ℕ) (hl : s.locked = true) (hf : s.flushing = false) :
    forceWrite n s sector data = none := by
  cases n with
  | zero => rfl
  | succ n => simp [forceWrite, insert, acquire, hl, hf]

/-- A dirty block cannot be evicted. -/
theorem insert_dirty (n : ℕ) (h : s.Coherent content) (hc : ¬ s.EvictsClean sector) :
    s.insert (forceWrite n) sector data = none := by
  unfold EvictsClean at hc
  push Not at hc
  obtain ⟨hf, hlen, b, hb, hd⟩ := hc
  have hroom : makeRoom { s with locked := true } (forceWrite n) = none := by
    unfold makeRoom
    have hblocks : blocks { s with locked := true } = s.blocks := rfl
    rw [hblocks, if_neg (Nat.not_lt.2 hlen), mem_def.1 hb]
    dsimp only [freeCachedBlock]
    rw [if_pos (by simpa using hd),
      forceWrite_locked (s := { s with locked := true }) n rfl h.notFlushing]
    rfl
  unfold insert acquire
  rw [if_neg (by simp [h.notFlushing]), if_neg (by simp [h.unlocked]), bind_some, hroom]
  have hblocks : blocks { s with locked := true } = s.blocks := rfl
  rw [hblocks, hf]
  rfl

/-- A call hangs if it evicts a dirty block. -/
theorem step_dirty (h : s.Coherent content) (c : DiskCall D) (hc : ¬ s.Evicting c) :
    s.step c = none := by
  cases c with
  | read sector =>
    obtain ⟨s1, hs1, h1, -, hb, -⟩ := lookup_spec h sector
    have hf : findBlock sector s.blocks = none := (Classical.not_imp.1 hc).1
    have hinsert : s1.insert (forceWrite depth) sector (s1.device sector) = none :=
      insert_dirty depth h1 fun hc1 => hc ((evictsClean_of_miss hf hb).1 hc1)
    rw [Disk.step, read, hs1, bind_some, hf]
    rw [hinsert]
    rfl
  | write sector buf =>
    obtain ⟨s1, hs1, h1, -, hb, -⟩ := lookup_spec h sector
    have hf : findBlock sector s.blocks = none := (Classical.not_imp.1 hc).1
    have hf1 : findBlock sector s1.blocks = none := by
      rwa [hb, moveFront, hf]
    have h2 : Coherent { s1 with device := update s1.device sector buf }
        (update content sector buf) :=
      ⟨h1.unlocked, h1.notFlushing, h1.holds.write hf1⟩
    have hwrite : forceWrite depth s1 sector buf = none :=
      insert_dirty 1 h2 fun hc1 => hc ((evictsClean_of_miss hf hb).1 hc1)
    rw [Disk.step, write, hs1, bind_some, hf]
    rw [hwrite]
    rfl
  | flush => exact absurd trivial hc

/-- No call of a run acquires the lock of the cache while it holds it if and only if each block
    that is evicted is clean. Then what is read is what was written last, and what is not in the
    cache is on the device. -/
theorem run_evicting (device : ℕ → D) (cs : List (DiskCall D)) :
    Allowed Disk.step Evicting (start device) cs ↔
      ∃ s content os, runs Disk.step (start device) cs = some (s, os) ∧
        runs sectorStep device cs = some (content, os) ∧
        (∀ b ∈ s.blocks, b.data = content b.sectorNum) ∧
        ∀ sector, findBlock sector s.blocks = none → s.device sector = content sector := by
  constructor
  · intro hcs
    obtain ⟨s, content, os, hs, hcontent, h⟩ := runs_coherent hcs
    exact ⟨s, content, os, hs, hcontent, h.holds.data, fun sector hf => h.holds.device_of_miss hf⟩
  rintro ⟨s, content, os, hs, -⟩
  suffices hall : ∀ (cs : List (DiskCall D)) (s0 : Disk D) (content : ℕ → D) os,
      s0.Coherent content → runs Disk.step s0 cs = some (s, os) → Allowed Disk.step Evicting s0 cs from
    hall cs _ device os (start_coherent device) hs
  intro cs
  induction cs with
  | nil => exact fun _ _ _ _ _ => trivial
  | cons c cs ih =>
    intro s0 content os h hs
    obtain ⟨s1, o, os', hs1, hr, -⟩ := exists_of_runs_cons hs
    have hc : s0.Evicting c := by
      by_contra hc
      rw [step_dirty h c hc] at hs1
      cases hs1
    refine ⟨hc, fun s' o' hs' => ?_⟩
    rw [hs1] at hs'
    cases hs'
    obtain ⟨s2, content', o'', hs2, -, h2, -⟩ := h.step c hc
    rw [hs1] at hs2
    cases hs2
    exact ih s1 content' os' h2 hr

/-- No block in the cache is dirty. -/
def Clean (s : Disk D) : Prop := ∀ b ∈ s.blocks, b.dirty = false

theorem Clean.insert {s' : Disk D} {write : Disk D → ℕ → D → Option (Disk D)} (h : s.Clean)
    (hf : findBlock sector s.blocks = none) (hs : s.insert write sector data = some s') :
    s'.Clean := by
  unfold Disk.insert at hs
  split_ifs at hs
  · cases hs
    exact h
  obtain ⟨s1, hs1, hs⟩ := bind_eq_some_iff.1 hs
  unfold acquire at hs1
  split_ifs at hs1
  cases hs1
  have hf' : findBlock sector { s with locked := true }.blocks = none := hf
  rw [hf', if_neg nofun] at hs
  obtain ⟨s2, hs2, rfl⟩ := map_eq_some_iff.1 hs
  have h2 : s2.Clean := by
    unfold makeRoom at hs2
    split_ifs at hs2
    · cases hs2
      exact h
    split at hs2
    · cases hs2
      exact h
    next b hb =>
      rw [freeCachedBlock, if_neg (by rw [h b (mem_of_getLast? hb)]; nofun)] at hs2
      cases hs2
      exact fun c hc => h c (mem_of_mem_dropLast hc)
  intro b hb
  rcases mem_cons.1 hb with rfl | hb
  · rfl
  · exact h2 b hb

/-- What is read is put into the cache, and is not dirty. -/
theorem Clean.read {s' : Disk D} (h : s.Clean) (hs : s.read sector = some (s', data)) : s'.Clean := by
  obtain ⟨⟨s1, d⟩, hl, hs⟩ := bind_eq_some_iff.1 hs
  obtain ⟨s0, hs0, he⟩ := map_eq_some_iff.1 hl
  unfold acquire at hs0
  split_ifs at hs0
  cases hs0
  cases he
  have hb := s.blocks_moveFront sector
  have h1 : Clean { s with cache := s.cache.map (moveFront sector), locked := false } :=
    fun b hm => h b ((moveFront_perm sector _).mem_iff.1 (hb ▸ hm))
  split at hs
  · cases hs
    exact h1
  next hnone =>
    have hf : findBlock sector s.blocks = none := map_eq_none_iff.1 hnone
    obtain ⟨s2, hs2, he⟩ := map_eq_some_iff.1 hs
    cases he
    refine h1.insert (?_ : findBlock sector (blocks { s with cache := _ }) = none) hs2
    rw [hb, moveFront, hf]
    exact hf

/-- Reading evicts no dirty block if there are none. -/
theorem Clean.allowed (h : s.Clean) (sectors : List ℕ) :
    Allowed Disk.step Evicting s (sectors.map .read) := by
  induction sectors generalizing s with
  | nil => trivial
  | cons sector sectors ih =>
    refine ⟨fun _ _ b hb => h b (mem_of_getLast? hb), fun s' o hs => ih ?_⟩
    obtain ⟨⟨s1, data⟩, hs1, he⟩ := map_eq_some_iff.1 hs
    cases he
    exact h.read hs1

/-- A sector is written, 1024 others are read, so that it is evicted, and it is read again. -/
def evicting : List (DiskCall ℕ) := .write 0 10 :: (List.range' 1 1024 ++ [0]).map .read

theorem run_evicting_written : ∃ s os,
    runs Disk.step (start fun n => n) evicting = some (s, os) ∧ os.getLast? = some (some 10) := by
  have hallowed : Allowed Disk.step Evicting (start fun n => n) evicting := by
    refine ⟨fun _ hlen => absurd hlen (by decide), fun s o hs => Clean.allowed ?_ _⟩
    cases hs
    change ∀ b ∈ [(⟨0, 10, false⟩ : CachedBlock ℕ)], _
    simp
  obtain ⟨s, content, os, hs, hcontent, -⟩ := (run_evicting _ _).1 hallowed
  have hos : (runs sectorStep (fun n => n) evicting).map (fun r => r.2.getLast?) =
      some (some (some 10)) := by decide +kernel
  rw [hcontent] at hos
  exact ⟨s, os, hs, Option.some.inj hos⟩

/-- The cache has the sectors `0, …, n`, of which `0` was used least recently, and is dirty. -/
structure Filled (n : ℕ) (s : Disk ℕ) : Prop where
  unlocked : s.locked = false
  notFlushing : s.flushing = false
  length : s.blocks.length = n + 1
  last : s.blocks.getLast? = some ⟨0, 2, true⟩
  le : ∀ b ∈ s.blocks, b.sectorNum ≤ n

theorem Filled.miss {s : Disk ℕ} (h : s.Filled n) : findBlock (n + 1) s.blocks = none :=
  findBlock_eq_none.2 fun b hb => by
    have := h.le b hb
    omega

/-- The next sector is read. -/
theorem Filled.read {s : Disk ℕ} (h : s.Filled n) (hn : n + 1 < defaultCapacity) :
    ∃ s' o, s.step (.read (n + 1)) = some (s', o) ∧ s'.Filled (n + 1) := by
  have hmiss := h.miss
  obtain ⟨device, cache, locked, flushing⟩ := s
  obtain ⟨rfl, rfl, hlen, hlast, hle⟩ := h
  simp only [blocks] at hmiss hlen hlast hle
  cases cache with
  | none => cases hlen
  | some l =>
    simp only [getD_some] at hmiss hlen hlast hle
    have hroom : l.length < defaultCapacity := hlen ▸ hn
    refine ⟨⟨device, some (⟨n + 1, device (n + 1), false⟩ :: l), false, false⟩, some (device (n + 1)),
      ?_, rfl, rfl, ?_, ?_, fun b hb => ?_⟩
    · simp [Disk.step, Disk.read, lookup, acquire, release, blocks, hmiss, moveFront, insert,
        makeRoom, hroom]
    · simp [blocks, hlen]
    · simp [blocks, List.getLast?_cons, hlast]
    · rcases mem_cons.1 hb with rfl | hb
      · exact le_rfl
      · exact (hle b hb).trans (Nat.le_succ n)

theorem Filled.reads {s : Disk ℕ} (h : s.Filled 0) (hn : n < defaultCapacity) :
    ∃ s' os, runs Disk.step s ((List.range n).map fun i => .read (i + 1)) = some (s', os) ∧
      s'.Filled n := by
  induction n with
  | zero => exact ⟨s, [], rfl, h⟩
  | succ n ih =>
    obtain ⟨s1, os, hs1, h1⟩ := ih (Nat.lt_of_succ_lt hn)
    obtain ⟨s2, o, hs2, h2⟩ := h1.read hn
    refine ⟨s2, os ++ [o], ?_, h2⟩
    rw [range_succ, map_append]
    refine runs_append hs1 ?_
    rw [map_singleton, runs_cons hs2]
    rfl

/-- A sector is written twice, so that its block is dirty, and 1024 others are read: the last call
    evicts the dirty block, and hangs. -/
theorem evict_dirty_hangs : ∃ s os, runs Disk.step (start fun _ => 0)
      ([.write 0 1, .write 0 2] ++ (List.range 1023).map fun i => .read (i + 1)) = some (s, os) ∧
    s.step (.read 1024) = none := by
  have hwrites : runs Disk.step (start fun _ => 0) [.write 0 1, .write 0 2] =
      some (⟨update (fun _ => 0) 0 1, some [⟨0, 2, true⟩], false, false⟩, [none, none]) := rfl
  have hfilled : Filled 0 ⟨update (fun _ => 0) 0 1, some [⟨0, 2, true⟩], false, false⟩ :=
    ⟨rfl, rfl, rfl, rfl, by simp [blocks]⟩
  obtain ⟨s, os, hs, h⟩ := hfilled.reads (n := 1023) (by decide)
  refine ⟨s, _, runs_append hwrites hs, ?_⟩
  have hmiss := h.miss
  obtain ⟨device, cache, locked, flushing⟩ := s
  obtain ⟨rfl, rfl, hlen, hlast, -⟩ := h
  simp only [blocks] at hmiss hlen hlast
  cases cache with
  | none => cases hlen
  | some l =>
    simp only [getD_some] at hmiss hlen hlast
    have hfull : ¬ l.length < defaultCapacity := by
      rw [hlen]
      decide
    simp [Disk.step, Disk.read, lookup, acquire, release, blocks, hmiss, moveFront, insert, makeRoom,
      hfull, hlast, freeCachedBlock, depth, forceWrite]

end Disk

end HobbyOS
