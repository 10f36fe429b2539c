import HobbyOS.Ext2.Alloc

/-!
# Concurrent creation of files

Two calls of `allocInode` which read a bitmap at the same time may return the same inode: the second
one has copied the sector with the bit before the first one sets it, and sets it again
(`same_inode_twice`).

This does not happen if nobody calls `allocInode` or goes on while somebody else is suspended in
reading a bitmap (`Undisturbed`). Then the inodes which calls hold or have returned are different, and their bits are
set (`Held`), whatever is suspended where.
-/

namespace HobbyOS

open Function List Nat

open Ext2

/-- Who acts in a step. -/
def CreationEvent.pid : CreationEvent → Option ℕ
  | .alloc pid _ => some pid
  | .resume pid => some pid
  | .other _ _ | .evict _ => none

namespace Creation

variable {fs : Ext2} {c c' : Creation} {e : CreationEvent} {pid : ℕ}

/-- Who calls `allocInode` or goes on finds nobody else suspended in reading a bitmap. -/
def Undisturbed (fs : Ext2) (c : Creation) (e : CreationEvent) : Prop :=
  ∀ pid ∈ e.pid, ∀ t ∈ c.calls, t.pid ≠ pid →
    ∀ g < fs.groupCount, t.sector / fs.sectorsPerBlock ≠ fs.inodeBitmap g

instance (fs : Ext2) (c : Creation) (e : CreationEvent) : Decidable (c.Undisturbed fs e) :=
  inferInstanceAs (Decidable (∀ pid ∈ e.pid, ∀ t ∈ c.calls, _ → ∀ g < fs.groupCount, _))

/-- Then nobody else's bitmap changes. -/
theorem Undisturbed.spared (hu : c.Undisturbed fs e) (he : e.pid = some pid) {s s' : Sectors} :
    ∀ t ∈ c.calls, t.pid ≠ pid → fs.Spared t.sector s s' :=
  fun t ht hne g hg hx => absurd hx (hu pid he t ht hne g hg)

/-- The bit of an inode, as `freeInode` finds it. -/
def bitOf (fs : Ext2) (s : Sectors) (num : ℕ) : Bool :=
  fs.inodeBit s ((num - 1) / fs.inodesPerGroup) ((num - 1) % fs.inodesPerGroup)

/-- The inodes which are held by calls, with the processes which make them. -/
abbrev Holding := ℕ → Option (ℕ × ℕ)

/-- An inode is one of a group, and its bit is set. -/
def Taken (fs : Ext2) (s : Sectors) (x : ℕ × ℕ) : Prop :=
  x.1 < fs.groupCount ∧ x.2 < fs.inodesPerGroup ∧ fs.inodeBit s x.1 x.2 = true

/-- What every undisturbed step keeps: calls hold different inodes, which nobody has returned. -/
structure Held (fs : Ext2) (c : Creation) (held : Holding) (done : List (ℕ × ℕ)) : Prop where
  layout : fs.Layout c.disk
  nodup : (c.calls.map Suspended.pid).Nodup
  sat : ∀ t ∈ c.calls, fs.Ok fs.Returns (.read t.sector t.rest) (held t.pid) c.disk
  idle : ∀ p, p ∉ c.calls.map Suspended.pid → held p = none
  taken : ∀ p x, held p = some x → Taken fs c.disk x
  inj : ∀ p q x, held p = some x → held q = some x → p = q
  fresh : ∀ p x, held p = some x → x ∉ done
  doneTaken : ∀ x ∈ done, Taken fs c.disk x
  doneNodup : done.Nodup
  returned : c.returned = done.map fun x => fs.inodeNum x.1 x.2

variable {held : Holding} {done : List (ℕ × ℕ)} {s s' : Sectors} {x : ℕ × ℕ} {h' : Option (ℕ × ℕ)}
  {r : Sectors × DiskProg ℕ}

theorem Taken.grows (h : Taken fs s x) (hg : fs.Grows s s') :
    Taken fs s' x := ⟨h.1, h.2.1, hg x.1 h.1 x.2 h.2.1 h.2.2⟩

/-- The number of an inode determines its group and its bit. -/
theorem Taken.inodeNum (hw : fs.Wellformed) (h : Taken fs s x) :
    ((fs.inodeNum x.1 x.2 - 1) / fs.inodesPerGroup, (fs.inodeNum x.1 x.2 - 1) % fs.inodesPerGroup) =
      x := by
  rw [hw.inodeNum_eq h.1 h.2.1, Nat.add_sub_cancel, mul_add_div (by have := h.2.1; omega),
    mul_add_mod, div_eq_of_lt h.2.1, mod_eq_of_lt h.2.1, Nat.add_zero]

/-- A write of something else. -/
theorem Other.rely (hw : fs.Wellformed) {x y : ℕ} {data : Buf} (ho : Other fs x data) (s : Sectors) :
    fs.Rely y s (s.write x data) := by
  refine ⟨fun hl => hl.write ho.2, fun g hg i hi hb => ?_, fun g hg _ i hi => ?_⟩
  · rwa [hw.inodeBit_write hi (ho.1 g hg)]
  · exact hw.inodeBit_write hi (ho.1 g hg)

/-- Others act, and everybody who is suspended is spared. -/
theorem Held.others (h : c.Held fs held done) (hl : fs.Layout s') (hg : fs.Grows c.disk s')
    (hs : ∀ t ∈ c.calls, fs.Spared t.sector c.disk s') :
    Held fs { c with disk := s' } held done where
  layout := hl
  nodup := h.nodup
  sat t ht := (h.sat t ht).stable Rely.trans ⟨fun _ => hl, hg, hs t ht⟩
  idle := h.idle
  taken p x hp := (h.taken p x hp).grows hg
  inj := h.inj
  fresh := h.fresh
  doneTaken x hx := (h.doneTaken x hx).grows hg
  doneNodup := h.doneNodup
  returned := h.returned

/-- The call of a process goes on: it holds what it held before, or an inode which was free. -/
theorem Held.acts (h : c.Held fs held done) (ht : fs.Takes (held pid) c.disk h' s')
    (hs : ∀ t ∈ c.calls, t.pid ≠ pid → fs.Spared t.sector c.disk s') : Held fs { c with
      disk := s'
      calls := c.calls.filter fun t => t.pid ≠ pid } (update held pid none) done ∧
    ∀ x, h' = some x → Taken fs s' x ∧ (∀ p, p ≠ pid → held p ≠ some x) ∧ x ∉ done := by
  have hl := ht.1 h.layout
  have hmem {t : Suspended} (ht : t ∈ c.calls.filter fun t => t.pid ≠ pid) :
      t ∈ c.calls ∧ t.pid ≠ pid := by simpa using ht
  -- what the others hold is not what this process holds
  have hother {p : ℕ} {x : ℕ × ℕ} (hp : update held pid none p = some x) :
      p ≠ pid ∧ held p = some x := by
    by_cases hpp : p = pid
    · rw [hpp, update_self] at hp
      cases hp
    · rw [update_of_ne hpp] at hp
      exact ⟨hpp, hp⟩
  refine ⟨⟨hl, h.nodup.sublist (filter_sublist.map _), fun t htm => ?_, fun p hp => ?_,
    fun p x hp => (h.taken p x (hother hp).2).grows ht.2.1,
    fun p q x hp hq => h.inj p q x (hother hp).2 (hother hq).2,
    fun p x hp => h.fresh p x (hother hp).2, fun x hx => (h.doneTaken x hx).grows ht.2.1,
    h.doneNodup, h.returned⟩, fun x hx => ?_⟩
  · obtain ⟨htm, hne⟩ := hmem htm
    rw [update_of_ne hne]
    exact (h.sat t htm).stable Rely.trans ⟨fun _ => hl, ht.2.1, hs t htm hne⟩
  · by_cases hpp : p = pid
    · rw [hpp, update_self]
    · rw [update_of_ne hpp]
      refine h.idle p fun hm => hp ?_
      obtain ⟨t, htm, rfl⟩ := mem_map.1 hm
      exact mem_map_of_mem (mem_filter.2 ⟨htm, by simpa using hpp⟩)
  obtain rfl | ⟨-, g, i, hg, hi, rfl, hclear, hset⟩ := ht.2.2
  · exact ⟨(h.taken pid x hx).grows ht.2.1, fun p hne hp => hne (h.inj p pid x hp hx),
      h.fresh pid x hx⟩
  -- the bit was clear, while those of all other inodes were set
  cases hx
  have hfree {x : ℕ × ℕ} (hx : Taken fs c.disk x) : x ≠ (g, i) := by
    rintro rfl
    have := hx.2.2
    rw [hclear] at this
    cases this
  exact ⟨⟨hg, hi, hset⟩, fun p _ hp => hfree (h.taken p _ hp) rfl,
    fun hm => hfree (h.doneTaken _ hm) rfl⟩

/-- A call has returned, or is suspended again. -/
theorem Held.after (hw : fs.Wellformed) (h : Held fs { c with disk := r.1 } held done)
    (hpid : pid ∉ c.calls.map Suspended.pid) (hact : ∀ f k, r.2 ≠ .act f k)
    (hsat : fs.Ok fs.Returns r.2 h' r.1)
    (hx : ∀ x, h' = some x → Taken fs r.1 x ∧ (∀ p, p ≠ pid → held p ≠ some x) ∧ x ∉ done) :
    ∃ held' done', (c.after pid r).Held fs held' done' := by
  obtain ⟨s', p⟩ := r
  cases p with
  | ret num =>
    obtain ⟨-, rfl⟩ | ⟨g, i, hg, hi, rfl, rfl⟩ := hsat
    · exact ⟨held, done, { h with }⟩
    obtain ⟨htaken, hother, hfresh⟩ := hx _ rfl
    have hnum := hw.inodeNum_eq hg hi
    rw [hnum]
    refine ⟨held, (g, i) :: done, { h with
      fresh := fun p x hp hm => ?_
      doneTaken := forall_mem_cons.2 ⟨htaken, h.doneTaken⟩
      doneNodup := nodup_cons.2 ⟨hfresh, h.doneNodup⟩
      returned := congrArg₂ cons hnum.symm h.returned }⟩
    obtain rfl | hm := mem_cons.1 hm
    · by_cases hp' : p = pid
      · rw [hp', h.idle pid hpid] at hp
        cases hp
      · exact hother p hp' hp
    · exact h.fresh p x hp hm
  | read x k =>
    have hne {t : Suspended} (ht : t ∈ c.calls) : t.pid ≠ pid :=
      fun he => hpid (mem_map.2 ⟨t, ht, he⟩)
    -- who holds what now
    have hheld {p : ℕ} {x : ℕ × ℕ} (hp : update held pid h' p = some x) :
        (p = pid ∧ h' = some x) ∨ (p ≠ pid ∧ held p = some x) := by
      by_cases hpp : p = pid
      · subst hpp
        rw [update_self] at hp
        exact .inl ⟨rfl, hp⟩
      · rw [update_of_ne hpp] at hp
        exact .inr ⟨hpp, hp⟩
    refine ⟨update held pid h', done, h.layout, nodup_cons.2 ⟨hpid, h.nodup⟩, ?_,
      fun p hp => ?_, fun p x hp => ?_, fun p q x hp hq => ?_, fun p x hp => ?_, h.doneTaken,
      h.doneNodup, h.returned⟩
    · refine forall_mem_cons.2 ⟨?_, fun t ht => ?_⟩
      · rwa [update_self]
      · rw [update_of_ne (hne ht)]
        exact h.sat t ht
    · obtain ⟨hpp, hp⟩ := not_or.1 (mt mem_cons.2 hp)
      rw [update_of_ne hpp]
      exact h.idle p hp
    · obtain ⟨-, hp⟩ | ⟨-, hp⟩ := hheld hp
      · exact (hx x hp).1
      · exact h.taken p x hp
    · obtain ⟨hpp, hp⟩ | ⟨hpp, hp⟩ := hheld hp
      · obtain ⟨hqq, -⟩ | ⟨hqq, hq⟩ := hheld hq
        · exact hpp.trans hqq.symm
        · exact absurd hq ((hx x hp).2.1 q hqq)
      · obtain ⟨-, hq⟩ | ⟨-, hq⟩ := hheld hq
        · exact absurd hp ((hx x hq).2.1 p hpp)
        · exact h.inj p q x hp hq
    · obtain ⟨-, hp⟩ | ⟨-, hp⟩ := hheld hp
      · exact (hx x hp).2.2
      · exact h.fresh p x hp
  | act f k => exact absurd rfl (hact f k)

/-- A process which is suspended on nothing is not in the list. -/
theorem filter_of_notMem {calls : List Suspended} (h : pid ∉ calls.map Suspended.pid) :
    calls.filter (fun t => t.pid ≠ pid) = calls :=
  filter_eq_self.2 fun t ht => by
    simpa using fun he : t.pid = pid => h (mem_map.2 ⟨t, ht, he⟩)

theorem notMem_filter (calls : List Suspended) (pid : ℕ) :
    pid ∉ (calls.filter fun t => t.pid ≠ pid).map Suspended.pid := by
  intro hm
  obtain ⟨t, ht, he⟩ := mem_map.1 hm
  simp [he] at ht

/-- Every undisturbed step keeps the calls and the inodes apart. -/
theorem Held.step (hw : fs.Wellformed) (h : c.Held fs held done) (hu : c.Undisturbed fs e)
    (hs : c.step fs e = some (c', ())) : ∃ held' done', c'.Held fs held' done' := by
  cases e with
  | alloc pid preferGroup =>
    simp only [Creation.step] at hs
    split_ifs at hs with hpid
    cases hs
    have hact := Prog.run_ne_act diskDevice (fs.allocInode preferGroup) c.disk
    have hsat : fs.Ok fs.Returns (fs.allocInode preferGroup) (held pid) c.disk := by
      rw [h.idle pid hpid]
      exact hw.allocInode_ok preferGroup h.layout
    obtain ⟨h', ht, hsat'⟩ := hsat.run (Rely.refl fs) (Takes.refl fs) Takes.trans
    obtain ⟨hheld, hx⟩ := h.acts ht (hu.spared rfl)
    rw [filter_of_notMem hpid] at hheld
    refine hheld.after hw hpid hact hsat' fun x hx' => ?_
    obtain ⟨htaken, hother, hfresh⟩ := hx x hx'
    refine ⟨htaken, fun p hne => ?_, hfresh⟩
    rw [update_of_ne hne]
    exact hother p hne
  | resume pid =>
    obtain ⟨t, hfind, ⟨⟩⟩ := Option.map_eq_some_iff.1 hs
    have htm := mem_of_find?_eq_some hfind
    have htp : t.pid = pid := by simpa using List.find?_some hfind
    have hact := Prog.resume_ne_act diskDevice t.sector t.rest c.disk
    -- the sector gets into the cache, and keeps its data
    have hfetch (x : ℕ) : fs.Rely x c.disk (diskDevice.fetch c.disk t.sector) :=
      ⟨fun hl => hl, fun _ _ _ _ hb => hb, fun _ _ _ _ _ => rfl⟩
    have hsat := h.sat t htm
    rw [htp] at hsat
    obtain ⟨h', ht, hsat'⟩ := hsat.resume (Rely.refl fs) (Takes.refl fs) Takes.trans (hfetch _)
    have ht' : fs.Takes (held pid) c.disk h' (Prog.resume diskDevice t.sector t.rest c.disk).1 :=
      ⟨ht.1, ht.2.1, ht.2.2⟩
    obtain ⟨hheld, hx⟩ := h.acts ht' (hu.spared rfl)
    refine Held.after hw (c := { c with calls := c.calls.filter fun t => t.pid ≠ pid }) hheld
      (notMem_filter _ _) hact hsat' fun x hx' => ?_
    obtain ⟨htaken, hother, hfresh⟩ := hx x hx'
    refine ⟨htaken, fun p hne => ?_, hfresh⟩
    rw [update_of_ne hne]
    exact hother p hne
  | other x data =>
    simp only [Creation.step] at hs
    split_ifs at hs with ho
    cases hs
    have hr (y : ℕ) := ho.rely hw (y := y) c.disk
    exact ⟨held, done, h.others ((hr 0).1 h.layout) (hr 0).2.1 fun t _ => (hr t.sector).2.2⟩
  | evict x =>
    cases hs
    exact ⟨held, done, h.others h.layout (fun _ _ _ _ hb => hb) fun _ _ _ _ _ _ _ => rfl⟩

theorem start_held {disk : Sectors} (hl : fs.Layout disk) :
    (start disk).Held fs (fun _ => none) [] where
  layout := hl
  nodup := nodup_nil
  sat := nofun
  idle _ _ := rfl
  taken := nofun
  inj := nofun
  fresh := nofun
  doneTaken := nofun
  doneNodup := nodup_nil
  returned := rfl

/-- In every run whose steps are undisturbed, calls return different inodes, and their bits are
    set. -/
theorem reachable_returned (hw : fs.Wellformed) {disk : Sectors} (hl : fs.Layout disk)
    (h : Reaches (step fs) (Undisturbed fs) (start disk) c) :
    c.returned.Nodup ∧ ∀ num ∈ c.returned, bitOf fs c.disk num = true := by
  obtain ⟨held, done, hh⟩ := h.inv (I := fun c => ∃ held done, c.Held fs held done)
    (fun _ _ _ _ ⟨_, _, hh⟩ hu hs => hh.step hw hu hs) ⟨_, _, start_held hl⟩
  rw [hh.returned]
  refine ⟨hh.doneNodup.map_on fun x hx y hy he => ?_, fun num hnum => ?_⟩
  · rw [← (hh.doneTaken x hx).inodeNum hw, he, (hh.doneTaken y hy).inodeNum hw]
  · obtain ⟨x, hx, rfl⟩ := mem_map.1 hnum
    have hbit := (hh.doneTaken x hx).2.2
    rwa [← (hh.doneTaken x hx).inodeNum hw] at hbit

/-- A file system with one group of eight inodes, in blocks of two sectors. -/
def oneGroup : Ext2 := ⟨1, 2, 8, 128, 1, fun _ => 4, fun _ => 5⟩

/-- The descriptor of the group, with its bitmap, its table and eight free inodes. -/
def freshDesc : Buf := storeLE (storeLE (storeLE (fun _ => 0) 4 4 4) 8 4 5) 14 2 8

/-- All inodes are free, and these sectors are not in the cache. -/
def emptyDisk (missing : List ℕ) : Sectors where
  sector x := if x = 4 then freshDesc else fun _ => 0
  cached x := decide (x ∉ missing)
  sb _ := 0

theorem oneGroup_wellformed : oneGroup.Wellformed := by
  refine ⟨by decide, by decide, by decide, by decide, ?_, by decide, by decide, by decide⟩
  rintro x (rfl | rfl) <;> decide

theorem emptyDisk_layout (missing : List ℕ) : oneGroup.Layout (emptyDisk missing) := by
  intro x g hg hx
  obtain rfl : g = 0 := lt_one_iff.1 hg
  obtain rfl : x = 4 := hx.symm
  have hdesc : bgInodeBitmap (fromOffset freshDesc 0) = 4 ∧ bgInodeTable (fromOffset freshDesc 0) = 5 := by
    decide +kernel
  exact hdesc

/-- Two calls are suspended when they read the table of inodes, after they have set their bits. -/
theorem reachable_returned_two :
    let c := lastState (guarded (step oneGroup) (Undisturbed oneGroup)) (start (emptyDisk [10]))
      [.alloc 0 0, .alloc 1 0, .evict 8, .resume 1, .resume 0]
    c.returned = [1, 2] ∧ c.returned.Nodup ∧ ∀ num ∈ c.returned, bitOf oneGroup c.disk num = true :=
  ⟨by decide +kernel, reachable_returned oneGroup_wellformed (emptyDisk_layout [10])
    (Reaches.lastState _ _)⟩

/-- The bitmap is not in the cache. The second process copies the first sector of the bitmap before
    the first process sets a bit in it, and is suspended on the second sector. -/
theorem same_inode_twice : ∃ c,
    Reaches (step oneGroup) (fun _ _ => True) (start (emptyDisk [8, 9])) c ∧ c.returned = [1, 1] :=
  ⟨lastState (guarded (step oneGroup) fun _ _ => True) (start (emptyDisk [8, 9]))
    [.alloc 0 0, .alloc 1 0, .resume 0, .resume 1, .resume 0, .resume 1],
    Reaches.lastState _ _, by decide +kernel⟩

end Creation

end HobbyOS
