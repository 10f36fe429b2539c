import HobbyOS.Disk.Coherent
import HobbyOS.Disk.Moves

/-!
# What reads are to return

Somebody watches the calls of `Disk::read` and `Disk::write` and what they return (`Watch`). A
sector is *settled* if the last write to it has returned while no other one was in progress, and
none was issued since: a read which starts then is to return what was written, unless a write is
issued before it returns.

The watcher sees only the calls and their results, and not what is inside of the driver.
-/

namespace HobbyOS

open Option

variable {D : Type*}

/-- A call in progress. -/
structure PendingCall (D : Type*) where
  pid : ℕ
  sector : ℕ
  op : OpType
  /-- What is written, or what is to be read, if that is known. -/
  data : Option D
  deriving DecidableEq

/-- The driver, the calls in progress, and the sectors which are settled. -/
structure Watch (D : Type*) where
  driver : Driver D
  calls : List (PendingCall D)
  settled : ℕ → Option D

/-- If a read returns, it returns what is expected. -/
def Reply.Agrees (r : Reply D) (expected : Option D) : Prop :=
  ∀ data d, r = .read data → expected = some d → data = d

namespace PendingCall

/-- What a read is to return is not known any more. -/
def forget (c : PendingCall D) (sector : ℕ) : PendingCall D :=
  if c.op = .read ∧ c.sector = sector then { c with data := none } else c

end PendingCall

namespace Watch

variable (w : Watch D)

/-- The call of a process. -/
def callOf (pid : ℕ) : Option (PendingCall D) := w.calls.find? fun c => c.pid = pid

/-- The call of a process has returned. -/
def leave (pid : ℕ) : Watch D := { w with calls := w.calls.filter fun c => c.pid ≠ pid }

/-- A write to a sector is issued. -/
def issue (sector : ℕ) : Watch D :=
  { w with
    calls := w.calls.map fun c => c.forget sector
    settled := Function.update w.settled sector none }

/-- A write is in progress. -/
def Writing (sector : ℕ) : Prop := ∃ c ∈ w.calls, c.op = .write ∧ c.sector = sector

instance (sector : ℕ) : Decidable (w.Writing sector) :=
  inferInstanceAs (Decidable (∃ c ∈ w.calls, c.op = .write ∧ c.sector = sector))

/-- A write to a sector has returned. -/
def settle (sector : ℕ) (data : D) : Watch D :=
  { w with
    settled := Function.update w.settled sector (if w.Writing sector then none else some data) }

/-- A call begins. -/
def enter (c : PendingCall D) : Watch D := { w with calls := c :: w.calls }

/-- A write which was in progress has returned. -/
def written (pid : ℕ) : Watch D :=
  match w.callOf pid with
  | some ⟨_, sector, _, some data⟩ => (w.leave pid).settle sector data
  | _ => w.leave pid

/-- What the watcher sees in a step. -/
def record : DriverEvent D → Reply D → Watch D
  | .read pid sector, .pending => w.enter ⟨pid, sector, .read, w.settled sector⟩
  | .write pid sector data, .pending => (w.issue sector).enter ⟨pid, sector, .write, some data⟩
  | .write _ sector data, _ => (w.issue sector).settle sector data
  | .resume pid, .read _ => w.leave pid
  | .resume pid, .written => w.written pid
  | _, _ => w

/-- One step of the driver, which is watched. -/
def step (e : DriverEvent D) : Option (Watch D × Reply D) :=
  (w.driver.step e).map fun r => ({ w.record e r.2 with driver := r.1 }, r.2)

/-- What a read which returns in a step is to return, if that is known. -/
def expected : DriverEvent D → Option D
  | .read _ sector => w.settled sector
  | .resume pid => (w.callOf pid).bind PendingCall.data
  | _ => none

/-- The driver is watched from the beginning. -/
def start (disk : Disk D) (data : D) (idx : ℕ) : Watch D := ⟨.start disk data idx, [], fun _ => none⟩

end Watch

namespace Disk

variable {s s' : Disk D} {x y : ℕ} {d : D} {l : List (CachedBlock D)}

/-- What the cache holds of a sector. -/
def cached (s : Disk D) (x : ℕ) : Option D := (findBlock x s.blocks).map CachedBlock.data

theorem findBlock_cons (b : CachedBlock D) (x : ℕ) (l : List (CachedBlock D)) :
    findBlock x (b :: l) = if b.sectorNum = x then some b else findBlock x l := by
  unfold findBlock
  rw [List.find?_cons]
  by_cases h : b.sectorNum = x <;> simp [h]

theorem findBlock_eraseP (hxy : y ≠ x) :
    findBlock y (l.eraseP fun b => b.sectorNum = x) = findBlock y l := by
  induction l with
  | nil => rfl
  | cons b l ih =>
    rw [List.eraseP_cons]
    by_cases hb : b.sectorNum = x
    · have hby : b.sectorNum ≠ y := fun he => hxy (he.symm.trans hb)
      rw [decide_eq_true hb, findBlock_cons, if_neg hby]
      rfl
    · rw [decide_eq_false hb, findBlock_cons b y l, ← ih]
      exact findBlock_cons b y _

/-- A block which is used is found as before, and so are the others. -/
theorem findBlock_moveFront_eq : findBlock y (moveFront x l) = findBlock y l := by
  unfold moveFront
  split
  · rfl
  next b hb =>
    have hbx := (mem_of_findBlock hb).2
    rw [findBlock_cons]
    by_cases hy : b.sectorNum = y
    · rw [if_pos hy, ← hy, hbx, hb]
    · rw [if_neg hy, findBlock_eraseP fun he => hy (hbx.trans he.symm)]

theorem findBlock_overwrite {dirty : Bool} : (findBlock y (overwrite x d dirty l)).map CachedBlock.data =
    if y = x then (findBlock x l).map fun _ => d else (findBlock y l).map CachedBlock.data := by
  induction l with
  | nil => simp [overwrite, findBlock]
  | cons b l ih =>
    rw [overwrite, List.map_cons, findBlock_cons, findBlock_cons, findBlock_cons]
    rw [overwrite] at ih
    by_cases hb : b.sectorNum = x
    · by_cases hy : y = x
      · simp [hb, hy]
      · simp [hb, hy, Ne.symm hy, ih]
    by_cases hy : y = x
    · subst hy
      simpa [hb] using ih
    · by_cases hby : b.sectorNum = y
      · simp [hby, hy]
      · simpa [hb, hby, hy] using ih

/-- Only the last block is not found any more. -/
theorem findBlock_dropLast {b : CachedBlock D} (hb : l.getLast? = some b) :
    findBlock y l.dropLast = findBlock y l ∨
      (findBlock y l.dropLast = none ∧ findBlock y l = some b ∧ b.sectorNum = y) := by
  obtain ⟨l, rfl⟩ := List.getLast?_eq_some_iff.1 hb
  rw [List.dropLast_concat]
  unfold findBlock
  rw [List.find?_append]
  cases h : l.find? fun b => b.sectorNum = y with
  | some b => exact .inl rfl
  | none =>
    by_cases hy : b.sectorNum = y
    · exact .inr ⟨rfl, by simp [hy], hy⟩
    · exact .inl (by simp [hy])

/-- `BlockCache::lookup` changes nothing but the order. -/
theorem lookup_cached {o : Option D} (h : s.lookup x = some (s', o)) : s.locked = false ∧
    o = s.cached x ∧ s'.device = s.device ∧ s'.flushing = s.flushing ∧
    ∀ y, s'.cached y = s.cached y := by
  unfold lookup acquire at h
  split_ifs at h with hl
  · cases h
  cases h
  refine ⟨by simpa using hl, rfl, rfl, rfl, fun y => ?_⟩
  cases hc : s.cache with
  | none => simp [cached, blocks, release, hc]
  | some l => simp [cached, blocks, release, hc, findBlock_moveFront_eq]

theorem overwrite_cached {disk : Disk D} {dirty : Bool}
    (h : disk = { s with cache := s.cache.map (overwrite x d dirty) }) :
    disk.cached y = if y = x then (s.cached x).map fun _ => d else s.cached y := by
  subst h
  cases hc : s.cache with
  | none => simp [cached, blocks, hc, findBlock]
  | some l =>
    simp only [cached, blocks, hc, map_some, getD_some, findBlock_overwrite, map_map]
    rfl

/-- The block which `BlockCache::insert` evicts to make room for a sector. -/
def victim (s : Disk D) (sector : ℕ) : Option (CachedBlock D) :=
  if (findBlock sector s.blocks).isSome ∨ s.blocks.length < defaultCapacity then none
  else s.blocks.getLast?

/-- `BlockCache::insert` puts a sector into the cache, and may evict another one. -/
theorem insert_cached (hf : s.flushing = false)
    (h : s.insert (fun _ _ _ => none) x d = some s') : s.locked = false ∧ s'.device = s.device ∧
      s'.flushing = false ∧ s'.cached x = some d ∧
      ∀ y, y ≠ x → s'.cached y = s.cached y ∨ (s'.cached y = none ∧ ∃ b, s.victim x = some b ∧
        b.dirty = false ∧ b.sectorNum = y ∧ s.cached y = some b.data) := by
  unfold insert at h
  rw [if_neg (by simp [hf])] at h
  obtain ⟨s1, hs1, h⟩ := bind_eq_some_iff.1 h
  unfold acquire at hs1
  split_ifs at hs1 with hl
  cases hs1
  have hl : s.locked = false := by simpa using hl
  split at h
  next hfound =>
    cases h
    obtain ⟨b, hb⟩ := isSome_iff_exists.1 hfound
    have hb : findBlock x s.blocks = some b := hb
    refine ⟨hl, rfl, hf, ?_, fun y hy => .inl ?_⟩
    · change (findBlock x (overwrite x d false (moveFront x s.blocks))).map _ = _
      rw [findBlock_overwrite, if_pos rfl, findBlock_moveFront_eq, hb]
      rfl
    · change (findBlock y (overwrite x d false (moveFront x s.blocks))).map _ = _
      rw [findBlock_overwrite, if_neg hy, findBlock_moveFront_eq]
      rfl
  next hfound =>
    obtain ⟨s2, hs2, rfl⟩ := map_eq_some_iff.1 h
    have hroom : s2.device = s.device ∧ s2.flushing = s.flushing ∧
        ∀ y, findBlock y s2.blocks = findBlock y s.blocks ∨ (findBlock y s2.blocks = none ∧
          ∃ b, s.victim x = some b ∧ b.dirty = false ∧ b.sectorNum = y ∧
            findBlock y s.blocks = some b) := by
      unfold makeRoom freeCachedBlock at hs2
      split at hs2
      · cases hs2
        exact ⟨rfl, rfl, fun _ => .inl rfl⟩
      next hlen =>
      split at hs2
      · cases hs2
        exact ⟨rfl, rfl, fun _ => .inl rfl⟩
      next b hb =>
        obtain ⟨s3, hs3, rfl⟩ := map_eq_some_iff.1 hs2
        split_ifs at hs3 with hdirty
        cases hs3
        have hvictim : s.victim x = some b := (if_neg (not_or.2 ⟨hfound, hlen⟩)).trans hb
        refine ⟨rfl, rfl, fun y => (findBlock_dropLast hb).imp_right ?_⟩
        exact fun ⟨hn, hy, he⟩ => ⟨hn, b, hvictim, by simpa using hdirty, he, hy⟩
    obtain ⟨hdev, hfl, hblocks⟩ := hroom
    refine ⟨hl, hdev, hfl.trans hf, ?_, fun y hy => ?_⟩
    · change (findBlock x (⟨x, d, false⟩ :: s2.blocks)).map _ = _
      rw [findBlock_cons, if_pos rfl]
      rfl
    · change (findBlock y (⟨x, d, false⟩ :: s2.blocks)).map _ = _ ∨
        ((findBlock y (⟨x, d, false⟩ :: s2.blocks)).map _ = _ ∧ _)
      rw [findBlock_cons, if_neg (Ne.symm hy)]
      refine (hblocks y).imp (congrArg _) fun ⟨hn, b, hb, hd, he, hy⟩ =>
        ⟨congrArg _ hn, b, hb, hd, he, congrArg _ hy⟩

end Disk

end HobbyOS
