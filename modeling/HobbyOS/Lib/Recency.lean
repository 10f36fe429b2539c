import HobbyOS.Lib.Hashed
import HobbyOS.Lib.LruCache

/-!
# What an LRU cache is for

A bounded list of keys and values, the most recently used one first (`Recency`). The cache does
what this list does, and gives the same answers (`run_refines`), but for an insertion which finds the
table of the map three quarters full, and too large to be enlarged (`Stuck`): a table with more than
16384 buckets cannot be allocated. With a capacity up to 8192 there is none.
-/

namespace HobbyOS

open List

/-- What is done next to a cache. -/
inductive CacheEvent (K V : Type)
  /-- `LRUCache::contains`. -/
  | contains (key : K)
  /-- `LRUCache::get`. -/
  | get (key : K)
  /-- `LRUCache::at`. -/
  | atKey (key : K)
  /-- `LRUCache::insert`; the node of the list is at the address `a`, the entry of the map at `b`. -/
  | insert (a b : ℕ) (key : K) (value : V)
  /-- `LRUCache::erase`. -/
  | erase (key : K)

/-- What an operation of a cache returns. -/
inductive Answer (V : Type)
  | found (b : Bool)
  | value (v : Option V)
  | done

/-- The keys and values of a cache, the most recently used one first, and those which have been
    evicted, the last one first. -/
structure Recency (K V : Type) where
  capacity : ℕ
  entries : List (K × V)
  evicted : List (K × V)

namespace Recency

variable {K V : Type} (t : ValueTrait K) (r : Recency K V)

/-- The entry of a key. -/
def find (key : K) : Option (K × V) := r.entries.find? fun p => t.eq p.1 key

/-- The other entries. -/
def others (key : K) : List (K × V) := r.entries.eraseP fun p => t.eq p.1 key

/-- The entry of a key is used. -/
def refresh (key : K) : Recency K V :=
  { r with entries := (r.find t key).toList ++ r.others t key }

/-- A new entry is put in front; if there are too many, the last one is evicted. -/
def push (key : K) (value : V) : Recency K V :=
  if r.entries.length < r.capacity then { r with entries := (key, value) :: r.entries }
  else { r with
    entries := (key, value) :: r.entries.dropLast
    evicted := r.entries.getLast?.toList ++ r.evicted }

/-- What an operation does; the entry which is read has to be there. -/
def step : CacheEvent K V → Option (Recency K V × Answer V)
  | .contains key => some (r.refresh t key, .found (r.find t key).isSome)
  | .get key => some (r.refresh t key, .value ((r.find t key).map Prod.snd))
  | .atKey key => (r.find t key).map fun p => (r, .value (some p.2))
  | .insert _ _ key value =>
    some (if (r.find t key).isSome then r.refresh t key else r.push key value, .done)
  | .erase key => some ({ r with entries := r.others t key }, .done)

end Recency

/-- A cache, and what its callback has been told, the last entry first. -/
structure Cached (K V : Type) where
  cache : LruCache K V
  evicted : List (K × V)

namespace Cached

variable {K V : Type} (t : ValueTrait K) (s : Cached K V)

/-- The callback writes down what is evicted. -/
def onEvict (key : K) (value : V) (log : List (K × V)) : Except Panic (List (K × V)) :=
  pure ((key, value) :: log)

/-- An operation of the cache. -/
def perform : CacheEvent K V → Except Panic (Cached K V × Answer V)
  | .contains key => do
    let r ← s.cache.contains t.trait key
    pure ({ s with cache := r.2 }, .found r.1)
  | .get key => do
    let r ← s.cache.get t.trait key
    pure ({ s with cache := r.2 }, .value r.1)
  | .atKey key => do
    let v ← s.cache.atKey t.trait key
    pure (s, .value (some v))
  | .insert a b key value => do
    let r ← s.cache.insert (fun _ => t.trait) onEvict a b key value s.evicted
    pure (⟨r.1, r.2⟩, .done)
  | .erase key => do
    let cache ← s.cache.erase t.trait key
    pure ({ s with cache }, .done)

/-- One step; there is none if the kernel panics. -/
def step (ev : CacheEvent K V) : Option (Cached K V × Answer V) := (s.perform t ev).toOption

/-- The entry which is read is there, and the addresses of a new one are free once there is room
    for it. -/
def Proper : CacheEvent K V → Prop
  | .atKey key => s.cache.map.contains t.trait key = Except.ok true
  | .insert a b _ _ => a ≠ 0 ∧ b ≠ 0 ∧
      (s.cache.room (fun _ => t.trait) onEvict s.evicted).toOption.all fun r =>
        (r.1.list.value a).isNone ∧ (r.1.map.node b).isNone
  | _ => True

/-- A larger table is needed for a new key, which there cannot be. -/
def Stuck : CacheEvent K V → Prop
  | .insert _ _ key _ => s.cache.map.contains t.trait key = Except.ok false ∧ s.cache.map.Full ∧
      kmallocMax < s.cache.map.capacity * 2 * 8
  | _ => False

/-- The key and the value of an entry. -/
abbrev entry (p : ℕ × CacheEntry K V) : K × V := (p.2.key, p.2.value)

/-- The cache is what it should be: its list is linked through the entries, the most recently used
    one first, and its map leads to them. -/
structure Refines (s : Cached K V) (r : Recency K V) : Prop where
  holds : ∃ ps, s.cache.Holds t.trait Set.univ ps ∧ r.entries = ps.map entry
  capacity : s.cache.capacity = r.capacity
  evicted : s.evicted = r.evicted
  table : s.cache.map.capacity = r.capacity ∨ s.cache.map.capacity = r.capacity * 2

end Cached

/-! ## Finding an entry -/

namespace Recency

open Cached (entry)

variable {K V : Type} {t : ValueTrait K} {r : Recency K V} {k : K}
  {ps ps1 ps2 : List (ℕ × CacheEntry K V)} {p : ℕ × CacheEntry K V} {v : V}

/-- An entry with the key is there, or none. -/
theorem split (t : ValueTrait K) (k : K) (ps : List (ℕ × CacheEntry K V)) :
    (∃ ps1 p ps2, ps = ps1 ++ p :: ps2 ∧ t.eq p.2.key k = true ∧
      ∀ q ∈ ps1, t.eq q.2.key k = false) ∨ ∀ q ∈ ps, t.eq q.2.key k = false := by
  induction ps with
  | nil => exact .inr fun q hq => absurd hq not_mem_nil
  | cons p ps ih =>
    cases hp : t.eq p.2.key k with
    | true => exact .inl ⟨[], p, ps, rfl, hp, fun q hq => absurd hq not_mem_nil⟩
    | false =>
      rcases ih with ⟨ps1, q, ps2, rfl, hq, hno⟩ | hno
      · exact .inl ⟨p :: ps1, q, ps2, rfl, hq, forall_mem_cons.2 ⟨hp, hno⟩⟩
      · exact .inr (forall_mem_cons.2 ⟨hp, hno⟩)

theorem not_map (hno : ∀ q ∈ ps, t.eq q.2.key k = false) :
    ∀ q ∈ ps.map entry, ¬ t.eq q.1 k = true := by
  intro q hq
  obtain ⟨p, hp, rfl⟩ := mem_map.1 hq
  exact Bool.eq_false_iff.1 (hno p hp)

section Found

variable (hr : r.entries = (ps1 ++ p :: ps2).map entry) (hp : t.eq p.2.key k = true)
  (hno : ∀ q ∈ ps1, t.eq q.2.key k = false)

include hr hp hno

theorem find_of_mem : r.find t k = some (entry p) := by
  rw [find, hr, map_append, List.find?_append,
    List.find?_eq_none.2 fun q hq => not_map hno q hq, Option.none_or]
  exact List.find?_cons_of_pos (p := fun q : K × V => t.eq q.1 k) hp

theorem others_of_mem : r.others t k = (ps1 ++ ps2).map entry := by
  have hself : (((p :: ps2).map entry).eraseP fun q => t.eq q.1 k) = ps2.map entry :=
    eraseP_cons_of_pos hp
  rw [others, hr, map_append, eraseP_append_right _ fun q hq => not_map hno q hq, hself, map_append]

theorem refresh_of_mem : (r.refresh t k).entries = (p :: (ps1 ++ ps2)).map entry := by
  rw [refresh, find_of_mem hr hp hno, others_of_mem hr hp hno]
  rfl

end Found

section NotFound

variable (hr : r.entries = ps.map entry) (hno : ∀ q ∈ ps, t.eq q.2.key k = false)

include hr hno

theorem find_of_notMem : r.find t k = none := by
  rw [find, hr]
  exact List.find?_eq_none.2 fun q hq => not_map hno q hq

theorem others_of_notMem : r.others t k = r.entries := by
  rw [others, hr]
  exact eraseP_of_forall_not fun q hq => not_map hno q hq

theorem refresh_of_notMem : r.refresh t k = r := by
  rw [refresh, find_of_notMem hr hno, others_of_notMem hr hno]
  rfl

end NotFound

theorem push_of_lt (h : r.entries.length < r.capacity) :
    r.push k v = { r with entries := (k, v) :: r.entries } := if_pos h

theorem push_of_full (hr : r.entries = (ps ++ [p]).map entry)
    (h : ¬ r.entries.length < r.capacity) : r.push k v =
      { r with entries := (k, v) :: ps.map entry, evicted := entry p :: r.evicted } := by
  rw [push, if_neg h, hr, map_append, map_singleton, dropLast_concat, List.getLast?_concat]
  rfl

end Recency

/-! ## Simulation -/

namespace Cached

open Recency

variable {K V : Type} {t : ValueTrait K} {s : Cached K V} {r : Recency K V} {k : K}
  {ps ps1 ps2 : List (ℕ × CacheEntry K V)} {p : ℕ × CacheEntry K V} {ev : CacheEvent K V}
  {a b : ℕ} {v : V}

theorem step_eq {x : Cached K V × Answer V} (h : s.perform t ev = pure x) :
    s.step t ev = some x := by
  rw [step, h]
  rfl

theorem not_same (hno : ∀ q ∈ ps, t.eq q.2.key k = false) : ∀ q ∈ ps, ¬ t.trait.Same q.2.key k :=
  fun q hq hs => Bool.false_ne_true ((hno q hq).symm.trans (t.same_iff.1 hs))

/-- The same entries, in another order. -/
theorem Refines.reorder (h : s.Refines t r) {list : DList (CacheEntry K V)} {r' : Recency K V}
    (hh : LruCache.Holds t.trait Set.univ { s.cache with list } ps) (he : r'.entries = ps.map entry)
    (hc : r'.capacity = r.capacity) (hv : r'.evicted = r.evicted) :
    Refines t ⟨{ s.cache with list }, s.evicted⟩ r' where
  holds := ⟨ps, hh, he⟩
  capacity := h.capacity.trans hc.symm
  evicted := h.evicted.trans hv.symm
  table := hc ▸ h.table

section

variable (h : s.Refines t r) (hpos : 0 < r.capacity) (hh : s.cache.Holds t.trait Set.univ ps)

include h hpos hh

/-- Room is made for a new entry. -/
theorem Refines.room (he : r.entries = ps.map entry) : ∃ c1 log ps1,
    s.cache.room (fun _ => t.trait) onEvict s.evicted = pure (c1, log) ∧
      c1.capacity = r.capacity ∧ c1.map.capacity = s.cache.map.capacity ∧
      c1.Holds t.trait Set.univ ps1 ∧ ps1 ⊆ ps ∧ ps1.length = min ps.length (r.capacity - 1) ∧
      ∀ k v, r.push k v = ⟨r.capacity, (k, v) :: ps1.map entry, log⟩ := by
  have hlen : r.entries.length = ps.length := by rw [he, length_map]
  have hle := hh.length_le
  rw [h.capacity] at hle
  rcases hle.lt_or_eq with hlt | hfull
  · refine ⟨s.cache, s.evicted, ps, hh.room_of_lt _ _ (h.capacity ▸ hlt), h.capacity, rfl, hh,
      List.Subset.refl _, by omega, fun k v => ?_⟩
    rw [push_of_lt (hlen ▸ hlt), he, ← h.evicted]
  -- The last entry is evicted.
  obtain ⟨ps', p, rfl⟩ : ∃ ps' p, ps = ps' ++ [p] := by
    rcases eq_nil_or_concat ps with rfl | ⟨ps', p, rfl⟩
    · exact absurd hfull hpos.ne
    · exact ⟨ps', p, concat_eq_append⟩
  obtain ⟨list, map, hevict, hcap, hh'⟩ := hh.evict_spec (fun _ => t.trait) onEvict
    (s := s.evicted) t.lawful rfl rfl
  refine ⟨_, _, ps', (hh.room_of_full _ _ (hfull.trans h.capacity.symm)).trans hevict, h.capacity,
    hcap, hh', subset_append_left _ _, ?_, fun k v => ?_⟩
  · rw [length_append, length_singleton] at hfull ⊢
    omega
  · rw [push_of_full he (by rw [hlen, hfull]; exact lt_irrefl _), ← h.evicted]

variable (hno : ∀ q ∈ ps, t.eq q.2.key k = false) (hev : s.Proper t (.insert a b k v))

include hno hev

/-- A key which is not there is inserted, or the table cannot be enlarged. -/
theorem Refines.insert_new (he : r.entries = ps.map entry) :
    s.Stuck t (.insert a b k v) ∧ s.perform t (.insert a b k v) = throw .kmallocTooBig ∨
    ¬ s.Stuck t (.insert a b k v) ∧
      ∃ s', s.step t (.insert a b k v) = some (s', .done) ∧ s'.Refines t (r.push k v) := by
  obtain ⟨c1, log, ps1, hroom, hcap, htab, h1, hsub, hlen, hpush⟩ := h.room hpos hh he
  obtain ⟨ha, hb, hfree⟩ := hev
  have hfree := of_decide_eq_true ((Option.all_eq_true ..).1 hfree (c1, log) (by rw [hroom]; rfl))
  have hno1 : ∀ q ∈ ps1, ¬ t.trait.Same q.2.key k := fun q hq => not_same hno q (hsub hq)
  have hmax : kmallocMax = 131072 := by decide
  have htable := h.table
  -- Making room does not change whether the table is full, if it is too large.
  have hstuck : s.Stuck t (.insert a b k v) ↔ c1.map.Full ∧ kmallocMax < c1.map.capacity * 2 * 8 := by
    rw [Stuck, hh.contains_map_of_notMem t.lawful (Set.mem_univ k) (not_same hno), HashMap.Full,
      HashMap.Full, hh.count_eq, h1.count_eq, htab]
    have hle := hh.length_le
    rw [h.capacity] at hle
    exact ⟨fun hs => ⟨by omega, hs.2.2⟩, fun hs => ⟨rfl, by omega, hs.2⟩⟩
  obtain ⟨hf, hbig, hins⟩ | ⟨hsize, list, map, hins, hcap', hh'⟩ :=
    hh.insert_of_notMem (fun _ => t.trait) onEvict (s := s.evicted) t.lawful
      (Set.mem_univ k) (not_same hno) hroom h1 t.lawful hno1 (by omega) ha
      (Option.isNone_iff_eq_none.1 hfree.1) hb (Option.isNone_iff_eq_none.1 hfree.2) v
  · exact .inl ⟨hstuck.2 ⟨hf, hbig⟩, by rw [perform, hins]; rfl⟩
  refine .inr ⟨fun hs => absurd (hsize (hstuck.1 hs).1) (not_le.2 (hstuck.1 hs).2), ⟨_, log⟩,
    step_eq (by rw [perform, hins]; rfl), ?_⟩
  rw [hpush]
  refine ⟨⟨_, hh', rfl⟩, hcap, rfl, ?_⟩
  rw [hcap', htab]
  split_ifs with hf
  · rw [HashMap.Full, h1.count_eq, htab] at hf
    exact .inr (show _ = r.capacity * 2 by omega)
  · exact htable

end

/-- The table of a small cache can be enlarged. -/
theorem Refines.not_stuck (h : s.Refines t r) (hsize : r.capacity ≤ 8192) : ¬ s.Stuck t ev := by
  obtain ⟨ps, hh, -⟩ := h.holds
  cases ev with
  | insert =>
    rintro ⟨-, hf, hbig⟩
    have hmax : kmallocMax = 131072 := by decide
    have hle := hh.length_le
    have htable := h.table
    rw [HashMap.Full, hh.count_eq] at hf
    rw [h.capacity] at hle
    omega
  | _ => exact id

/-- A new key for which a larger table is needed is not inserted. -/
theorem Refines.perform_of_stuck (h : s.Refines t r) (hpos : 0 < r.capacity) (hev : s.Proper t ev)
    (hstuck : s.Stuck t ev) : s.perform t ev = throw .kmallocTooBig := by
  obtain ⟨ps, hh, he⟩ := h.holds
  cases ev with
  | insert a b key value =>
    rcases split t key ps with ⟨ps1, p, ps2, rfl, hp, -⟩ | hno
    · have := hstuck.1.symm.trans (hh.contains_map_of_mem t.lawful (Set.mem_univ key)
        (mem_append_right _ (.head _)) (t.same_iff.2 hp))
      cases this
    · obtain ⟨-, hthrow⟩ | ⟨hnot, -⟩ := h.insert_new hpos hh hno hev he
      · exact hthrow
      · exact absurd hstuck hnot
  | _ => cases hstuck

/-- Every operation which may be made does what it should. -/
theorem Refines.step (h : s.Refines t r) (hpos : 0 < r.capacity) (hev : s.Proper t ev)
    (hfree : 8192 < r.capacity → ¬ s.Stuck t ev) :
    ∃ s' r' o, s.step t ev = some (s', o) ∧ r.step t ev = some (r', o) ∧ s'.Refines t r' ∧
      r'.capacity = r.capacity := by
  have hfree : ¬ s.Stuck t ev := (le_or_gt r.capacity 8192).elim h.not_stuck hfree
  obtain ⟨ps, hh, he⟩ := h.holds
  have hu (k : K) := Set.mem_univ k
  cases ev with
  | contains key =>
    rcases split t key ps with ⟨ps1, p, ps2, rfl, hp, hno⟩ | hno
    · obtain ⟨list, hc, hh'⟩ := hh.contains_of_mem t.lawful (hu key) (t.same_iff.2 hp)
      refine ⟨_, _, _, step_eq (by rw [perform, hc]; rfl), ?_,
        h.reorder hh' (refresh_of_mem he hp hno) rfl rfl, rfl⟩
      rw [Recency.step, find_of_mem he hp hno]
      rfl
    · have hc := hh.contains_of_notMem t.lawful (hu key) (not_same hno)
      refine ⟨s, _, _, step_eq (by rw [perform, hc]; rfl), ?_, h, rfl⟩
      rw [Recency.step, refresh_of_notMem he hno, find_of_notMem he hno]
      rfl
  | get key =>
    rcases split t key ps with ⟨ps1, p, ps2, rfl, hp, hno⟩ | hno
    · obtain ⟨list, hc, hh'⟩ := hh.get_of_mem t.lawful (hu key) (t.same_iff.2 hp)
      refine ⟨_, _, _, step_eq (by rw [perform, hc]; rfl), ?_,
        h.reorder hh' (refresh_of_mem he hp hno) rfl rfl, rfl⟩
      rw [Recency.step, find_of_mem he hp hno]
      rfl
    · have hc := hh.get_of_notMem t.lawful (hu key) (not_same hno)
      refine ⟨s, _, _, step_eq (by rw [perform, hc]; rfl), ?_, h, rfl⟩
      rw [Recency.step, refresh_of_notMem he hno, find_of_notMem he hno]
      rfl
  | atKey key =>
    rcases split t key ps with ⟨ps1, p, ps2, rfl, hp, hno⟩ | hno
    · have hc := hh.atKey_of_mem t.lawful (hu key)
        (mem_append_right _ (.head _)) (t.same_iff.2 hp)
      refine ⟨s, r, _, step_eq (by rw [perform, hc]; rfl), ?_, h, rfl⟩
      rw [Recency.step, find_of_mem he hp hno]
      rfl
    · have hev : s.cache.map.contains t.trait key = pure true := hev
      rw [hh.contains_map_of_notMem t.lawful (hu key) (not_same hno)] at hev
      cases hev
  | insert a b key value =>
    rcases split t key ps with ⟨ps1, p, ps2, rfl, hp, hno⟩ | hno
    · obtain ⟨list, hc, hh'⟩ := hh.insert_of_mem (fun _ => t.trait) onEvict
        (s := s.evicted) (a := a) (b := b) t.lawful (hu key) (t.same_iff.2 hp) value
      refine ⟨_, _, _, step_eq (by rw [perform, hc]; rfl), ?_,
        h.reorder hh' (refresh_of_mem he hp hno) rfl rfl, rfl⟩
      rw [Recency.step, find_of_mem he hp hno]
      rfl
    · obtain ⟨-, s', hs', hr'⟩ := (h.insert_new hpos hh hno hev he).resolve_left fun hs => hfree hs.1
      refine ⟨s', _, .done, hs', ?_, hr', ?_⟩
      · rw [Recency.step, find_of_notMem he hno]
        rfl
      · rw [push]
        split_ifs <;> rfl
  | erase key =>
    rcases split t key ps with ⟨ps1, p, ps2, rfl, hp, hno⟩ | hno
    · obtain ⟨list, map, hc, hcap, hh'⟩ := hh.erase_of_mem t.lawful (hu key) (t.same_iff.2 hp)
      exact ⟨⟨{ s.cache with list, map }, s.evicted⟩, _, _, step_eq (by rw [perform, hc]; rfl), rfl,
        ⟨⟨_, hh', others_of_mem he hp hno⟩, h.capacity, h.evicted, hcap ▸ h.table⟩, rfl⟩
    · have hc := hh.erase_of_notMem t.lawful (hu key) (not_same hno)
      refine ⟨s, _, _, step_eq (by rw [perform, hc]; rfl), ?_, h, rfl⟩
      rw [Recency.step, others_of_notMem he hno]

/-- With a capacity from 1 to 8192, every sequence of operations is made without a panic, if only
    entries which are there are read by `at`; with a capacity up to 16384, every one without an
    insertion which needs a larger table, and such an insertion panics. The cache gives the answers of a
    bounded list of keys and values, the most recently used one first, and is what it should be in the
    end: its doubly linked list holds the keys and values in this order, no key twice and not more
    than the capacity; its map leads from each key to its node, and holds no other keys; and the
    callback has been told the least recently used entry whenever a key was inserted into a full
    cache. -/
theorem run_refines (t : ValueTrait K) {capacity : ℕ} {c : LruCache K V} (hpos : 0 < capacity)
    (hnew : LruCache.new capacity = pure c) {es : List (CacheEvent K V)}
    (hes : Allowed (fun s : Cached K V => s.step t)
      (fun s ev => s.Proper t ev ∧ (8192 < capacity → ¬ s.Stuck t ev)) ⟨c, []⟩ es) :
    ∃ s r os, runs (fun s : Cached K V => s.step t) ⟨c, []⟩ es = some (s, os) ∧
      runs (fun r : Recency K V => r.step t) ⟨capacity, [], []⟩ es = some (r, os) ∧
      s.Refines t r ∧ r.capacity = capacity ∧
      ∀ ev, s.Proper t ev → s.Stuck t ev → s.perform t ev = throw .kmallocTooBig := by
  have hsize : capacity * 8 ≤ kmallocMax := by
    by_contra hbig
    rw [LruCache.new_tooBig (not_le.1 hbig)] at hnew
    cases hnew
  obtain ⟨s, r, os, hs, hr, h, hcap⟩ := hes.runs
    (R := fun s r => s.Refines t r ∧ r.capacity = capacity)
    (t := ⟨capacity, [], []⟩) (fun s r ev hR hev => by
      obtain ⟨h, rfl⟩ := hR
      obtain ⟨s', r', o, hs, hr, h', hc⟩ := h.step hpos hev.1 hev.2
      exact ⟨s', r', o, hs, hr, h', hc⟩) (by
      obtain ⟨c', hc', hcap, htab, hh⟩ := LruCache.new_spec (K := K) (V := V) (t := t.trait)
        (G := Set.univ) hpos hsize
      rw [hnew] at hc'
      cases hc'
      exact ⟨⟨⟨[], hh, rfl⟩, hcap, rfl, .inl htab⟩, rfl⟩)
  exact ⟨s, r, os, hs, hr, h, hcap, fun ev => h.perform_of_stuck (hcap ▸ hpos)⟩

instance (t : ValueTrait K) (s : Cached K V) (ev : CacheEvent K V) : Decidable (s.Proper t ev) := by
  cases ev <;> unfold Proper <;> infer_instance

instance (t : ValueTrait K) (s : Cached K V) (ev : CacheEvent K V) : Decidable (s.Stuck t ev) := by
  cases ev <;> unfold Stuck <;> infer_instance

/-- A cache for two entries, before it is used. -/
def small : Cached UInt32 ℕ := ⟨⟨2, .new, ⟨fun _ => 0, 2, 0, fun _ => none⟩⟩, []⟩

/-- Two keys are inserted, and the first one is used before a third one is inserted. -/
def used : List (CacheEvent UInt32 ℕ) :=
  [.insert 8 16 5 50, .insert 24 32 6 60, .contains 5, .insert 24 32 7 70, .get 5, .atKey 7, .erase 5]

/-- The second one is evicted. -/
theorem run_refines_used :
    (lastState (fun s : Cached UInt32 ℕ => s.step .uint32) small used).evicted = [(6, 60)] ∧
    ∃ s r os, runs (fun s : Cached UInt32 ℕ => s.step .uint32) small used = some (s, os) ∧
      runs (fun r : Recency UInt32 ℕ => r.step .uint32) ⟨2, [], []⟩ used = some (r, os) ∧
      s.Refines .uint32 r := by
  obtain ⟨s, r, os, hs, hr, h, -⟩ := run_refines .uint32 (show 0 < 2 by decide) rfl
    (show Allowed _ _ _ used from .of_isSome (by decide +kernel))
  exact ⟨by decide +kernel, s, r, os, hs, hr, h⟩

/-- A cache for 16385 entries cannot be created. -/
theorem cache_panics : (LruCache.new 16385 : Except Panic (LruCache UInt32 ℕ)) =
    throw .kmallocTooBig := LruCache.new_tooBig (by decide)

end Cached

end HobbyOS
