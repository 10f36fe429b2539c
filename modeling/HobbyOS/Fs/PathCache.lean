import HobbyOS.Lib.LruCache

/-!
# The path cache

`PathCache`: an LRU cache from paths to inode numbers. Its keys are pointers to strings, which
belong to the entries (`PathEntry`); the callback of the cache (`freePathEntry`) frees the string of
an entry which is evicted, and the entry. Freeing a block writes the free index of its slab into
its first word.

Whether it is noticed that a string is used after it has been freed is up to the heap (`watch`).
With that, an operation on paths of which none is evicted and none erased by `invalidatePrefix`
uses strings only while they are there. The others do not: `LRUCache` calls the callback before it
erases the key from its map.
-/

namespace HobbyOS

open Function List LruCache

/-- A string, without the null byte at its end; there are less than 4 GiB of memory. -/
structure CString where
  bytes : List UInt8
  nonzero : ∀ b ∈ bytes, b ≠ 0
  short : bytes.length + 1 < 2 ^ 32

/-- A pointer to a string: a block of the heap, or the argument of a call. -/
inductive Str
  | heap (a : ℕ)
  | arg (path : CString)

/-- `PathEntry`. -/
structure PathEntry where
  path : ℕ
  inodeNum : ℕ

/-- The blocks of the heap with strings, and the entries. -/
structure Strings where
  block : ℕ → List UInt8
  live : ℕ → Bool
  entry : ℕ → Option PathEntry
  /-- The use of a block which has been freed is noticed. -/
  watch : Bool

namespace Strings

variable (s : Strings)

/-- The bytes up to the first null byte. -/
def text : Str → List UInt8
  | .heap a => (s.block a).takeWhile (· ≠ 0)
  | .arg path => path.bytes

/-- The string is there. -/
def intact : Str → Bool
  | .heap a => s.live a
  | .arg _ => true

/-- A string is used. -/
def touch (k : Str) : Except Panic Unit :=
  if s.watch ∧ s.intact k = false then throw .wild else pure ()

/-- The hash of a string. -/
def djb2 (bytes : List UInt8) : ℕ :=
  bytes.foldl (fun h c => ((h <<< 5) + h) % 2 ^ 64 ^^^ c.toNat) 5381

/-- `HashTrait<const char*>`. -/
def trait : HashTrait Str where
  hash k capacity := do
    s.touch k
    pure (djb2 (s.text k) % capacity)
  eq a b := do
    s.touch a
    s.touch b
    pure (decide (s.text a = s.text b))

/-- An entry is read. -/
def read (e : ℕ) : Except Panic PathEntry := (s.entry e).elim (throw .wild) pure

/-- `delete entry`. -/
def delete (e : ℕ) : Strings := { s with entry := update s.entry e none }

/-- `MemoryAllocator::kfree`: the first word of the block is the free index. -/
def kfree (index : UInt32) (a : ℕ) : Except Panic Strings :=
  if s.live a then
    pure { s with
      block := update s.block a
        ((List.range 4).map (fun i => (index.toNat >>> (8 * i)).toUInt8) ++ (s.block a).drop 4)
      live := update s.live a false }
  else throw .wild

/-- `freePathEntry`; `free` are the free indices of the slabs. -/
def freePathEntry (free : ℕ → UInt32) (_ : Str) (entry : ℕ) : Except Panic Strings :=
  if entry = 0 then pure s
  else do
    let e ← s.read entry
    let s ← if e.path ≠ 0 then s.kfree (free e.path) e.path else pure s
    pure (s.delete entry)

/-- A new entry, at the address `e`, with its own copy of a path, at the address `p`. -/
def create (e p : ℕ) (path : CString) (inodeNum : ℕ) : Strings :=
  { s with
    block := update s.block p (path.bytes ++ 0 :: (s.block p).drop (path.bytes.length + 1))
    live := update s.live p true
    entry := update s.entry e (some ⟨p, inodeNum⟩) }

/-- A path is in a directory, or is the directory. -/
def Below (dir : CString) (path : List UInt8) : Prop :=
  dir.bytes <+: path ∧ (path[dir.bytes.length]? = none ∨ path[dir.bytes.length]? = some 47)

instance (dir : CString) (path : List UInt8) : Decidable (Below dir path) :=
  inferInstanceAs (Decidable (_ ∧ (_ ∨ _)))

/-- Whether `invalidatePrefix` is to erase an entry. -/
def matching (dir : CString) (_ : Str) (entry : ℕ) : Except Panic Bool :=
  if entry = 0 then pure false
  else do
    let e ← s.read entry
    if e.path = 0 then pure false
    else do
      s.touch (.heap e.path)
      pure (decide (Below dir (s.text (.heap e.path))))

end Strings

/-- `PathCache::s_cache`, and the heap. -/
structure PathCache where
  cache : Option (LruCache Str ℕ)
  heap : Strings

/-- What is done next. -/
inductive PathEvent
  | lookup (path : CString)
  /-- The entry, its path, the node of the list and the entry of the map are at these addresses. -/
  | insert (e p a b : ℕ) (path : CString) (inodeNum : ℕ) (free : ℕ → UInt32)
  | invalidate (path : CString) (free : ℕ → UInt32)
  | invalidatePrefix (dir : CString) (free : ℕ → UInt32)

namespace PathCache

variable (s : PathCache)

/-- `LRUCache::DEFAULT_CAPACITY`. -/
def capacity : ℕ := 1024

/-- `PathCache::lookup`. -/
def lookup (path : CString) : Except Panic (ℕ × PathCache) :=
  match s.cache with
  | none => pure (0, s)
  | some c => do
    let r ← c.contains s.heap.trait (.arg path)
    if r.1 then do
      let entry ← r.2.atKey s.heap.trait (.arg path)
      let e ← s.heap.read entry
      pure (e.inodeNum, { s with cache := some r.2 })
    else pure (0, { s with cache := some r.2 })

/-- `PathCache::insert`. -/
def insert (e p a b : ℕ) (path : CString) (inodeNum : ℕ) (free : ℕ → UInt32) :
    Except Panic PathCache :=
  if inodeNum = 0 then pure s
  else do
    let c ← s.cache.elim (new capacity) pure
    let r ← c.contains s.heap.trait (.arg path)
    if r.1 then do
      let entry ← r.2.atKey s.heap.trait (.arg path)
      let old ← s.heap.read entry
      pure ⟨some r.2, { s.heap with
        entry := update s.heap.entry entry (some { old with inodeNum }) }⟩
    else do
      kmalloc (path.bytes.length + 1)
      let r ← r.2.insert Strings.trait (fun k v h => h.freePathEntry free k v) a b (.heap p) e
        (s.heap.create e p path inodeNum)
      pure ⟨some r.1, r.2⟩

/-- `PathCache::invalidate`. -/
def invalidate (path : CString) (free : ℕ → UInt32) : Except Panic PathCache :=
  match s.cache with
  | none => pure s
  | some c => do
    let r ← c.contains s.heap.trait (.arg path)
    if r.1 then do
      let entry ← r.2.atKey s.heap.trait (.arg path)
      let c ← r.2.erase s.heap.trait (.arg path)
      let e ← s.heap.read entry
      let heap ← s.heap.kfree (free e.path) e.path
      pure ⟨some c, heap.delete entry⟩
    else pure { s with cache := some r.2 }

/-- `PathCache::invalidatePrefix`. -/
def invalidatePrefix (dir : CString) (free : ℕ → UInt32) : Except Panic PathCache :=
  match s.cache with
  | none => pure s
  | some c => do
    let r ← eraseIf Strings.trait (fun k v h => h.freePathEntry free k v)
      (fun k v h => h.matching dir k v) (c.list.size + 1) c.list.head c s.heap
    pure ⟨some r.1, r.2⟩

/-- An operation. -/
def perform : PathEvent → Except Panic PathCache
  | .lookup path => do
    let r ← s.lookup path
    pure r.2
  | .insert e p a b path inodeNum free => s.insert e p a b path inodeNum free
  | .invalidate path free => s.invalidate path free
  | .invalidatePrefix dir free => s.invalidatePrefix dir free

/-- One step; there is none after a panic. -/
def step (ev : PathEvent) : Option (PathCache × Unit) := (s.perform ev).toOption.map (·, ())

/-- The entries of the cache. -/
def entries : List (CacheEntry Str ℕ) := s.cache.elim [] fun c => c.list.visit c.list.size c.list.head

/-- A path is in the cache. -/
def Caches (path : CString) : Prop := ∃ e ∈ s.entries, s.heap.text e.key = path.bytes

instance (path : CString) : Decidable (s.Caches path) := inferInstanceAs (Decidable (∃ e ∈ _, _))

/-- The addresses of new objects are free. -/
def Proper : PathEvent → Prop
  | .insert e p a b _ _ _ => e ≠ 0 ∧ p ≠ 0 ∧ a ≠ 0 ∧ b ≠ 0 ∧ (s.heap.entry e).isNone ∧
      s.heap.live p = false ∧ s.cache.all fun c => (c.list.value a).isNone ∧ (c.map.node b).isNone
  | _ => True

/-- Nothing is evicted, and nothing is erased by `invalidatePrefix`. -/
def Keeping : PathEvent → Prop
  | .insert _ _ _ _ path inodeNum _ =>
      inodeNum = 0 ∨ s.Caches path ∨ s.entries.length < capacity ∨ kmallocMax < path.bytes.length + 1
  | .invalidatePrefix dir _ => ∀ e ∈ s.entries, ¬ Strings.Below dir (s.heap.text e.key)
  | _ => True

end PathCache

/-! ## Strings -/

namespace Strings

variable {s s' : Strings} {k k' : Str} {a e p n i : ℕ} {path dir : CString}

/-- The strings which are there. -/
def Good (s : Strings) : Set Str := {k | s.intact k = true}

theorem arg_good : Str.arg path ∈ s.Good := rfl

theorem touch_good (h : k ∈ s.Good) : s.touch k = pure () := by
  refine if_neg fun hk => ?_
  rw [show s.intact k = true from h] at hk
  exact Bool.false_ne_true hk.2.symm

theorem hash_good (h : k ∈ s.Good) : s.trait.hash k n = pure (djb2 (s.text k) % n) := by
  show (s.touch k >>= fun _ => _) = _
  rw [touch_good h, pure_bind]

theorem eq_good (h : k ∈ s.Good) (h' : k' ∈ s.Good) :
    s.trait.eq k k' = pure (decide (s.text k = s.text k')) := by
  show (s.touch k >>= fun _ => _) = _
  rw [touch_good h, pure_bind, touch_good h', pure_bind]

theorem same_iff (h : k ∈ s.Good) (h' : k' ∈ s.Good) :
    s.trait.Same k k' ↔ s.text k = s.text k' := by
  rw [HashTrait.Same, eq_good h h']
  exact ⟨fun he => of_decide_eq_true (Except.ok.inj he), fun he => congrArg pure (decide_eq_true he)⟩

theorem lawful : s.trait.Lawful s.Good where
  hash _ hk _ hn := ⟨_, Nat.mod_lt _ hn, hash_good hk⟩
  eq _ ha _ hb := ⟨_, eq_good ha hb⟩
  refl _ ha := (same_iff ha ha).2 rfl
  symm _ ha _ hb h := (same_iff hb ha).2 ((same_iff ha hb).1 h).symm
  trans _ ha _ hb _ hc h h' := (same_iff ha hc).2 (((same_iff ha hb).1 h).trans ((same_iff hb hc).1 h'))
  respects _ ha _ hb h n := by rw [hash_good ha, hash_good hb, (same_iff ha hb).1 h]

/-- A string which has been freed is used. -/
theorem hash_freed (hw : s.watch = true) (h : s.intact k = false) :
    s.trait.hash k n = throw .wild := by
  show (s.touch k >>= fun _ => _) = _
  rw [touch, if_pos ⟨hw, h⟩]
  rfl

theorem read_of_some {x : PathEntry} (h : s.entry e = some x) : s.read e = pure x := by
  rw [read, h]
  rfl

/-- The string and the entry are freed. -/
theorem freePathEntry_eq (free : ℕ → UInt32) (he : e ≠ 0) (hread : s.entry e = some ⟨a, i⟩)
    (ha : a ≠ 0) (hlive : s.live a = true) : ∃ h, s.kfree (free a) a = pure h ∧
      s.freePathEntry free k e = pure (h.delete e) := by
  refine ⟨_, if_pos hlive, ?_⟩
  rw [freePathEntry, if_neg he, read_of_some hread, pure_bind]
  rw [if_pos ha, kfree, if_pos hlive, pure_bind]

theorem kfree_eq {index : UInt32} (h : s.kfree index a = pure s') :
    s'.watch = s.watch ∧ s'.entry = s.entry ∧ s'.live = update s.live a false ∧
      ∀ b, b ≠ a → s'.block b = s.block b := by
  rw [kfree] at h
  split_ifs at h
  · cases h
    exact ⟨rfl, rfl, rfl, fun b hb => update_of_ne hb _ _⟩
  · cases h

theorem matching_eq (he : e ≠ 0) (hread : s.entry e = some ⟨a, i⟩) (ha : a ≠ 0)
    (hlive : s.live a = true) :
    s.matching dir k e = pure (decide (Below dir (s.text (.heap a)))) := by
  rw [matching, if_neg he, read_of_some hread, pure_bind]
  rw [if_neg ha, touch_good (show Str.heap a ∈ s.Good from hlive), pure_bind]

/-- The copy of a path. -/
theorem text_create (s : Strings) (path : CString) (e p i : ℕ) :
    (s.create e p path i).text (.heap p) = path.bytes := by
  have hall : ∀ b ∈ path.bytes, decide (b ≠ 0) = true := fun b hb => decide_eq_true (path.nonzero b hb)
  show List.takeWhile _ (update s.block p _ p) = _
  rw [update_self, takeWhile_append_of_pos hall]
  simp

end Strings

/-! ## What the cache keeps -/

namespace PathCache

open Strings

variable {s : PathCache} {h h' : Strings} {c c' : LruCache Str ℕ} {path : CString}
  {ps ps1 ps2 qs : List (ℕ × CacheEntry Str ℕ)} {p : ℕ × CacheEntry Str ℕ}

/-- The cache holds these entries, and the key of each is the string of its `PathEntry`. -/
structure Kept (h : Strings) (c : LruCache Str ℕ) (ps : List (ℕ × CacheEntry Str ℕ)) : Prop where
  holds : c.Holds h.trait h.Good ps
  capacity : c.capacity = capacity
  table : c.map.capacity = PathCache.capacity ∨ c.map.capacity = PathCache.capacity * 2
  entries : ∀ p ∈ ps, ∃ a i, p.2.key = .heap a ∧ a ≠ 0 ∧ p.2.value ≠ 0 ∧
    h.entry p.2.value = some ⟨a, i⟩

/-- There is no cache, or all is well with it. -/
def Sound (s : PathCache) : Prop := s.cache = none ∨ ∃ c ps, s.cache = some c ∧ Kept s.heap c ps

namespace Kept

theorem live (k : Kept h c ps) (hp : p ∈ ps) (ha : p.2.key = .heap a) : h.live a = true := by
  have := k.holds.mem_keys hp
  rwa [ha] at this

theorem perm {list : DList (CacheEntry Str ℕ)} (k : Kept h c ps)
    (hh : LruCache.Holds h.trait h.Good { c with list } qs) (hs : qs ⊆ ps) :
    Kept h { c with list } qs :=
  ⟨hh, k.capacity, k.table, fun p hp => k.entries p (hs hp)⟩

/-- The heap changes elsewhere. -/
theorem transfer (k : Kept h c ps)
    (hkey : ∀ p ∈ ps, ∀ a, p.2.key = .heap a → h'.live a = h.live a ∧ h'.block a = h.block a)
    (hentry : ∀ p ∈ ps, ∀ a i, h.entry p.2.value = some ⟨a, i⟩ →
      ∃ i', h'.entry p.2.value = some ⟨a, i'⟩) : Kept h' c ps := by
  have hgood : ∀ p ∈ ps, p.2.key ∈ h'.Good ∧ h'.text p.2.key = h.text p.2.key := by
    intro p hp
    obtain ⟨a, -, ha, -⟩ := k.entries p hp
    obtain ⟨hl, hb⟩ := hkey p hp a ha
    rw [ha]
    exact ⟨hl.trans (k.live hp ha), by rw [text, text, hb]⟩
  refine ⟨k.holds.transfer (fun p hp => (hgood p hp).1) (fun p hp n => ?_) (fun p hp q hq hs => ?_),
    k.capacity, k.table, fun p hp => ?_⟩
  · rw [hash_good (hgood p hp).1, hash_good (k.holds.mem_keys hp), (hgood p hp).2]
  · rw [same_iff (hgood p hp).1 (hgood q hq).1, (hgood p hp).2, (hgood q hq).2] at hs
    exact (same_iff (k.holds.mem_keys hp) (k.holds.mem_keys hq)).2 hs
  · obtain ⟨a, i, ha, hz, hv, he⟩ := k.entries p hp
    obtain ⟨i', he'⟩ := hentry p hp a i he
    exact ⟨a, i', ha, hz, hv, he'⟩

/-- A path is held by an entry, or by none. -/
theorem split (k : Kept h c ps) (path : CString) :
    (∃ ps1 p ps2, ps = ps1 ++ p :: ps2 ∧ h.trait.Same p.2.key (.arg path) ∧
      h.text p.2.key = path.bytes) ∨
    ∀ p ∈ ps, ¬ h.trait.Same p.2.key (.arg path) ∧ h.text p.2.key ≠ path.bytes := by
  have hiff : ∀ p ∈ ps, h.trait.Same p.2.key (.arg path) ↔ h.text p.2.key = path.bytes :=
    fun p hp => same_iff (k.holds.mem_keys hp) arg_good
  by_cases hex : ∃ p ∈ ps, h.text p.2.key = path.bytes
  · obtain ⟨p, hp, ht⟩ := hex
    obtain ⟨ps1, ps2, rfl⟩ := append_of_mem hp
    exact .inl ⟨ps1, p, ps2, rfl, (hiff p hp).2 ht, ht⟩
  · exact .inr fun p hp => ⟨fun hs => hex ⟨p, hp, (hiff p hp).1 hs⟩, fun ht => hex ⟨p, hp, ht⟩⟩

/-- The entries are found by a loop over the list. -/
theorem entries_eq (k : Kept s.heap c ps) (hc : s.cache = some c) : s.entries = ps.map Prod.snd := by
  rw [PathCache.entries, hc]
  exact k.holds.linked.visit_eq

end Kept

/-! ## The operations -/

variable {e a b i q : ℕ} {free : ℕ → UInt32} {dir : CString}

/-- An entry which is found is moved to the front. -/
theorem Kept.found (k : Kept h c (ps1 ++ p :: ps2)) (hs : h.trait.Same p.2.key (.arg path)) :
    ∃ list, c.contains h.trait (.arg path) = pure (true, { c with list }) ∧
      Kept h { c with list } (p :: (ps1 ++ ps2)) ∧
      atKey h.trait { c with list } (.arg path) = pure p.2.value := by
  obtain ⟨list, hc, hh⟩ := k.holds.contains_of_mem lawful arg_good hs
  exact ⟨list, hc, k.perm hh (perm_middle.symm.subset),
    hh.atKey_of_mem lawful arg_good mem_cons_self hs⟩

theorem Kept.not_found (k : Kept h c ps) (hno : ∀ p ∈ ps, ¬ h.trait.Same p.2.key (.arg path)) :
    c.contains h.trait (.arg path) = pure (false, c) :=
  k.holds.contains_of_notMem lawful arg_good hno

theorem lookup_sound (h : s.Sound) (path : CString) : ∃ r, s.lookup path = pure r ∧ r.2.Sound ∧
    r.2.heap = s.heap := by
  rcases h with hc | ⟨c, ps, hc, k⟩
  · exact ⟨(0, s), by rw [lookup, hc], .inl hc, rfl⟩
  rcases k.split path with ⟨ps1, p, ps2, rfl, hs, -⟩ | hno
  · obtain ⟨list, hf, k', hat⟩ := k.found hs
    obtain ⟨a, i, -, -, -, he⟩ := k'.entries p (.head _)
    refine ⟨(i, { s with cache := some { c with list } }), ?_, .inr ⟨_, _, rfl, k'⟩, rfl⟩
    rw [lookup, hc]
    dsimp only
    rw [hf, pure_bind, if_pos rfl, hat, pure_bind, read_of_some he, pure_bind]
  · refine ⟨(0, { s with cache := some c }), ?_, .inr ⟨c, ps, rfl, k⟩, rfl⟩
    rw [lookup, hc]
    dsimp only
    rw [k.not_found fun p hp => (hno p hp).1, pure_bind, if_neg Bool.false_ne_true]

/-- The string of an entry is the string of no other one. -/
theorem Kept.key_ne (k : Kept h c (p :: ps)) {q : ℕ × CacheEntry Str ℕ} (hq : q ∈ ps) :
    q.2.key ≠ p.2.key := by
  intro hkey
  have hq' : q ∈ p :: ps := mem_cons_of_mem _ hq
  have heq := k.holds.eq_of_same lawful hq' (.head _)
    (hkey ▸ lawful.refl _ (k.holds.mem_keys hq'))
  refine (nodup_cons.1 k.holds.linked.links.nodup).1 ?_
  rw [← heq]
  exact mem_map_of_mem hq

/-- The path of an entry is freed, and the entry; the others are as before. -/
theorem Kept.release {index : UInt32} (k : Kept h c (p :: ps)) (hh : c'.Holds h.trait h.Good ps)
    (hcap : c'.capacity = c.capacity) (htab : c'.map.capacity = c.map.capacity)
    (ha : p.2.key = .heap a) (hfree : h.kfree index a = pure h') :
    Kept (h'.delete p.2.value) c' ps := by
  obtain ⟨-, hentry, hlive, hblock⟩ := kfree_eq hfree
  have k' : Kept h c' ps := ⟨hh, hcap.trans k.capacity, htab ▸ k.table,
    fun q hq => k.entries q (.tail _ hq)⟩
  refine k'.transfer (fun q hq b hb => ?_) fun q hq b i hqe => ⟨i, ?_⟩
  · have hne : b ≠ a := by
      rintro rfl
      exact k.key_ne hq (hb.trans ha.symm)
    exact ⟨(congrFun hlive b).trans (update_of_ne hne _ _), hblock b hne⟩
  -- Two entries of the cache with one `PathEntry` would have one string.
  have hne : q.2.value ≠ p.2.value := by
    intro hv
    obtain ⟨a1, i1, ha1, -, -, he1⟩ := k.entries p (.head _)
    obtain ⟨a2, i2, ha2, -, -, he2⟩ := k'.entries q hq
    rw [hv, he1] at he2
    cases he2
    exact k.key_ne hq (ha2.trans ha1.symm)
  exact (update_of_ne hne _ _).trans ((congrFun hentry _).trans hqe)

theorem invalidate_sound (h : s.Sound) : ∃ s', s.invalidate path free = pure s' ∧ s'.Sound ∧
    s'.heap.watch = s.heap.watch := by
  rcases h with hc | ⟨c, ps, hc, k⟩
  · exact ⟨s, by rw [invalidate, hc], .inl hc, rfl⟩
  rcases k.split path with ⟨ps1, p, ps2, rfl, hs, -⟩ | hno
  · obtain ⟨list, hf, k', hat⟩ := k.found hs
    obtain ⟨a, i, ha, -, -, he⟩ := k'.entries p (.head _)
    have hfirst : LruCache.Holds s.heap.trait s.heap.Good { c with list }
      ([] ++ p :: (ps1 ++ ps2)) := k'.holds
    obtain ⟨list', map, herase, htab, hh⟩ := hfirst.erase_of_mem lawful arg_good hs
    have hfree : s.heap.kfree (free a) a = pure _ := if_pos (k'.live mem_cons_self ha)
    have hk := k'.release hh rfl htab ha hfree
    refine ⟨⟨some _, _⟩, ?_, .inr ⟨_, _, rfl, hk⟩, (kfree_eq hfree).1⟩
    rw [invalidate, hc]
    dsimp only
    rw [hf, pure_bind, if_pos rfl, hat, pure_bind, herase, pure_bind, read_of_some he, pure_bind,
      hfree, pure_bind]
    rfl
  · refine ⟨{ s with cache := some c }, ?_, .inr ⟨c, ps, rfl, k⟩, rfl⟩
    rw [invalidate, hc]
    dsimp only
    rw [k.not_found fun p hp => (hno p hp).1, pure_bind, if_neg Bool.false_ne_true]

/-- The callback frees the string of an entry. -/
theorem Kept.evicts (k : Kept h c ps) (hp : p ∈ ps) (hw : h.watch = true) (free : ℕ → UInt32) :
    ∃ h', h.freePathEntry free p.2.key p.2.value = pure h' ∧
      ∀ n, h'.trait.hash p.2.key n = throw .wild := by
  obtain ⟨a, i, ha, hz, hv, he⟩ := k.entries p hp
  obtain ⟨h1, hfree, hev⟩ := freePathEntry_eq (k := p.2.key) free hv he hz (k.live hp ha)
  obtain ⟨hw1, -, hlive, -⟩ := kfree_eq hfree
  refine ⟨_, hev, fun n => hash_freed (hw1.trans hw) ?_⟩
  rw [ha]
  exact (congrFun hlive a).trans (update_self _ _ _)

theorem Kept.matching (k : Kept h c ps) (hp : p ∈ ps) :
    h.matching dir p.2.key p.2.value = pure (decide (Below dir (h.text p.2.key))) := by
  obtain ⟨a, i, ha, hz, hv, he⟩ := k.entries p hp
  rw [matching_eq hv he hz (k.live hp ha), ha]

theorem invalidatePrefix_sound (h : s.Sound)
    (hno : ∀ e ∈ s.entries, ¬ Below dir (s.heap.text e.key)) :
    ∃ s', s.invalidatePrefix dir free = pure s' ∧ s'.Sound ∧ s'.heap.watch = s.heap.watch := by
  rcases h with hc | ⟨c, ps, hc, k⟩
  · exact ⟨s, by rw [invalidatePrefix, hc], .inl hc, rfl⟩
  have hlinked := k.holds.linked
  rw [k.entries_eq hc] at hno
  refine ⟨⟨some c, s.heap⟩, ?_, .inr ⟨c, ps, rfl, k⟩, rfl⟩
  rw [invalidatePrefix, hc]
  dsimp only
  rw [LruCache.Holds.eraseIf_of_forall _ _ (by rw [hlinked.size]; exact Nat.lt_succ_self _)
    hlinked.links.next hlinked.value, pure_bind]
  intro p hp
  rw [k.matching hp, decide_eq_false (hno p.2 (mem_map_of_mem hp))]

/-- An entry which `invalidatePrefix` erases is used after it has been freed. -/
theorem invalidatePrefix_wild (h : s.Sound) (hw : s.heap.watch = true)
    (hex : ∃ e ∈ s.entries, Below dir (s.heap.text e.key)) :
    s.invalidatePrefix dir free = throw .wild := by
  obtain ⟨e, he, hbelow⟩ := hex
  rcases h with hc | ⟨c, ps, hc, k⟩
  · rw [PathCache.entries, hc] at he
    exact absurd he not_mem_nil
  have hlinked := k.holds.linked
  rw [k.entries_eq hc] at he
  obtain ⟨p, hp, rfl⟩ := mem_map.1 he
  rw [invalidatePrefix, hc]
  dsimp only
  rw [LruCache.Holds.eraseIf_throw _ _ (by rw [hlinked.size]; exact Nat.lt_succ_self _)
    hlinked.links.next hlinked.value (fun q hq => ⟨_, k.matching hq⟩)
    (fun q hq => k.evicts hq hw free) hp (by rw [k.matching hp, decide_eq_true hbelow])]
  rfl

/-! ## Insertion -/

/-- The cache is created if there is none. -/
theorem Sound.cached (h : s.Sound) : ∃ c ps, s.cache.elim (new capacity) pure = pure c ∧
    Kept s.heap c ps ∧ s.entries = ps.map Prod.snd ∧
    ((s.cache.all fun c => (c.list.value a).isNone ∧ (c.map.node b).isNone) →
      c.list.value a = none ∧ c.map.node b = none) := by
  rcases h with hc | ⟨c, ps, hc, k⟩
  · obtain ⟨c, hnew, hcap, htab, hh⟩ := new_spec (K := Str) (V := ℕ) (t := s.heap.trait)
      (G := s.heap.Good) (show 0 < capacity by decide) (by decide)
    have hc' : c = ⟨capacity, .new, ⟨fun _ => 0, capacity, 0, fun _ => none⟩⟩ := by
      have h1 : new capacity = pure c := hnew
      cases h1
      rfl
    refine ⟨c, [], ?_, ⟨hh, hcap, .inl htab, ?_⟩, ?_, fun _ => ?_⟩
    · rwa [hc]
    · exact fun p hp => absurd hp not_mem_nil
    · rw [PathCache.entries, hc]
      rfl
    · rw [hc']
      exact ⟨rfl, rfl⟩
  · refine ⟨c, ps, by rw [hc]; rfl, k, k.entries_eq hc, fun hall => ?_⟩
    rw [hc] at hall
    have := of_decide_eq_true hall
    exact ⟨Option.isNone_iff_eq_none.1 this.1, Option.isNone_iff_eq_none.1 this.2⟩

/-- The inode number of an entry is written. -/
theorem Kept.renumber (k : Kept h c ps) (he : h.entry e = some ⟨a, b⟩) (i : ℕ) :
    Kept { h with entry := update h.entry e (some ⟨a, i⟩) } c ps := by
  refine k.transfer (fun _ _ _ _ => ⟨rfl, rfl⟩) fun p _ a' i' hp => ?_
  by_cases hv : p.2.value = e
  · rw [hv, he] at hp
    cases hp
    exact ⟨i, by rw [hv]; exact update_self _ _ _⟩
  · exact ⟨i', (update_of_ne hv _ _).trans hp⟩

section

variable (k : Kept h c ps) (he : h.entry e = none) (hq : h.live q = false)

include k he hq

/-- A new entry is created, in blocks which are free. -/
theorem Kept.create : Kept (h.create e q path i) c ps := by
  refine k.transfer (fun p hp a ha => ?_) fun p hp a i' hpe => ⟨i', ?_⟩
  · have hne : a ≠ q := by
      rintro rfl
      rw [k.live hp ha] at hq
      cases hq
    exact ⟨update_of_ne hne _ _, update_of_ne hne _ _⟩
  · have hne : p.2.value ≠ e := by
      intro hv
      rw [hv, he] at hpe
      cases hpe
    exact (update_of_ne hne _ _).trans hpe

variable (hno : ∀ p ∈ ps, h.text p.2.key ≠ path.bytes)

include hno

/-- The path of a new entry is the path of no other one. -/
theorem Kept.create_ne : ∀ p ∈ ps, ¬ (h.create e q path i).trait.Same p.2.key (.heap q) := by
  intro p hp hs
  have hgood : Str.heap q ∈ (h.create e q path i).Good := update_self _ _ _
  rw [same_iff ((k.create he hq).holds.mem_keys hp) hgood, text_create] at hs
  obtain ⟨a, -, ha, -⟩ := k.entries p hp
  have hne : a ≠ q := by
    rintro rfl
    rw [k.live hp ha] at hq
    cases hq
  refine hno p hp ?_
  rw [← hs, ha]
  exact congrArg (List.takeWhile _) (update_of_ne hne _ _).symm

/-- An entry with a new path is put into a cache which is not full. -/
theorem Kept.push (he0 : e ≠ 0) (hq0 : q ≠ 0) (ha : c.list.value a = none) (ha0 : a ≠ 0)
    (hb : c.map.node b = none) (hb0 : b ≠ 0) (hlt : ps.length < PathCache.capacity)
    (free : ℕ → UInt32) : ∃ c', c.insert Strings.trait
      (fun k v h => h.freePathEntry free k v) a b (.heap q) e (h.create e q path i) =
        pure (c', h.create e q path i) ∧ Kept (h.create e q path i) c' ((a, ⟨.heap q, e⟩) :: ps) := by
  have k' : Kept (h.create e q path i) c ps := k.create he hq
  have hgood : Str.heap q ∈ (h.create e q path i).Good := update_self _ _ _
  have hno' := k.create_ne (i := i) he hq hno
  have hlt' : ps.length < c.capacity := k.capacity ▸ hlt
  have hgrow (hf : c.map.Full) := table_grows k.table
    (by rw [k.holds.count_eq]; exact hlt) (by decide) hf
  obtain ⟨hf, hbig, -⟩ | ⟨-, list, map, hins, hcap, hh⟩ := k'.holds.insert_of_notMem Strings.trait
    (fun k v h => h.freePathEntry free k v) (s := h.create e q path i) lawful hgood hno'
    (k'.holds.room_of_lt _ _ hlt') k'.holds lawful hno' hlt' ha0 ha hb0 hb e
  · exact absurd (hgrow hf).2 (not_le.2 hbig)
  refine ⟨_, hins, hh, k.capacity, ?_, ?_⟩
  · rw [hcap]
    split_ifs with hf
    · exact .inr (by rw [(hgrow hf).1])
    · exact k.table
  · rintro p hp
    rcases mem_cons.1 hp with rfl | hp
    · exact ⟨q, i, rfl, hq0, he0, update_self _ _ _⟩
    · exact k'.entries p hp

/-- An entry with a new path cannot be put into a full cache: the callback frees the key of the last
    entry before the map is told to erase it. -/
theorem Kept.push_wild (hw : h.watch = true) (hfull : PathCache.capacity ≤ ps.length) :
    c.insert Strings.trait (fun k v h => h.freePathEntry free k v) a b (.heap q) e
      (h.create e q path i) = throw .wild := by
  have k' : Kept (h.create e q path i) c ps := k.create he hq
  have hgood : Str.heap q ∈ (h.create e q path i).Good := update_self _ _ _
  obtain ⟨ps, p, rfl⟩ : ∃ ps' p, ps = ps' ++ [p] := by
    rcases eq_nil_or_concat ps with rfl | ⟨ps', p, rfl⟩
    · exact absurd hfull (by decide)
    · exact ⟨ps', p, concat_eq_append⟩
  have hfull' : (ps ++ [p]).length = c.capacity :=
    k.holds.length_le.antisymm (k.capacity.le.trans hfull)
  obtain ⟨h1, hev, hhash⟩ := k'.evicts (p := p) (by simp) hw free
  exact LruCache.Holds.insert_throw _ _
    (k'.holds.contains_map_of_notMem lawful hgood (k.create_ne he hq hno))
    ((k'.holds.room_of_full _ _ hfull').trans (k'.holds.evict_throw _ _ hev hhash))

end

/-- An insertion for which nothing is evicted does what it should, or the path is too long; another
    one uses a string which has been freed. -/
theorem insert_cases (h : s.Sound) (hev : s.Proper (.insert e q a b path i free)) :
    s.Keeping (.insert e q a b path i free) ∧ (s.insert e q a b path i free = throw .kmallocTooBig ∨
        ∃ s', s.insert e q a b path i free = pure s' ∧ s'.Sound ∧ s'.heap.watch = s.heap.watch) ∨
    ¬ s.Keeping (.insert e q a b path i free) ∧
      (s.heap.watch = true → s.insert e q a b path i free = throw .wild) := by
  obtain ⟨he0, hq0, ha0, hb0, he, hq, hfree⟩ := hev
  have he := Option.isNone_iff_eq_none.1 he
  by_cases hi : i = 0
  · exact .inl ⟨.inl hi, .inr ⟨s, if_pos hi, h, rfl⟩⟩
  obtain ⟨c, ps, hc, k, hents, hfr⟩ := h.cached (a := a) (b := b)
  obtain ⟨hfa, hfb⟩ := hfr hfree
  rcases k.split path with ⟨ps1, p, ps2, rfl, hs, ht⟩ | hno
  · -- The path is there.
    obtain ⟨list, hf, k', hat⟩ := k.found hs
    obtain ⟨a', i', ha', -, -, hpe⟩ := k'.entries p (.head _)
    refine .inl ⟨.inr (.inl ⟨p.2, ?_, ht⟩), .inr ⟨⟨some _, _⟩, ?_,
      .inr ⟨_, _, rfl, k'.renumber hpe i⟩, rfl⟩⟩
    · rw [hents]
      exact mem_map_of_mem (mem_append_right _ (.head _))
    · rw [insert, if_neg hi, hc, pure_bind, hf, pure_bind, if_pos rfl, hat, pure_bind,
        read_of_some hpe, pure_bind]
  have hins : s.insert e q a b path i free = (do
      kmalloc (path.bytes.length + 1)
      let r ← c.insert Strings.trait (fun k v h => h.freePathEntry free k v) a b (.heap q) e
        (s.heap.create e q path i)
      pure ⟨some r.1, r.2⟩) := by
    rw [insert, if_neg hi, hc, pure_bind, k.not_found fun p hp => (hno p hp).1, pure_bind,
      if_neg Bool.false_ne_true]
  by_cases hlong : kmallocMax < path.bytes.length + 1
  · refine .inl ⟨.inr (.inr (.inr hlong)), .inl ?_⟩
    rw [hins, kmalloc, if_pos hlong]
    rfl
  rw [kmalloc, if_neg hlong, pure_bind] at hins
  have hlen : s.entries.length = ps.length := by rw [hents, length_map]
  by_cases hlt : ps.length < PathCache.capacity
  · obtain ⟨c', hc', k'⟩ := k.push (i := i) he hq (fun p hp => (hno p hp).2) he0 hq0
      hfa ha0 hfb hb0 hlt free
    rw [hc', pure_bind] at hins
    exact .inl ⟨.inr (.inr (.inl (hlen ▸ hlt))), .inr ⟨_, hins, .inr ⟨_, _, rfl, k'⟩, rfl⟩⟩
  refine .inr ⟨?_, fun hw => ?_⟩
  · rintro (h0 | ⟨x, hx, hxt⟩ | hl | hl)
    · exact hi h0
    · rw [hents] at hx
      obtain ⟨p, hp, rfl⟩ := mem_map.1 hx
      exact (hno p hp).2 hxt
    · exact hlt (hlen ▸ hl)
    · exact hlong hl
  · rw [hins, k.push_wild he hq (fun p hp => (hno p hp).2) hw (not_lt.1 hlt)]
    rfl

/-! ## Runs -/

/-- Every operation does what it should, or goes wrong because a path is too long; but one which
    evicts an entry, or erases one by `invalidatePrefix`, uses a string which has been freed. -/
theorem Sound.perform {ev : PathEvent} (h : s.Sound) (hev : s.Proper ev) :
    s.Keeping ev ∧ (s.perform ev = throw .kmallocTooBig ∨
      ∃ s', s.perform ev = pure s' ∧ s'.Sound ∧ s'.heap.watch = s.heap.watch) ∨
    ¬ s.Keeping ev ∧ (s.heap.watch = true → s.perform ev = throw .wild) := by
  cases ev with
  | lookup path =>
    obtain ⟨r, hr, hs, hh⟩ := lookup_sound h path
    refine .inl ⟨trivial, .inr ⟨r.2, ?_, hs, by rw [hh]⟩⟩
    rw [PathCache.perform, hr, pure_bind]
  | insert e q a b path i free => exact insert_cases h hev
  | invalidate path free => exact .inl ⟨trivial, .inr (invalidate_sound h)⟩
  | invalidatePrefix dir free =>
    by_cases hk : s.Keeping (.invalidatePrefix dir free)
    · exact .inl ⟨hk, .inr (invalidatePrefix_sound h hk)⟩
    · refine .inr ⟨hk, fun hw => invalidatePrefix_wild h hw ?_⟩
      by_contra hno
      exact hk fun e he hb => hno ⟨e, he, hb⟩

/-- In every run from the start, the heap being whatever it is, whose operations evict nothing and
    erase nothing by `invalidatePrefix`: the next operation uses no string which has been freed, and
    does not panic because a key is not found in the map to be erased, if and only if it evicts
    nothing and erases nothing by `invalidatePrefix` either. -/
theorem reachable_intact {heap : Strings} (hw : heap.watch = true) {ev : PathEvent}
    (hrun : Reaches step (fun s ev => s.Proper ev ∧ s.Keeping ev) ⟨none, heap⟩ s)
    (hev : s.Proper ev) :
    s.perform ev ≠ throw .wild ∧ s.perform ev ≠ throw .mapErase ↔ s.Keeping ev := by
  have h : s.Sound ∧ s.heap.watch = true := by
    refine hrun.inv (I := fun s => s.Sound ∧ s.heap.watch = true) (fun s ev s' o hI hev hs => ?_)
      ⟨.inl rfl, hw⟩
    obtain ⟨-, he | ⟨s1, he, hs1, hw1⟩⟩ | ⟨hk, -⟩ := hI.1.perform hev.1
    · rw [step, he] at hs
      cases hs
    · rw [step, he] at hs
      cases hs
      exact ⟨hs1, hw1.trans hI.2⟩
    · exact absurd hev.2 hk
  obtain ⟨hk, he | ⟨s', he, -⟩⟩ | ⟨hk, hwild⟩ := h.1.perform hev
  · refine iff_of_true ⟨?_, ?_⟩ hk <;> rw [he] <;> intro heq <;> cases heq
  · refine iff_of_true ⟨?_, ?_⟩ hk <;> rw [he] <;> intro heq <;> cases heq
  · exact iff_of_false (fun hne => hne.1 (hwild h.2)) hk

instance (s : PathCache) (ev : PathEvent) : Decidable (s.Proper ev) := by
  cases ev <;> unfold Proper <;> infer_instance

instance (s : PathCache) (ev : PathEvent) : Decidable (s.Keeping ev) := by
  cases ev <;> unfold Keeping <;> infer_instance

/-- `/a`. -/
def slashA : CString := ⟨[47, 97], by simp, by norm_num⟩

/-- A path is cached. -/
def cachedA (watch : Bool) : PathCache :=
  lastState (guarded step fun s ev => s.Proper ev ∧ s.Keeping ev)
    ⟨none, ⟨fun _ => [], fun _ => false, fun _ => none, watch⟩⟩
    [.insert 32 64 96 128 slashA 12 fun _ => 5]

/-- `/b`. -/
def slashB : CString := ⟨[47, 98], by simp, by norm_num⟩

/-- Another path is cached, the first one is looked up, invalidated, and cached again. -/
def cachedAgain : PathCache :=
  lastState (guarded step fun s ev => s.Proper ev ∧ s.Keeping ev) (cachedA true)
    [.insert 160 192 224 256 slashB 13 fun _ => 5, .lookup slashA, .invalidate slashA fun _ => 5,
      .insert 32 64 96 128 slashA 14 fun _ => 5]

/-- The other one can be invalidated. -/
theorem reachable_intact_invalidate : cachedAgain.Caches slashA ∧ cachedAgain.Caches slashB ∧
    cachedAgain.perform (.invalidate slashB fun _ => 5) ≠ throw .wild ∧
    cachedAgain.perform (.invalidate slashB fun _ => 5) ≠ throw .mapErase :=
  ⟨by decide +kernel, by decide +kernel, (reachable_intact (s := cachedAgain) rfl
    ((Reaches.lastState _ _).trans (Reaches.lastState _ _))
    (show cachedAgain.Proper (.invalidate slashB fun _ => 5) from trivial)).2 trivial⟩

/-- A path cannot be invalidated by `invalidatePrefix`: its string is freed, and then hashed. If that is
    not noticed, it is not found in the map, the first word of the string being another one. -/
theorem invalidatePrefix_panics :
    (cachedA true).perform (.invalidatePrefix slashA fun _ => 5) = throw .wild ∧
    (cachedA false).perform (.invalidatePrefix slashA fun _ => 5) = throw .mapErase :=
  ⟨by rfl, by rfl⟩

end PathCache

end HobbyOS
