import HobbyOS.Lib.Buckets
import HobbyOS.Lib.List

/-!
# The LRU cache

`LRUCache`: a list of entries, the most recently used one first, and a map from their keys to the
nodes of the list. When a key is inserted into a full cache, the last entry of the list is evicted,
and a callback is told. The callback may change things the keys depend on (it may free them), so the
operations are given the state `σ` on which it works, and how keys are hashed and compared in it.

A cache holds entries, each with the address of its node, if its list is linked through them and
its map leads from the key of each to its node (`Holds`).
-/

namespace HobbyOS

open List Nat

/-- `LRUCache::CacheEntry`. -/
structure CacheEntry (K V : Type) where
  key : K
  value : V

/-- `LRUCache`. -/
structure LruCache (K V : Type) where
  capacity : ℕ
  list : DList (CacheEntry K V)
  map : HashMap K ℕ

namespace LruCache

variable {K V : Type}

/-- `LRUCache::LRUCache`. -/
def new (capacity : ℕ) : Except Panic (LruCache K V) := do
  let map ← HashMap.new capacity
  pure ⟨capacity, .new, map⟩

section Operations

variable (t : HashTrait K) (c : LruCache K V)

/-- `m_map[key]`. -/
def iterator (key : K) : Except Panic ℕ := do
  let a ← c.map.index t key
  let e ← c.map.read a
  pure e.value

/-- The entry of the key is moved to the front; its node. -/
def refresh (key : K) : Except Panic (ℕ × LruCache K V) := do
  let it ← c.iterator t key
  let list ← c.list.moveFront it
  pure (it, { c with list })

/-- `LRUCache::contains`. -/
def contains (key : K) : Except Panic (Bool × LruCache K V) := do
  let found ← c.map.contains t key
  if found then do
    let r ← c.refresh t key
    pure (true, r.2)
  else pure (false, c)

/-- `LRUCache::at`. -/
def atKey (key : K) : Except Panic V := do
  let it ← c.iterator t key
  let e ← c.list.deref it
  pure e.value

/-- `LRUCache::get`. -/
def get (key : K) : Except Panic (Option V × LruCache K V) := do
  let found ← c.map.contains t key
  if found then do
    let r ← c.refresh t key
    let e ← r.2.list.deref r.1
    pure (some e.value, r.2)
  else pure (none, c)

/-- `LRUCache::erase`. -/
def erase (key : K) : Except Panic (LruCache K V) := do
  let found ← c.map.contains t key
  if found then do
    let it ← c.iterator t key
    let list ← c.list.remove it
    let map ← c.map.erase t key
    pure { c with list, map }
  else pure c

end Operations

section Eviction

variable {σ : Type} (tr : σ → HashTrait K) (onEvict : K → V → σ → Except Panic σ)

/-- The last entry is evicted. -/
def evict (c : LruCache K V) (s : σ) : Except Panic (LruCache K V × σ) := do
  let entry ← c.list.back
  let s ← onEvict entry.key entry.value s
  let map ← c.map.erase (tr s) entry.key
  let list ← c.list.removeLast
  pure ({ c with list, map }, s)

/-- There is room for one more entry. -/
def room (c : LruCache K V) (s : σ) : Except Panic (LruCache K V × σ) :=
  if c.capacity ≤ c.map.count then c.evict tr onEvict s else pure (c, s)

/-- `LRUCache::insert`; the node of the list is at the address `a`, the entry of the map at `b`. -/
def insert (c : LruCache K V) (a b : ℕ) (key : K) (value : V) (s : σ) :
    Except Panic (LruCache K V × σ) := do
  let found ← c.map.contains (tr s) key
  if found then do
    let r ← c.refresh (tr s) key
    let e ← r.2.map.index (tr s) key
    let map ← r.2.map.assign e r.2.list.head
    pure ({ r.2 with map }, s)
  else do
    let r ← c.room tr onEvict s
    let list ← r.1.list.addFirst a ⟨key, value⟩
    let map ← r.1.map.insert (tr r.2) b key list.head
    pure ({ r.1 with list, map }, r.2)

/-- `LRUCache::eraseIf`, from the node `it` on. -/
def eraseIf (predicate : K → V → σ → Except Panic Bool) :
    ℕ → ℕ → LruCache K V → σ → Except Panic (LruCache K V × σ)
  | 0, _, _, _ => throw .endless
  | n + 1, it, c, s =>
    if it = 0 then pure (c, s)
    else do
      let e ← c.list.deref it
      let nextIt := c.list.next it
      let found ← predicate e.key e.value s
      if found then do
        let s ← onEvict e.key e.value s
        let map ← c.map.erase (tr s) e.key
        let list ← c.list.remove it
        eraseIf predicate n nextIt { c with list, map } s
      else eraseIf predicate n nextIt c s

end Eviction

/-! ## What a cache holds -/

/-- The map from keys to nodes. -/
abbrev index (ps : List (ℕ × CacheEntry K V)) : List (K × ℕ) := ps.map fun p => (p.2.key, p.1)

/-- The cache holds these entries, in the nodes at these addresses, the most recently used one
    first. -/
structure Holds (t : HashTrait K) (G : Set K) (c : LruCache K V)
    (ps : List (ℕ × CacheEntry K V)) : Prop where
  linked : c.list.Linked ps
  mapped : c.map.Holds t G (index ps)
  length_le : ps.length ≤ c.capacity

variable {t : HashTrait K} {G : Set K} {c : LruCache K V} {k : K} {a b capacity : ℕ}
  {ps ps1 ps2 : List (ℕ × CacheEntry K V)} {p : ℕ × CacheEntry K V}

theorem new_spec (hpos : 0 < capacity) (hsize : capacity * 8 ≤ kmallocMax) :
    ∃ c : LruCache K V, new capacity = pure c ∧ c.capacity = capacity ∧
      c.map.capacity = capacity ∧ c.Holds t G [] := by
  obtain ⟨m, hm, hcap, hh⟩ := HashMap.new_spec (V := ℕ) (t := t) (G := G) hpos hsize
  refine ⟨⟨capacity, .new, m⟩, ?_, rfl, hcap, DList.new_linked, hh, Nat.zero_le _⟩
  rw [new, hm, pure_bind]

theorem new_tooBig (hsize : kmallocMax < capacity * 8) :
    (new capacity : Except Panic (LruCache K V)) = throw .kmallocTooBig := by
  rw [new, HashMap.new_tooBig hsize]
  rfl

/-- A table which has to be enlarged has the capacity of the cache, and can be. -/
theorem table_grows {count n : ℕ} (hn : n = capacity ∨ n = capacity * 2)
    (hcount : count < capacity) (hsize : capacity ≤ 8192) (hf : n * 3 < (count + 1) * 4) :
    n = capacity ∧ n * 2 * 8 ≤ kmallocMax := by
  have hmax : kmallocMax = 131072 := by decide
  omega

namespace Holds

theorem mem_index (hp : p ∈ ps) : (p.2.key, p.1) ∈ index ps := mem_map.2 ⟨p, hp, rfl⟩

theorem notMem_index (hno : ∀ p ∈ ps, ¬ t.Same p.2.key k) : ∀ q ∈ index ps, ¬ t.Same q.1 k := by
  intro q hq
  obtain ⟨p, hp, rfl⟩ := mem_map.1 hq
  exact hno p hp

section Map

variable (h : c.Holds t G ps)

include h

theorem mem_keys (hp : p ∈ ps) : p.2.key ∈ G :=
  h.mapped.mem_keys (mem_map_of_mem hp)

/-- There is room if the list is not as long as it may be. -/
theorem count_eq : c.map.count = ps.length := by
  rw [h.mapped.count, length_map]

/-- What the trait says of other keys is of no importance. -/
theorem transfer {t' : HashTrait K} {G' : Set K} (hG : ∀ p ∈ ps, p.2.key ∈ G')
    (hhash : ∀ p ∈ ps, ∀ n, t'.hash p.2.key n = t.hash p.2.key n)
    (heq : ∀ p ∈ ps, ∀ q ∈ ps, t'.Same p.2.key q.2.key → t.Same p.2.key q.2.key) :
    c.Holds t' G' ps := by
  refine ⟨h.linked, h.mapped.transfer ?_ ?_ ?_, h.length_le⟩
  · rintro q hq
    obtain ⟨p, hp, rfl⟩ := mem_map.1 hq
    exact hG p hp
  · rintro q hq
    obtain ⟨p, hp, rfl⟩ := mem_map.1 hq
    exact hhash p hp
  · rintro q hq q' hq'
    obtain ⟨p, hp, rfl⟩ := mem_map.1 hq
    obtain ⟨p', hp', rfl⟩ := mem_map.1 hq'
    exact heq p hp p' hp'

/-- The keys of two entries are different. -/
theorem eq_of_same (hl : t.Lawful G) {q : ℕ × CacheEntry K V} (hp : p ∈ ps)
    (hq : q ∈ ps) (hs : t.Same p.2.key q.2.key) : p.1 = q.1 :=
  congrArg Prod.snd (h.mapped.eq_of_same hl (h.mem_keys hq) (mem_index hp) (mem_index hq) hs
    (hl.refl _ (h.mem_keys hq)))

variable (hl : t.Lawful G) (hk : k ∈ G)

include hl hk

theorem contains_map : c.map.contains t k = pure (decide (∃ p ∈ ps, t.Same p.2.key k)) := by
  rw [h.mapped.contains_spec hl hk]
  congr 2
  rw [eq_iff_iff]
  constructor
  · rintro ⟨q, hq, hs⟩
    obtain ⟨p, hp, rfl⟩ := mem_map.1 hq
    exact ⟨p, hp, hs⟩
  · rintro ⟨p, hp, hs⟩
    exact ⟨_, mem_index hp, hs⟩

section Found

variable (hp : p ∈ ps) (hs : t.Same p.2.key k)

include hp hs

theorem contains_map_of_mem : c.map.contains t k = pure true := by
  rw [h.contains_map hl hk, decide_eq_true ⟨p, hp, hs⟩]

/-- The map leads to the node of the key. -/
theorem iterator_of_mem : c.iterator t k = pure p.1 := by
  obtain ⟨a, e, ha, he, hpair⟩ := h.mapped.index_of_mem hl hk (mem_index hp) hs
  rw [iterator, ha, pure_bind, HashMap.read_of_some he, pure_bind]
  exact congrArg pure (congrArg Prod.snd hpair)

theorem atKey_of_mem : c.atKey t k = pure p.2.value := by
  rw [atKey, h.iterator_of_mem hl hk hp hs, pure_bind, h.linked.deref_eq hp, pure_bind]

end Found

variable (hno : ∀ p ∈ ps, ¬ t.Same p.2.key k)

include hno

theorem contains_map_of_notMem : c.map.contains t k = pure false := by
  rw [h.contains_map hl hk, decide_eq_false]
  rintro ⟨p, hp, hs⟩
  exact hno p hp hs

theorem contains_of_notMem : c.contains t k = pure (false, c) := by
  rw [contains, h.contains_map_of_notMem hl hk hno, pure_bind, if_neg Bool.false_ne_true]

theorem get_of_notMem : c.get t k = pure (none, c) := by
  rw [get, h.contains_map_of_notMem hl hk hno, pure_bind, if_neg Bool.false_ne_true]

theorem erase_of_notMem : c.erase t k = pure c := by
  rw [erase, h.contains_map_of_notMem hl hk hno, pure_bind, if_neg Bool.false_ne_true]

end Map

section Split

variable (h : c.Holds t G (ps1 ++ p :: ps2))

include h

theorem length_le_of_append : (ps1 ++ ps2).length + 1 ≤ c.capacity := by
  have := h.length_le
  rwa [perm_middle.length_eq] at this

variable (hl : t.Lawful G) (hk : k ∈ G) (hs : t.Same p.2.key k)

include hl hk hs

/-- The entry of the key is moved to the front. -/
theorem refresh_spec : ∃ list, c.refresh t k = pure (p.1, { c with list }) ∧
      Holds t G { c with list } (p :: (ps1 ++ ps2)) := by
  have hp : p ∈ ps1 ++ p :: ps2 := mem_append_right _ (.head _)
  obtain ⟨list, hlist, hlinked⟩ := h.linked.moveFront_spec
  refine ⟨list, ?_, hlinked, h.mapped.perm hl (perm_middle.map _), ?_⟩
  · rw [refresh, h.iterator_of_mem hl hk hp hs, pure_bind, hlist, pure_bind]
  · rw [← perm_middle.length_eq]
    exact h.length_le

theorem contains_of_mem : ∃ list, c.contains t k = pure (true, { c with list }) ∧
      Holds t G { c with list } (p :: (ps1 ++ ps2)) := by
  obtain ⟨list, hr, hh⟩ := h.refresh_spec hl hk hs
  refine ⟨list, ?_, hh⟩
  rw [contains, h.contains_map_of_mem hl hk (mem_append_right _ (.head _)) hs, pure_bind,
    if_pos rfl, hr, pure_bind]

theorem get_of_mem : ∃ list, c.get t k = pure (some p.2.value, { c with list }) ∧
      Holds t G { c with list } (p :: (ps1 ++ ps2)) := by
  obtain ⟨list, hr, hh⟩ := h.refresh_spec hl hk hs
  refine ⟨list, ?_, hh⟩
  rw [get, h.contains_map_of_mem hl hk (mem_append_right _ (.head _)) hs, pure_bind,
    if_pos rfl, hr, pure_bind]
  rw [hh.linked.deref_eq (.head _), pure_bind]

/-- The key of an entry is the key of no other one. -/
theorem eraseP_index :
    ((index (ps1 ++ p :: ps2)).eraseP fun q => t.Same q.1 k) = index (ps1 ++ ps2) := by
  have hne : ∀ q ∈ index ps1, ¬ decide (t.Same q.1 k) = true := by
    intro q hq hsame
    have hnd := h.linked.around.notMem_of_append_cons
    obtain ⟨r, hr, rfl⟩ := mem_map.1 hq
    have heq := h.mapped.eq_of_same hl hk (mem_index (mem_append_left _ hr))
      (mem_index (mem_append_right _ (.head _))) (of_decide_eq_true hsame) hs
    exact hnd (mem_append_left _ (mem_map.2 ⟨r, hr, congrArg Prod.snd heq⟩))
  have hself : (index (p :: ps2)).eraseP (fun q => t.Same q.1 k) = index ps2 :=
    eraseP_cons_of_pos (decide_eq_true hs)
  rw [index, map_append, eraseP_append_right _ hne, hself]
  exact map_append.symm

/-- The key of an entry is erased from the map. -/
theorem erase_map : ∃ m', c.map.erase t k = pure m' ∧ m'.capacity = c.map.capacity ∧
      m'.Holds t G (index (ps1 ++ ps2)) := by
  obtain ⟨m', hm', hcap, hh⟩ := h.mapped.erase_spec hl hk (mem_index (p := p) (by simp)) hs
  rw [h.eraseP_index hl hk hs] at hh
  exact ⟨m', hm', hcap, hh⟩

theorem erase_of_mem : ∃ list map, c.erase t k = pure { c with list, map } ∧
      map.capacity = c.map.capacity ∧ Holds t G { c with list, map } (ps1 ++ ps2) := by
  have hp : p ∈ ps1 ++ p :: ps2 := mem_append_right _ (.head _)
  obtain ⟨list, hlist, hlinked⟩ := h.linked.remove_spec
  obtain ⟨map, hmap, hcap, hmapped⟩ := h.erase_map hl hk hs
  refine ⟨list, map, ?_, hcap, hlinked, hmapped, (le_succ _).trans h.length_le_of_append⟩
  rw [erase, h.contains_map_of_mem hl hk hp hs, pure_bind, if_pos rfl,
    h.iterator_of_mem hl hk hp hs, pure_bind, hlist, pure_bind, hmap, pure_bind]

end Split

section Eviction

variable {σ : Type} (tr : σ → HashTrait K) (onEvict : K → V → σ → Except Panic σ) {s s' : σ}
  {e : Panic} {predicate : K → V → σ → Except Panic Bool} {n it : ℕ}

/-- A key which is there is only refreshed. -/
theorem insert_of_mem (h : c.Holds (tr s) G (ps1 ++ p :: ps2)) (hl : (tr s).Lawful G) (hk : k ∈ G)
    (hs : (tr s).Same p.2.key k) (v : V) :
    ∃ list, c.insert tr onEvict a b k v s = pure ({ c with list }, s) ∧
      Holds (tr s) G { c with list } (p :: (ps1 ++ ps2)) := by
  have hp : p ∈ ps1 ++ p :: ps2 := mem_append_right _ (.head _)
  obtain ⟨list, hr, hh⟩ := h.refresh_spec hl hk hs
  obtain ⟨a, e, ha, he, hpair⟩ := h.mapped.index_of_mem hl hk (mem_index hp) hs
  have hhead : list.head = e.value := hh.linked.head_cons.trans (congrArg Prod.snd hpair).symm
  refine ⟨list, ?_, hh⟩
  rw [insert, h.contains_map_of_mem hl hk hp hs, pure_bind, if_pos rfl, hr, pure_bind]
  rw [ha, pure_bind, hhead, HashMap.assign_self he, pure_bind]

/-- The last entry is evicted: the callback is told, and leaves the keys as they are. -/
theorem evict_spec (h : c.Holds (tr s) G (ps ++ [p])) (hl : (tr s).Lawful G)
    (hev : onEvict p.2.key p.2.value s = pure s') (htr : tr s' = tr s) :
    ∃ list map, c.evict tr onEvict s = pure ({ c with list, map }, s') ∧
      map.capacity = c.map.capacity ∧ Holds (tr s) G { c with list, map } ps := by
  have hk := h.mem_keys (p := p) (by simp)
  obtain ⟨list, hlist, hlinked⟩ := h.linked.removeLast_spec
  obtain ⟨map, hmap, hcap, hmapped⟩ := h.erase_map hl hk (hl.refl _ hk)
  have hlen := h.length_le_of_append
  rw [append_nil] at hmapped hlen
  refine ⟨list, map, ?_, hcap, hlinked, hmapped, (le_succ _).trans hlen⟩
  rw [evict, h.linked.back_eq, pure_bind, hev, pure_bind, htr, hmap, pure_bind, hlist, pure_bind]

/-- The map cannot be told which key to erase if it cannot be hashed any more. -/
theorem erase_throw {m : HashMap K ℕ} (hh : ∀ n, t.hash k n = throw e) : m.erase t k = throw e := by
  rw [HashMap.erase, HashMap.lookup, HashMap.bucket, hh]
  rfl

/-- The callback spoils the key of the last entry. -/
theorem evict_throw (h : c.Holds t G (ps ++ [p])) (hev : onEvict p.2.key p.2.value s = pure s')
    (hh : ∀ n, (tr s').hash p.2.key n = throw e) : c.evict tr onEvict s = throw e := by
  rw [evict, h.linked.back_eq, pure_bind, hev, pure_bind, erase_throw hh]
  rfl

/-- A key is not inserted if there cannot be room for it. -/
theorem insert_throw {v : V} (hno : c.map.contains (tr s) k = pure false)
    (hroom : c.room tr onEvict s = throw e) : c.insert tr onEvict a b k v s = throw e := by
  rw [insert, hno, pure_bind, if_neg Bool.false_ne_true, hroom]
  rfl

section

variable (hn : ps.length < n) (hc : Chain c.list.next 0 it (ps.map Prod.fst))
  (hv : ∀ p ∈ ps, c.list.value p.1 = some p.2)

include hn hc hv

/-- A loop over entries none of which is to be erased. -/
theorem eraseIf_of_forall (hno : ∀ p ∈ ps, predicate p.2.key p.2.value s = pure false) :
    eraseIf tr onEvict predicate n it c s = pure (c, s) := by
  induction n generalizing it ps with
  | zero => exact absurd hn (Nat.not_lt_zero _)
  | succ n ih =>
    cases ps with
    | nil =>
      rw [eraseIf, if_pos (Chain.nil_iff.1 hc)]
    | cons p ps =>
      obtain ⟨rfl, hz, hc'⟩ := Chain.cons_iff.1 hc
      rw [eraseIf, if_neg hz, DList.deref_of_some (hv p (.head _)), pure_bind,
        hno p (.head _), pure_bind, if_neg Bool.false_ne_true]
      exact ih (lt_of_succ_lt_succ hn) hc' (fun q hq => hv q (.tail _ hq))
        fun q hq => hno q (.tail _ hq)

/-- A loop over entries one of which is to be erased, the callback spoiling its key. -/
theorem eraseIf_throw (hpred : ∀ p ∈ ps, ∃ b, predicate p.2.key p.2.value s = pure b)
    (hev : ∀ p ∈ ps, ∃ s', onEvict p.2.key p.2.value s = pure s' ∧ ∀ n, (tr s').hash p.2.key n = throw e)
    (hp : p ∈ ps) (hyes : predicate p.2.key p.2.value s = pure true) :
    eraseIf tr onEvict predicate n it c s = throw e := by
  induction n generalizing it ps with
  | zero => exact absurd hn (Nat.not_lt_zero _)
  | succ n ih =>
    cases ps with
    | nil => exact absurd hp not_mem_nil
    | cons q ps =>
      obtain ⟨rfl, hz, hc'⟩ := Chain.cons_iff.1 hc
      obtain ⟨b, hb⟩ := hpred q (.head _)
      rw [eraseIf, if_neg hz, DList.deref_of_some (hv q (.head _)), pure_bind, hb, pure_bind]
      cases b with
      | true =>
        obtain ⟨s', hs', hh⟩ := hev q (.head _)
        rw [if_pos rfl, hs', pure_bind, erase_throw hh]
        rfl
      | false =>
        have hp : p ∈ ps := by
          rcases mem_cons.1 hp with rfl | hp
          · rw [hyes] at hb
            cases hb
          · exact hp
        rw [if_neg Bool.false_ne_true]
        exact ih (lt_of_succ_lt_succ hn) hc' (fun q hq => hv q (.tail _ hq))
          (fun q hq => hpred q (.tail _ hq))
          (fun q hq => hev q (.tail _ hq)) hp

end

theorem room_of_lt (h : c.Holds t G ps) (hlt : ps.length < c.capacity) :
    c.room tr onEvict s = pure (c, s) := by
  rw [room, h.count_eq, if_neg (not_le.2 hlt)]

theorem room_of_full (h : c.Holds t G ps) (hfull : ps.length = c.capacity) :
    c.room tr onEvict s = c.evict tr onEvict s := by
  rw [room, h.count_eq, if_pos hfull.ge]

/-- An entry with a new key is put in front, once there is room. -/
theorem insert_of_notMem {c1 : LruCache K V} (h : c.Holds (tr s) G ps) (hl : (tr s).Lawful G)
    (hk : k ∈ G) (hno : ∀ p ∈ ps, ¬ (tr s).Same p.2.key k)
    (hroom : c.room tr onEvict s = pure (c1, s')) (h1 : c1.Holds (tr s') G ps1)
    (hl1 : (tr s').Lawful G) (hno1 : ∀ p ∈ ps1, ¬ (tr s').Same p.2.key k)
    (hlt : ps1.length < c1.capacity) (ha : a ≠ 0) (hfa : c1.list.value a = none) (hb : b ≠ 0)
    (hfb : c1.map.node b = none) (v : V) : (c1.map.Full ∧ kmallocMax < c1.map.capacity * 2 * 8 ∧
      c.insert tr onEvict a b k v s = throw .kmallocTooBig) ∨
    (c1.map.Full → c1.map.capacity * 2 * 8 ≤ kmallocMax) ∧
      ∃ list map, c.insert tr onEvict a b k v s = pure ({ c1 with list, map }, s') ∧
        map.capacity = (if c1.map.Full then c1.map.capacity * 2 else c1.map.capacity) ∧
        Holds (tr s') G { c1 with list, map } ((a, ⟨k, v⟩) :: ps1) := by
  obtain ⟨list, hlist, hlinked⟩ := h1.linked.addFirst_spec (x := ⟨k, v⟩) ha hfa
  have hinsert : c.insert tr onEvict a b k v s = (do
      let map ← c1.map.insert (tr s') b k a
      pure ({ c1 with list, map }, s')) := by
    rw [insert, h.contains_map_of_notMem hl hk hno, pure_bind, if_neg Bool.false_ne_true, hroom,
      pure_bind]
    rw [hlist, pure_bind, hlinked.head_cons]
  by_cases hstuck : c1.map.Full ∧ kmallocMax < c1.map.capacity * 2 * 8
  · refine .inl ⟨hstuck.1, hstuck.2, ?_⟩
    rw [hinsert, HashMap.insert_tooBig hstuck.1 hstuck.2]
    rfl
  have hsize : c1.map.Full → c1.map.capacity * 2 * 8 ≤ kmallocMax :=
    fun hf => not_lt.1 fun hgt => hstuck ⟨hf, hgt⟩
  obtain ⟨map, hmap, hmapped, hcap⟩ :=
    h1.mapped.insert_spec hl1 hk (notMem_index hno1) hfb hb hsize a
  refine .inr ⟨hsize, list, map, ?_, hcap, hlinked, hmapped, hlt⟩
  rw [hinsert, hmap, pure_bind]

end Eviction

end Holds

end LruCache

end HobbyOS
