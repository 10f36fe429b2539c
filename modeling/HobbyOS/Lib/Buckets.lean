import HobbyOS.Lib.HashMap

/-!
# What is in a hash map

A hash map holds a list of keys with their values, in any order (`Holds`): the buckets are chains,
which no entry is on but in the bucket of its key, and there are no other entries. Every operation
does to the list what it is meant to do, whatever the capacity is, as long as the trait tells the
keys apart (`HashTrait.Lawful`).
-/

namespace HobbyOS

open Chain Function List Nat Option

variable {K V : Type} {G : Set K} {t : HashTrait K} {α β : Type*} {as : List α} {a : α}

namespace HashTrait

/-- The keys are equal. -/
def Same (t : HashTrait K) (a b : K) : Prop := t.eq a b = pure true

instance (t : HashTrait K) (a b : K) : Decidable (t.Same a b) :=
  inferInstanceAs (Decidable (t.eq a b = Except.ok true))

/-- Among the keys `G` the trait compares by an equivalence, which the hash respects. -/
structure Lawful (t : HashTrait K) (G : Set K) : Prop where
  hash : ∀ a ∈ G, ∀ n, 0 < n → ∃ i < n, t.hash a n = pure i
  eq : ∀ a ∈ G, ∀ b ∈ G, ∃ r, t.eq a b = pure r
  refl : ∀ a ∈ G, t.Same a a
  symm : ∀ a ∈ G, ∀ b ∈ G, t.Same a b → t.Same b a
  trans : ∀ a ∈ G, ∀ b ∈ G, ∀ c ∈ G, t.Same a b → t.Same b c → t.Same a c
  respects : ∀ a ∈ G, ∀ b ∈ G, t.Same a b → ∀ n, t.hash a n = t.hash b n

end HashTrait

/-- One of the lists comes first. -/
theorem flatMap_perm_erase [DecidableEq α] (f : α → List β) (ha : a ∈ as) :
    (as.flatMap f).Perm (f a ++ (as.erase a).flatMap f) :=
  (perm_cons_erase ha).flatMap_right f

/-- One of the lists is replaced. -/
theorem flatMap_update_perm [DecidableEq α] {f : α → List β} {l : List β} (has : as.Nodup)
    (ha : a ∈ as) : (as.flatMap (update f a l)).Perm (l ++ (as.erase a).flatMap f) := by
  refine (flatMap_perm_erase _ ha).trans ?_
  rw [update_self, flatMap_congr fun b hb => update_of_ne
    ((List.Nodup.mem_erase_iff has).1 hb).1 _ _]

namespace HashMap

variable {m m' : HashMap K V} {chain : ℕ → List ℕ} {a i n newCapacity x capacity : ℕ} {k : K}
  {l : List (K × V)} {e : HashMapEntry K V} {as moved as1 as2 : List ℕ}

/-- `next` of an entry. -/
def link (m : HashMap K V) (a : ℕ) : ℕ := (m.node a).elim 0 HashMapEntry.next

/-- What the entries hold. -/
def pairs (m : HashMap K V) (as : List ℕ) : List (K × V) :=
  as.filterMap fun a => (m.node a).map fun e => (e.key, e.value)

/-- The buckets are these chains, and every entry is in the bucket of its key. -/
structure Chained (t : HashTrait K) (G : Set K) (m : HashMap K V) (chain : ℕ → List ℕ) : Prop where
  chains : ∀ i < m.capacity, Chain m.link 0 (m.entries i) (chain i)
  placed : ∀ i < m.capacity, ∀ a ∈ chain i, ∃ e, m.node a = some e ∧ e.key ∈ G ∧
    t.hash e.key m.capacity = pure i

/-- There are no other entries. -/
structure Laid (t : HashTrait K) (G : Set K) (m : HashMap K V) (chain : ℕ → List ℕ) : Prop
    extends m.Chained t G chain where
  pos : 0 < m.capacity
  owned : ∀ a, m.node a ≠ none → ∃ i < m.capacity, a ∈ chain i

/-- The entries of all buckets. -/
def all (m : HashMap K V) (chain : ℕ → List ℕ) : List ℕ := (List.range m.capacity).flatMap chain

/-- The map holds these keys and values. -/
structure Holds (t : HashTrait K) (G : Set K) (m : HashMap K V) (l : List (K × V)) : Prop where
  laid : ∃ chain, m.Laid t G chain ∧ (m.pairs (m.all chain)).Perm l
  count : m.count = l.length
  apart : l.Pairwise fun p q => ¬ t.Same p.1 q.1

theorem read_of_some (h : m.node a = some e) : m.read a = pure e := by
  rw [read, h]
  rfl

theorem link_of_some (h : m.node a = some e) : m.link a = e.next := by
  rw [link, h]
  rfl

/-! ## Looking for a key -/

/-- The loop finds the key on the chain, or comes to its end. -/
theorem seek_spec (hl : t.Lawful G) (hk : k ∈ G) {p : ℕ} (hn : as.length < n)
    (hc : Chain m.link 0 a as) (hnode : ∀ x ∈ as, ∃ e, m.node x = some e ∧ e.key ∈ G) :
    (∃ as1 x as2 e, as = as1 ++ x :: as2 ∧ m.node x = some e ∧ t.Same e.key k ∧
      m.seek t k n p a = pure (as1.getLast?.getD p, x)) ∨
    (∀ x ∈ as, ∀ e, m.node x = some e → ¬ t.Same e.key k) ∧
      ∃ q, m.seek t k n p a = pure (q, 0) := by
  induction n generalizing p a as with
  | zero => omega
  | succ n ih =>
    cases as with
    | nil =>
      rw [nil_iff] at hc
      exact .inr ⟨fun x hx => absurd hx not_mem_nil, p, by rw [seek, if_pos hc]⟩
    | cons x as =>
      obtain ⟨rfl, hx, hc'⟩ := cons_iff.1 hc
      obtain ⟨e, he, heG⟩ := hnode a (.head _)
      obtain ⟨r, hr⟩ := hl.eq e.key heG k hk
      have hstep : m.seek t k (n + 1) p a =
          if r = true then pure (p, a) else m.seek t k n a e.next := by
        rw [seek, if_neg hx, read_of_some he, pure_bind, hr, pure_bind]
      rw [link_of_some he] at hc'
      cases r with
      | true =>
        exact .inl ⟨[], a, as, e, rfl, he, hr, hstep⟩
      | false =>
        rw [hstep, if_neg (by decide)]
        have hne : ¬ t.Same e.key k := fun hs => by
          rw [HashTrait.Same, hr] at hs
          cases hs
        rw [length_cons] at hn
        obtain ⟨as1, y, as2, f, rfl, hf, hsame, hs⟩ | ⟨hno, q, hs⟩ := ih (p := a) (by omega) hc'
          fun y hy => hnode y (.tail _ hy)
        · refine .inl ⟨a :: as1, y, as2, f, rfl, hf, hsame, ?_⟩
          rw [hs, List.getLast?_cons, getD_some]
        refine .inr ⟨fun y hy f hf => ?_, q, hs⟩
        obtain rfl | hy := mem_cons.1 hy
        · rw [he] at hf
          cases hf
          exact hne
        · exact hno y hy f hf

namespace Laid

variable (h : m.Laid t G chain)
include h

theorem eq_of_mem {j : ℕ} (hi : i < m.capacity) (hj : j < m.capacity) (ha : a ∈ chain i)
    (ha' : a ∈ chain j) : i = j := by
  obtain ⟨e, he, -, hhash⟩ := h.placed i hi a ha
  obtain ⟨e', he', -, hhash'⟩ := h.placed j hj a ha'
  rw [he] at he'
  cases he'
  exact Except.ok.inj (hhash.symm.trans hhash')

theorem bucket_of_node (he : m.node a = some e) : ∃ i < m.capacity, a ∈ chain i ∧ e.key ∈ G ∧
    t.hash e.key m.capacity = pure i := by
  obtain ⟨i, hi, ha⟩ := h.owned a (he ▸ some_ne_none e)
  obtain ⟨e', he', hplaced⟩ := h.placed i hi a ha
  cases he.symm.trans he'
  exact ⟨i, hi, ha, hplaced⟩

theorem mem_all : a ∈ m.all chain ↔ m.node a ≠ none := by
  rw [all, mem_flatMap]
  constructor
  · rintro ⟨i, hi, ha⟩
    obtain ⟨e, he, -⟩ := h.placed i (mem_range.1 hi) a ha
    rw [he]
    exact some_ne_none e
  · intro ha
    obtain ⟨i, hi, ha⟩ := h.owned a ha
    exact ⟨i, mem_range.2 hi, ha⟩

theorem all_nodup : (m.all chain).Nodup := by
  refine nodup_flatMap.2 ⟨fun i hi => (h.chains i (mem_range.1 hi)).nodup, ?_⟩
  refine nodup_range.imp_of_mem fun hi hj hij => ?_
  exact fun a ha ha' => hij (h.eq_of_mem (mem_range.1 hi) (mem_range.1 hj) ha ha')

theorem length_pairs : (m.pairs (m.all chain)).length = (m.all chain).length := by
  rw [pairs, length_filterMap_eq_countP, countP_eq_length]
  intro a ha
  obtain ⟨e, he⟩ := ne_none_iff_exists'.1 (h.mem_all.1 ha)
  rw [he]
  rfl

omit h in
theorem length_chain_le (hi : i < m.capacity) : (chain i).length ≤ (m.all chain).length :=
  (sublist_flatten_of_mem (List.mem_map_of_mem (mem_range.2 hi))).length_le

theorem mem_pairs {p : K × V} : p ∈ m.pairs (m.all chain) ↔
    ∃ a e, m.node a = some e ∧ (e.key, e.value) = p := by
  rw [pairs, mem_filterMap]
  constructor
  · rintro ⟨a, -, ha⟩
    obtain ⟨e, he, hp⟩ := map_eq_some_iff.1 ha
    exact ⟨a, e, he, hp⟩
  · rintro ⟨a, e, he, hp⟩
    refine ⟨a, h.mem_all.2 (he ▸ some_ne_none e), ?_⟩
    rw [he, map_some, hp]

/-- The key is found in its bucket, or there is no entry with it. -/
theorem lookup_spec (hl : t.Lawful G) (hk : k ∈ G) (hcount : (m.all chain).length ≤ m.count) :
    ∃ i < m.capacity, t.hash k m.capacity = pure i ∧
      ((∃ as1 x as2 e, chain i = as1 ++ x :: as2 ∧ m.node x = some e ∧ t.Same e.key k ∧
        m.lookup t k = pure (i, as1.getLast?.getD 0, x)) ∨
      (∀ a e, m.node a = some e → ¬ t.Same e.key k) ∧ ∃ q, m.lookup t k = pure (i, q, 0)) := by
  obtain ⟨i, hi, hhash⟩ := hl.hash k hk m.capacity h.pos
  have hbucket : m.bucket t k = pure i := by rw [bucket, hhash, pure_bind, if_pos hi]
  have hlen : (chain i).length < m.count + 1 :=
    lt_succ_of_le ((length_chain_le hi).trans hcount)
  refine ⟨i, hi, hhash, ?_⟩
  rw [lookup, hbucket, pure_bind]
  obtain ⟨as1, x, as2, e, has, he, hsame, hs⟩ | ⟨hno, q, hs⟩ :=
    seek_spec (p := 0) hl hk hlen (h.chains i hi) fun x hx => by
      obtain ⟨e, he, heG, -⟩ := h.placed i hi x hx
      exact ⟨e, he, heG⟩
  · exact .inl ⟨as1, x, as2, e, has, he, hsame, by rw [hs, pure_bind]⟩
  refine .inr ⟨fun a e he hsame => ?_, q, by rw [hs, pure_bind]⟩
  -- An entry with the key would be in the same bucket.
  obtain ⟨j, hj, ha, heG, hhash'⟩ := h.bucket_of_node he
  rw [hl.respects _ heG k hk hsame, hhash] at hhash'
  exact hno a (Except.ok.inj hhash' ▸ ha) e he hsame

end Laid

/-! ## What is held -/

namespace Holds

variable (h : m.Holds t G l)
include h

variable {p : K × V}

theorem mem_keys (hp : p ∈ l) : p.1 ∈ G := by
  obtain ⟨chain, hlaid, hperm⟩ := h.laid
  obtain ⟨a, e, he, rfl⟩ := hlaid.mem_pairs.1 (hperm.mem_iff.2 hp)
  obtain ⟨-, -, -, heG, -⟩ := hlaid.bucket_of_node he
  exact heG

theorem length_all (hlaid : m.Laid t G chain) (hperm : (m.pairs (m.all chain)).Perm l) :
    (m.all chain).length = m.count := by
  rw [h.count, ← hperm.length_eq, hlaid.length_pairs]

/-- What the trait says of other keys is of no importance. -/
theorem transfer {t' : HashTrait K} {G' : Set K} (hG : ∀ p ∈ l, p.1 ∈ G')
    (hhash : ∀ p ∈ l, ∀ n, t'.hash p.1 n = t.hash p.1 n)
    (heq : ∀ p ∈ l, ∀ q ∈ l, t'.Same p.1 q.1 → t.Same p.1 q.1) : m.Holds t' G' l := by
  obtain ⟨chain, hlaid, hperm⟩ := h.laid
  have hmem {a : ℕ} {e : HashMapEntry K V} (he : m.node a = some e) : (e.key, e.value) ∈ l :=
    hperm.mem_iff.1 (hlaid.mem_pairs.2 ⟨a, e, he, rfl⟩)
  refine ⟨⟨chain, ⟨⟨hlaid.chains, fun i hi a ha => ?_⟩, hlaid.pos, hlaid.owned⟩, hperm⟩, h.count,
    h.apart.imp_of_mem fun hp hq hpq hs => hpq (heq _ hp _ hq hs)⟩
  obtain ⟨e, he, -, hhash'⟩ := hlaid.placed i hi a ha
  exact ⟨e, he, hG _ (hmem he), (hhash _ (hmem he) _).trans hhash'⟩

variable (hl : t.Lawful G)

include hl

/-- The order of the keys and values is of no importance. -/
theorem perm {l' : List (K × V)} (hp : l.Perm l') : m.Holds t G l' := by
  obtain ⟨chain, hlaid, hperm⟩ := h.laid
  -- The comparison is symmetric among the keys which are held.
  have hboth : l.Pairwise fun p q => ¬ t.Same p.1 q.1 ∧ ¬ t.Same q.1 p.1 :=
    h.apart.imp_of_mem fun hp hq hpq =>
      ⟨hpq, fun hs => hpq (hl.symm _ (h.mem_keys hq) _ (h.mem_keys hp) hs)⟩
  refine ⟨⟨chain, hlaid, hperm.trans hp⟩, h.count.trans hp.length_eq, ?_⟩
  exact (hp.pairwise hboth fun hpq => hpq.symm).imp And.left

variable (hk : k ∈ G)

include hk

/-- A key is held once. -/
theorem eq_of_same {q : K × V} (hp : p ∈ l) (hq : q ∈ l)
    (hpk : t.Same p.1 k) (hqk : t.Same q.1 k) : p = q := by
  by_contra hne
  have hapart : l.Pairwise fun p q => ¬ (t.Same p.1 k ∧ t.Same q.1 k) :=
    h.apart.imp_of_mem fun hp hq hpq hs =>
      hpq (hl.trans _ (h.mem_keys hp) _ hk _ (h.mem_keys hq) hs.1
        (hl.symm _ (h.mem_keys hq) _ hk hs.2))
  have : Std.Symm fun p q : K × V => ¬ (t.Same p.1 k ∧ t.Same q.1 k) :=
    ⟨fun _ _ hs hs' => hs hs'.symm⟩
  exact hapart.forall hp hq hne ⟨hpk, hqk⟩

/-- The key is found, with its value, or is not held. -/
theorem lookup_spec :
    (∃ r e, m.lookup t k = pure r ∧ r.2.2 ≠ 0 ∧ m.node r.2.2 = some e ∧ t.Same e.key k ∧
      (e.key, e.value) ∈ l) ∨
    (∀ p ∈ l, ¬ t.Same p.1 k) ∧ ∃ r, m.lookup t k = pure r ∧ r.2.2 = 0 := by
  obtain ⟨chain, hlaid, hperm⟩ := h.laid
  obtain ⟨i, hi, -, ⟨as1, x, as2, e, has, he, hsame, hr⟩ | ⟨hno, q, hr⟩⟩ :=
    hlaid.lookup_spec hl hk (h.length_all hlaid hperm).le
  · refine .inl ⟨_, e, hr, fun hx => (hlaid.chains i hi).2 ?_, he, hsame,
      hperm.mem_iff.1 (hlaid.mem_pairs.2 ⟨x, e, he, rfl⟩)⟩
    rw [has, ← show x = 0 from hx]
    exact mem_append_right _ (.head _)
  · refine .inr ⟨fun p hp => ?_, _, hr, rfl⟩
    obtain ⟨a, e, he, rfl⟩ := hlaid.mem_pairs.1 (hperm.mem_iff.2 hp)
    exact hno a e he

theorem contains_spec : m.contains t k = pure (decide (∃ p ∈ l, t.Same p.1 k)) := by
  obtain ⟨r, e, hr, hne, -, hsame, hmem⟩ | ⟨hno, r, hr, hz⟩ := h.lookup_spec hl hk
  · rw [contains, hr, pure_bind, decide_eq_true hne, decide_eq_true ⟨_, hmem, hsame⟩]
  · rw [contains, hr, pure_bind, decide_eq_false (not_not_intro hz), decide_eq_false]
    rintro ⟨p, hp, hs⟩
    exact hno p hp hs

theorem atKey_of_mem (hp : p ∈ l) (hs : t.Same p.1 k) : m.atKey t k = pure p.2 := by
  obtain ⟨r, e, hr, hne, he, hsame, hmem⟩ | ⟨hno, -⟩ := h.lookup_spec hl hk
  · rw [atKey, hr, pure_bind, if_neg hne, read_of_some he, pure_bind,
      ← h.eq_of_same hl hk hmem hp hsame hs]
  · exact absurd hs (hno p hp)

theorem atKey_of_notMem (hno : ∀ p ∈ l, ¬ t.Same p.1 k) : m.atKey t k = throw .mapAt := by
  obtain ⟨r, e, -, -, -, hsame, hmem⟩ | ⟨-, r, hr, hz⟩ := h.lookup_spec hl hk
  · exact absurd hsame (hno _ hmem)
  · rw [atKey, hr, pure_bind, if_pos hz]

theorem index_of_mem (hp : p ∈ l) (hs : t.Same p.1 k) :
    ∃ a e, m.index t k = pure a ∧ m.node a = some e ∧ (e.key, e.value) = p := by
  obtain ⟨r, e, hr, hne, he, hsame, hmem⟩ | ⟨hno, -⟩ := h.lookup_spec hl hk
  · refine ⟨r.2.2, e, ?_, he, h.eq_of_same hl hk hmem hp hsame hs⟩
    rw [index, hr, pure_bind, if_neg hne]
  · exact absurd hs (hno p hp)

end Holds

/-- Writing the value which is there changes nothing. -/
theorem assign_self (he : m.node a = some e) : m.assign a e.value = pure m := by
  have hnode : update m.node a (some e) = m.node := by
    rw [← he, update_eq_self]
  rw [assign, read_of_some he, pure_bind, hnode]

theorem pairs_congr (h : ∀ a ∈ as, (m'.node a).map (fun e => (e.key, e.value)) =
      (m.node a).map fun e => (e.key, e.value)) : m'.pairs as = m.pairs as :=
  filterMap_congr h

/-! ## Insertion -/

section Push

variable (m' : HashMap K V) {e : HashMapEntry K V} (hi : i < m.capacity)
  (hcap : m'.capacity = m.capacity) (hent : m'.entries = update m.entries i a)
  (hnode : m'.node = update m.node a (some e))
include hi hcap hent hnode

/-- An entry is put into its bucket, in front of the others. -/
theorem Chained.push (h : m.Chained t G chain) (hfresh : ∀ j < m.capacity, a ∉ chain j)
    (h0 : a ≠ 0) (hkey : e.key ∈ G) (hhash : t.hash e.key m.capacity = pure i)
    (hnext : e.next = m.entries i) : m'.Chained t G (update chain i (a :: chain i)) := by
  have hself : m'.node a = some e := by rw [hnode, update_self]
  have hne : ∀ x, x ≠ a → m'.node x = m.node x := fun x hx => by
    rw [hnode, update_of_ne hx]
  have hlink : m'.link = update m.link a (m.entries i) := by
    funext x
    by_cases hx : x = a
    · rw [hx, update_self, link_of_some hself, hnext]
    · rw [update_of_ne hx, link, link, hne x hx]
  refine ⟨fun j hj => ?_, fun j hj x hx => ?_⟩
  · rw [hcap] at hj
    rw [hlink, hent]
    by_cases hji : j = i
    · rw [hji, update_self, update_self]
      exact (h.chains i hi).push (hfresh i hi) h0
    · rw [update_of_ne hji, update_of_ne hji]
      exact (h.chains j hj).update (hfresh j hj)
  rw [hcap] at hj ⊢
  by_cases hxa : x = a
  · rw [hxa] at hx ⊢
    obtain rfl : j = i := by
      by_contra hji
      rw [update_of_ne hji] at hx
      exact hfresh j hj hx
    exact ⟨e, hself, hkey, hhash⟩
  · rw [hne x hxa]
    refine h.placed j hj x ?_
    by_cases hji : j = i
    · rw [hji, update_self] at hx
      exact hji ▸ (mem_cons.1 hx).resolve_left hxa
    · rwa [update_of_ne hji] at hx

omit hent hnode in
theorem all_push_perm : (m'.all (update chain i (a :: chain i))).Perm (a :: m.all chain) := by
  rw [all, all, hcap]
  refine (flatMap_update_perm nodup_range (mem_range.2 hi)).trans ?_
  exact (flatMap_perm_erase chain (mem_range.2 hi)).symm.cons a

/-- A new entry is put into its bucket. -/
theorem Laid.push (h : m.Laid t G chain) (ha : m.node a = none) (h0 : a ≠ 0) (hkey : e.key ∈ G)
    (hhash : t.hash e.key m.capacity = pure i) (hnext : e.next = m.entries i) :
    m'.Laid t G (update chain i (a :: chain i)) ∧
      (m'.pairs (m'.all (update chain i (a :: chain i)))).Perm
        ((e.key, e.value) :: m.pairs (m.all chain)) := by
  have hfresh : ∀ j < m.capacity, a ∉ chain j := fun j hj hm => by
    obtain ⟨e, he, -⟩ := h.placed j hj a hm
    rw [ha] at he
    cases he
  have hperm : (m'.all (update chain i (a :: chain i))).Perm (a :: m.all chain) :=
    all_push_perm m' hi hcap
  refine ⟨⟨h.toChained.push m' hi hcap hent hnode hfresh h0 hkey hhash hnext, hcap ▸ h.pos,
    fun x hx => ?_⟩, ?_⟩
  · have hmem : x ∈ m'.all (update chain i (a :: chain i)) := by
      rw [hperm.mem_iff, mem_cons]
      by_cases hxa : x = a
      · exact .inl hxa
      · rw [hnode, update_of_ne hxa] at hx
        exact .inr (h.mem_all.2 hx)
    obtain ⟨j, hj, hx⟩ := mem_flatMap.1 hmem
    exact ⟨j, mem_range.1 hj, hx⟩
  · refine (hperm.filterMap _).trans ?_
    rw [filterMap_cons, hnode, update_self]
    refine List.Perm.of_eq (congrArg _ (filterMap_congr fun x hx => ?_))
    have hxa : x ≠ a := by
      rintro rfl
      exact h.mem_all.1 hx ha
    rw [update_of_ne hxa]

end Push

/-! ## Rehashing -/

/-- Some entries are in the new table, where they belong, and the others have not been touched. -/
structure Moved (t : HashTrait K) (G : Set K) (m : HashMap K V) (newCapacity : ℕ) (moved : List ℕ)
    (new : HashMap K V) : Prop where
  chained : ∃ chain, Chained t G { new with capacity := newCapacity } chain ∧
    ((List.range newCapacity).flatMap chain).Perm moved
  same : ∀ a, (new.node a).map (fun e => (e.key, e.value)) =
    (m.node a).map fun e => (e.key, e.value)
  frame : ∀ a ∉ moved, new.node a = m.node a
  count : new.count = m.count

theorem Moved.perm {moved' : List ℕ} {new : HashMap K V} (h : Moved t G m newCapacity moved new)
    (hp : moved.Perm moved') : Moved t G m newCapacity moved' new := by
  obtain ⟨chain, hchained, hperm⟩ := h.chained
  exact ⟨⟨chain, hchained, hperm.trans hp⟩, h.same, fun a ha => h.frame a (mt hp.mem_iff.1 ha), h.count⟩

/-- The loop over a bucket. -/
theorem relink_spec (hl : t.Lawful G) (hpos : 0 < newCapacity) {new : HashMap K V}
    (hn : as.length < n) (hc : Chain m.link 0 a as)
    (hnode : ∀ x ∈ as, ∃ e, m.node x = some e ∧ e.key ∈ G) (hdisj : ∀ x ∈ as, x ∉ moved)
    (h : Moved t G m newCapacity moved new) : ∃ new', relink t newCapacity n a new = pure new' ∧
      Moved t G m newCapacity (as ++ moved) new' := by
  induction n generalizing a as moved new with
  | zero => omega
  | succ n ih =>
    cases as with
    | nil =>
      rw [nil_iff] at hc
      exact ⟨new, by rw [relink, if_pos hc], h⟩
    | cons x as =>
      have hnodup := hc.nodup
      obtain ⟨rfl, hx, hc'⟩ := cons_iff.1 hc
      obtain ⟨e, he, heG⟩ := hnode a (.head _)
      have hmoved := hdisj a (.head _)
      have hread : new.node a = some e := (h.frame a hmoved).trans he
      obtain ⟨j, hj, hhash⟩ := hl.hash e.key heG newCapacity hpos
      rw [relink, if_neg hx, read_of_some hread, pure_bind, hhash, pure_bind, if_pos hj]
      rw [link_of_some he] at hc'
      rw [length_cons] at hn
      obtain ⟨chain, hchained, hperm⟩ := h.chained
      have hfresh : ∀ i < newCapacity, a ∉ chain i := fun i hi hm =>
        hmoved (hperm.mem_iff.1 (mem_flatMap.2 ⟨i, mem_range.2 hi, hm⟩))
      have hpush : Chained t G { new with
          capacity := newCapacity
          entries := update new.entries j a
          node := update new.node a (some { e with next := new.entries j }) }
          (update chain j (a :: chain j)) :=
        Chained.push (m := { new with capacity := newCapacity }) _ hj rfl rfl rfl hchained hfresh hx
          heG hhash rfl
      have hperm' : ((List.range newCapacity).flatMap (update chain j (a :: chain j))).Perm
          (a :: moved) :=
        (all_push_perm (m := { new with capacity := newCapacity }) { new with
          capacity := newCapacity } hj rfl).trans (hperm.cons a)
      have hI : Moved t G m newCapacity (a :: moved) { new with
          entries := update new.entries j a
          node := update new.node a (some { e with next := new.entries j }) } := by
        refine ⟨⟨_, hpush, hperm'⟩, fun y => ?_, fun y hy => ?_, h.count⟩
        · dsimp only
          by_cases hy : y = a
          · rw [hy, update_self, ← h.same, hread]
            rfl
          · rw [update_of_ne hy]
            exact h.same y
        · rw [mem_cons, not_or] at hy
          dsimp only
          rw [update_of_ne hy.1]
          exact h.frame y hy.2
      obtain ⟨new', hnew', hm'⟩ := ih (by omega) hc'
        (fun y hy => hnode y (.tail _ hy)) (fun y hy hm => by
          obtain rfl | hm := mem_cons.1 hm
          · exact (nodup_cons.1 hnodup).1 hy
          · exact hdisj y (.tail _ hy) hm) hI
      exact ⟨new', hnew', hm'.perm perm_middle⟩

/-- A larger table holds the same, in other buckets. -/
theorem Laid.rehash (hl : t.Lawful G) (h : m.Laid t G chain)
    (hcount : (m.all chain).length ≤ m.count) (hsize : m.capacity * 2 * 8 ≤ kmallocMax) :
    ∃ m' chain', m.rehash t = pure m' ∧ m'.Laid t G chain' ∧ m'.count = m.count ∧
      m'.capacity = m.capacity * 2 ∧ (∀ a, m'.node a = none ↔ m.node a = none) ∧
      (m'.pairs (m'.all chain')).Perm (m.pairs (m.all chain)) := by
  have hpos : 0 < m.capacity * 2 := Nat.mul_pos h.pos (by decide)
  obtain ⟨new, hnew, hm⟩ := forRangeM_induct (n := m.capacity) (s := { m with entries := fun _ => 0 })
    (f := fun i => relink t (m.capacity * 2) (m.count + 1) (m.entries i))
    (P := fun i => Moved t G m (m.capacity * 2) ((List.range i).flatMap chain))
    ⟨⟨fun _ => [], ⟨fun _ _ => nil_iff.2 rfl, fun _ _ _ hx => absurd hx not_mem_nil⟩,
      by simp⟩, fun _ => rfl, fun _ _ => rfl, rfl⟩ fun i new hi hI => by
      obtain ⟨new', hnew', hm'⟩ := relink_spec hl hpos
        (lt_succ_of_le ((Laid.length_chain_le hi).trans hcount)) (h.chains i hi)
        (fun x hx => by
          obtain ⟨e, he, heG, -⟩ := h.placed i hi x hx
          exact ⟨e, he, heG⟩)
        (fun x hx hm => by
          obtain ⟨j, hj, hx'⟩ := mem_flatMap.1 hm
          have hji := mem_range.1 hj
          exact hji.ne (h.eq_of_mem (hji.trans hi) hi hx' hx)) hI
      refine ⟨new', hnew', hm'.perm ?_⟩
      rw [range_succ, flatMap_append, flatMap_singleton]
      exact perm_append_comm
  obtain ⟨chain', hchained, hperm⟩ := hm.chained
  have hnone : ∀ a, new.node a = none ↔ m.node a = none := fun a => by
    rw [← map_eq_none_iff, hm.same, map_eq_none_iff]
  refine ⟨{ new with capacity := m.capacity * 2 }, chain', ?_, ⟨hchained, hpos, fun a ha => ?_⟩,
    hm.count, rfl, hnone, (hperm.filterMap _).trans (.of_eq ?_)⟩
  · rw [HashMap.rehash, kmalloc, if_neg hsize.not_gt, pure_bind, hnew, pure_bind]
  · rw [show (HashMap.mk _ _ _ new.node).node a = new.node a from rfl, ne_eq, hnone] at ha
    obtain ⟨j, hj, ha⟩ := mem_flatMap.1 (hperm.mem_iff.2 (h.mem_all.2 ha))
    exact ⟨j, mem_range.1 hj, ha⟩
  · exact filterMap_congr fun a _ => hm.same a

/-- A key is inserted which is not held. -/
theorem Holds.insert_spec (hl : t.Lawful G) (h : m.Holds t G l) (hk : k ∈ G)
    (hno : ∀ p ∈ l, ¬ t.Same p.1 k) (ha : m.node a = none) (h0 : a ≠ 0)
    (hsize : m.Full → m.capacity * 2 * 8 ≤ kmallocMax) (v : V) :
    ∃ m', m.insert t a k v = pure m' ∧ m'.Holds t G ((k, v) :: l) ∧
      m'.capacity = if m.Full then m.capacity * 2 else m.capacity := by
  -- The entry is put into the table, which may be a larger one.
  have hpush {m1 : HashMap K V} {chain : ℕ → List ℕ} (hlaid : m1.Laid t G chain)
      (hperm : (m1.pairs (m1.all chain)).Perm l) (hcount : m1.count = m.count)
      (ha : m1.node a = none) : ∃ r, m1.lookup t k = pure r ∧ r.2.2 = 0 ∧ Holds t G { m1 with
          entries := update m1.entries r.1 a
          count := m1.count + 1
          node := update m1.node a (some ⟨k, v, m1.entries r.1⟩) } ((k, v) :: l) := by
    have hlen : (m1.all chain).length = m1.count := by
      rw [← hlaid.length_pairs, hperm.length_eq, hcount, h.count]
    obtain ⟨i, hi, hhash, ⟨as1, x, as2, e, -, he, hsame, -⟩ | ⟨-, q, hr⟩⟩ :=
      hlaid.lookup_spec hl hk hlen.le
    · exact absurd hsame (hno _ (hperm.mem_iff.1 (hlaid.mem_pairs.2 ⟨x, e, he, rfl⟩)))
    refine ⟨_, hr, rfl, ?_, congrArg (· + 1) (hcount.trans h.count), ?_⟩
    · obtain ⟨hlaid', hperm'⟩ := hlaid.push { m1 with
        entries := update m1.entries i a
        count := m1.count + 1
        node := update m1.node a (some ⟨k, v, m1.entries i⟩) }
        hi rfl rfl rfl ha h0 hk hhash rfl
      exact ⟨_, hlaid', hperm'.trans (hperm.cons _)⟩
    · refine pairwise_cons.2 ⟨fun p hp hs => hno p hp ?_, h.apart⟩
      exact hl.symm _ hk _ (h.mem_keys hp) hs
  obtain ⟨chain, hlaid, hperm⟩ := h.laid
  by_cases hf : m.Full
  · obtain ⟨m1, chain1, hr, hlaid1, hcount, hcap, hnone, hperm1⟩ :=
      hlaid.rehash hl (h.length_all hlaid hperm).le (hsize hf)
    obtain ⟨r, hr', hz, hh⟩ := hpush hlaid1 (hperm1.trans hperm) hcount ((hnone a).2 ha)
    refine ⟨_, ?_, hh, ?_⟩
    · rw [insert, if_pos hf, hr, pure_bind]
      dsimp only
      rw [hr', pure_bind, if_neg (not_not_intro hz)]
    · rwa [if_pos hf]
  · obtain ⟨r, hr', hz, hh⟩ := hpush hlaid hperm rfl ha
    refine ⟨_, ?_, hh, ?_⟩
    · rw [insert, if_neg hf, pure_bind]
      dsimp only
      rw [hr', pure_bind, if_neg (not_not_intro hz)]
    · rw [if_neg hf]

/-- There is no larger table. -/
theorem insert_tooBig (hf : m.Full) (hsize : kmallocMax < m.capacity * 2 * 8) (v : V) :
    m.insert t a k v = throw .kmallocTooBig := by
  rw [insert, if_pos hf, rehash, kmalloc, if_pos hsize]
  rfl

/-! ## Removal -/

/-- An entry is taken out of its bucket. -/
theorem Laid.remove (h : m.Laid t G chain) (hi : i < m.capacity) (has : chain i = as1 ++ x :: as2)
    (hx : m.node x = some e) (hcap : m'.capacity = m.capacity)
    (hother : ∀ j, j ≠ i → m'.entries j = m.entries j)
    (hself : Chain m'.link 0 (m'.entries i) (as1 ++ as2)) (hgone : m'.node x = none)
    (hlink : ∀ y ∉ chain i, m'.node y = m.node y)
    (hsame : ∀ y, y ≠ x → (m'.node y).map (fun e => (e.key, e.value)) =
      (m.node y).map fun e => (e.key, e.value)) :
    m'.Laid t G (update chain i (as1 ++ as2)) ∧ (m.pairs (m.all chain)).Perm
      ((e.key, e.value) :: m'.pairs (m'.all (update chain i (as1 ++ as2)))) := by
  have hnodup : (as1 ++ x :: as2).Nodup := has ▸ (h.chains i hi).nodup
  have hmem : ∀ y, y ∈ as1 ++ as2 ↔ y ∈ chain i ∧ y ≠ x := fun y => by
    rw [has]
    exact mem_splice_out hnodup
  have hperm : (m.all chain).Perm (x :: m'.all (update chain i (as1 ++ as2))) := by
    rw [all, all, hcap]
    refine (flatMap_perm_erase chain (mem_range.2 hi)).trans ?_
    rw [has]
    refine (List.Perm.append_right _ perm_middle).trans ?_
    exact (flatMap_update_perm nodup_range (mem_range.2 hi)).symm.cons x
  have hne : ∀ y ∈ m'.all (update chain i (as1 ++ as2)), y ≠ x := by
    rintro y hy rfl
    exact (nodup_cons.1 (hperm.nodup_iff.1 h.all_nodup)).1 hy
  refine ⟨⟨⟨fun j hj => ?_, fun j hj y hy => ?_⟩, hcap ▸ h.pos, fun y hy => ?_⟩, ?_⟩
  · rw [hcap] at hj
    by_cases hji : j = i
    · rwa [hji, update_self]
    · rw [update_of_ne hji, hother j hji]
      refine (h.chains j hj).congr fun y hy => ?_
      rw [link, link, hlink y fun hy' => hji (h.eq_of_mem hj hi hy hy')]
  · rw [hcap] at hj ⊢
    have hyx : y ≠ x := by
      refine hne y (mem_flatMap.2 ⟨j, mem_range.2 (hcap ▸ hj), hy⟩)
    have hy' : y ∈ chain j := by
      by_cases hji : j = i
      · rw [hji, update_self] at hy
        exact hji ▸ ((hmem y).1 hy).1
      · rwa [update_of_ne hji] at hy
    obtain ⟨f, hf, hfG, hhash⟩ := h.placed j hj y hy'
    have hf' := hsame y hyx
    rw [hf] at hf'
    obtain ⟨f', hnode, he⟩ := map_eq_some_iff.1 hf'
    obtain ⟨hkey, -⟩ := Prod.mk.inj he
    exact ⟨f', hnode, hkey ▸ hfG, hkey ▸ hhash⟩
  · have hyx : y ≠ x := by
      rintro rfl
      exact hy hgone
    have hy' : m.node y ≠ none := by
      rwa [ne_eq, ← map_eq_none_iff (f := fun e => (e.key, e.value)), ← hsame y hyx, map_eq_none_iff]
    obtain ⟨j, hj, hmem'⟩ := mem_flatMap.1
      ((mem_cons.1 (hperm.mem_iff.1 (h.mem_all.2 hy'))).resolve_left hyx)
    exact ⟨j, mem_range.1 hj, hmem'⟩
  · refine (hperm.filterMap _).trans (.of_eq ?_)
    rw [filterMap_cons, hx]
    refine congrArg _ (pairs_congr fun y hy => (hsame y (hne y hy)).symm)

/-- The entry which is found is taken out, and deleted. -/
theorem Laid.erase_spec (h : m.Laid t G chain) (hi : i < m.capacity)
    (has : chain i = as1 ++ x :: as2) (he : m.node x = some e)
    (hr : m.lookup t k = pure (i, as1.getLast?.getD 0, x)) :
    ∃ m', m.erase t k = pure m' ∧ m'.capacity = m.capacity ∧ m'.count = m.count - 1 ∧
      m'.Laid t G (update chain i (as1 ++ as2)) ∧ (m.pairs (m.all chain)).Perm
        ((e.key, e.value) :: m'.pairs (m'.all (update chain i (as1 ++ as2)))) := by
  have hc : Chain m.link 0 (m.entries i) (as1 ++ x :: as2) := has ▸ h.chains i hi
  have hx : x ≠ 0 := by
    rintro rfl
    exact hc.2 (mem_append_right _ (.head _))
  have hxmem : x ∈ chain i := has ▸ mem_append_right _ (.head _)
  have hxne : ∀ y ∈ as1 ++ as2, y ≠ x := fun y hy => ((mem_splice_out hc.nodup).1 hy).2
  obtain ⟨-, rfl, hc'⟩ | ⟨-, as, y, rfl, hc'⟩ := hc.remove
  · -- The entry is the first one of the bucket.
    have hne : ∀ z, z ≠ x → (m.delete x).node z = m.node z := fun z hz =>
      update_of_ne hz _ _
    refine ⟨{ m.delete x with
      entries := update m.entries i e.next, count := m.count - 1 }, ?_, rfl, rfl,
      h.remove hi has he rfl (fun j hj => update_of_ne hj _ _) ?_
        (update_self ..) (fun z hz => hne z (ne_of_mem_of_not_mem hxmem hz).symm)
        fun z hz => congrArg _ (hne z hz)⟩
    · rw [erase, hr, pure_bind, if_neg hx, read_of_some he, pure_bind, List.getLast?_nil]
      dsimp only [getD_none]
      rw [unlink, if_pos rfl, pure_bind]
      rfl
    · dsimp only
      rw [update_self, ← link_of_some he]
      refine hc'.congr fun z hz => ?_
      show ((m.delete x).node z).elim 0 HashMapEntry.next = _
      rw [hne z (hxne z hz), link]
  -- The one before it is linked to the next one.
  have hymem : y ∈ chain i := has ▸ mem_append_left _ (by simp)
  obtain ⟨f, hf, -⟩ := h.placed i hi y hymem
  have hy : y ≠ 0 := by
    rintro rfl
    exact hc.2 (mem_append_left _ (by simp))
  have hyx : y ≠ x := hxne y (mem_append_left _ (by simp))
  have hne : ∀ z, z ≠ x → z ≠ y →
      update (update m.node y (some { f with next := e.next })) x none z =
        m.node z := fun z hz hz' => by
    rw [update_of_ne hz, update_of_ne hz']
  have hself : update (update m.node y (some { f with next := e.next })) x none y =
      some { f with next := e.next } := by
    rw [update_of_ne hyx, update_self]
  refine ⟨{ m with
    node := update (update m.node y (some { f with next := e.next })) x none
    count := m.count - 1 }, ?_, rfl, rfl,
    h.remove hi has he rfl (fun _ _ => rfl) ?_ (update_self ..)
      (fun z hz => hne z (ne_of_mem_of_not_mem hxmem hz).symm
        (ne_of_mem_of_not_mem hymem hz).symm) fun z hz => ?_⟩
  · rw [erase, hr, pure_bind, if_neg hx, read_of_some he, pure_bind, List.getLast?_concat]
    dsimp only [getD_some]
    rw [unlink, if_neg hy, read_of_some hf, pure_bind, pure_bind]
    rfl
  · refine hc'.congr fun z hz => ?_
    rw [link]
    dsimp only
    by_cases hzy : z = y
    · rw [hzy, hself, update_self, link_of_some he]
      rfl
    · rw [hne z (hxne z hz) hzy, update_of_ne hzy, link]
  · dsimp only
    by_cases hzy : z = y
    · rw [hzy, hself, hf]
      rfl
    · rw [hne z hz hzy]

/-- A key is erased which is held. -/
theorem Holds.erase_spec (hl : t.Lawful G) (h : m.Holds t G l) (hk : k ∈ G) {p : K × V} (hp : p ∈ l)
    (hs : t.Same p.1 k) : ∃ m', m.erase t k = pure m' ∧ m'.capacity = m.capacity ∧
      m'.Holds t G (l.eraseP fun q => t.Same q.1 k) := by
  obtain ⟨chain, hlaid, hperm⟩ := h.laid
  obtain ⟨i, hi, hhash, ⟨as1, x, as2, e, has, he, hsame, hr⟩ | ⟨hno, -⟩⟩ :=
    hlaid.lookup_spec hl hk (h.length_all hlaid hperm).le
  · obtain ⟨m', hm', hcap, hcount, hlaid', hperm'⟩ := hlaid.erase_spec hi has he hr
    obtain ⟨q, l1, l2, -, hq, hl', herase⟩ :=
      exists_of_eraseP (p := fun q : K × V => decide (t.Same q.1 k)) hp (decide_eq_true hs)
    have hmem : (e.key, e.value) ∈ l := hperm.mem_iff.1 (hlaid.mem_pairs.2 ⟨x, e, he, rfl⟩)
    obtain rfl : (e.key, e.value) = q := h.eq_of_same hl hk hmem
      (hl' ▸ mem_append_right _ (.head _)) hsame (of_decide_eq_true hq)
    refine ⟨m', hm', hcap, ⟨_, hlaid', ?_⟩, ?_, h.apart.sublist (eraseP_sublist)⟩
    · rw [herase]
      refine List.Perm.cons_inv (hperm'.symm.trans (hperm.trans ?_))
      rw [hl']
      exact perm_middle
    · rw [hcount, h.count, length_eraseP_of_mem hp (decide_eq_true hs)]
  · obtain ⟨a, e, he, rfl⟩ := hlaid.mem_pairs.1 (hperm.mem_iff.2 hp)
    exact absurd hs (hno a e he)

/-! ## Clearing -/

/-- The loop over a bucket. -/
theorem freeChain_spec (hn : as.length < n) (hc : Chain m.link 0 a as)
    (hnode : ∀ x ∈ as, m.node x ≠ none) : ∃ m', freeChain n a m = pure m' ∧
      m'.entries = m.entries ∧ m'.capacity = m.capacity ∧ m'.count = m.count ∧
      ∀ x, m'.node x = if x ∈ as then none else m.node x := by
  induction n generalizing a as m with
  | zero => omega
  | succ n ih =>
    cases as with
    | nil =>
      rw [nil_iff] at hc
      exact ⟨m, by rw [freeChain, if_pos hc], rfl, rfl, rfl, fun x => (if_neg not_mem_nil).symm⟩
    | cons x as =>
      have hnodup := nodup_cons.1 hc.nodup
      obtain ⟨rfl, hx, hc'⟩ := cons_iff.1 hc
      obtain ⟨e, he⟩ := ne_none_iff_exists'.1 (hnode a (.head _))
      rw [link_of_some he] at hc'
      rw [length_cons] at hn
      have hne : ∀ y, y ≠ a → (m.delete a).node y = m.node y := fun y hy =>
        update_of_ne hy _ _
      have hya : ∀ y ∈ as, y ≠ a := fun y hy => ne_of_mem_of_not_mem hy hnodup.1
      obtain ⟨m', hm', hent, hcap, hcount, hnode'⟩ := ih (m := m.delete a) (by omega)
        (hc'.congr fun y hy => by rw [link, link, hne y (hya y hy)])
        fun y hy => by
          rw [hne y (hya y hy)]
          exact hnode y (.tail _ hy)
      refine ⟨m', ?_, hent, hcap, hcount, fun y => (hnode' y).trans ?_⟩
      · rw [freeChain, if_neg hx, read_of_some he, pure_bind, hm']
      · by_cases hy : y = a
        · simp [hy, delete]
        · simp [hy, hne y hy]

theorem holds_nil (hpos : 0 < m.capacity) (hent : ∀ j < m.capacity, m.entries j = 0)
    (hnode : ∀ x, m.node x = none) (hcount : m.count = 0) : m.Holds t G [] := by
  refine ⟨⟨fun _ => [], ⟨⟨fun j hj => nil_iff.2 (hent j hj), fun j _ x hx => absurd hx not_mem_nil⟩,
    hpos, fun x hx => absurd (hnode x) hx⟩, ?_⟩, hcount, List.Pairwise.nil⟩
  rw [all, flatMap_eq_nil_iff.2 fun _ _ => rfl]
  exact .refl _

/-- Nothing is held any more. -/
theorem Holds.clear_spec (h : m.Holds t G l) : ∃ m', m.clear = pure m' ∧ m'.Holds t G [] := by
  obtain ⟨chain, hlaid, hperm⟩ := h.laid
  have hlen := h.length_all hlaid hperm
  obtain ⟨m', hm', hcap, -, hent, hnode⟩ := forRangeM_induct (n := m.capacity) (s := m)
    (f := fun i (m : HashMap K V) => do
      let m ← freeChain (m.count + 1) (m.entries i) m
      pure { m with entries := update m.entries i 0 })
    (P := fun i (m' : HashMap K V) => m'.capacity = m.capacity ∧ m'.count = m.count ∧
      (∀ j, m'.entries j = if j < i then 0 else m.entries j) ∧
      ∀ x, m'.node x = if ∃ j < i, x ∈ chain j then none else m.node x)
    ⟨rfl, rfl, fun _ => rfl, fun _ => (if_neg (by simp)).symm⟩
    fun i m' hi hI => by
      obtain ⟨hcap, hcount, hent, hnode⟩ := hI
      have hsame : ∀ x ∈ chain i, m'.node x = m.node x := fun x hx => by
        refine (hnode x).trans (if_neg ?_)
        rintro ⟨j, hj, hx'⟩
        exact hj.ne (hlaid.eq_of_mem (hj.trans hi) hi hx' hx)
      have hlink : Chain m'.link 0 (m'.entries i) (chain i) := by
        rw [hent i, if_neg (lt_irrefl i)]
        exact (hlaid.chains i hi).congr fun x hx => by rw [link, link, hsame x hx]
      have hlt : (chain i).length < m'.count + 1 := by
        rw [hcount, ← hlen]
        exact lt_succ_of_le (Laid.length_chain_le hi)
      obtain ⟨m1, hm1, hent1, hcap1, hcount1, hnode1⟩ := freeChain_spec hlt hlink
        fun x hx => by
          rw [hsame x hx]
          exact hlaid.mem_all.1 (mem_flatMap.2 ⟨i, mem_range.2 hi, hx⟩)
      refine ⟨{ m1 with entries := update m1.entries i 0 }, by rw [hm1, pure_bind],
        hcap1.trans hcap, hcount1.trans hcount, fun j => ?_, fun x => (hnode1 x).trans ?_⟩
      · dsimp only
        by_cases hji : j = i
        · rw [hji, update_self, if_pos (lt_succ_self i)]
        · rw [update_of_ne hji, hent1, hent j]
          exact if_congr (by omega) rfl rfl
      · rw [hnode, ← ite_or]
        simp only [Nat.lt_succ_iff_lt_or_eq, or_and_right, exists_or, exists_eq_left, or_comm]
  refine ⟨{ m' with count := 0 }, by rw [clear, hm', pure_bind], holds_nil (hcap ▸ hlaid.pos)
    (fun j hj => (hent j).trans (if_pos (hcap ▸ hj))) (fun x => (hnode x).trans ?_) rfl⟩
  by_cases hx : m.node x = none
  · rw [hx, ite_self]
  · exact if_pos (hlaid.owned x hx)

/-- Nothing is held at first. -/
theorem new_spec (hpos : 0 < capacity) (hsize : capacity * 8 ≤ kmallocMax) :
    ∃ m : HashMap K V, new capacity = pure m ∧ m.capacity = capacity ∧ m.Holds t G [] := by
  refine ⟨⟨fun _ => 0, capacity, 0, fun _ => none⟩, ?_, rfl,
    holds_nil hpos (fun _ _ => rfl) (fun _ => rfl) rfl⟩
  rw [new, kmalloc, if_neg hsize.not_gt, pure_bind]

theorem new_tooBig (hsize : kmallocMax < capacity * 8) :
    (new capacity : Except Panic (HashMap K V)) = throw .kmallocTooBig := by
  rw [new, kmalloc, if_pos hsize]
  rfl

end HashMap

end HobbyOS
