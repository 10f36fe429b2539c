import HobbyOS.Lib.Buckets

/-!
# Hash maps are finite maps

Any sequence of operations leaves a hash map with the keys and values they put in and did not take
out, up to the order. The only thing which goes wrong is that a table cannot be doubled any more: one
with more than 16384 buckets is too large for `kmalloc`.
-/

namespace HobbyOS

open List

namespace HashMap

variable {K V : Type} {G : Set K} {t : HashTrait K} {m : HashMap K V} {chain : ℕ → List ℕ}
  {a i : ℕ} {l : List (K × V)}

/-! ## Iteration -/

/-- The entries of the buckets from `i` on. -/
def rest (m : HashMap K V) (chain : ℕ → List ℕ) (i : ℕ) : List ℕ :=
  (List.range' i (m.capacity - i)).flatMap chain

theorem rest_of_le (hi : m.capacity ≤ i) : m.rest chain i = [] := by
  rw [rest, Nat.sub_eq_zero_of_le hi]
  rfl

theorem rest_of_lt (hi : i < m.capacity) : m.rest chain i = chain i ++ m.rest chain (i + 1) := by
  rw [rest, rest, show m.capacity - i = (m.capacity - (i + 1)) + 1 by omega, range'_succ,
    flatMap_cons]

/-- The next bucket with entries, or the end. -/
theorem Laid.skip_spec (h : m.Laid t G chain) {n : ℕ} (hi : i + n = m.capacity) :
    ∃ as, Chain m.link 0 (m.skip n i).2 as ∧ (∀ x ∈ as, m.node x ≠ none) ∧
      m.rest chain i = as ++ m.rest chain ((m.skip n i).1 + 1) ∧
      ((m.skip n i).2 = 0 → (m.skip n i).1 = m.capacity) ∧
      ((m.skip n i).2 ≠ 0 → (m.skip n i).1 < m.capacity) := by
  induction n generalizing i with
  | zero =>
    rw [Nat.add_zero] at hi
    refine ⟨[], Chain.nil_iff.2 rfl, fun x hx => absurd hx not_mem_nil, ?_, fun _ => hi,
      fun hne => absurd rfl hne⟩
    rw [rest_of_le hi.ge, rest_of_le (by rw [skip]; omega), nil_append]
  | succ n ih =>
    have hlt : i < m.capacity := by omega
    rw [skip]
    by_cases h0 : m.entries i ≠ 0
    · rw [if_pos h0]
      exact ⟨chain i, h.chains i hlt, fun x hx => h.mem_all.1
        (mem_flatMap.2 ⟨i, mem_range.2 hlt, hx⟩), rest_of_lt hlt, fun hz => absurd hz h0,
        fun _ => hlt⟩
    · rw [if_neg h0]
      have hc := h.chains i hlt
      rw [not_not.1 h0] at hc
      rw [rest_of_lt hlt, hc.eq_nil, nil_append]
      exact ih (by omega)

/-- A loop with an iterator visits what is left of the bucket, and the other ones. -/
theorem Laid.visit_spec (h : m.Laid t G chain) {n : ℕ} {as : List ℕ}
    (hn : (as ++ m.rest chain (i + 1)).length < n) (hc : Chain m.link 0 a as)
    (hnode : ∀ x ∈ as, m.node x ≠ none) (hend : a = 0 → i = m.capacity)
    (hlt : a ≠ 0 → i < m.capacity) :
    m.visit n (i, a) = pure (m.pairs (as ++ m.rest chain (i + 1))) := by
  induction n generalizing i a as with
  | zero => omega
  | succ n ih =>
    cases as with
    | nil =>
      rw [Chain.nil_iff] at hc
      rw [visit, if_pos (Prod.ext (hend hc) hc), rest_of_le (by rw [hend hc]; omega)]
      rfl
    | cons x as =>
      obtain ⟨rfl, ha, hc'⟩ := Chain.cons_iff.1 hc
      obtain ⟨e, he⟩ := Option.ne_none_iff_exists'.1 (hnode a (.head _))
      have hit : (i, a) ≠ (m.capacity, 0) := fun hit => ha (congrArg Prod.snd hit)
      rw [link_of_some he] at hc'
      rw [cons_append, length_cons] at hn
      have hpairs : m.pairs (a :: as ++ m.rest chain (i + 1)) =
          (e.key, e.value) :: m.pairs (as ++ m.rest chain (i + 1)) := by
        rw [pairs, cons_append, filterMap_cons, he]
        rfl
      rw [visit, if_neg hit, read_of_some he, pure_bind, advance, if_neg ha, read_of_some he,
        pure_bind, hpairs]
      by_cases h0 : e.next ≠ 0
      · rw [if_pos h0, pure_bind, ih (by omega) hc' (fun y hy => hnode y (.tail _ hy))
          (fun hz => absurd hz h0) (fun _ => hlt ha), pure_bind]
      rw [not_not.1 h0] at hc'
      obtain ⟨as', hc'', hnode', hrest, hend', hlt'⟩ := h.skip_spec (i := i + 1)
        (n := m.capacity - (i + 1)) (by have := hlt ha; omega)
      rw [hc'.eq_nil, nil_append, hrest] at hn ⊢
      rw [if_neg h0, pure_bind, ih (by omega) hc'' hnode' hend' hlt', pure_bind]

/-- A loop over the whole map visits everything it holds, once. -/
theorem Holds.visit_spec (h : m.Holds t G l) :
    ∃ vs, m.visit (m.count + 1) m.begin = pure vs ∧ vs.Perm l := by
  obtain ⟨chain, hlaid, hperm⟩ := h.laid
  obtain ⟨as, hc, hnode, hrest, hend, hlt⟩ := hlaid.skip_spec (zero_add m.capacity)
  have hall : m.rest chain 0 = m.all chain := by rw [rest, Nat.sub_zero, all, range_eq_range']
  rw [← hall] at hperm
  have hlen := h.length_all hlaid (hall ▸ hperm)
  refine ⟨_, hlaid.visit_spec ?_ hc hnode hend hlt, ?_⟩
  · rw [← hrest, hall, hlen]
    exact Nat.lt_succ_self _
  · rwa [← hrest]

end HashMap

/-! ## Runs -/

/-- A trait whose keys are values: it always compares them by the same equivalence, which the hash
    respects. -/
structure ValueTrait (K : Type) where
  hash : K → ℕ → ℕ
  eq : K → K → Bool
  hash_lt : ∀ a n, 0 < n → hash a n < n
  refl : ∀ a, eq a a = true
  symm : ∀ a b, eq a b = true → eq b a = true
  trans : ∀ a b c, eq a b = true → eq b c = true → eq a c = true
  hash_eq : ∀ a b, eq a b = true → ∀ n, hash a n = hash b n

namespace ValueTrait

variable {K : Type} (t : ValueTrait K)

/-- The trait, as it is used. -/
def trait : HashTrait K := ⟨fun a n => pure (t.hash a n), fun a b => pure (t.eq a b)⟩

theorem same_iff {a b : K} : t.trait.Same a b ↔ t.eq a b = true :=
  ⟨Except.ok.inj, congrArg pure⟩

theorem lawful : t.trait.Lawful Set.univ where
  hash a _ n hn := ⟨t.hash a n, t.hash_lt a n hn, rfl⟩
  eq a _ b _ := ⟨t.eq a b, rfl⟩
  refl a _ := t.same_iff.2 (t.refl a)
  symm a _ b _ h := t.same_iff.2 (t.symm a b (t.same_iff.1 h))
  trans a _ b _ c _ h h' := t.same_iff.2 (t.trans a b c (t.same_iff.1 h) (t.same_iff.1 h'))
  respects a _ b _ h n := congrArg pure (t.hash_eq a b (t.same_iff.1 h) n)

/-- `HashTrait<uint32_t>`. -/
def uint32 : ValueTrait UInt32 where
  hash key capacity := key.toNat * 2654435761 % capacity
  eq a b := decide (a = b)
  hash_lt _ _ hn := Nat.mod_lt _ hn
  refl _ := decide_eq_true rfl
  symm _ _ h := decide_eq_true (of_decide_eq_true h).symm
  trans _ _ _ h h' := decide_eq_true ((of_decide_eq_true h).trans (of_decide_eq_true h'))
  hash_eq _ _ h n := by rw [of_decide_eq_true h]

end ValueTrait

/-- A hash map, and the keys and values it should hold. -/
structure Hashed (K V : Type) where
  map : HashMap K V
  model : List (K × V)

/-- What is done next. -/
inductive MapEvent (K V : Type)
  /-- `HashMap::insert`; the entry is at the address `a`. -/
  | insert (a : ℕ) (key : K) (value : V)
  /-- `HashMap::erase`. -/
  | erase (key : K)
  /-- `HashMap::clear`. -/
  | clear

namespace Hashed

variable {K V : Type} (t : ValueTrait K) (s : Hashed K V)

/-- An operation, on the map and on what it should hold. -/
def perform : MapEvent K V → Except Panic (Hashed K V)
  | .insert a key value => do
    let m ← s.map.insert t.trait a key value
    pure ⟨m, (key, value) :: s.model⟩
  | .erase key => do
    let m ← s.map.erase t.trait key
    pure ⟨m, s.model.eraseP fun p => t.eq p.1 key⟩
  | .clear => do
    let m ← s.map.clear
    pure ⟨m, []⟩

/-- One step; there is none if the kernel panics. -/
def step (ev : MapEvent K V) : Option (Hashed K V × Unit) := (s.perform t ev).toOption.map (·, ())

/-- A key is inserted which is not there, at an address which is free, or a key is erased which is
    there. -/
def Proper : MapEvent K V → Prop
  | .insert a key _ => (∀ p ∈ s.model, t.eq p.1 key = false) ∧ a ≠ 0 ∧ (s.map.node a).isNone
  | .erase key => ∃ p ∈ s.model, t.eq p.1 key = true
  | .clear => True

/-- A larger table is needed, which there cannot be. -/
def Stuck : MapEvent K V → Prop
  | .insert _ _ _ => s.map.Full ∧ kmallocMax < s.map.capacity * 2 * 8
  | .erase _ => False
  | .clear => False

/-- The map holds what it should. -/
def Sound : Prop := s.map.Holds t.trait Set.univ s.model

variable {t s} {ev : MapEvent K V}

/-- Every operation does what it should, or there is no larger table. -/
theorem Sound.perform (h : s.Sound t) (hev : s.Proper t ev) :
    s.Stuck ev ∧ s.perform t ev = throw .kmallocTooBig ∨
      ¬ s.Stuck ev ∧ ∃ s', s.perform t ev = pure s' ∧ s'.Sound t := by
  cases ev with
  | insert a key value =>
    by_cases hs : s.Stuck (.insert a key value)
    · refine .inl ⟨hs, ?_⟩
      rw [Hashed.perform, HashMap.insert_tooBig hs.1 hs.2]
      rfl
    obtain ⟨hno, ha, hfree⟩ := hev
    obtain ⟨m', hm', hh, -⟩ := h.insert_spec t.lawful (Set.mem_univ key)
      (fun p hp hsame => Bool.false_ne_true ((hno p hp).symm.trans (t.same_iff.1 hsame)))
      (Option.isNone_iff_eq_none.1 hfree) ha (fun hf => not_lt.1 fun hlt => hs ⟨hf, hlt⟩) value
    refine .inr ⟨hs, ⟨m', (key, value) :: s.model⟩, ?_, hh⟩
    rw [Hashed.perform, hm', pure_bind]
  | erase key =>
    obtain ⟨p, hp, heq⟩ := hev
    obtain ⟨m', hm', -, hh⟩ := h.erase_spec t.lawful (Set.mem_univ key) hp (t.same_iff.2 heq)
    have hmodel : (s.model.eraseP fun q => t.eq q.1 key) =
        s.model.eraseP fun q => decide (t.trait.Same q.1 key) := by
      congr 1
      funext q
      rw [Bool.eq_iff_iff, decide_eq_true_iff, t.same_iff]
    refine .inr ⟨id, ⟨m', s.model.eraseP fun q => t.eq q.1 key⟩, ?_, ?_⟩
    · rw [Hashed.perform, hm', pure_bind]
    · rwa [Sound, hmodel]
  | clear =>
    obtain ⟨m', hm', hh⟩ := h.clear_spec
    refine .inr ⟨id, ⟨m', []⟩, ?_, hh⟩
    rw [Hashed.perform, hm', pure_bind]

/-- Starting with any capacity from 1 to 16384, after any sequence of insertions of keys which are not
    there, erasures of keys which are there and `clear`: the map contains the keys which it should,
    with their values, and as many of them; no key is there twice; every entry is in the bucket of
    its key; and a loop over the map visits every key once. The next operation does not panic, but
    for an insertion which needs a table which is too large. -/
theorem reachable_map (t : ValueTrait K) {capacity : ℕ} {m : HashMap K V} (hpos : 0 < capacity)
    (hnew : HashMap.new capacity = pure m)
    (hrun : Reaches (fun s : Hashed K V => s.step t) (fun s => s.Proper t) ⟨m, []⟩ s) :
    (∀ k, s.map.contains t.trait k = pure (decide (∃ p ∈ s.model, t.eq p.1 k = true))) ∧
    (∀ k, ∀ p ∈ s.model, t.eq p.1 k = true → s.map.atKey t.trait k = pure p.2) ∧
    (∀ k, (∀ p ∈ s.model, t.eq p.1 k = false) → s.map.atKey t.trait k = throw .mapAt) ∧
    s.map.count = s.model.length ∧ s.model.Pairwise (fun p q => t.eq p.1 q.1 = false) ∧
    (∃ chain : ℕ → List ℕ, (∀ i < s.map.capacity,
      Chain s.map.link 0 (s.map.entries i) (chain i) ∧ ∀ a ∈ chain i, ∃ e,
        s.map.node a = some e ∧ t.hash e.key s.map.capacity = i) ∧
      ∀ a, s.map.node a ≠ none → ∃ i < s.map.capacity, a ∈ chain i) ∧
    (∃ vs, s.map.visit (s.map.count + 1) s.map.begin = pure vs ∧ vs.Perm s.model) ∧
    ∀ ev, s.Proper t ev → (s.Stuck ev → s.perform t ev = throw .kmallocTooBig) ∧
      (¬ s.Stuck ev → ∃ s', s.perform t ev = pure s') := by
  have h : s.Sound t := by
    refine hrun.inv (I := Sound t) (fun s ev s' o hI hev hs => ?_) ?_
    · obtain ⟨-, he⟩ | ⟨-, s1, he, hI'⟩ := hI.perform hev
      · rw [step, he] at hs
        cases hs
      · rw [step, he] at hs
        cases hs
        exact hI'
    · have hsize : capacity * 8 ≤ kmallocMax := by
        by_contra hsize
        rw [HashMap.new_tooBig (not_le.1 hsize)] at hnew
        cases hnew
      obtain ⟨m', hm', -, hh⟩ := HashMap.new_spec (V := V) (t := t.trait) (G := Set.univ) hpos hsize
      rw [hnew] at hm'
      cases hm'
      exact hh
  have hne {a b : K} (hs : ¬ t.trait.Same a b) : t.eq a b = false :=
    Bool.eq_false_iff.2 fun heq => hs (t.same_iff.2 heq)
  refine ⟨fun k => ?_, fun k p hp heq => ?_, fun k hno => ?_, h.count, h.apart.imp fun hs => hne hs,
    ?_, h.visit_spec, fun ev hev => ?_⟩
  · rw [h.contains_spec t.lawful (Set.mem_univ k)]
    simp only [t.same_iff]
  · exact h.atKey_of_mem t.lawful (Set.mem_univ k) hp (t.same_iff.2 heq)
  · refine h.atKey_of_notMem t.lawful (Set.mem_univ k) fun p hp hs => ?_
    exact Bool.false_ne_true ((hno p hp).symm.trans (t.same_iff.1 hs))
  · obtain ⟨chain, hlaid, -⟩ := h.laid
    refine ⟨chain, fun i hi => ⟨hlaid.chains i hi, fun a ha => ?_⟩, hlaid.owned⟩
    obtain ⟨e, he, -, hhash⟩ := hlaid.placed i hi a ha
    exact ⟨e, he, Except.ok.inj hhash⟩
  · obtain ⟨hs, he⟩ | ⟨hs, s', he, -⟩ := h.perform hev
    · exact ⟨fun _ => he, fun hns => absurd hs hns⟩
    · exact ⟨fun hst => absurd hst hs, fun _ => ⟨s', he⟩⟩

instance (t : ValueTrait K) (s : Hashed K V) (ev : MapEvent K V) : Decidable (s.Proper t ev) := by
  cases ev <;> unfold Proper <;> infer_instance

/-- A map with one bucket at first, which is doubled twice. -/
def doubled : Hashed UInt32 ℕ :=
  lastState (guarded (fun s : Hashed UInt32 ℕ => s.step .uint32) fun s => s.Proper .uint32)
    ⟨⟨fun _ => 0, 1, 0, fun _ => none⟩, []⟩ [.insert 8 5 50, .insert 16 6 60, .insert 24 7 70, .erase 6]

/-- It holds two keys, in four buckets. -/
theorem reachable_map_doubled : doubled.map.capacity = 4 ∧ doubled.model = [(7, 70), (5, 50)] ∧
    ∃ vs, doubled.map.visit (doubled.map.count + 1) doubled.map.begin = pure vs ∧
      vs.Perm doubled.model :=
  ⟨by decide +kernel, by decide +kernel,
    (reachable_map .uint32 Nat.one_pos rfl (Reaches.lastState _ _)).2.2.2.2.2.2.1⟩

/-- A map with 16385 buckets cannot be created. -/
theorem new_panics : (HashMap.new 16385 : Except Panic (HashMap UInt32 ℕ)) =
    throw .kmallocTooBig := HashMap.new_tooBig (by decide)

end Hashed

end HobbyOS
