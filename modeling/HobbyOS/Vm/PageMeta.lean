import Mathlib

/-!
# The reference counts of the pages

`PageRefCount` counts how often a physical page is mapped, in a hash table of
1024 buckets keyed by the address. A page without an entry has one reference: a
first `incRef` makes an entry with the count `2`, and `decRef` removes the entry
when its count drops to `0`, telling its caller to free the page; it tells so, too,
for a page without an entry.

The pages are given by number, i.e., their address shifted by `PAGE_SHIFT`. The
counts are numbers without a bound: a page of a machine with `2 ^ 15` pages is
mapped less than `2 ^ 24` times. `PageRefCount::init`, which empties the table
once, is left out, the table being empty at boot.

As the entries of a bucket are for different pages, the operations are those of a
partial function from pages to counts (`ref_incRef`, `ref_decRef`).
-/

namespace HobbyOS

open Function List

/-- An entry of the table. -/
structure PageMeta where
  page : ℕ
  refcount : ℕ

/-- The table: its entries are for different pages, and their counts positive. -/
structure PageRefCount where
  /-- `s_buckets`. -/
  buckets : ℕ → List PageMeta
  nodup : ∀ i, ((buckets i).map PageMeta.page).Nodup
  pos : ∀ i, ∀ m ∈ buckets i, 0 < m.refcount

namespace PageRefCount

variable (t : PageRefCount) (page q : ℕ)

/-- `PageRefCount::hash`. -/
def hash : ℕ := (page ^^^ (page >>> 16)) * 0x45d9f3b % 2 ^ 64 % 1024

/-- `PageRefCount::find`, in a bucket. -/
def findIn (l : List PageMeta) : Option PageMeta := l.find? (·.page == page)

def find : Option PageMeta := findIn page (t.buckets (hash page))

/-- `PageRefCount::erase`, in a bucket. -/
def eraseIn (l : List PageMeta) : List PageMeta := l.eraseP (·.page == page)

/-- The assignment of a count to the entry found in a bucket. -/
def setIn (n : ℕ) : List PageMeta → List PageMeta
  | [] => []
  | m :: l => if m.page = page then ⟨m.page, n⟩ :: l else m :: setIn n l

/-! ## Buckets -/

variable {page q} {l : List PageMeta} {n : ℕ}

theorem map_setIn : (setIn page n l).map PageMeta.page = l.map PageMeta.page := by
  induction l with
  | nil => rfl
  | cons m l ih =>
    rw [setIn]
    split_ifs <;> simp [ih]

theorem nodup_setIn (h : (l.map PageMeta.page).Nodup) :
    ((setIn page n l).map PageMeta.page).Nodup := by rwa [map_setIn]

theorem nodup_eraseIn (h : (l.map PageMeta.page).Nodup) :
    ((eraseIn page l).map PageMeta.page).Nodup := (eraseP_sublist.map _).nodup h

theorem pos_eraseIn (h : ∀ m ∈ l, 0 < m.refcount) : ∀ m ∈ eraseIn page l, 0 < m.refcount :=
  fun m hm => h m (mem_of_mem_eraseP hm)

theorem pos_setIn (hn : 0 < n) (h : ∀ m ∈ l, 0 < m.refcount) :
    ∀ m ∈ setIn page n l, 0 < m.refcount := by
  induction l with
  | nil => exact h
  | cons m l ih =>
    rw [setIn]
    split_ifs
    · exact forall_mem_cons.2 ⟨hn, (forall_mem_cons.1 h).2⟩
    · exact forall_mem_cons.2
        ⟨(forall_mem_cons.1 h).1, ih (forall_mem_cons.1 h).2⟩

theorem findIn_cons (m : PageMeta) :
    findIn q (m :: l) = if m.page = q then some m else findIn q l := by
  by_cases h : m.page = q
  · simp [findIn, h]
  · simp [findIn, h]

theorem findIn_setIn (h : findIn page l ≠ none) : (findIn q (setIn page n l)).map PageMeta.refcount =
    if q = page then some n else (findIn q l).map PageMeta.refcount := by
  induction l with
  | nil => exact absurd rfl h
  | cons m l ih =>
    rw [findIn_cons] at h
    by_cases hm : m.page = page
    · simp only [setIn, hm, if_true, findIn_cons]
      by_cases hq : q = page
      · simp [hq]
      · simp [hq, Ne.symm hq]
    · simp only [setIn, hm, if_false, findIn_cons] at h ⊢
      by_cases hq : m.page = q
      · have : q ≠ page := hq ▸ hm
        simp [hq, this]
      · simpa [hq] using ih h

theorem findIn_eraseIn (h : (l.map PageMeta.page).Nodup) :
    findIn q (eraseIn page l) = if q = page then none else findIn q l := by
  induction l with
  | nil => simp [findIn, eraseIn]
  | cons m l ih =>
    rw [map_cons, nodup_cons] at h
    by_cases hm : m.page = page
    · have he : eraseIn page (m :: l) = l := by simp [eraseIn, hm]
      rw [he, findIn_cons]
      by_cases hq : q = page
      · have : findIn q l = none := by
          simp only [findIn, List.find?_eq_none, beq_iff_eq]
          exact fun x hx hxq => h.1 (hm.trans (hq.symm.trans hxq.symm) ▸ mem_map_of_mem hx)
        simp [hq, hq ▸ this]
      · rw [if_neg hq, if_neg (by rw [hm]; exact Ne.symm hq)]
    · have he : eraseIn page (m :: l) = m :: eraseIn page l := by simp [eraseIn, hm]
      rw [he, findIn_cons, findIn_cons, ih h.2]
      by_cases hq : m.page = q
      · have : q ≠ page := hq ▸ hm
        simp [hq, this]
      · simp [hq]

/-! ## The operations -/

/-- Changing the bucket of a page. -/
def setBucket (t : PageRefCount) (page : ℕ) (l : List PageMeta)
    (hl : (l.map PageMeta.page).Nodup) (hp : ∀ m ∈ l, 0 < m.refcount) : PageRefCount where
  buckets := update t.buckets (hash page) l
  nodup i := by
    by_cases hi : i = hash page
    · rwa [hi, update_self]
    · rw [update_of_ne hi]
      exact t.nodup i
  pos i := by
    by_cases hi : i = hash page
    · rwa [hi, update_self]
    · rw [update_of_ne hi]
      exact t.pos i

/-- The count of a page which has an entry. -/
def ref (t : PageRefCount) (page : ℕ) : Option ℕ := (t.find page).map PageMeta.refcount

/-- `PageRefCount::getRef`. -/
def getRef (t : PageRefCount) (page : ℕ) : ℕ :=
  match t.find page with
  | some node => node.refcount
  | none => 1

/-- `PageRefCount::incRef`. -/
def incRef (t : PageRefCount) (page : ℕ) : PageRefCount :=
  match h : t.find page with
  | some node => t.setBucket page (setIn page (node.refcount + 1) (t.buckets (hash page)))
      (nodup_setIn (t.nodup _)) (pos_setIn (Nat.succ_pos _) (t.pos _))
  | none => t.setBucket page (⟨page, 2⟩ :: t.buckets (hash page))
      (nodup_cons.2 ⟨fun hm => by
        obtain ⟨m, hm, hp⟩ := mem_map.1 hm
        have := List.find?_eq_none.1 h m hm
        simp [hp] at this, t.nodup _⟩)
      (forall_mem_cons.2 ⟨two_pos, t.pos _⟩)

/-- `PageRefCount::decRef`: whether the page is to be freed, and the table. -/
def decRef (t : PageRefCount) (page : ℕ) : Bool × PageRefCount :=
  match t.find page with
  | none => (true, t)
  | some node =>
    if h : node.refcount - 1 = 0 then
      (true, t.setBucket page (eraseIn page (t.buckets (hash page)))
        (nodup_eraseIn (t.nodup _)) (pos_eraseIn (t.pos _)))
    else
      (false, t.setBucket page (setIn page (node.refcount - 1) (t.buckets (hash page)))
        (nodup_setIn (t.nodup _)) (pos_setIn (Nat.pos_of_ne_zero h) (t.pos _)))

/-- The empty table. -/
def empty : PageRefCount where
  buckets _ := []
  nodup _ := nodup_nil
  pos _ _ hm := absurd hm not_mem_nil

/-! ## The table as a partial function -/

theorem getRef_eq : t.getRef q = (t.ref q).getD 1 := by
  simp only [getRef, ref]
  cases t.find q <;> rfl

theorem ref_ne_zero : t.ref q ≠ some 0 := by
  intro h
  obtain ⟨m, hm, h0⟩ := Option.map_eq_some_iff.1 h
  have := t.pos _ m (mem_of_find?_eq_some hm)
  omega

theorem getRef_pos : 1 ≤ t.getRef q := by
  rw [getRef_eq]
  cases h : t.ref q with
  | none => exact le_rfl
  | some n =>
    refine Nat.pos_of_ne_zero fun h0 => t.ref_ne_zero (q := q) ?_
    rw [h]
    exact congrArg some h0

theorem find_setBucket (hl hp) : (t.setBucket page l hl hp).find q =
    if hash q = hash page then findIn q l else t.find q := by
  simp only [find, setBucket, update_apply]
  split_ifs <;> rfl

/-- A bucket tells about the pages of its hash only. -/
theorem ref_setBucket {hl hp} {r : Option ℕ} (h : ∀ q, hash q = hash page →
      (findIn q l).map (·.refcount) = if q = page then r else t.ref q) :
    (t.setBucket page l hl hp).ref = update t.ref page r := by
  funext q
  rw [ref, find_setBucket, update_apply]
  split_ifs with hq hqp hqp
  · rw [h q hq, if_pos hqp]
  · rw [h q hq, if_neg hqp]
  · exact absurd (congrArg hash hqp) hq
  · rfl

theorem ref_incRef : (t.incRef page).ref = update t.ref page (some (t.getRef page + 1)) := by
  rw [incRef]
  split
  next node h =>
    have hne : findIn page (t.buckets (hash page)) ≠ none := by
      rw [show findIn page (t.buckets (hash page)) = some node from h]
      exact Option.some_ne_none _
    refine t.ref_setBucket fun q hq => ?_
    rw [findIn_setIn hne, ref, find, hq, getRef, h]
  next h =>
    refine t.ref_setBucket fun q hq => ?_
    rw [findIn_cons, getRef, h, ref, find, hq]
    by_cases hqp : q = page
    · simp [hqp]
    · rw [if_neg (Ne.symm hqp), if_neg hqp]

/-- `decRef` tells to free a page which is counted once, and forgets it. -/
theorem decRef_of_getRef_eq_one (h : t.getRef page = 1) : ∃ t', t.decRef page = (true, t') ∧
    t'.ref = update t.ref page none := by
  rw [getRef] at h
  cases hf : t.find page with
  | none =>
    refine ⟨t, by rw [decRef, hf], funext fun q => ?_⟩
    rw [update_apply]
    split_ifs with hq
    · rw [hq, ref, hf]
      rfl
    · rfl
  | some node =>
    rw [hf] at h
    dsimp only at h
    have h0 : node.refcount - 1 = 0 := by omega
    refine ⟨_, by rw [decRef, hf]; exact dif_pos h0, t.ref_setBucket fun q hq => ?_⟩
    rw [findIn_eraseIn (t.nodup _), ref, find, hq]
    split_ifs <;> rfl

/-- `decRef` counts one reference less for a page which is counted more often. -/
theorem decRef_of_getRef_ne_one (h : t.getRef page ≠ 1) : ∃ t', t.decRef page = (false, t') ∧
    t'.ref = update t.ref page (some (t.getRef page - 1)) := by
  have hpos := t.getRef_pos (q := page)
  rw [getRef] at h hpos ⊢
  cases hf : t.find page with
  | none =>
    rw [hf] at h
    exact absurd rfl h
  | some node =>
    rw [hf] at h hpos
    dsimp only at h hpos ⊢
    have hne : findIn page (t.buckets (hash page)) ≠ none := by
      rw [show findIn page (t.buckets (hash page)) = some node from hf]
      exact Option.some_ne_none _
    refine ⟨_, by rw [decRef, hf]; exact dif_neg (by omega), t.ref_setBucket fun q hq => ?_⟩
    rw [findIn_setIn hne, ref, find, hq]

theorem getRef_incRef : (t.incRef page).getRef = update t.getRef page (t.getRef page + 1) := by
  funext q
  rw [getRef_eq, ref_incRef, update_apply, update_apply]
  split_ifs
  · rfl
  · rw [getRef_eq]

/-- What `decRef` does to the counts: a page counted once is to be freed. -/
theorem decRef_spec (page : ℕ) :
    (t.getRef page = 1 ∧ ∃ t', t.decRef page = (true, t') ∧ t'.getRef = t.getRef) ∨
      t.getRef page ≠ 1 ∧ ∃ t', t.decRef page = (false, t') ∧
        t'.getRef = update t.getRef page (t.getRef page - 1) := by
  by_cases h : t.getRef page = 1
  · obtain ⟨t', ht', hr⟩ := t.decRef_of_getRef_eq_one h
    refine .inl ⟨h, t', ht', funext fun q => ?_⟩
    rw [getRef_eq, hr, update_apply]
    split_ifs with hq
    · rw [hq, h]
      rfl
    · rw [getRef_eq]
  · obtain ⟨t', ht', hr⟩ := t.decRef_of_getRef_ne_one h
    refine .inr ⟨h, t', ht', funext fun q => ?_⟩
    rw [getRef_eq, hr, update_apply, update_apply]
    split_ifs
    · rfl
    · rw [getRef_eq]

end PageRefCount

end HobbyOS
