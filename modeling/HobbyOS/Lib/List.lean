import HobbyOS.DoubleChain
import HobbyOS.Lib.HashMap

/-!
# Doubly linked lists

`List`, the nodes of which are objects with addresses, `0` being the null pointer. Their fields are
functions of the address; there is a node at an address if it has a value. A list is linked through
its nodes in both directions (`Linked`), and every operation keeps it so.
-/

namespace HobbyOS

open Function List

/-- `List`. -/
structure DList (T : Type) where
  head : ℕ
  tail : ℕ
  size : ℕ
  value : ℕ → Option T
  next : ℕ → ℕ
  prev : ℕ → ℕ

namespace DList

variable {T : Type}

/-- `List::List`. -/
def new : DList T := ⟨0, 0, 0, fun _ => none, fun _ => 0, fun _ => 0⟩

variable (l : DList T)

/-- A node is used; its value. -/
def deref (a : ℕ) : Except Panic T := (l.value a).elim (throw .wild) pure

/-- `node->next = v`. -/
def setNext (a v : ℕ) : Except Panic (DList T) := do
  let _ ← l.deref a
  pure { l with next := update l.next a v }

/-- `node->prev = v`. -/
def setPrev (a v : ℕ) : Except Panic (DList T) := do
  let _ ← l.deref a
  pure { l with prev := update l.prev a v }

/-- `node->next = v` if there is a node, or else `m_head = v`. -/
def linkNext (a v : ℕ) : Except Panic (DList T) :=
  if a ≠ 0 then l.setNext a v else pure { l with head := v }

/-- `node->prev = v` if there is a node, or else `m_tail = v`. -/
def linkPrev (a v : ℕ) : Except Panic (DList T) :=
  if a ≠ 0 then l.setPrev a v else pure { l with tail := v }

/-- `delete node`. -/
def delete (a : ℕ) : DList T := { l with value := update l.value a none }

/-- `List::addFirst`; the node is at the address `a`. -/
def addFirst (a : ℕ) (value : T) : Except Panic (DList T) := do
  let l := { l with
    value := update l.value a (some value)
    next := update l.next a l.head
    prev := update l.prev a 0 }
  let l ← l.linkPrev l.head a
  pure { l with head := a, size := l.size + 1 }

/-- `List::removeLast`. -/
def removeLast : Except Panic (DList T) :=
  if l.tail ≠ 0 then do
    let _ ← l.deref l.tail
    let l ← { l.delete l.tail with tail := l.prev l.tail }.linkNext (l.prev l.tail) 0
    pure { l with size := l.size - 1 }
  else throw .listRemoveLast

/-- `List::remove`. -/
def remove (a : ℕ) : Except Panic (DList T) := do
  let _ ← l.deref a
  let l ← l.linkNext (l.prev a) (l.next a)
  let l ← l.linkPrev (l.next a) (l.prev a)
  pure { l.delete a with size := l.size - 1 }

/-- `List::back`. -/
def back : Except Panic T := l.deref l.tail

/-- `node->next = v` if there is a node. -/
def whenNext (a v : ℕ) : Except Panic (DList T) := if a ≠ 0 then l.setNext a v else pure l

/-- `node->prev = v` if there is a node. -/
def whenPrev (a v : ℕ) : Except Panic (DList T) := if a ≠ 0 then l.setPrev a v else pure l

/-- `List::moveFront`. -/
def moveFront (a : ℕ) : Except Panic (DList T) :=
  if a = 0 ∨ a = l.head then pure l
  else do
    let _ ← l.deref a
    let l ← l.whenNext (l.prev a) (l.next a)
    let l ← l.whenPrev (l.next a) (l.prev a)
    let l := { l with tail := if a = l.tail then l.prev a else l.tail }
    let l := { l with next := update l.next a l.head, prev := update l.prev a 0 }
    let l ← l.whenPrev l.head a
    pure { l with head := a, tail := if l.tail = 0 then a else l.tail }

variable {l} {a v : ℕ}

theorem deref_of_some {x : T} (h : l.value a = some x) : l.deref a = pure x := by
  rw [deref, h]
  rfl

theorem setNext_eq (h : (l.value a).isSome) :
    l.setNext a v = pure { l with next := update l.next a v } := by
  obtain ⟨x, hx⟩ := Option.isSome_iff_exists.1 h
  rw [setNext, deref_of_some hx, pure_bind]

theorem setPrev_eq (h : (l.value a).isSome) :
    l.setPrev a v = pure { l with prev := update l.prev a v } := by
  obtain ⟨x, hx⟩ := Option.isSome_iff_exists.1 h
  rw [setPrev, deref_of_some hx, pure_bind]

section

variable (h : a ≠ 0 → (l.value a).isSome)

include h

theorem linkNext_eq : l.linkNext a v = pure { l with
      head := if a ≠ 0 then l.head else v
      next := if a ≠ 0 then update l.next a v else l.next } := by
  rw [linkNext]
  split_ifs with ha
  · exact setNext_eq (h ha)
  · rfl

theorem linkPrev_eq : l.linkPrev a v = pure { l with
      tail := if a ≠ 0 then l.tail else v
      prev := if a ≠ 0 then update l.prev a v else l.prev } := by
  rw [linkPrev]
  split_ifs with ha
  · exact setPrev_eq (h ha)
  · rfl

theorem whenNext_eq : l.whenNext a v = pure { l with
      next := if a ≠ 0 then update l.next a v else l.next } := by
  rw [whenNext]
  split_ifs with ha
  · exact setNext_eq (h ha)
  · rfl

theorem whenPrev_eq : l.whenPrev a v = pure { l with
      prev := if a ≠ 0 then update l.prev a v else l.prev } := by
  rw [whenPrev]
  split_ifs with ha
  · exact setPrev_eq (h ha)
  · rfl

end

/-- The values of at most `n` nodes from an iterator on. -/
def visit (l : DList T) : ℕ → ℕ → List T
  | 0, _ => []
  | n + 1, it => if it = 0 then [] else (l.value it).toList ++ l.visit n (l.next it)

/-! ## Linked lists -/

/-- The list is linked through the nodes, each with its address and its value, in both directions,
    and there are no other nodes. -/
structure Linked (l : DList T) (ps : List (ℕ × T)) : Prop where
  links : DoubleChain l.next l.prev 0 l.head l.tail (ps.map Prod.fst)
  size : l.size = ps.length
  value : ∀ p ∈ ps, l.value p.1 = some p.2
  owned : ∀ a, a ∉ ps.map Prod.fst → l.value a = none

variable {ps ps1 ps2 : List (ℕ × T)} {p : ℕ × T}

theorem new_linked : (new : DList T).Linked [] where
  links := DoubleChain.nil_nil
  size := rfl
  value := by simp
  owned _ _ := rfl

namespace Linked

theorem head_cons (h : l.Linked (p :: ps)) : l.head = p.1 := h.links.next.1.1

theorem visit_chain {it : ℕ} (hc : Chain l.next 0 it (ps.map Prod.fst))
    (hv : ∀ p ∈ ps, l.value p.1 = some p.2) : l.visit ps.length it = ps.map Prod.snd := by
  induction ps generalizing it with
  | nil => rfl
  | cons p ps ih =>
    obtain ⟨rfl, hn, hc'⟩ := Chain.cons_iff.1 hc
    rw [length_cons, visit, if_neg hn, hv p (.head _), ih hc' fun q hq => hv q (.tail _ hq)]
    rfl

section

variable (h : l.Linked ps)

include h

theorem isSome_value (ha : a ∈ ps.map Prod.fst) : (l.value a).isSome := by
  obtain ⟨p, hp, rfl⟩ := mem_map.1 ha
  rw [h.value p hp]
  rfl

theorem notMem (ha : l.value a = none) : a ∉ ps.map Prod.fst := by
  intro hm
  have := h.isSome_value hm
  rw [ha] at this
  exact Bool.false_ne_true this

theorem ne_zero (hp : p ∈ ps) : p.1 ≠ 0 :=
  h.links.ne_nil (mem_map_of_mem hp)

/-- The first node is there. -/
theorem isSome_head (hn : l.head ≠ 0) : (l.value l.head).isSome :=
  h.isSome_value (DoubleChain.mem_of_ne_nil h.links.next hn)

theorem deref_eq (hp : p ∈ ps) : l.deref p.1 = pure p.2 :=
  deref_of_some (h.value p hp)

/-- A loop over the list visits its values in order. -/
theorem visit_eq : l.visit l.size l.head = ps.map Prod.snd := by
  rw [h.size]
  exact visit_chain h.links.next h.value

/-- Reordering the links of the same nodes keeps their values. -/
theorem relinked {l' : DList T} {qs : List (ℕ × T)} (hp : qs.Perm ps)
    (hs : l'.size = l.size) (hv : l'.value = l.value)
    (hl : DoubleChain l'.next l'.prev 0 l'.head l'.tail (qs.map Prod.fst)) : l'.Linked qs where
  links := hl
  size := hs.trans (h.size.trans hp.length_eq.symm)
  value q hq := hv ▸ h.value q (hp.mem_iff.1 hq)
  owned a ha := hv ▸ h.owned a fun hm => ha ((hp.map _).mem_iff.2 hm)

/-- A node is put in front. -/
theorem addFirst_spec {x : T} (ha : a ≠ 0) (hf : l.value a = none) :
    ∃ l', l.addFirst a x = pure l' ∧ l'.Linked ((a, x) :: ps) := by
  have hm := h.notMem hf
  have hh : l.head ≠ 0 → (update l.value a (some x) l.head).isSome := by
    intro hn
    have := h.isSome_head hn
    rw [update_of_ne]
    · exact this
    · intro e
      rw [e, hf] at this
      exact Bool.false_ne_true this
  have hlinks : DoubleChain (update l.next a l.head)
      (if l.head ≠ 0 then update (update l.prev a 0) l.head a
        else update l.prev a 0) 0 a (if l.head ≠ 0 then l.tail else a)
      (((a, x) :: ps).map Prod.fst) := by
    split_ifs with hn
    · exact h.links.push hn hm ha
    · have hn := not_not.1 hn
      rw [map_cons, (h.links.next.eq_nil_iff).1 hn, hn]
      exact .singleton ha (update_self _ _ _) (update_self _ _ _)
  rw [addFirst]
  rw [linkPrev_eq (by exact hh), pure_bind]
  exact ⟨_, rfl, {
    links := hlinks
    size := congrArg (· + 1) h.size
    value := by
      intro q hq
      rcases mem_cons.1 hq with rfl | hq
      · exact update_self _ _ _
      · exact (update_of_ne
          (ne_of_mem_of_not_mem (mem_map_of_mem hq) hm) _ _).trans (h.value q hq)
    owned := by
      intro b hb
      rw [map_cons, mem_cons, not_or] at hb
      exact (update_of_ne hb.1 _ _).trans (h.owned b hb.2) }⟩

end

section Middle

variable (h : l.Linked (ps1 ++ p :: ps2))

include h

/-- The chain around a node of the list. -/
theorem around : DoubleChain l.next l.prev 0 l.head l.tail
    (ps1.map Prod.fst ++ p.1 :: ps2.map Prod.fst) := by
  have := h.links
  rwa [map_append, map_cons] at this

/-- The node before one of the list is there. -/
theorem isSome_prev (hn : l.prev p.1 ≠ 0) : (l.value (l.prev p.1)).isSome := by
  refine h.isSome_value ?_
  rw [map_append]
  exact mem_append_left _ (h.around.prev_ne hn).1

/-- The node after one of the list is there. -/
theorem isSome_next (hn : l.next p.1 ≠ 0) : (l.value (l.next p.1)).isSome := by
  refine h.isSome_value ?_
  rw [map_append, map_cons]
  exact mem_append_right _ (.tail _ (DoubleChain.mem_of_ne_nil h.around.next_of_mem hn))

/-- Deleting a node which has been spliced out leaves the values of the others. -/
theorem delete_value {q : ℕ × T} (hq : q ∈ ps1 ++ ps2) :
    update l.value p.1 none q.1 = some q.2 := by
  have hne : q.1 ≠ p.1 := by
    refine ne_of_mem_of_not_mem ?_ h.around.notMem_of_append_cons
    rw [← map_append]
    exact mem_map_of_mem hq
  rw [update_of_ne hne]
  refine h.value q ?_
  rw [mem_append] at hq ⊢
  exact hq.imp id (mem_cons_of_mem _)

theorem delete_owned (ha : a ∉ (ps1 ++ ps2).map Prod.fst) : update l.value p.1 none a = none := by
  by_cases hap : a = p.1
  · rw [hap, update_self]
  rw [update_of_ne hap]
  refine h.owned a fun hm => ha ?_
  simp only [map_append, map_cons, mem_append, mem_cons] at hm ⊢
  rcases hm with hm | hm | hm
  · exact .inl hm
  · exact absurd hm hap
  · exact .inr hm

/-- A node is removed: the others are linked. -/
theorem remove_spec : ∃ l', l.remove p.1 = pure l' ∧ l'.Linked (ps1 ++ ps2) := by
  have hc := h.around
  -- The link of the node before it is not its own, so that its own is read once more.
  have hnext : (if l.prev p.1 ≠ 0 then update l.next (l.prev p.1) (l.next p.1)
      else l.next) p.1 = l.next p.1 := by
    split_ifs with hn
    · exact update_of_ne (hc.prev_ne hn).2.symm _ _
    · rfl
  rw [remove, h.deref_eq (mem_append_right _ (.head _)), pure_bind,
    linkNext_eq h.isSome_prev, pure_bind]
  dsimp only
  rw [hnext, linkPrev_eq (by exact h.isSome_next), pure_bind]
  exact ⟨_, rfl, {
    links := by
      rw [map_append]
      exact hc.remove
    size := by
      have := h.size
      simp only [length_append, length_cons] at this ⊢
      exact Nat.sub_eq_of_eq_add this
    value := fun q hq => h.delete_value hq
    owned := fun a ha => h.delete_owned ha }⟩

/-- A node is moved to the front. -/
theorem moveFront_spec : ∃ l', l.moveFront p.1 = pure l' ∧ l'.Linked (p :: (ps1 ++ ps2)) := by
  have hz : p.1 ≠ 0 := h.ne_zero (by simp)
  have hc := h.around
  rw [moveFront]
  split_ifs with hh
  · -- It is the first one.
    have hp : ps1 = [] := by
      have := (hc.prev_of_mem.eq_nil_iff).1 (hc.prev_eq_nil_iff.2 (hh.resolve_left hz))
      simpa using this
    subst hp
    exact ⟨l, rfl, h⟩
  have hprev : l.prev p.1 ≠ 0 := fun e => hh (.inr (hc.prev_eq_nil_iff.1 e))
  have hhead : l.head ≠ 0 := by
    intro e
    have := (h.links.next.eq_nil_iff).1 e
    simp at this
  -- The node is spliced out, and then put in front.
  have hnext : update l.next (l.prev p.1) (l.next p.1) p.1 = l.next p.1 :=
    update_of_ne (hc.prev_ne hprev).2.symm _ _
  have hrem := hc.remove
  rw [if_pos hprev, if_pos hprev] at hrem
  have hpush := hrem.push hhead hc.notMem_of_append_cons hz
  -- The last node changes if it is the one which moves.
  have htail : (if p.1 = l.tail then
      (if l.next p.1 ≠ 0 then update l.prev (l.next p.1) (l.prev p.1) else l.prev) p.1
      else l.tail) = if l.next p.1 ≠ 0 then l.tail else l.prev p.1 := by
    by_cases hl : l.next p.1 = 0
    · rw [if_pos (hc.next_eq_nil_iff.1 hl), if_neg (not_not.2 hl), if_neg (not_not.2 hl)]
    · rw [if_neg fun e => hl (hc.next_eq_nil_iff.2 e), if_pos hl]
  have htne : (if l.next p.1 ≠ 0 then l.tail else l.prev p.1) ≠ 0 := by
    split_ifs
    · intro e
      have := (h.links.prev.eq_nil_iff).1 e
      simp at this
    · exact hprev
  rw [h.deref_eq (by simp), pure_bind, whenNext_eq h.isSome_prev, pure_bind]
  dsimp only
  rw [if_pos hprev, hnext, whenPrev_eq (by exact h.isSome_next), pure_bind]
  rw [whenPrev_eq (by exact h.isSome_head), pure_bind]
  refine ⟨_, rfl, h.relinked perm_middle.symm rfl rfl ?_⟩
  rw [if_pos hhead, map_cons, map_append]
  rwa [htail, if_neg htne]

end Middle

variable (h : l.Linked (ps ++ [p]))

include h

/-- The last node. -/
theorem tail_concat : l.tail = p.1 := by
  have := h.links.prev
  rw [map_append, reverse_append] at this
  exact this.1.1

theorem back_eq : l.back = pure p.2 := by
  rw [back, h.tail_concat]
  exact h.deref_eq (by simp)

/-- The last node is removed. -/
theorem removeLast_spec : ∃ l', l.removeLast = pure l' ∧ l'.Linked ps := by
  have hz : p.1 ≠ 0 := h.ne_zero (by simp)
  have hc := h.around.remove
  have hn : l.next p.1 = 0 := h.around.next_eq_nil_iff.2 h.tail_concat.symm
  have hp : l.prev p.1 ≠ 0 → ((l.delete p.1).value (l.prev p.1)).isSome := by
    intro hne
    have := h.isSome_prev hne
    rwa [← update_of_ne (h.around.prev_ne hne).2 none l.value] at this
  rw [removeLast, h.tail_concat, if_pos hz, h.deref_eq (by simp), pure_bind]
  rw [linkNext_eq (by exact hp), pure_bind]
  rw [hn, map_nil, append_nil] at hc
  exact ⟨_, rfl, {
    links := by simpa [delete] using hc
    size := by
      have := h.size
      simp only [length_append, length_singleton] at this ⊢
      exact Nat.sub_eq_of_eq_add this
    value := fun q hq => h.delete_value (by simpa using hq)
    owned := fun a ha => h.delete_owned (by simpa using ha) }⟩

end Linked

end DList

end HobbyOS
