import HobbyOS.Chain

/-!
# Doubly linked chains

A list the nodes of which hold the link to the next one and the link to the previous one is a
chain in both directions (`DoubleChain`): from its first node, the next links run through its nodes,
and from its last one, the previous links run through the same nodes backwards. The edits of such a
list are edits of both chains.
-/

namespace HobbyOS

open Function List

variable {α : Type*} {next prev : α → α} {nil a b x y : α} {l l1 l2 : List α}

/-- From `a`, the links `next` run through the nodes `l` and end at `nil`; from `b`, the links
    `prev` run back through them. -/
structure DoubleChain (next prev : α → α) (nil a b : α) (l : List α) : Prop where
  next : Chain next nil a l
  prev : Chain prev nil b l.reverse

namespace Chain

/-- A chain starts at `nil` only if it has no nodes. -/
theorem eq_nil_iff (h : Chain next nil a l) : a = nil ↔ l = [] := by
  constructor
  · rintro rfl
    exact h.eq_nil
  · rintro rfl
    exact nil_iff.1 h

/-- What follows a node of a chain is a chain. -/
theorem of_append_cons (h : Chain next nil a (l1 ++ x :: l2)) : Chain next nil (next x) l2 := by
  obtain ⟨b, -, rfl, h2⟩ := seg_append.1 h.1
  exact ⟨h2, fun hm => h.2 (mem_append_right _ (.tail _ hm))⟩

variable [DecidableEq α]

/-- Splicing out the node `x`, the node before it being `y`, if there is one. -/
theorem unlink (h : Chain next nil a (l1 ++ x :: l2)) (hy : Chain prev nil y l1.reverse) :
    Chain (if y ≠ nil then Function.update next y (next x) else next) nil
      (if y ≠ nil then a else next x) (l1 ++ l2) := by
  rcases h.remove with ⟨-, rfl, h2⟩ | ⟨-, l, z, rfl, h2⟩
  · -- It is the first one.
    obtain rfl := nil_iff.1 hy
    simpa using h2
  · rw [reverse_append, reverse_singleton, singleton_append] at hy
    obtain ⟨rfl, hn, -⟩ := cons_iff.1 hy
    rwa [if_pos hn, if_pos hn]

/-- A node is appended: the link of the last one leads to it. -/
theorem append (h : Chain next nil a (l ++ [y])) (hx : x ∉ l ++ [y]) (hn : x ≠ nil) :
    Chain (Function.update (Function.update next x nil) y x) nil a (l ++ [y, x]) := by
  have hyx : y ≠ x := fun e => hx (by simp [e])
  refine (h.update (v := nil) hx).splice (cons_iff.2 ⟨rfl, hn, ?_⟩) (by simpa using hyx)
  rw [update_self]
  exact nil_iff.2 rfl

end Chain

namespace DoubleChain

theorem nil_nil : DoubleChain next prev nil nil nil [] := ⟨Chain.nil_iff.2 rfl, Chain.nil_iff.2 rfl⟩

theorem reverse_append_cons : (l1 ++ x :: l2).reverse = l2.reverse ++ x :: l1.reverse := by simp

theorem nodup (h : DoubleChain next prev nil a b l) : l.Nodup := h.next.nodup

theorem ne_nil (h : DoubleChain next prev nil a b l) (hx : x ∈ l) : x ≠ nil :=
  ne_of_mem_of_not_mem hx h.next.2

variable (h : DoubleChain next prev nil a b (l1 ++ x :: l2))

include h

/-- After a node come the nodes that follow it. -/
theorem next_of_mem : Chain next nil (next x) l2 :=
  h.next.of_append_cons

/-- Before a node come the nodes that precede it, backwards. -/
theorem prev_of_mem : Chain prev nil (prev x) l1.reverse := by
  have := h.prev
  rw [reverse_append_cons] at this
  exact this.of_append_cons

theorem notMem_of_append_cons : x ∉ l1 ++ l2 :=
  (nodup_cons.1 (nodup_middle.1 h.nodup)).1

omit h

/-- A node which starts a chain is on it. -/
theorem mem_of_ne_nil (h : Chain next nil a l) (ha : a ≠ nil) : a ∈ l := by
  obtain ⟨l', rfl, -⟩ := h.exists_cons ha
  exact (.head _)

variable (h : DoubleChain next prev nil a b (l1 ++ x :: l2))

include h

/-- The node before another one is a different one. -/
theorem prev_ne (hx : prev x ≠ nil) : prev x ∈ l1 ∧ prev x ≠ x := by
  have hm := mem_reverse.1 (mem_of_ne_nil h.prev_of_mem hx)
  exact ⟨hm, ne_of_mem_of_not_mem (mem_append_left l2 hm) h.notMem_of_append_cons⟩

/-- The first node is the one with nothing before it. -/
theorem prev_eq_nil_iff : prev x = nil ↔ x = a := by
  rw [h.prev_of_mem.eq_nil_iff, reverse_eq_nil_iff]
  rcases h.next with ⟨hs, -⟩
  cases l1 with
  | nil => exact iff_of_true rfl hs.1.symm
  | cons y l1 =>
    refine iff_of_false (cons_ne_nil _ _) ?_
    rintro rfl
    exact h.notMem_of_append_cons (by simp [← hs.1])

/-- The last node is the one with nothing after it. -/
theorem next_eq_nil_iff : next x = nil ↔ x = b := by
  have hr : DoubleChain prev next nil b a (l2.reverse ++ x :: l1.reverse) := by
    rw [← reverse_append_cons]
    exact ⟨h.prev, by rw [reverse_reverse]; exact h.next⟩
  exact hr.prev_eq_nil_iff

omit h

/-- A node is put in front of a list without nodes. -/
theorem singleton (hx : x ≠ nil) (hn : next x = nil) (hp : prev x = nil) :
    DoubleChain next prev nil x x [x] :=
  ⟨Chain.cons_iff.2 ⟨rfl, hx, Chain.nil_iff.2 hn⟩, Chain.cons_iff.2 ⟨rfl, hx, Chain.nil_iff.2 hp⟩⟩

variable [DecidableEq α]

/-- A node is put in front of the others. -/
theorem push (h : DoubleChain next prev nil a b l) (ha : a ≠ nil) (hx : x ∉ l) (hn : x ≠ nil) :
    DoubleChain (Function.update next x a) (Function.update (Function.update prev x nil) a x)
      nil x b (x :: l) := by
  obtain ⟨l', rfl, -⟩ := h.next.exists_cons ha
  refine ⟨h.next.push hx hn, ?_⟩
  have hp := h.prev
  rw [reverse_cons] at hp
  rw [reverse_cons, reverse_cons, append_assoc]
  exact hp.append (by simpa [or_comm] using hx) hn

/-- Splicing out a node: what the nodes around it, or the ends of the list, link to. -/
theorem remove (h : DoubleChain next prev nil a b (l1 ++ x :: l2)) :
    DoubleChain (if prev x ≠ nil then Function.update next (prev x) (next x) else next)
      (if next x ≠ nil then Function.update prev (next x) (prev x) else prev) nil
      (if prev x ≠ nil then a else next x) (if next x ≠ nil then b else prev x) (l1 ++ l2) := by
  have hp := h.prev
  have hn : Chain next nil (next x) l2.reverse.reverse := by
    rw [reverse_reverse]
    exact h.next_of_mem
  rw [reverse_append_cons] at hp
  refine ⟨h.next.unlink h.prev_of_mem, ?_⟩
  rw [reverse_append]
  exact hp.unlink hn

end DoubleChain

end HobbyOS
