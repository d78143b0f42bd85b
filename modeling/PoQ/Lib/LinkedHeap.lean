import Mathlib.Data.List.Nodup
import Mathlib.Logic.Function.Basic

/-!
# Chains of cells in a heap

Cells that hold a value and the address of the next cell, the heap they are allocated in, and chains from
a head to a tail. A cell that has been freed is not part of the heap any more. Whether it can still be
read depends on the memory.
-/

namespace LinkedHeap

variable {α : Type*}

/-- A cell of a linked list. -/
structure Cell (α : Type*) where
  value : α
  next : Option ℕ
deriving DecidableEq, Repr

/-- The cells at their addresses. -/
structure Heap (α : Type*) where
  live : ℕ → Option (Cell α)
  /-- What the freed cells held. -/
  freed : ℕ → Option (Cell α)
  /-- A freed cell keeps what it held, until its address is used again. -/
  keeps : Bool

namespace Heap

/-- Reading a cell. -/
def read (h : Heap α) (a : ℕ) : Option (Cell α) := (h.live a).or (if h.keeps then h.freed a else none)

/-- A new cell at an address. -/
def alloc (h : Heap α) (a : ℕ) (c : Cell α) : Heap α :=
  { h with live := Function.update h.live a (some c), freed := Function.update h.freed a none }

/-- Writing the address of the next cell into a cell. -/
def setNext (h : Heap α) (a : ℕ) (next : Option ℕ) : Option (Heap α) :=
  (h.live a).map fun c => { h with live := Function.update h.live a (some { c with next }) }

/-- Freeing a cell. -/
def free (h : Heap α) (a : ℕ) : Option (Heap α) :=
  (h.live a).map fun c =>
    { h with live := Function.update h.live a none, freed := Function.update h.freed a (some c) }

theorem read_of_live {h : Heap α} {a : ℕ} {c : Cell α} (ha : h.live a = some c) : h.read a = some c := by
  rw [read, ha, Option.some_or]

theorem setNext_of_live {h : Heap α} {a : ℕ} {c : Cell α} (ha : h.live a = some c) (next : Option ℕ) :
    h.setNext a next = some { h with live := Function.update h.live a (some { c with next }) } := by
  rw [setNext, ha, Option.map_some]

/-- Writing into a cell brings no other one into the heap. -/
theorem live_setNext_eq_none {h h' : Heap α} {a x : ℕ} {next : Option ℕ} (hset : h.setNext a next = some h')
    (hx : h.live x = none) : h'.live x = none := by
  obtain ⟨c, ha, rfl⟩ := Option.map_eq_some_iff.mp hset
  have hne : x ≠ a := by
    intro hxa
    rw [hxa, ha] at hx
    cases hx
  exact (Function.update_of_ne hne _ _).trans hx

theorem free_of_live {h : Heap α} {a : ℕ} {c : Cell α} (ha : h.live a = some c) :
    h.free a = some
      { h with live := Function.update h.live a none, freed := Function.update h.freed a (some c) } := by
  rw [free, ha, Option.map_some]

/-- A cell that has just been freed can be read exactly in a memory that keeps it. -/
theorem read_freed {h h' : Heap α} {a : ℕ} {c : Cell α} (ha : h.live a = some c)
    (hfree : h.free a = some h') :
    h'.read a = if h.keeps then some c else none := by
  rw [free_of_live ha, Option.some_inj] at hfree
  subst hfree
  simp [read]

end Heap

/-- The cells from one pointer to another, with their addresses and values. -/
inductive Segment (cells : ℕ → Option (Cell α)) : Option ℕ → List (ℕ × α) → Option ℕ → Prop
  | nil (p : Option ℕ) : Segment cells p [] p
  | cons {a : ℕ} {v : α} {next q : Option ℕ} {l : List (ℕ × α)} (ha : cells a = some ⟨v, next⟩)
    (h : Segment cells next l q) : Segment cells (some a) ((a, v) :: l) q

namespace Segment

variable {cells cells' : ℕ → Option (Cell α)} {p q r : Option ℕ} {l m : List (ℕ × α)} {a : ℕ} {v : α}

/-- A segment depends on its own cells only. -/
theorem congr (h : Segment cells p l q) (hcells : ∀ x ∈ l.map Prod.fst, cells' x = cells x) :
    Segment cells' p l q := by
  induction h with
  | nil p => exact .nil p
  | cons ha _ ih =>
    rw [List.map_cons, List.forall_mem_cons] at hcells
    exact .cons (hcells.1.trans ha) (ih hcells.2)

theorem update (h : Segment cells p l q) (ha : a ∉ l.map Prod.fst) (c : Option (Cell α)) :
    Segment (Function.update cells a c) p l q := by
  apply h.congr
  intro x hx
  exact Function.update_of_ne (ne_of_mem_of_not_mem hx ha) _ _

theorem append (h : Segment cells p l q) (h' : Segment cells q m r) : Segment cells p (l ++ m) r := by
  induction h with
  | nil => exact h'
  | cons ha _ ih => exact .cons ha (ih h')

theorem of_append (h : Segment cells p (l ++ m) r) : ∃ q, Segment cells p l q ∧ Segment cells q m r := by
  induction l generalizing p with
  | nil => exact ⟨p, .nil p, h⟩
  | cons x l ih =>
    cases h with
    | cons ha h =>
      obtain ⟨q, hl, hm⟩ := ih h
      exact ⟨q, .cons ha hl, hm⟩

/-- A cell behind a segment. -/
theorem snoc (h : Segment cells p l (some a)) (ha : cells a = some ⟨v, q⟩) :
    Segment cells p (l ++ [(a, v)]) q :=
  h.append (.cons ha (.nil q))

theorem of_snoc (h : Segment cells p (l ++ [(a, v)]) q) :
    Segment cells p l (some a) ∧ cells a = some ⟨v, q⟩ := by
  obtain ⟨r, hl, hm⟩ := h.of_append
  cases hm with
  | cons ha hnil =>
    cases hnil with
    | nil => exact ⟨hl, ha⟩

/-- The cells of a segment are in the heap. -/
theorem live (h : Segment cells p l q) : ∀ x ∈ l, ∃ next, cells x.1 = some ⟨x.2, next⟩ := by
  induction h with
  | nil => exact List.forall_mem_nil _
  | cons ha _ ih => exact List.forall_mem_cons.mpr ⟨⟨_, ha⟩, ih⟩

end Segment

/-- The cells from the head on end at the tail. -/
structure IsQueue (cells : ℕ → Option (Cell α)) (head tail : Option ℕ) (l : List (ℕ × α)) : Prop where
  chain : Segment cells head l none
  nodup : (l.map Prod.fst).Nodup
  last : tail = (l.map Prod.fst).getLast?

namespace IsQueue

variable {cells : ℕ → Option (Cell α)} {head tail : Option ℕ} {l : List (ℕ × α)} {a : ℕ} {v : α}

theorem empty (cells : ℕ → Option (Cell α)) : IsQueue cells none none [] := ⟨.nil none, List.nodup_nil, rfl⟩

theorem head_eq_none_iff (h : IsQueue cells head tail l) : head = none ↔ l = [] := by
  cases h.chain with
  | nil => exact iff_of_true rfl rfl
  | cons => exact iff_of_false (Option.some_ne_none _) (List.cons_ne_nil _ _)

theorem tail_eq_none_iff (h : IsQueue cells head tail l) : tail = none ↔ l = [] := by
  rw [h.last, List.getLast?_eq_none_iff, List.map_eq_nil_iff]

/-- The first cell, and the queue without it. -/
theorem of_cons (h : IsQueue cells head tail ((a, v) :: l)) :
    head = some a ∧ ∃ next, cells a = some ⟨v, next⟩ ∧
      IsQueue (Function.update cells a none) next (if l = [] then none else tail) l := by
  obtain ⟨hnot, hnodup⟩ := List.nodup_cons.mp h.nodup
  have hlast := h.last
  cases h.chain with
  | @cons _ _ next _ _ ha hrest =>
    refine ⟨rfl, next, ha, hrest.update hnot none, hnodup, ?_⟩
    rcases l with _ | ⟨b, l⟩
    · rfl
    · rw [if_neg (List.cons_ne_nil _ _), hlast, List.map_cons, List.map_cons, List.getLast?_cons_cons]

/-- The tail is the first cell exactly if there is no other one. -/
theorem tail_eq_head_iff (h : IsQueue cells head tail ((a, v) :: l)) : tail = some a ↔ l = [] := by
  obtain ⟨hnot, -⟩ := List.nodup_cons.mp h.nodup
  rw [h.last]
  rcases l with _ | ⟨b, l⟩
  · exact iff_of_true rfl rfl
  · refine iff_of_false (fun hlast => hnot ?_) (List.cons_ne_nil _ _)
    rw [List.map_cons, List.map_cons, List.getLast?_cons_cons] at hlast
    exact List.mem_of_getLast? hlast

/-- The first cell of an empty queue. -/
theorem singleton (cells : ℕ → Option (Cell α)) (a : ℕ) (v : α) :
    IsQueue (Function.update cells a (some ⟨v, none⟩)) (some a) (some a) [(a, v)] :=
  ⟨.cons (Function.update_self _ _ _) (.nil none), List.nodup_singleton a, rfl⟩

/-- A chain of different cells that ends with a cell that has no next one. -/
theorem of_last {init : List (ℕ × α)} {z : ℕ} {w : α} (hinit : Segment cells head init (some z))
    (hz : cells z = some ⟨w, none⟩) (hnodup : ((init ++ [(z, w)]).map Prod.fst).Nodup) :
    IsQueue cells head (some z) (init ++ [(z, w)]) := by
  refine ⟨hinit.snoc hz, hnodup, ?_⟩
  rw [List.map_append, List.map_singleton, List.getLast?_concat]

/-- The last cell of a queue that is not empty. -/
theorem last_of_ne_nil (h : IsQueue cells head tail l) (hl : l ≠ []) :
    ∃ init z w, l = init ++ [(z, w)] ∧ tail = some z ∧ Segment cells head init (some z) ∧
      cells z = some ⟨w, none⟩ := by
  rcases List.eq_nil_or_concat' l with rfl | ⟨init, ⟨z, w⟩, rfl⟩
  · exact absurd rfl hl
  · obtain ⟨hinit, hz⟩ := h.chain.of_snoc
    refine ⟨init, z, w, rfl, ?_, hinit, hz⟩
    rw [h.last, List.map_append, List.map_singleton, List.getLast?_concat]

/-- A new cell behind the last one. -/
theorem push {z : ℕ} (h : IsQueue cells head (some z) l) (ha : a ∉ l.map Prod.fst) (v : α) :
    ∃ w, cells z = some ⟨w, none⟩ ∧ IsQueue
      (Function.update (Function.update cells a (some ⟨v, none⟩)) z (some ⟨w, some a⟩)) head (some a)
      (l ++ [(a, v)]) := by
  have hl : l ≠ [] := fun hnil => Option.some_ne_none z (h.tail_eq_none_iff.mpr hnil)
  obtain ⟨init, y, w, rfl, hy, hinit, hz⟩ := h.last_of_ne_nil hl
  cases hy
  have hnodup := h.nodup
  rw [List.map_append, List.map_singleton] at ha hnodup
  have hz' : z ∉ init.map Prod.fst := by
    intro hmem
    exact List.disjoint_of_nodup_append hnodup hmem (List.mem_singleton_self z)
  have haz : a ≠ z := fun haz => ha (List.mem_append_right _ (List.mem_singleton.mpr haz))
  have hainit : a ∉ init.map Prod.fst := fun hmem => ha (List.mem_append_left _ hmem)
  refine ⟨w, hz, of_last (Segment.snoc ((hinit.update hainit _).update hz' _) ?_) ?_ ?_⟩
  · exact Function.update_self _ _ _
  · rw [Function.update_of_ne haz, Function.update_self]
  · rw [List.map_append, List.map_append, List.map_singleton, List.map_singleton]
    exact List.nodup_append_comm.mp (List.nodup_cons.mpr ⟨ha, hnodup⟩)

end IsQueue

end LinkedHeap
