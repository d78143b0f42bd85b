import Mathlib.Data.List.Sort

/-!
# Sorting an array in place

A library function that sorts an array in place, such as `qsort`, asks a comparison function about two
slots of the array at a time. The comparison is given pointers to the slots, and what it makes of them is
its own matter: it may read what stands there, or it may only look at the pointers.
-/

variable {α : Type*}

/-- A pointer to a slot of an array: its address, and what it points to. -/
structure Slot (α : Type*) where
  address : ℕ
  pointee : α

/-- The slots of an array with elements of `size` bytes. -/
def slots (size base : ℕ) (l : List α) : List (Slot α) :=
  l.zipIdx.map fun p => ⟨base + size * p.2, p.1⟩

/-- Which comparison function and which array, and what the array holds in the end. -/
abbrev ArraySort (α : Type*) := (Slot α → Slot α → ℤ) → (size base : ℕ) → List α → List α

/-- A sort moves the elements of the array and nothing else; it sorts them when the comparison is one of
what stands in the slots; and it moves nothing when every slot compares less than the slots behind it. -/
structure InPlaceSort (sort : ArraySort α) : Prop where
  perm : ∀ compar size base l, (sort compar size base l).Perm l
  sorted : ∀ (r : α → α → ℤ) size base l, (∀ x y, r x y ≤ 0 ∨ r y x ≤ 0) →
    (∀ x y z, r x y ≤ 0 → r y z ≤ 0 → r x z ≤ 0) →
    (sort (fun a b => r a.pointee b.pointee) size base l).Pairwise (r · · ≤ 0)
  keeps : ∀ compar size base l, (slots size base l).Pairwise (compar · · < 0) →
    sort compar size base l = l

section

variable (compar : Slot α → Slot α → ℤ) (size base : ℕ)

/-- The element behind a sorted part of the array sinks down to its place. The sorted part is given from
its last slot on. -/
def sink : List α → α → List α
  | [], x => [x]
  | y :: ys, x =>
    if 0 < compar ⟨base + size * ys.length, y⟩ ⟨base + size * (ys.length + 1), x⟩ then y :: sink ys x
    else x :: y :: ys

/-- Insertion sort. -/
def sinkSort (l : List α) : List α :=
  (l.foldl (sink compar size base) []).reverse

end

section

variable {compar : Slot α → Slot α → ℤ} {size base : ℕ}

theorem sink_perm (ys : List α) (x : α) : (sink compar size base ys x).Perm (x :: ys) := by
  induction ys with
  | nil => rfl
  | cons y ys ih =>
    rw [sink]
    split
    · exact (ih.cons y).trans (List.Perm.swap x y ys)
    · rfl

theorem foldl_sink_perm (l ys : List α) :
    (l.foldl (sink compar size base) ys).Perm (l ++ ys) := by
  induction l generalizing ys with
  | nil => rfl
  | cons x l ih => exact (ih _).trans (((sink_perm ys x).append_left l).trans List.perm_middle)

/-- A comparison of the contents puts an element where `List.orderedInsert` does. -/
theorem sink_eq_orderedInsert (r : α → α → ℤ) (ys : List α) (x : α) :
    sink (fun a b => r a.pointee b.pointee) size base ys x =
      ys.orderedInsert (fun x y => r y x ≤ 0) x := by
  induction ys with
  | nil => rfl
  | cons y ys ih =>
    rw [sink, List.orderedInsert_cons, ih]
    by_cases h : r y x ≤ 0
    · rw [if_pos h, if_neg (by exact not_lt.mpr h)]
    · rw [if_neg h, if_pos (by exact not_le.mp h)]

/-- An element that compares greater than the slot before it stays where it is. -/
theorem foldl_sink_of_pairwise (l ys : List α)
    (h : (slots size base (ys.reverse ++ l)).Pairwise (compar · · < 0)) :
    l.foldl (sink compar size base) ys = l.reverse ++ ys := by
  induction l generalizing ys with
  | nil => rfl
  | cons x l ih =>
    have hstay : sink compar size base ys x = x :: ys := by
      cases ys with
      | nil => rfl
      | cons y ys =>
        have hlt : compar ⟨base + size * ys.length, y⟩ ⟨base + size * (ys.length + 1), x⟩ < 0 := by
          rw [slots, List.pairwise_map, List.pairwise_iff_getElem] at h
          have := h ys.length (ys.length + 1) (by simp) (by simp) (Nat.lt_succ_self _)
          simpa [List.getElem_append] using this
        rw [sink, if_neg (not_lt.mpr hlt.le)]
    rw [List.foldl_cons, hstay, ih (x :: ys) (by simpa using h), List.reverse_cons, List.append_assoc,
      List.singleton_append]

theorem foldl_sink_pairwise {r : α → α → ℤ} (htotal : ∀ x y, r x y ≤ 0 ∨ r y x ≤ 0)
    (htrans : ∀ x y z, r x y ≤ 0 → r y z ≤ 0 → r x z ≤ 0) (l ys : List α)
    (h : ys.Pairwise fun x y => r y x ≤ 0) :
    (l.foldl (sink (fun a b => r a.pointee b.pointee) size base) ys).Pairwise fun x y => r y x ≤ 0 := by
  have : Std.Total fun x y => r y x ≤ 0 := ⟨fun x y => htotal y x⟩
  have : IsTrans α fun x y => r y x ≤ 0 := ⟨fun x y z hxy hyz => htrans z y x hyz hxy⟩
  induction l generalizing ys with
  | nil => exact h
  | cons x l ih =>
    apply ih
    rw [sink_eq_orderedInsert]
    exact h.orderedInsert x ys

/-- Insertion sort is such a sort. -/
theorem inPlaceSort_sinkSort : InPlaceSort (sinkSort (α := α)) where
  perm compar size base l := by
    have hperm : (l.foldl (sink compar size base) []).Perm (l ++ []) := foldl_sink_perm l []
    rw [List.append_nil] at hperm
    exact (List.reverse_perm _).trans hperm
  sorted r size base l htotal htrans :=
    List.pairwise_reverse.mpr (foldl_sink_pairwise htotal htrans l [] List.Pairwise.nil)
  keeps compar size base l h := by
    rw [sinkSort, foldl_sink_of_pairwise l [] h, List.append_nil, List.reverse_reverse]

end
