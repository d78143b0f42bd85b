import Mathlib.Algebra.BigOperators.Group.List.Basic
import Mathlib.Algebra.Order.Ring.Nat
import Mathlib.Data.List.Basic

/-!
# Searching level by level

The nodes of a forest are visited with a queue: it holds the roots at the start, and the children of every visited
node are put at its end. So the nodes are visited one level after the other, and those of a level in the order of
their parents. The search stops at the first node at which there is something to pick.
-/

namespace LevelOrder

variable {α β : Type*} (children : α → List α) (pick : α → Option β)

/-- The search with a queue. There is no answer when it runs out of fuel. -/
def search : ℕ → List α → Option (Option β)
  | _, [] => some none
  | 0, _ :: _ => none
  | fuel + 1, a :: queue =>
    match pick a with
    | some b => some (some b)
    | none => search fuel (queue ++ children a)

/-- The nodes of a level below the roots. -/
def level (roots : List α) : ℕ → List α
  | 0 => roots
  | k + 1 => (level roots k).flatMap children

/-- What is picked first, level by level. -/
def IsFirst (roots : List α) : Option β → Prop
  | none => ∀ k, ∀ a ∈ level children roots k, pick a = none
  | some b => ∃ k, (∀ j < k, ∀ a ∈ level children roots j, pick a = none) ∧
      (level children roots k).findSome? pick = some b

variable {children pick}

theorem level_succ (roots : List α) (k : ℕ) :
    level children roots (k + 1) = level children (roots.flatMap children) k := by
  induction k with
  | zero => rfl
  | succ k ih => rw [level, ih, level]

/-- A node of a level stands below one of the roots. -/
theorem mem_level {roots : List α} {k : ℕ} {a : α} :
    a ∈ level children roots k ↔ ∃ x ∈ roots, a ∈ level children [x] k := by
  induction k generalizing a with
  | zero => simp [level]
  | succ k ih =>
    simp only [level, List.mem_flatMap, ih]
    constructor
    · rintro ⟨b, ⟨x, hx, hb⟩, ha⟩
      exact ⟨x, hx, b, hb, ha⟩
    · rintro ⟨x, hx, b, hb, ha⟩
      exact ⟨b, ⟨x, hx, hb⟩, ha⟩

variable (children) in
/-- Nodes at which there is nothing to pick leave their children at the end of the queue. -/
theorem search_append_of_none {xs : List α} (h : ∀ a ∈ xs, pick a = none) (ys : List α) (fuel : ℕ) :
    search children pick (fuel + xs.length) (xs ++ ys) =
      search children pick fuel (ys ++ xs.flatMap children) := by
  induction xs generalizing ys with
  | nil => rw [List.nil_append, List.flatMap_nil, List.append_nil]; rfl
  | cons a xs ih =>
    obtain ⟨ha, hxs⟩ := List.forall_mem_cons.mp h
    rw [List.length_cons, ← Nat.add_assoc, List.cons_append, search, ha]
    simp only
    rw [List.append_assoc, ih hxs, List.flatMap_cons, List.append_assoc]

variable (children) in
/-- The search stops at the first node at which there is something to pick. -/
theorem search_append_of_some {xs : List α} {b : β} (h : xs.findSome? pick = some b) (ys : List α) {fuel : ℕ}
    (hfuel : xs.length ≤ fuel) : search children pick fuel (xs ++ ys) = some (some b) := by
  induction xs generalizing ys fuel with
  | nil => cases h
  | cons a xs ih =>
    obtain ⟨fuel, rfl⟩ := Nat.exists_eq_succ_of_ne_zero (Nat.ne_zero_of_lt hfuel)
    rw [List.cons_append, search]
    rw [List.findSome?_cons] at h
    split at h
    · next b' hb' =>
      cases h
      rw [hb']
    · next ha =>
      rw [ha]
      simp only
      rw [List.append_assoc]
      exact ih h _ (Nat.le_of_succ_le_succ hfuel)

/-- There is nothing to pick at the roots. -/
theorem IsFirst.of_children {roots : List α} {r : Option β} (hroots : ∀ a ∈ roots, pick a = none)
    (h : IsFirst children pick (roots.flatMap children) r) : IsFirst children pick roots r := by
  cases r with
  | none =>
    intro k
    cases k with
    | zero => exact hroots
    | succ k =>
      rw [level_succ]
      exact h k
  | some b =>
    obtain ⟨k, hbefore, hfirst⟩ := h
    refine ⟨k + 1, fun j hj => ?_, by rwa [level_succ]⟩
    cases j with
    | zero => exact hroots
    | succ j =>
      rw [level_succ]
      exact hbefore j (Nat.lt_of_succ_lt_succ hj)

/-- The roots cost as much fuel as there are, and their children have the rest. -/
theorem sum_size_flatMap_add_length_le {size : α → ℕ} (hsize : ∀ a, ((children a).map size).sum < size a)
    (roots : List α) : ((roots.flatMap children).map size).sum + roots.length ≤ (roots.map size).sum := by
  induction roots with
  | nil => exact Nat.le_refl _
  | cons a roots ih =>
    have ha := hsize a
    simp only [List.flatMap_cons, List.map_append, List.sum_append, List.map_cons, List.sum_cons,
      List.length_cons] at ih ⊢
    omega

/-- With fuel for every node of the forest the search ends, and picks what is first level by level. -/
theorem search_isFirst {size : α → ℕ} (hsize : ∀ a, ((children a).map size).sum < size a) {fuel : ℕ}
    {roots : List α} (hfuel : (roots.map size).sum ≤ fuel) :
    ∃ r, search children pick fuel roots = some r ∧ IsFirst children pick roots r := by
  induction hn : (roots.map size).sum using Nat.strongRecOn generalizing roots fuel with
  | ind n ih =>
    subst hn
    have hroots := sum_size_flatMap_add_length_le hsize roots
    cases hpick : roots.findSome? pick with
    | some b =>
      have hfound := search_append_of_some children hpick [] (show roots.length ≤ fuel by omega)
      rw [List.append_nil] at hfound
      exact ⟨some b, hfound, 0, fun j hj => absurd hj (Nat.not_lt_zero j), hpick⟩
    | none =>
      have hnone : ∀ a ∈ roots, pick a = none := List.findSome?_eq_none_iff.mp hpick
      by_cases hempty : roots = []
      · subst hempty
        refine ⟨none, ?_, fun k a ha => ?_⟩
        · cases fuel <;> rfl
        · obtain ⟨x, hx, -⟩ := mem_level.mp ha
          cases hx
      · have hpos := List.length_pos_iff.mpr hempty
        obtain ⟨fuel, rfl⟩ := Nat.exists_eq_add_of_le' (show roots.length ≤ fuel by omega)
        have hfuel' : ((roots.flatMap children).map size).sum ≤ fuel := by omega
        obtain ⟨r, hr, hfirst⟩ := ih _ (by omega) hfuel' rfl
        refine ⟨r, ?_, hfirst.of_children hnone⟩
        have hsearch := search_append_of_none children hnone [] fuel
        rw [List.append_nil, List.nil_append] at hsearch
        rw [hsearch, hr]

end LevelOrder
