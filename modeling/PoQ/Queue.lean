import Mathlib.Data.List.Dedup
import Mathlib.Logic.Function.Basic
import PoQ.Basic

/-!
# The queue of node ids

The operations of `queue_t.c` on the contents of a queue, and the two callbacks with which
`queue_cleanup` removes repeated ids. The queue is seen as the list of its values; its cells are those of
`PoQ.Queue.Cells`.
-/

namespace PoQ

/-- `queue_push_custom`. -/
def queuePush {α : Type*} (queue : List α) (d : α) : List α := queue ++ [d]

/-- `queue_pop_custom`. -/
def queuePop {α : Type*} (queue : List α) : List α := queue.tail

/-- `queue_selective_remove`: `should_delete` is called once for each element, in order, with its first
argument set for the first element. The result holds the elements kept, the number of deletions, and
the variables of the callback. -/
def queueSelectiveRemove {α σ : Type} (shouldDelete : Bool → α → σ → Except Abort (Bool × σ)) :
    Bool → List α → σ → Except Abort (List α × ℕ × σ)
  | _, [], s => .ok ([], 0, s)
  | first, d :: queue, s => do
    let (delete, s) ← shouldDelete first d s
    let (kept, deletions, s) ← queueSelectiveRemove shouldDelete false queue s
    return if delete then (kept, deletions + 1, s) else (d :: kept, deletions, s)

/-- The variables `previous` and `repetitions`, which live from one call to the next. -/
structure Repetitions where
  previous : ℕ
  /-- A key that is not in the map reads as 0. -/
  repetitions : ℕ → ℤ

/-- `queue_delete_continuous_nodes`. -/
def queueDeleteContinuousNodes (first : Bool) (d : ℕ) (s : Repetitions) :
    Except Abort (Bool × Repetitions) :=
  if first then
    .ok (false, ⟨d, Function.update (fun _ => 0) d 1⟩)
  else do
    let repetitions := Function.update s.repetitions d (s.repetitions d + 1)
    if s.previous = d then
      ensure (1 < repetitions d) .repeatedAtLeastTwice
      return (true, { s with repetitions := Function.update repetitions d (repetitions d - 1) })
    return (false, ⟨d, repetitions⟩)

/-- `queue_delete_repeated_nodes`. -/
def queueDeleteRepeatedNodes (_ : Bool) (d : ℕ) (s : Repetitions) :
    Except Abort (Bool × Repetitions) :=
  if 1 < s.repetitions d then
    .ok (true, { s with repetitions := Function.update s.repetitions d (s.repetitions d - 1) })
  else .ok (false, s)

/-- `queue_cleanup`, without its locks: the queue, the number of elements deleted by the two passes,
and the variables of the callbacks. -/
def queueCleanup (table : List Node) (queue : List ℕ) (s : Repetitions) :
    Except Abort (List ℕ × ℕ × Repetitions) :=
  if table.isEmpty then .ok (queue, 0, s)
  else do
    let queue := queuePop queue
    let (queue, deleted, s) ← queueSelectiveRemove queueDeleteContinuousNodes true queue s
    let (queue, deleted', s) ← queueSelectiveRemove queueDeleteRepeatedNodes true queue s
    return (queue, deleted + deleted', s)

/-! ## Cleaning up keeps last occurrences -/

/-- Every element is kept or deleted. -/
theorem length_queueSelectiveRemove {α σ : Type} {shouldDelete : Bool → α → σ → Except Abort (Bool × σ)}
    {first : Bool} {queue kept : List α} {deletions : ℕ} {s s' : σ}
    (h : queueSelectiveRemove shouldDelete first queue s = .ok (kept, deletions, s')) :
    kept.length + deletions = queue.length := by
  induction queue generalizing first s s' kept deletions with
  | nil =>
    cases h
    rfl
  | cons d queue ih =>
    rw [queueSelectiveRemove] at h
    obtain ⟨⟨delete, s₁⟩, -, h⟩ := Except.bind_eq_ok.mp h
    obtain ⟨⟨kept₁, deletions₁, s₂⟩, hrest, h⟩ := Except.bind_eq_ok.mp h
    have hlength := ih hrest
    rcases delete with _ | _
    · cases h
      rw [List.length_cons, List.length_cons]
      omega
    · cases h
      rw [List.length_cons]
      omega

/-- The first pass behind an element `s.previous`: it drops runs of equal ids and counts the ids it
keeps. -/
theorem queueDeleteContinuousNodes_run (queue : List ℕ) (s : Repetitions)
    (hs : ∀ d, 0 ≤ s.repetitions d) (hprev : 0 < s.repetitions s.previous) :
    ∃ kept deletions s',
      queueSelectiveRemove queueDeleteContinuousNodes false queue s = .ok (kept, deletions, s') ∧
      (∀ d, s'.repetitions d = s.repetitions d + kept.count d) ∧
      (s.previous :: kept).dedup = (s.previous :: queue).dedup := by
  induction queue generalizing s with
  | nil => exact ⟨[], 0, s, rfl, by simp, rfl⟩
  | cons d queue ih =>
    by_cases hd : s.previous = d
    · -- the same id again: it is deleted, and its count goes back to what it was
      subst hd
      have hlt : 1 < s.repetitions s.previous + 1 := by omega
      obtain ⟨kept, deletions, s', hrun, hcount, hdedup⟩ := ih s hs hprev
      refine ⟨kept, deletions + 1, s', ?_, hcount, ?_⟩
      · simp only [queueSelectiveRemove, queueDeleteContinuousNodes, Bool.false_eq_true, if_false,
          if_true, Function.update_self, ensure_of hlt, Except.ok_bind, Except.pure_eq_ok,
          Int.add_sub_cancel, Function.update_idem, Function.update_eq_self, hrun]
      · rw [hdedup, List.dedup_cons_of_mem (a := s.previous) List.mem_cons_self]
    · let s₁ : Repetitions := ⟨d, Function.update s.repetitions d (s.repetitions d + 1)⟩
      have hs₁ : ∀ x, s₁.repetitions x = s.repetitions x + if x = d then 1 else 0 := by
        intro x
        by_cases hx : x = d
        · subst hx
          simp [s₁]
        · simp [s₁, hx]
      have hprev₁ : 0 < s₁.repetitions s₁.previous := by
        have := hs d
        change 0 < s₁.repetitions d
        rw [hs₁, if_pos rfl]
        omega
      obtain ⟨kept, deletions, s', hrun, hcount, hdedup⟩ := ih s₁
        (fun x => by have := hs x; rw [hs₁]; split <;> omega) hprev₁
      refine ⟨d :: kept, deletions, s', ?_, fun x => ?_, ?_⟩
      · simp [queueSelectiveRemove, queueDeleteContinuousNodes, hd, hrun, s₁]
      · rw [hcount, hs₁, List.count_cons]
        by_cases hx : x = d
        · subst hx
          simp
          omega
        · simp [hx, Ne.symm hx]
      · have hmem : s.previous ∈ d :: kept ↔ s.previous ∈ d :: queue := by
          rw [← List.mem_dedup, ← List.mem_dedup (l := d :: queue)]
          exact iff_of_eq (congrArg _ hdedup)
        by_cases hp : s.previous ∈ d :: queue
        · rw [List.dedup_cons_of_mem hp, List.dedup_cons_of_mem (hmem.mpr hp)]
          exact hdedup
        · rw [List.dedup_cons_of_notMem hp, List.dedup_cons_of_notMem (hmem.not.mpr hp)]
          exact congrArg _ hdedup

/-- The second pass deletes an id as long as it is still to come: last occurrences stay. -/
theorem queueDeleteRepeatedNodes_run (first : Bool) (queue : List ℕ) (s : Repetitions)
    (hs : ∀ d ∈ queue, s.repetitions d = queue.count d) :
    ∃ deletions s',
      queueSelectiveRemove queueDeleteRepeatedNodes first queue s =
        .ok (queue.dedup, deletions, s') := by
  induction queue generalizing first s with
  | nil => exact ⟨0, s, rfl⟩
  | cons d queue ih =>
    have hd : s.repetitions d = queue.count d + 1 := by simpa using hs d List.mem_cons_self
    by_cases hmem : d ∈ queue
    · have hlt : 1 < s.repetitions d := by
        have := List.count_pos_iff.mpr hmem
        omega
      obtain ⟨deletions, s', hrun⟩ := ih false
        { s with repetitions := Function.update s.repetitions d (s.repetitions d - 1) } (by
          intro x hx
          by_cases hxd : x = d
          · subst hxd
            simp [hd]
          · have := hs x (List.mem_cons_of_mem _ hx)
            simpa [hxd, Ne.symm hxd, List.count_cons] using this)
      rw [List.dedup_cons_of_mem hmem]
      refine ⟨deletions + 1, s', ?_⟩
      simp [queueSelectiveRemove, queueDeleteRepeatedNodes, hlt, hrun]
    · have hone : ¬1 < s.repetitions d := by
        rw [hd, List.count_eq_zero_of_not_mem hmem]
        omega
      obtain ⟨deletions, s', hrun⟩ := ih false s (by
        intro x hx
        have hxd : d ≠ x := fun h => hmem (h ▸ hx)
        have := hs x (List.mem_cons_of_mem _ hx)
        simpa [hxd, List.count_cons] using this)
      rw [List.dedup_cons_of_notMem hmem]
      refine ⟨deletions, s', ?_⟩
      simp [queueSelectiveRemove, queueDeleteRepeatedNodes, hone, hrun]

/-- `queue_cleanup` drops the first element and keeps the last occurrence of every other id, whatever
earlier calls have left in the variables of the callbacks. -/
theorem queueCleanup_ok {table : List Node} (ht : table ≠ []) (queue : List ℕ) (s : Repetitions) :
    ∃ deleted s', queueCleanup table queue s = .ok (queue.tail.dedup, deleted, s') ∧
      queue.tail.dedup.length + deleted = queue.tail.length := by
  have hempty : table.isEmpty = false := by simpa using ht
  simp only [queueCleanup, hempty, Bool.false_eq_true, if_false, queuePop]
  cases queue.tail with
  | nil => exact ⟨0, s, rfl, rfl⟩
  | cons d queue =>
    let s₁ : Repetitions := ⟨d, Function.update (fun _ => 0) d 1⟩
    have hs₁ : ∀ x, s₁.repetitions x = if x = d then 1 else 0 := by
      intro x
      simp [s₁, Function.update_apply]
    obtain ⟨kept, deletions, s₂, hrun, hcount, hdedup⟩ :=
      queueDeleteContinuousNodes_run queue s₁ (fun x => by rw [hs₁]; split <;> omega)
        (by simp [s₁])
    obtain ⟨deletions', s₃, hrun'⟩ :=
      queueDeleteRepeatedNodes_run true (d :: kept) s₂ (by
        intro x _
        rw [hcount, hs₁, List.count_cons]
        by_cases hx : x = d
        · subst hx
          simp
          omega
        · simp [hx, Ne.symm hx])
    have hfirst : queueSelectiveRemove queueDeleteContinuousNodes true (d :: queue) s =
        .ok (d :: kept, deletions, s₂) := by
      simp [queueSelectiveRemove, queueDeleteContinuousNodes, hrun, s₁]
    have hdedup : (d :: kept).dedup = (d :: queue).dedup := hdedup
    refine ⟨deletions + deletions', s₃, ?_, ?_⟩
    · simp [hfirst, hrun', hdedup]
    · have hlength := length_queueSelectiveRemove hfirst
      have hlength' := length_queueSelectiveRemove hrun'
      rw [← hdedup]
      omega

/-- Of equal values only the last one is kept. -/
def keepLast : List ℕ → List ℕ
  | [] => []
  | d :: queue => if d ∈ queue then keepLast queue else d :: keepLast queue

theorem keepLast_eq_dedup (queue : List ℕ) : keepLast queue = queue.dedup := by
  induction queue with
  | nil => rfl
  | cons d queue ih =>
    rw [keepLast]
    split
    · next hmem => rw [ih, List.dedup_cons_of_mem hmem]
    · next hmem => rw [ih, List.dedup_cons_of_notMem hmem]

/-- For every queue, and whatever earlier calls have left in `previous` and `repetitions`: without the first element,
only the last one of equal values is kept, and the number of deletions is that of the elements that are gone. -/
theorem queueCleanup_keepLast {table : List Node} (ht : table ≠ []) (queue : List ℕ) (s : Repetitions) :
    ∃ deleted s', queueCleanup table queue s = .ok (keepLast queue.tail, deleted, s') ∧
      (keepLast queue.tail).length + deleted = queue.tail.length := by
  rw [keepLast_eq_dedup]
  exact queueCleanup_ok ht queue s

/-- The ids 5 and 3 are both next to each other and apart, and earlier calls have counted both. -/
theorem queueCleanup_keepLast_apart :
    ∃ deleted s', queueCleanup [⟨0, 0, 1, 0, 1⟩] [9, 5, 5, 3, 5, 7, 3, 3] ⟨5, fun _ => 4⟩ = .ok ([5, 7, 3], deleted, s') ∧
      [5, 7, 3].length + deleted = [5, 5, 3, 5, 7, 3, 3].length :=
  queueCleanup_keepLast (List.cons_ne_nil _ _) [9, 5, 5, 3, 5, 7, 3, 3] ⟨5, fun _ => 4⟩

end PoQ
