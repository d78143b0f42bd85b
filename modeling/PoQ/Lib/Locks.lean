import Mathlib.Logic.Function.Basic
import Mathlib.Logic.Relation
import Mathlib.Order.Basic

/-!
# Locks and their holders

Every lock has at most one owner. That a user holds a lock is a matter of where it stands in its
program; the two agree as long as the users take and release the locks where their programs say so.
Users that take their locks in one order never wait for each other in a cycle; there a lock may have
several holders, such as the readers of a reader-writer lock.
-/

variable {U L : Type*}

/-- The owners of the locks are the users that hold them. -/
def Owned (owner : L → Option U) (holds : U → L → Prop) : Prop :=
  ∀ u l, owner l = some u ↔ holds u l

namespace Owned

variable {owner : L → Option U} {holds holds' : U → L → Prop} {u u' : U} {l : L}

/-- Nobody else holds a lock that has an owner. -/
theorem eq_of_holds (h : Owned owner holds) (hu : holds u l) (hu' : holds u' l) : u' = u :=
  Option.some.inj (((h u' l).mpr hu').symm.trans ((h u l).mpr hu))

/-- A lock that nobody holds is free. -/
theorem free (h : Owned owner holds) (hl : ∀ u, ¬holds u l) : owner l = none := by
  cases ho : owner l with
  | none => rfl
  | some u => exact absurd ((h u l).mp ho) (hl u)

theorem not_holds (h : Owned owner holds) (hfree : owner l = none) : ¬holds u l := by
  intro hu
  have howner := (h u l).mpr hu
  rw [hfree] at howner
  cases howner

/-- A user goes on without taking or releasing anything. -/
theorem keep (h : Owned owner holds) (hothers : ∀ u', u' ≠ u → ∀ l, holds' u' l ↔ holds u' l)
    (hself : ∀ l, holds' u l ↔ holds u l) : Owned owner holds' := by
  intro u' l
  by_cases hu : u' = u
  · rw [hu, hself, h u l]
  · rw [hothers u' hu, h u' l]

/-- A user takes a free lock. -/
theorem take [DecidableEq L] (h : Owned owner holds) (hfree : owner l = none)
    (hothers : ∀ u', u' ≠ u → ∀ l, holds' u' l ↔ holds u' l)
    (hself : ∀ l', holds' u l' ↔ holds u l' ∨ l' = l) :
    Owned (Function.update owner l (some u)) holds' := by
  intro u' l'
  by_cases hl : l' = l
  · rw [hl, Function.update_self, Option.some.injEq]
    by_cases hu : u' = u
    · rw [hu, hself]
      exact iff_of_true rfl (.inr rfl)
    · rw [hothers u' hu]
      exact iff_of_false (Ne.symm hu) (h.not_holds hfree)
  · rw [Function.update_of_ne hl, h u' l']
    by_cases hu : u' = u
    · rw [hu, hself]
      exact ⟨.inl, fun he => he.resolve_right hl⟩
    · rw [hothers u' hu]

/-- A user releases a lock that it holds. -/
theorem release [DecidableEq L] (h : Owned owner holds) (hl : holds u l)
    (hothers : ∀ u', u' ≠ u → ∀ l, holds' u' l ↔ holds u' l)
    (hself : ∀ l', holds' u l' ↔ holds u l' ∧ l' ≠ l) :
    Owned (Function.update owner l none) holds' := by
  intro u' l'
  by_cases hl' : l' = l
  · rw [hl', Function.update_self]
    refine iff_of_false nofun ?_
    by_cases hu : u' = u
    · rw [hu, hself]
      exact fun he => he.2 rfl
    · rw [hothers u' hu]
      exact fun he => hu (h.eq_of_holds hl he)
  · rw [Function.update_of_ne hl', h u' l']
    by_cases hu : u' = u
    · rw [hu, hself]
      exact ⟨fun he => ⟨he, hl'⟩, fun he => he.1⟩
    · rw [hothers u' hu]

end Owned

/-- A user waits for a lock that another one holds. -/
def BlockedBy (holds waits : U → L → Prop) (u v : U) : Prop := ∃ l, waits u l ∧ holds v l

section

variable {β : Type*} [Preorder β] {holds waits : U → L → Prop} (rank : L → β)

/-- Along a chain of blocked users the locks ascend. -/
theorem BlockedBy.ascends (h : ∀ u l m, holds u l → waits u m → rank l < rank m) {u v : U}
    (huv : Relation.TransGen (BlockedBy holds waits) u v) :
    ∃ l m, waits u l ∧ holds v m ∧ rank l ≤ rank m := by
  induction huv with
  | single huv =>
    obtain ⟨l, hl, hm⟩ := huv
    exact ⟨l, l, hl, hm, le_rfl⟩
  | tail _ hlast ih =>
    obtain ⟨l, m, hl, hm, hlm⟩ := ih
    obtain ⟨n, hn, hn'⟩ := hlast
    exact ⟨l, n, hl, hn', hlm.trans (h _ m n hm hn).le⟩

/-- Users that wait only for locks above those they hold are not blocked in a cycle. -/
theorem BlockedBy.acyclic (h : ∀ u l m, holds u l → waits u m → rank l < rank m) (u : U) :
    ¬Relation.TransGen (BlockedBy holds waits) u u := by
  intro hu
  obtain ⟨l, m, hl, hm, hlm⟩ := ascends rank h hu
  exact (h u m l hm hl).not_ge hlm

end
