import Mathlib.Data.Finset.Basic
import Mathlib.Data.Finset.Insert
import Mathlib.Logic.Function.Basic

/-!
# Reader-writer locks

Every lock has one writer or any number of readers; a mutex is a lock that has no readers. What the users
hold according to their programs agrees with the state of the locks as long as each of them does to the
locks what its program says.
-/

variable {U L : Type*}

/-- How a lock is held. -/
inductive LockMode
  | read
  | write
deriving DecidableEq, Repr

/-- What a user does to the locks. -/
inductive LockAction (L : Type*)
  | none
  | acquire (mode : LockMode) (l : L)
  | release (l : L)
deriving DecidableEq, Repr

/-- Who holds the locks. -/
structure RwLocks (U L : Type*) where
  writer : L → Option U
  readers : L → Finset U

/-- What a user holds once it has done this. -/
def LockAction.effect [DecidableEq L] (a : LockAction L) (held : L → Option LockMode) :
    L → Option LockMode :=
  match a with
  | none => held
  | acquire mode l => Function.update held l (some mode)
  | release l => Function.update held l Option.none

namespace RwLocks

/-- Nobody holds a lock. -/
def free : RwLocks U L := ⟨fun _ => none, fun _ => ∅⟩

/-- The user holds the lock. -/
def Holds (s : RwLocks U L) (u : U) (l : L) : Prop := s.writer l = some u ∨ u ∈ s.readers l

/-- The states of the locks, where a writer is alone, and what the users hold are the same. -/
structure Agrees (s : RwLocks U L) (held : U → L → Option LockMode) : Prop where
  writer : ∀ u l, s.writer l = some u ↔ held u l = some .write
  readers : ∀ u l, u ∈ s.readers l ↔ held u l = some .read
  alone : ∀ u l, s.writer l = some u → s.readers l = ∅

section

variable [DecidableEq U] [DecidableEq L]

/-- A user does something to the locks. An action that has to wait is not possible yet. -/
def perform (s : RwLocks U L) (u : U) : LockAction L → Option (RwLocks U L)
  | .none => some s
  | .acquire .write l =>
    if s.writer l = none ∧ s.readers l = ∅ then
      some { s with writer := Function.update s.writer l (some u) }
    else none
  | .acquire .read l =>
    if s.writer l = none then
      some { s with readers := Function.update s.readers l (insert u (s.readers l)) }
    else none
  | .release l => some
    { writer := if s.writer l = some u then Function.update s.writer l none else s.writer
      readers := Function.update s.readers l ((s.readers l).erase u) }

end

namespace Agrees

variable {s s' : RwLocks U L} {held : U → L → Option LockMode} {u v : U} {l : L}

theorem free : (RwLocks.free : RwLocks U L).Agrees fun _ _ => none := by
  refine ⟨fun u l => ?_, fun u l => ?_, fun u l h => ?_⟩
  · exact iff_of_false (Option.some_ne_none u).symm (Option.some_ne_none _).symm
  · exact iff_of_false (Finset.notMem_empty u) (Option.some_ne_none _).symm
  · cases h

theorem holds_iff (h : s.Agrees held) : s.Holds u l ↔ ∃ mode, held u l = some mode := by
  rw [Holds, h.writer, h.readers]
  constructor
  · rintro (hu | hu) <;> exact ⟨_, hu⟩
  · rintro ⟨_ | _, hu⟩
    · exact .inr hu
    · exact .inl hu

/-- Nobody else holds a lock that has a writer. -/
theorem eq_of_write (h : s.Agrees held) {mode : LockMode} (hu : held u l = some .write)
    (hv : held v l = some mode) : v = u := by
  have hwriter := (h.writer u l).mpr hu
  cases mode with
  | write => exact Option.some.inj (((h.writer v l).mpr hv).symm.trans hwriter)
  | read =>
    have hread := (h.readers v l).mpr hv
    rw [h.alone u l hwriter] at hread
    cases hread

/-- A lock that a user can take as a writer is held by nobody. -/
theorem not_held (h : s.Agrees held) (hwriter : s.writer l = none) (hreaders : s.readers l = ∅) (v : U) :
    held v l = none := by
  cases hv : held v l with
  | none => rfl
  | some mode =>
    cases mode with
    | write =>
      have := (h.writer v l).mpr hv
      rw [hwriter] at this
      cases this
    | read =>
      have := (h.readers v l).mpr hv
      rw [hreaders] at this
      cases this

variable [DecidableEq U] [DecidableEq L]

theorem update_update (held : U → L → Option LockMode) (u : U) (l : L) (x : Option LockMode) (v : U)
    (m : L) :
    Function.update held u (Function.update (held u) l x) v m =
      if v = u ∧ m = l then x else held v m := by
  by_cases hv : v = u
  · subst hv
    by_cases hm : m = l
    · subst hm
      simp
    · simp [hm]
  · simp [hv]

theorem acquire_write (h : s.Agrees held) (hwriter : s.writer l = none) (hreaders : s.readers l = ∅) :
    Agrees { s with writer := Function.update s.writer l (some u) }
      (Function.update held u (Function.update (held u) l (some .write))) := by
  have hheld := h.not_held hwriter hreaders
  refine ⟨fun v m => ?_, fun v m => ?_, fun v m hv => ?_⟩
  · rw [update_update]
    by_cases hm : m = l
    · subst hm
      by_cases hv : v = u
      · simp [hv]
      · simp [hv, hheld, Ne.symm hv]
    · simp [hm, h.writer]
  · rw [update_update]
    by_cases hm : m = l
    · subst hm
      by_cases hv : v = u
      · simp [hv, hreaders]
      · simp [hv, hheld, hreaders]
    · simp [hm, h.readers]
  · by_cases hm : m = l
    · exact hm ▸ hreaders
    · exact h.alone v m ((Function.update_of_ne hm (some u) s.writer).symm.trans hv)

theorem acquire_read (h : s.Agrees held) (hwriter : s.writer l = none) :
    Agrees { s with readers := Function.update s.readers l (insert u (s.readers l)) }
      (Function.update held u (Function.update (held u) l (some .read))) := by
  have hheld : ∀ v, held v l ≠ some .write := by
    intro v hv
    have := (h.writer v l).mpr hv
    rw [hwriter] at this
    cases this
  refine ⟨fun v m => ?_, fun v m => ?_, fun v m hv => ?_⟩
  · rw [update_update]
    by_cases hm : m = l
    · subst hm
      by_cases hv : v = u
      · simp [hv, hwriter]
      · simp [hv, hheld, hwriter]
    · simp [hm, h.writer]
  · rw [update_update]
    by_cases hm : m = l
    · subst hm
      by_cases hv : v = u
      · simp [hv]
      · simp [hv, h.readers]
    · simp [hm, h.readers]
  · have hm : m ≠ l := by
      rintro rfl
      exact Option.some_ne_none v (hv.symm.trans hwriter)
    exact (Function.update_of_ne hm _ s.readers).trans (h.alone v m hv)

theorem release (h : s.Agrees held) :
    Agrees
      { writer := if s.writer l = some u then Function.update s.writer l none else s.writer
        readers := Function.update s.readers l ((s.readers l).erase u) }
      (Function.update held u (Function.update (held u) l none)) := by
  have hrest : ∀ v m, (if s.writer l = some u then Function.update s.writer l none else s.writer) m =
      some v ↔ s.writer m = some v ∧ ¬(v = u ∧ m = l) := by
    intro v m
    by_cases hm : m = l
    · subst hm
      by_cases hu : s.writer m = some u
      · rw [if_pos hu, Function.update_self, hu]
        refine iff_of_false (Option.some_ne_none v).symm fun hv => hv.2 ⟨?_, rfl⟩
        exact (Option.some.inj hv.1).symm
      · rw [if_neg hu]
        refine (and_iff_left_of_imp ?_).symm
        rintro hv ⟨rfl, -⟩
        exact hu hv
    · split <;> simp [hm]
  refine ⟨fun v m => ?_, fun v m => ?_, fun v m hv => ?_⟩
  · rw [update_update, hrest, h.writer]
    split
    · next hvm => exact iff_of_false (fun hv => hv.2 hvm) (Option.some_ne_none _).symm
    · next hvm => exact and_iff_left hvm
  · rw [update_update]
    by_cases hm : m = l
    · subst hm
      by_cases hv : v = u
      · simp [hv]
      · simp [hv, h.readers]
    · simp [hm, h.readers]
  · have hempty := h.alone v m ((hrest v m).mp hv).1
    by_cases hm : m = l
    · subst hm
      simp [hempty]
    · simp [hm, hempty]

/-- Whatever a user does to the locks, its program says the same afterwards. -/
theorem perform {a : LockAction L} (h : s.Agrees held) (ha : s.perform u a = some s') :
    s'.Agrees (Function.update held u (a.effect (held u))) := by
  cases a with
  | none =>
    cases ha
    rw [LockAction.effect, Function.update_eq_self]
    exact h
  | acquire mode l =>
    cases mode with
    | write =>
      rw [RwLocks.perform] at ha
      split at ha
      · next hfree =>
        cases ha
        exact h.acquire_write hfree.1 hfree.2
      · cases ha
    | read =>
      rw [RwLocks.perform] at ha
      split at ha
      · next hfree =>
        cases ha
        exact h.acquire_read hfree
      · cases ha
  | release l =>
    cases ha
    exact h.release

end Agrees

end RwLocks
