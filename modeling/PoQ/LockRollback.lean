import PoQ.MultiLocks

/-!
# Giving locks back

When one of several locks cannot be taken, `nmutex_locks`, `nrwlock_xlocks` and `nrwlock_timedxlocks` are to
give back those that they have taken. The loop that takes them has counted the one that failed when it ends,
and `i--` makes that one the first to be unlocked.
-/

namespace PoQ

/-- The locks that are unlocked, in order. -/
def unlocked (ops : List LockOp) : List ℕ :=
  ops.filterMap fun op => match op with
    | .lock _ _ => none
    | .unlock l => some l

/-- The threads that hold each lock: any number of readers, or one writer or owner of a mutex. -/
abbrev Holders := ℕ → List ℕ

/-- What a call that the thread `t` makes does to a lock, when it returns `errnum`. The unlocking functions do
not look at who calls them: a thread that does not hold the lock gives back another one's hold on it. -/
def LockOp.effect (t : ℕ) (holders : Holders) : LockOp × ℕ → Holders
  | (.lock _ l, errnum) => if errnum = 0 then Function.update holders l (t :: holders l) else holders
  | (.unlock l, errnum) =>
    if errnum = 0 then
      Function.update holders l (if t ∈ holders l then (holders l).erase t else (holders l).tail)
    else holders

/-- The locks that are taken by a call whose attempts return `granted`. A lock that the thread has already is
not taken. -/
def acquired (locks granted : List ℕ) : List ℕ :=
  ((locks.zip granted).filter fun p => p.2 = 0).map Prod.fst

/-- What a call of the thread `t` that fails behind the attempts `granted` is to do, where `ops` are called and
return `errnums`: it returns 0, has unlocked the locks that it has taken, and all locks are held as before. -/
structure RollsBack (t : ℕ) (holders : Holders) (locks granted : List ℕ) (ops : List LockOp)
    (errnums : List ℕ) (result : Option Bool) : Prop where
  result : result = some false
  unlocked : (unlocked ops).Perm (acquired locks granted)
  holders : ∀ l, ((ops.zip errnums).foldl (LockOp.effect t) holders l).Perm (holders l)

/-- The functions that take several locks, with the results that count as a lock that is taken. -/
inductive TakesLocks (sort : ArraySort ℕ) :
    (ℕ → Bool) → (Option ℕ → List ℕ → List ℕ → Except Abort (List LockOp × Option Bool)) → Prop
  | nmutexLocks : TakesLocks sort mutexLocked (nmutexLocks sort)
  | nrwlockXlocks (rw : Bool) : TakesLocks sort rwlockLocked (nrwlockXlocks sort rw)
  | nrwlockTimedxlocks (rw : Bool) : TakesLocks sort rwlockLocked (nrwlockTimedxlocks sort rw)

theorem TakesLocks.eq_multiLock {sort : ArraySort ℕ} {accepts : ℕ → Bool}
    {f : Option ℕ → List ℕ → List ℕ → Except Abort (List LockOp × Option Bool)}
    (h : TakesLocks sort accepts f) : ∃ function, f = multiLock sort function accepts := by
  cases h with
  | nmutexLocks => exact ⟨_, rfl⟩
  | nrwlockXlocks rw => exact ⟨_, rfl⟩
  | nrwlockTimedxlocks rw => exact ⟨_, rfl⟩

namespace LockCall

variable (function : LockFunction) {accepts : ℕ → Bool}

/-- The loop that gives locks back goes through all that it has before it. -/
theorem run_unlocking {rest back : List ℕ} (h : back.length = rest.length) :
    run function accepts (.unlocking rest) back = (rest.map .unlock, .unlocking []) := by
  induction rest generalizing back with
  | nil =>
    cases List.length_eq_zero_iff.mp h
    rfl
  | cons l rest ih =>
    cases back with
    | nil => cases h
    | cons errnum back =>
      have hrest := ih (Nat.succ.inj h)
      rw [run]
      simp only [next, step, List.tail_cons, hrest, List.map_cons]

/-- The loop that takes them, up to the first one that cannot be taken, which is the first to be given
back. -/
theorem run_locking (locked : List ℕ) {rest granted back : List ℕ} {e : ℕ} (hgranted : ∀ errnum ∈ granted, accepts errnum)
    (he : accepts e = false) (hlt : granted.length < rest.length)
    (hback : back.length = locked.length + granted.length + 1) :
    run function accepts (.locking locked rest) (granted ++ e :: back) =
      ((rest.take (granted.length + 1)).map (.lock function) ++
        ((rest.take (granted.length + 1)).reverse ++ locked).map .unlock, .unlocking []) := by
  induction granted generalizing locked rest with
  | nil =>
    cases rest with
    | nil => cases hlt
    | cons l rest =>
      have hunlock : run function accepts (.unlocking (l :: locked)) back = _ := run_unlocking function hback
      simp [run, next, step, he, hunlock]
  | cons errnum granted ih =>
    cases rest with
    | nil => cases hlt
    | cons l rest =>
      obtain ⟨herrnum, hgranted⟩ := List.forall_mem_cons.mp hgranted
      have hrest := ih (l :: locked) hgranted (Nat.lt_of_succ_lt_succ hlt)
        (by simp only [List.length_cons] at hback ⊢; omega)
      rw [List.cons_append, run]
      simp [next, step, herrnum, hrest]

end LockCall

theorem unlocked_locks_append (function : LockFunction) (locks back : List ℕ) :
    unlocked (locks.map (.lock function) ++ back.map .unlock) = back := by
  have hlocks : unlocked (locks.map (.lock function)) = [] := by
    simp [unlocked, List.filterMap_map]
  have hback : unlocked (back.map .unlock) = back := by
    simp [unlocked, List.filterMap_map]
  rw [unlocked, List.filterMap_append]
  exact (congrArg₂ (· ++ ·) hlocks hback).trans (List.nil_append back)

theorem length_acquired_le (locks granted : List ℕ) : (acquired locks granted).length ≤ granted.length := by
  rw [acquired, List.length_map]
  refine (List.length_filter_le _ _).trans ?_
  rw [List.length_zip]
  exact Nat.min_le_right _ _

/-- Wherever a call fails, it unlocks the lock that it could not take and all before it, and so never just
those that it has taken. -/
theorem takesLocks_not_rollsBack {sort : ArraySort ℕ} (hsort : InPlaceSort sort) {accepts : ℕ → Bool}
    {f : Option ℕ → List ℕ → List ℕ → Except Abort (List LockOp × Option Bool)} (hf : TakesLocks sort accepts f)
    (base t : ℕ) (holders : Holders) (locks granted back : List ℕ) (e : ℕ)
    (hlt : granted.length < locks.length) (hgranted : ∀ errnum ∈ granted, accepts errnum)
    (he : accepts e = false) (hback : back.length = granted.length + 1) :
    ∃ ops, f (some base) locks (granted ++ e :: back) = .ok (ops, some false) ∧
      unlocked ops = (locks.take (granted.length + 1)).reverse ∧
      ¬RollsBack t holders locks granted ops (granted ++ e :: back) (some false) := by
  obtain ⟨function, rfl⟩ := hf.eq_multiLock
  have hne : locks ≠ [] := List.ne_nil_of_length_pos (Nat.zero_lt_of_lt hlt)
  have hrun := LockCall.run_locking function [] hgranted he hlt (by simpa using hback)
  rw [List.append_nil] at hrun
  refine ⟨(locks.take (granted.length + 1)).map (.lock function) ++
    (locks.take (granted.length + 1)).reverse.map .unlock, ?_, unlocked_locks_append function _ _, fun h => ?_⟩
  · rw [multiLock, LockCall.start_some hsort base hne, Except.ok_bind, hrun]
    rfl
  · have hlen := h.unlocked.length_eq
    rw [unlocked_locks_append, List.length_reverse, List.length_take, Nat.min_eq_left hlt] at hlen
    have hle := length_acquired_le locks granted
    omega

/-- The thread 0 waits in vain for the second of two locks, which the thread 1 holds. -/
theorem takesLocks_not_rollsBack_timeout :
    ∃ ops, nrwlockTimedxlocks sinkSort true (some 0) [8, 16] [0, 110, 0, 0] = .ok (ops, some false) ∧
      unlocked ops = [16, 8] ∧
      ¬RollsBack 0 (fun l => if l = 16 then [1] else []) [8, 16] [0] ops [0, 110, 0, 0] (some false) :=
  takesLocks_not_rollsBack inPlaceSort_sinkSort (.nrwlockTimedxlocks true) 0 0 _ [8, 16] [0] [0, 0] 110
    (by decide) (by decide) (by decide) rfl

/-- Once it has given up, the thread 1 does not hold the second lock any more. -/
theorem not_rollsBack_timeout :
    (nrwlockTimedxlocks sinkSort true (some 0) [8, 16] [0, 110, 0, 0]).map (fun r =>
      (r.2, unlocked r.1, (r.1.zip [0, 110, 0, 0]).foldl (LockOp.effect 0) (fun l => if l = 16 then [1] else []) 16)) =
      .ok (some false, [16, 8], []) := by
  decide

end PoQ
