import PoQ.Basic
import PoQ.Lib.InPlaceSort
import PoQ.Lib.Locks
import PoQ.Lib.Runs

/-!
# Taking several locks

`nmutex_locks`, `nrwlock_xlocks` and `nrwlock_timedxlocks` copy their arguments, the addresses of the
locks, to an array and sort it before they take the locks one after the other. `comp_address` is given
pointers to the slots of that array and compares the pointers, not the addresses that stand in the slots,
so the sort finds every array in order.
-/

namespace PoQ

/-- `comp_address`. Addresses are below `2 ^ 63`, so the difference is that of two `long`. -/
def compAddress (a b : Slot ℕ) : ℤ :=
  let c : ℤ := a.address - b.address
  if c > 0 then 1 else if c = 0 then 0 else -1

/-- The functions that take a lock. -/
inductive LockFunction
  | mutexLock
  | rwlockRdlock
  | rwlockWrlock
  | rwlockTimedrdlock
  | rwlockTimedwrlock
deriving DecidableEq, Repr

/-- The calls of `pthread` functions on a lock. -/
inductive LockOp
  | lock (function : LockFunction) (lock : ℕ)
  | unlock (lock : ℕ)
deriving DecidableEq, Repr

/-- The error number of a lock that the thread owns already. -/
def EDEADLK : ℕ := 35

/-- Where a call stands behind the sort: in the loop that takes the locks, with those behind it, the last
one first, and those before it; or in the loop that gives them back. -/
inductive LockCall
  | locking (locked rest : List ℕ)
  | unlocking (rest : List ℕ)
deriving DecidableEq, Repr

namespace LockCall

/-- What the call returns, when it does. -/
def result : LockCall → Option Bool
  | locking _ [] => some true
  | unlocking [] => some false
  | _ => none

variable (function : LockFunction) (accepts : ℕ → Bool)

/-- The `pthread` function that is called next. -/
def next : LockCall → Option LockOp
  | locking _ (l :: _) => some (.lock function l)
  | unlocking (l :: _) => some (.unlock l)
  | _ => none

/-- It returns `errnum`. After a failure the loop has counted the lock that could not be taken, and
`i--` leaves that one as the first to be given back. -/
def step (errnum : ℕ) : LockCall → LockCall
  | locking locked [] => locking locked []
  | locking locked (l :: rest) =>
    if accepts errnum then locking (l :: locked) rest else unlocking (l :: locked)
  | unlocking rest => unlocking rest.tail

/-- The call goes on as long as the `pthread` functions return. -/
def run : LockCall → List ℕ → List LockOp × LockCall
  | call, [] => ([], call)
  | call, errnum :: errnums =>
    match call.next function with
    | none => ([], call)
    | some op =>
      let (ops, last) := run (call.step accepts errnum) errnums
      (op :: ops, last)

end LockCall

section

variable (sort : ArraySort ℕ)

/-- The three functions up to the first lock. `calloc` returns a block or none. -/
def LockCall.start (block : Option ℕ) (locks : List ℕ) : Except Abort LockCall := do
  ensure (0 < locks.length) .locksPositive
  match block with
  | none => return .unlocking []
  | some base => return .locking [] (sort compAddress 8 base locks)

/-- The three functions. The `pthread` functions return `errnums`, up to one that does not return; the
result is what is called and, behind the last one, what the function returns. -/
def multiLock (function : LockFunction) (accepts : ℕ → Bool) (block : Option ℕ) (locks errnums : List ℕ) :
    Except Abort (List LockOp × Option Bool) := do
  let call ← LockCall.start sort block locks
  let (ops, last) := call.run function accepts errnums
  return (ops, last.result)

/-- Which results of `pthread_mutex_lock` count as a lock that is taken. -/
def mutexLocked (errnum : ℕ) : Bool := errnum = 0

/-- Which results of the functions for reader-writer locks do. -/
def rwlockLocked (errnum : ℕ) : Bool := !(errnum ≠ 0 && errnum ≠ EDEADLK)

/-- `nmutex_locks`. -/
def nmutexLocks : Option ℕ → List ℕ → List ℕ → Except Abort (List LockOp × Option Bool) :=
  multiLock sort .mutexLock mutexLocked

/-- `nrwlock_xlocks`. -/
def nrwlockXlocks (rw : Bool) : Option ℕ → List ℕ → List ℕ → Except Abort (List LockOp × Option Bool) :=
  multiLock sort (if rw then .rwlockWrlock else .rwlockRdlock) rwlockLocked

/-- `nrwlock_timedxlocks`. -/
def nrwlockTimedxlocks (rw : Bool) :
    Option ℕ → List ℕ → List ℕ → Except Abort (List LockOp × Option Bool) :=
  multiLock sort (if rw then .rwlockTimedwrlock else .rwlockTimedrdlock) rwlockLocked

end

/-! ## The order of the attempts -/

/-- The locks that are tried, in order. -/
def attempted (ops : List LockOp) : List ℕ :=
  ops.filterMap fun op => match op with
    | .lock _ l => some l
    | .unlock _ => none

/-- The locks that a call tries to take, in order. -/
def attempts : Except Abort (List LockOp × Option Bool) → List ℕ
  | .ok (ops, _) => attempted ops
  | .error _ => []

variable {sort : ArraySort ℕ}

/-- The slots of every array are in the order that `comp_address` looks at. -/
theorem compAddress_slots (base : ℕ) (locks : List ℕ) :
    (slots 8 base locks).Pairwise (compAddress · · < 0) := by
  rw [slots, List.pairwise_map, List.pairwise_iff_getElem]
  intro i j hi hj hij
  simp only [List.getElem_zipIdx, compAddress]
  rw [if_neg (by push_cast; omega), if_neg (by push_cast; omega)]
  decide

/-- So the sort leaves the arguments in their order. -/
theorem sort_compAddress (h : InPlaceSort sort) (base : ℕ) (locks : List ℕ) :
    sort compAddress 8 base locks = locks :=
  h.keeps _ _ _ _ (compAddress_slots base locks)

section

variable {function : LockFunction} {accepts : ℕ → Bool}

/-- Once locks are given back no other one is tried. -/
theorem LockCall.attempted_unlocking (rest errnums : List ℕ) :
    attempted (run function accepts (.unlocking rest) errnums).1 = [] := by
  induction errnums generalizing rest with
  | nil => rfl
  | cons errnum errnums ih =>
    cases rest with
    | nil => rfl
    | cons l rest => exact ih rest

theorem LockCall.attempted_locking_cons (locked : List ℕ) (l : ℕ) (rest : List ℕ) (errnum : ℕ)
    (errnums : List ℕ) :
    attempted (run function accepts (.locking locked (l :: rest)) (errnum :: errnums)).1 =
      l :: if accepts errnum then attempted (run function accepts (.locking (l :: locked) rest) errnums).1
        else [] := by
  by_cases he : accepts errnum
  · simp [run, next, step, attempted, he]
  · have hnone : attempted (run function accepts (.unlocking (l :: locked)) errnums).1 = [] :=
      attempted_unlocking _ _
    simpa [run, next, step, attempted, he] using hnone

/-- The attempts are a beginning of the list that the loop goes through, -/
theorem LockCall.attempted_locking_isPrefix (locked rest errnums : List ℕ) :
    attempted (run function accepts (.locking locked rest) errnums).1 <+: rest := by
  induction errnums generalizing locked rest with
  | nil => exact List.nil_prefix
  | cons errnum errnums ih =>
    cases rest with
    | nil => exact List.nil_prefix
    | cons l rest =>
      rw [attempted_locking_cons]
      refine List.cons_prefix_cons.mpr ⟨rfl, ?_⟩
      split
      · exact ih _ rest
      · exact List.nil_prefix

/-- and all of it when every lock can be taken. -/
theorem LockCall.attempted_locking_granted (h : accepts 0) (locked rest : List ℕ) :
    attempted (run function accepts (.locking locked rest) (List.replicate rest.length 0)).1 = rest := by
  induction rest generalizing locked with
  | nil => rfl
  | cons l rest ih => rw [List.length_cons, List.replicate_succ, attempted_locking_cons, if_pos h, ih]

/-- A call starts with the arguments as they are. -/
theorem LockCall.start_some (h : InPlaceSort sort) (base : ℕ) {locks : List ℕ} (hlocks : locks ≠ []) :
    start sort (some base) locks = .ok (.locking [] locks) := by
  rw [start, ensure_of (List.length_pos_iff.mpr hlocks), Except.ok_bind, sort_compAddress h]
  rfl

theorem LockCall.start_eq_ok (h : InPlaceSort sort) {block : Option ℕ} {locks : List ℕ} {call : LockCall}
    (hcall : start sort block locks = .ok call) : call = .unlocking [] ∨ call = .locking [] locks := by
  obtain ⟨_, hlen, hcall⟩ := Except.bind_eq_ok.mp hcall
  cases block with
  | none =>
    cases hcall
    exact .inl rfl
  | some base =>
    cases hcall
    exact .inr (congrArg _ (sort_compAddress h base locks))

theorem attempts_multiLock_isPrefix (h : InPlaceSort sort) (block : Option ℕ) (locks errnums : List ℕ) :
    attempts (multiLock sort function accepts block locks errnums) <+: locks := by
  cases hcall : LockCall.start sort block locks with
  | error e =>
    rw [multiLock, hcall]
    exact List.nil_prefix
  | ok call =>
    rw [multiLock, hcall]
    change attempted (call.run function accepts errnums).1 <+: locks
    obtain rfl | rfl := LockCall.start_eq_ok h hcall
    · rw [LockCall.attempted_unlocking]
      exact List.nil_prefix
    · exact LockCall.attempted_locking_isPrefix [] locks errnums

theorem attempts_multiLock_granted (h : InPlaceSort sort) (h0 : accepts 0) (base : ℕ) (locks : List ℕ) :
    attempts (multiLock sort function accepts (some base) locks (List.replicate locks.length 0)) =
      locks := by
  by_cases hlocks : locks = []
  · rw [hlocks]
    rfl
  · rw [multiLock, LockCall.start_some h base hlocks]
    exact LockCall.attempted_locking_granted h0 [] locks

end

/-- The functions that take several locks. -/
inductive MultiLock (sort : ArraySort ℕ) :
    (Option ℕ → List ℕ → List ℕ → Except Abort (List LockOp × Option Bool)) → Prop
  | nmutexLocks : MultiLock sort (nmutexLocks sort)
  | nrwlockXlocks (rw : Bool) : MultiLock sort (nrwlockXlocks sort rw)
  | nrwlockTimedxlocks (rw : Bool) : MultiLock sort (nrwlockTimedxlocks sort rw)

theorem MultiLock.eq_multiLock {f : Option ℕ → List ℕ → List ℕ → Except Abort (List LockOp × Option Bool)}
    (h : MultiLock sort f) : ∃ function accepts, accepts 0 = true ∧ f = multiLock sort function accepts := by
  cases h with
  | nmutexLocks => exact ⟨_, _, rfl, rfl⟩
  | nrwlockXlocks rw => exact ⟨_, _, rfl, rfl⟩
  | nrwlockTimedxlocks rw => exact ⟨_, _, rfl, rfl⟩

/-! ## Threads that call `nmutex_locks` -/

/-- The owners of the mutexes, and the call of `nmutex_locks` that each thread has made last. -/
structure LockThreads where
  owner : ℕ → Option ℕ
  call : ℕ → Option LockCall

namespace LockThreads

/-- Nobody holds a lock. -/
def initial : LockThreads := ⟨fun _ => none, fun _ => none⟩

/-- The steps of a thread `t`: it calls `nmutex_locks`, with what `calloc` returns; the function that
the call has got to does its work and returns 0; it fails; or, behind the call, a lock is given back. -/
inductive Event
  | call (t : ℕ) (block : Option ℕ) (locks : List ℕ)
  | next (t : ℕ)
  | fail (t errnum : ℕ)
  | release (t lock : ℕ)
deriving DecidableEq, Repr

/-- `pthread_mutex_lock` waits until nobody owns the lock; `pthread_mutex_unlock` does not look at the
owner. -/
def perform (owner : ℕ → Option ℕ) (t : ℕ) : LockOp → Except Abort (ℕ → Option ℕ)
  | .lock _ l => do
    ensure (owner l = none) .blocked
    return Function.update owner l (some t)
  | .unlock l => return Function.update owner l none

/-- The thread is in a call that has not returned. -/
def calling (s : LockThreads) (t : ℕ) : Bool :=
  match s.call t with
  | some call => call.result = none
  | none => false

/-- The function that the thread's call has got to. -/
def op (s : LockThreads) (t : ℕ) : Option LockOp := (s.call t).bind (·.next .mutexLock)

/-- That function has returned. -/
def returned (s : LockThreads) (t errnum : ℕ) : ℕ → Option LockCall :=
  Function.update s.call t ((s.call t).map (·.step mutexLocked errnum))

/-- A step. -/
def next (sort : ArraySort ℕ) (s : LockThreads) : Event → Except Abort LockThreads
  | .call t block locks => do
    ensure (s.calling t = false) .blocked
    let call ← LockCall.start sort block locks
    return { s with call := Function.update s.call t (some call) }
  | .next t =>
    match s.op t with
    | some op => do
      let owner ← perform s.owner t op
      return ⟨owner, s.returned t 0⟩
    | none => .error .blocked
  | .fail t errnum =>
    match s.op t with
    | some (.lock _ _) => do
      ensure (errnum ≠ 0) .blocked
      return { s with call := s.returned t errnum }
    | _ => .error .blocked
  | .release t l => do
    ensure (s.calling t = false ∧ s.owner l = some t) .blocked
    return { s with owner := Function.update s.owner l none }

/-- Who holds a lock. -/
def Holds (s : LockThreads) (t l : ℕ) : Prop := s.owner l = some t

/-- Who waits in `pthread_mutex_lock` for a lock. -/
def Waits (s : LockThreads) (t l : ℕ) : Prop := s.op t = some (.lock .mutexLock l) ∧ s.owner l ≠ none

/-- A thread that calls `nmutex_locks` holds nothing. -/
def HoldsNothing (s : LockThreads) : Event → Prop
  | .call t _ _ => ∀ l, ¬s.Holds t l
  | _ => True

/-- It passes every lock once. -/
def Distinct : Event → Prop
  | .call _ _ locks => locks.Nodup
  | _ => True

/-- It passes the locks in the order of their addresses. -/
def Ascending : Event → Prop
  | .call _ _ locks => locks.Pairwise (· < ·)
  | _ => True

/-- The locks that a call has before it ascend, and are above those that the thread holds. -/
def Ordered (s : LockThreads) : Prop :=
  ∀ t locked rest, s.call t = some (.locking locked rest) →
    rest.Pairwise (· < ·) ∧ ∀ l, s.Holds t l → ∀ m ∈ rest, l < m

variable {s s' : LockThreads} {t : ℕ}

theorem op_eq_lock {function : LockFunction} {l : ℕ} (h : s.op t = some (.lock function l)) :
    ∃ locked rest, s.call t = some (.locking locked (l :: rest)) := by
  obtain ⟨call, hcall, hop⟩ := Option.bind_eq_some_iff.mp h
  cases call with
  | locking locked rest =>
    cases rest with
    | nil => cases hop
    | cons l rest =>
      cases hop
      exact ⟨locked, rest, hcall⟩
  | unlocking rest => cases rest <;> cases hop

theorem op_eq_unlock {l : ℕ} (h : s.op t = some (.unlock l)) :
    ∃ rest, s.call t = some (.unlocking (l :: rest)) := by
  obtain ⟨call, hcall, hop⟩ := Option.bind_eq_some_iff.mp h
  cases call with
  | locking locked rest => cases rest <;> cases hop
  | unlocking rest =>
    cases rest with
    | nil => cases hop
    | cons l rest =>
      cases hop
      exact ⟨rest, hcall⟩

/-- What a step does: it starts a call, takes a lock, fails to take one, gives one back in a call, or
behind it. -/
theorem next_cases (hsort : InPlaceSort sort) {e : Event} (h : next sort s e = .ok s') :
    (∃ t block locks call, e = .call t block locks ∧ (call = .unlocking [] ∨ call = .locking [] locks) ∧
      s' = { s with call := Function.update s.call t (some call) }) ∨
    (∃ t l locked rest, s.call t = some (.locking locked (l :: rest)) ∧
      s' = ⟨Function.update s.owner l (some t),
        Function.update s.call t (some (.locking (l :: locked) rest))⟩) ∨
    (∃ t rest, s' = { s with call := Function.update s.call t (some (.unlocking rest)) }) ∨
    (∃ t l rest, s' = ⟨Function.update s.owner l none,
      Function.update s.call t (some (.unlocking rest))⟩) ∨
    (∃ l, s' = { s with owner := Function.update s.owner l none }) := by
  cases e with
  | call t block locks =>
    obtain ⟨_, _, h⟩ := Except.bind_eq_ok.mp h
    obtain ⟨call, hcall, h⟩ := Except.bind_eq_ok.mp h
    cases h
    exact .inl ⟨t, block, locks, call, rfl, LockCall.start_eq_ok hsort hcall, rfl⟩
  | next t =>
    rw [next] at h
    split at h
    · next op hop =>
      obtain ⟨owner, howner, h⟩ := Except.bind_eq_ok.mp h
      cases h
      cases op with
      | lock function l =>
        obtain ⟨locked, rest, hcall⟩ := op_eq_lock hop
        obtain ⟨_, _, howner⟩ := Except.bind_eq_ok.mp howner
        cases howner
        refine .inr (.inl ⟨t, l, locked, rest, hcall, ?_⟩)
        rw [returned, hcall]
        rfl
      | unlock l =>
        obtain ⟨rest, hcall⟩ := op_eq_unlock hop
        cases howner
        refine .inr (.inr (.inr (.inl ⟨t, l, rest, ?_⟩)))
        rw [returned, hcall]
        rfl
    · cases h
  | fail t errnum =>
    rw [next] at h
    split at h
    · next function l hop =>
      obtain ⟨_, herrnum, h⟩ := Except.bind_eq_ok.mp h
      cases h
      obtain ⟨locked, rest, hcall⟩ := op_eq_lock hop
      refine .inr (.inr (.inl ⟨t, l :: locked, ?_⟩))
      have hfailed : mutexLocked errnum = false := decide_eq_false (ensure_eq_ok.mp herrnum)
      rw [returned, hcall, Option.map_some, LockCall.step, hfailed]
      rfl
    · cases h
  | release t l =>
    obtain ⟨_, _, h⟩ := Except.bind_eq_ok.mp h
    cases h
    exact .inr (.inr (.inr (.inr ⟨l, rfl⟩)))

theorem call_cases {calls : ℕ → Option LockCall} {t u : ℕ} {call call' : LockCall}
    (h : Function.update calls t (some call) u = some call') :
    u = t ∧ call = call' ∨ u ≠ t ∧ calls u = some call' := by
  by_cases hut : u = t
  · rw [hut, Function.update_self] at h
    exact .inl ⟨hut, Option.some.inj h⟩
  · rw [Function.update_of_ne hut] at h
    exact .inr ⟨hut, h⟩

theorem Holds.of_take {l t m u : ℕ} (h : Function.update s.owner l (some t) m = some u) :
    u = t ∧ m = l ∨ s.Holds u m := by
  by_cases hm : m = l
  · rw [hm, Function.update_self] at h
    exact .inl ⟨(Option.some.inj h).symm, hm⟩
  · rw [Function.update_of_ne hm] at h
    exact .inr h

theorem Holds.of_release {l m u : ℕ} (h : Function.update s.owner l none m = some u) : s.Holds u m := by
  by_cases hm : m = l
  · rw [hm, Function.update_self] at h
    cases h
  · rwa [Function.update_of_ne hm] at h

/-- One step. Only the thread that takes a lock gets to hold one, and it takes the first of those that are
before it. -/
theorem Ordered.next (hsort : InPlaceSort sort) {e : Event} (h : s.Ordered) (hnothing : s.HoldsNothing e)
    (hasc : Ascending e) (hnext : LockThreads.next sort s e = .ok s') : s'.Ordered := by
  intro u locked rest hu
  obtain ⟨t, block, locks, call, rfl, hcall, rfl⟩ | ⟨t, l, taken, before, ht, rfl⟩ | ⟨t, back, rfl⟩ |
    ⟨t, l, back, rfl⟩ | ⟨l, rfl⟩ := next_cases hsort hnext
  · obtain ⟨rfl, hnew⟩ | ⟨hut, hold⟩ := call_cases hu
    · obtain rfl | rfl := hcall
      · cases hnew
      · cases hnew
        exact ⟨hasc, fun l hl => absurd hl (hnothing l)⟩
    · exact h u locked rest hold
  · obtain ⟨rfl, hnew⟩ | ⟨hut, hold⟩ := call_cases hu
    · cases hnew
      obtain ⟨hasc, hbelow⟩ := h u taken (l :: rest) ht
      obtain ⟨hl, hasc⟩ := List.pairwise_cons.mp hasc
      refine ⟨hasc, fun m hm k hk => ?_⟩
      obtain ⟨-, rfl⟩ | hm := Holds.of_take hm
      · exact hl k hk
      · exact hbelow m hm k (List.mem_cons_of_mem _ hk)
    · obtain ⟨hasc, hbelow⟩ := h u locked rest hold
      exact ⟨hasc, fun m hm => hbelow m ((Holds.of_take hm).resolve_left fun hself => hut hself.1)⟩
  · obtain ⟨rfl, hnew⟩ | ⟨hut, hold⟩ := call_cases hu
    · cases hnew
    · exact h u locked rest hold
  · obtain ⟨rfl, hnew⟩ | ⟨hut, hold⟩ := call_cases hu
    · cases hnew
    · obtain ⟨hasc, hbelow⟩ := h u locked rest hold
      exact ⟨hasc, fun m hm => hbelow m (.of_release hm)⟩
  · obtain ⟨hasc, hbelow⟩ := h u locked rest hu
    exact ⟨hasc, fun m hm => hbelow m (.of_release hm)⟩

theorem ordered_initial : initial.Ordered := by
  intro t locked rest h
  cases h

/-- A thread holds only locks below the one it waits for. -/
theorem Ordered.lt (h : s.Ordered) {l m : ℕ} (hl : s.Holds t l) (hm : s.Waits t m) : l < m := by
  obtain ⟨locked, rest, hcall⟩ := op_eq_lock hm.1
  exact (h t locked (m :: rest) hcall).2 l hl m List.mem_cons_self

/-- Threads that pass their locks in the order of the addresses are never blocked in a cycle. -/
theorem acyclic_of_runs (hsort : InPlaceSort sort)
    (h : Runs (fun s e s' => next sort s e = .ok s') (fun s e => s.HoldsNothing e ∧ Ascending e) initial s)
    (t : ℕ) : ¬Relation.TransGen (BlockedBy s.Holds s.Waits) t t := by
  have hordered : s.Ordered := h.invariant (fun s e s' hs hc he => hs.next hsort hc.1 hc.2 he) ordered_initial
  apply BlockedBy.acyclic id
  intro u l m hl hm
  exact hordered.lt hl hm

end LockThreads

/-- The functions try the locks in the order of the arguments. That is the order of the addresses exactly
if the arguments are in that order, two orders of the arguments give one order of the attempts exactly if
they are the same, and threads whose arguments are in the order of the addresses are never blocked in a
cycle. -/
theorem multiLocks_ascending_iff (hsort : InPlaceSort sort) :
    (∀ f, MultiLock sort f → ∀ locks : List ℕ,
      ((∀ block errnums, (attempts (f block locks errnums)).Pairwise (· < ·)) ↔ locks.Pairwise (· < ·)) ∧
      ∀ locks' : List ℕ, locks'.Perm locks →
        ((∀ block errnums, attempts (f block locks errnums) = attempts (f block locks' errnums)) ↔
          locks = locks')) ∧
    ∀ s, Runs (fun s e s' => LockThreads.next sort s e = .ok s')
      (fun s e => s.HoldsNothing e ∧ LockThreads.Ascending e) .initial s →
      ∀ t, ¬Relation.TransGen (BlockedBy s.Holds s.Waits) t t := by
  refine ⟨fun f hf locks => ?_, fun s hs t => LockThreads.acyclic_of_runs hsort hs t⟩
  obtain ⟨function, accepts, h0, rfl⟩ := hf.eq_multiLock
  refine ⟨⟨fun h => ?_, fun h block errnums => ?_⟩, fun locks' hperm => ⟨fun h => ?_, fun h => ?_⟩⟩
  · rw [← attempts_multiLock_granted hsort h0 0 locks]
    exact h _ _
  · exact h.sublist (attempts_multiLock_isPrefix hsort block locks errnums).sublist
  · have hsame := h (some 0) (List.replicate locks.length 0)
    rwa [attempts_multiLock_granted hsort h0, ← hperm.length_eq, attempts_multiLock_granted hsort h0] at hsame
  · rw [h]
    exact fun _ _ => rfl

/-- Two mutexes in the order of their addresses. -/
theorem multiLocks_ascending_twoMutexes :
    (∀ block errnums, (attempts (nmutexLocks sinkSort block [8, 16] errnums)).Pairwise (· < ·)) ∧
    attempts (nmutexLocks sinkSort (some 0) [8, 16] [0, 0]) = [8, 16] :=
  ⟨((multiLocks_ascending_iff inPlaceSort_sinkSort).1 _ .nmutexLocks [8, 16]).1.mpr (by decide), by decide⟩

/-- Two locks are tried in the order of the arguments, also where that is not the order of the addresses,
and two threads that pass them in opposite orders block each other. -/
theorem not_multiLocks_ascending :
    InPlaceSort (sinkSort (α := ℕ)) ∧
    (∀ f, MultiLock sinkSort f → ¬(attempts (f (some 0) [16, 8] [0, 0])).Pairwise (· < ·) ∧
      attempts (f (some 0) [16, 8] [0, 0]) ≠ attempts (f (some 0) [8, 16] [0, 0])) ∧
    ∃ s, Runs (fun s e s' => LockThreads.next sinkSort s e = .ok s')
      (fun s e => s.HoldsNothing e ∧ LockThreads.Distinct e) .initial s ∧
      Relation.TransGen (BlockedBy s.Holds s.Waits) 0 0 := by
  refine ⟨inPlaceSort_sinkSort, fun f hf => ?_, ?_⟩
  · cases hf with
    | nmutexLocks => decide
    | nrwlockXlocks rw => cases rw <;> decide
    | nrwlockTimedxlocks rw => cases rw <;> decide
  · have hnothing : ∀ t l : ℕ, ¬LockThreads.Holds .initial t l := by
      intro t l h
      cases h
    have hdistinct : [8, 16].Nodup ∧ [16, 8].Nodup := by decide
    refine ⟨_, .tail (.tail (.tail (.tail .refl
      ⟨.call 0 (some 0) [8, 16], ⟨hnothing 0, hdistinct.1⟩, rfl⟩)
      ⟨.call 1 (some 0) [16, 8], ⟨hnothing 1, hdistinct.2⟩, rfl⟩)
      ⟨.next 0, ⟨trivial, trivial⟩, rfl⟩) ⟨.next 1, ⟨trivial, trivial⟩, rfl⟩, ?_⟩
    exact .tail (.single (b := 1) ⟨16, ⟨rfl, Option.some_ne_none 1⟩, rfl⟩)
      ⟨8, ⟨rfl, Option.some_ne_none 0⟩, rfl⟩

end PoQ
