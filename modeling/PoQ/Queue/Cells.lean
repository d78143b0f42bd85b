import PoQ.Lib.LinkedHeap
import PoQ.Lib.RwLocks
import PoQ.Queue
import PoQ.Server.Broadcast

/-!
# The cells of the queue

`queue_t.c` on a heap of `item_t` cells: what the operations read, write and free, and the lock of the
queue as the caller holds it. The argument `notify` is left out, since a broadcast on the condition
variable changes nothing here, and so are the assertions that the queue and its lock are there.
-/

namespace PoQ

open LinkedHeap

/-- What keeps an operation from returning. The assertions, by function and line of `queue_t.c`:
`headOrTail` is that of `queue_is_empty_custom` (63), `lastOne` and `tailNull` are those of
`queue_pop_custom` (131, 137) and `queue_front_and_pop_custom` (160, 167), `headNull` is that of
`queue_push_custom` (194), and `sizes` that of `queue_selective_remove` (339).

`removedCell` is an access to a cell that is not in the heap any more, `outsideArray` one outside the
memory of `calloc`, `indeterminate` a read of a variable that has not been written, `intOverflow` an
`int` that is counted out of its range, `lockMisused` a lock that the caller already holds or an unlock
of one it does not hold, `outOfFuel` a loop that did not end within its fuel, and `callback` a callback
that does not return. -/
inductive QueueAbort
  | headOrTail
  | lastOne
  | tailNull
  | headNull
  | sizes
  | removedCell
  | outsideArray
  | indeterminate
  | intOverflow
  | lockMisused
  | outOfFuel
  | callback (a : Abort)
deriving DecidableEq, Repr

/-- `queue_t`. A value of type `void *` is a number, and 0 is `NULL`; a pointer to an item is the address
of a cell. -/
structure QueueT where
  size : ℕ
  head : Option ℕ
  tail : Option ℕ
  heap : Heap ℕ
  /-- How the caller holds the lock. -/
  lock : Option LockMode

/-- An access to a cell. -/
def accessed {β : Type} (x : Option β) : Except QueueAbort β := x.elim (.error .removedCell) .ok

namespace QueueT

variable {σ δ : Type}

/-- `queue_constructor`, in whatever memory there is. -/
def queueConstructor (heap : Heap ℕ) : QueueT := ⟨0, none, none, heap, none⟩

/-- `pthread_rwlock_rdlock` or `pthread_rwlock_wrlock`, behind `if (lock)`. -/
def lockIf (lock : Bool) (mode : LockMode) (q : QueueT) : Except QueueAbort QueueT :=
  if lock then do
    ensure (q.lock = none) .lockMisused
    return { q with lock := some mode }
  else .ok q

/-- `pthread_rwlock_unlock`. -/
def unlock (q : QueueT) : Except QueueAbort QueueT := do
  ensure (q.lock ≠ none) .lockMisused
  return { q with lock := none }

/-- `pthread_rwlock_unlock`, behind `if (lock)`. -/
def unlockIf (lock : Bool) (q : QueueT) : Except QueueAbort QueueT := if lock then q.unlock else .ok q

/-- What an operation does between its locking and its unlocking, where both are behind `if (lock)`. -/
def withLock {β : Type} (lock : Bool) (mode : LockMode) (body : QueueT → Except QueueAbort (β × QueueT))
    (q : QueueT) : Except QueueAbort (β × QueueT) := do
  let q ← q.lockIf lock mode
  let (r, q) ← body q
  let q ← q.unlockIf lock
  return (r, q)

/-- `queue_is_empty_custom`. -/
def queueIsEmptyCustom (lock : Bool) : QueueT → Except QueueAbort (Bool × QueueT) :=
  withLock lock .read fun q => do
    ensure (q.head ≠ none ∨ q.head = q.tail) .headOrTail
    return (q.head.isNone, q)

/-- The body that `queue_front_custom` and `queue_back_custom` share, for the pointer they read. The
first of the two unlocks is not behind `if (lock)`. -/
def queueEndCustom (pointer : QueueT → Option ℕ) (lock : Bool) (q : QueueT) :
    Except QueueAbort (ℕ × QueueT) := do
  let q ← q.lockIf lock .read
  match pointer q with
  | some a =>
    let item ← accessed (q.heap.read a)
    let q ← q.unlock
    return (item.value, q)
  | none =>
    let q ← q.unlockIf lock
    return (0, q)

/-- `queue_front_custom`. -/
def queueFrontCustom : Bool → QueueT → Except QueueAbort (ℕ × QueueT) := queueEndCustom QueueT.head

/-- `queue_back_custom`. -/
def queueBackCustom : Bool → QueueT → Except QueueAbort (ℕ × QueueT) := queueEndCustom QueueT.tail

/-- What `queue_pop_custom` and `queue_front_and_pop_custom` do between their locking and unlocking: the
first element, or `NULL`. -/
def popHead (q : QueueT) : Except QueueAbort (ℕ × QueueT) :=
  match q.head with
  | some t => do
    let item ← accessed (q.heap.read t)
    let tail := if q.tail = some t then none else q.tail
    ensure (q.tail = some t → item.next = none) .lastOne
    let heap ← accessed (q.heap.free t)
    -- `size` is a `size_t`
    return (item.value, { q with head := item.next, tail, heap, size := (q.size + (2 ^ 64 - 1)) % 2 ^ 64 })
  | none => do
    ensure (q.tail = none) .tailNull
    return (0, q)

/-- `queue_pop_custom`. -/
def queuePopCustom (lock : Bool) : QueueT → Except QueueAbort (Unit × QueueT) :=
  withLock lock .write fun q => return ((), (← q.popHead).2)

/-- `queue_front_and_pop_custom`. -/
def queueFrontAndPopCustom (lock : Bool) : QueueT → Except QueueAbort (ℕ × QueueT) :=
  withLock lock .write popHead

/-- A new item at the end of the queue, if `malloc` has returned an address for it. -/
def pushItem (malloc : Option ℕ) (d : ℕ) (q : QueueT) : Except QueueAbort QueueT :=
  match malloc with
  | none => .ok q
  | some newItem => do
    let heap := q.heap.alloc newItem ⟨d, none⟩
    let size := (q.size + 1) % 2 ^ 64
    match q.tail with
    | none =>
      ensure (q.head = none) .headNull
      return { q with heap, size, head := some newItem, tail := some newItem }
    | some t =>
      let heap ← accessed (heap.setNext t (some newItem))
      return { q with heap, size, tail := some newItem }

/-- `queue_push_custom`, for what `malloc` returns. -/
def queuePushCustom (malloc : Option ℕ) (d : ℕ) (lock : Bool) :
    QueueT → Except QueueAbort (Unit × QueueT) :=
  withLock lock .write fun q => return ((), ← q.pushItem malloc d)

/-- The loop of `queue_print_func_dump_custom` from an item on. -/
def printItems (printFunc : ℕ → δ → δ) (heap : Heap ℕ) : ℕ → Option ℕ → δ → Except QueueAbort δ
  | _, none, dest => .ok dest
  | 0, some _, _ => .error .outOfFuel
  | fuel + 1, some i, dest => do
    let item ← accessed (heap.read i)
    printItems printFunc heap fuel item.next (printFunc item.value dest)

/-- `queue_print_func_dump_custom`: what is in `dest` behind it. -/
def queuePrintFuncDumpCustom (printFunc : ℕ → δ → δ) (dest : δ) (lock : Bool) :
    QueueT → Except QueueAbort (δ × QueueT) :=
  withLock lock .read fun q => return (← printItems printFunc q.heap q.size q.head dest, q)

/-- `queue_size_custom`. The size goes through an `int`. -/
def queueSizeCustom (lock : Bool) : QueueT → Except QueueAbort (ℕ × QueueT) :=
  withLock lock .read fun q => .ok (toSizeT (toInt q.size), q)

/-! ## Selective removal -/

/-- The variables of the first loop of `queue_selective_remove`: `to_delete` and `to_preserve` up to the
last slot that has been written, and the variables of the callback. -/
structure Removal (σ : Type) where
  heap : Heap ℕ
  firstExecution : Bool
  deletions : ℕ
  toDelete : List ℕ
  toPreserve : List ℕ
  state : σ

/-- An element is deleted. There is memory for `to_delete` only if `deallocate` is set. -/
def Removal.delete (size : ℕ) (deallocate : Bool) (i d : ℕ) (r : Removal σ) :
    Except QueueAbort (Removal σ) := do
  ensure (deallocate → r.deletions < size) .outsideArray
  let toDelete := if deallocate then r.toDelete ++ [d] else r.toDelete
  let heap ← accessed (r.heap.free i)
  ensure (r.deletions + 1 < intSize) .intOverflow
  return { r with heap, toDelete, deletions := r.deletions + 1 }

/-- An element is preserved. -/
def Removal.preserve (size : ℕ) (i : ℕ) (r : Removal σ) : Except QueueAbort (Removal σ) := do
  ensure (r.toPreserve.length < size) .outsideArray
  ensure (r.toPreserve.length + 1 < intSize) .intOverflow
  return { r with toPreserve := r.toPreserve ++ [i] }

/-- The first loop of `queue_selective_remove` from an item on. The address of the next item is read
behind `free`. -/
def removeItems (shouldDelete : Bool → ℕ → σ → Except Abort (Bool × σ)) (size : ℕ) (deallocate : Bool) :
    ℕ → Option ℕ → Removal σ → Except QueueAbort (Removal σ)
  | _, none, r => .ok r
  | 0, some _, _ => .error .outOfFuel
  | fuel + 1, some i, r => do
    let item ← accessed (r.heap.read i)
    let (delete, state) ← (shouldDelete r.firstExecution item.value r.state).mapError .callback
    let r := { r with state }
    let r ← if delete then r.delete size deallocate i item.value else r.preserve size i
    let item ← accessed (r.heap.read i)
    removeItems shouldDelete size deallocate fuel item.next { r with firstExecution := false }

/-- A slot of `to_preserve`. The memory of `calloc` is zero, also where none was asked for if the memory
is the kind that keeps things. -/
def slot (size : ℕ) (keeps : Bool) (toPreserve : List ℕ) (k : ℕ) : Except QueueAbort (Option ℕ) := do
  ensure (k < size ∨ keeps) .outsideArray
  return toPreserve[k]?

/-- The second loop of `queue_selective_remove`, for the items behind `i_ptr`. -/
def relink (heap : Heap ℕ) (iPtr : ℕ) : List ℕ → Except QueueAbort (Heap ℕ)
  | [] => .ok heap
  | i :: items => do
    let heap ← accessed (heap.setNext iPtr (some i))
    relink heap i items

/-- The second loop of `queue_selective_remove` as a whole, which does nothing if `i_ptr` is `NULL`. -/
def relinkItems (heap : Heap ℕ) : List ℕ → Except QueueAbort (Heap ℕ)
  | [] => .ok heap
  | i :: items => relink heap i items

/-- `q->tail->next = NULL`, if there is a tail. -/
def endAt (heap : Heap ℕ) : Option ℕ → Except QueueAbort (Heap ℕ)
  | none => .ok heap
  | some t => accessed (heap.setNext t none)

/-- The queue is built again from the items that are preserved. -/
def rebuild (r : Removal σ) (q : QueueT) : Except QueueAbort QueueT := do
  let head ← slot q.size r.heap.keeps r.toPreserve 0
  let heap ← relinkItems r.heap r.toPreserve
  let tail ← slot q.size r.heap.keeps r.toPreserve (r.toPreserve.length - 1)
  let heap ← endAt heap tail
  ensure (r.toPreserve.length + r.deletions < intSize) .intOverflow
  ensure (r.toPreserve.length + r.deletions = q.size) .sizes
  return { q with heap, head, tail, size := r.toPreserve.length }

/-- What a call of `queue_selective_remove` leaves behind: the value it returns, the elements it has
freed, and the variables of the callback. -/
structure Removed (σ : Type) where
  deletions : ℕ
  freed : List ℕ
  state : σ

/-- What `queue_selective_remove` does between its locking and its unlocking, where the last two flags
say whether `calloc` has returned memory for `to_delete` and for `to_preserve`. -/
def removeSelected (shouldDelete : Bool → ℕ → σ → Except Abort (Bool × σ))
    (deallocate toDelete toPreserve : Bool) (s : σ) (q : QueueT) : Except QueueAbort (Removed σ × QueueT) :=
  -- `goto error` from before the declaration of `to_preserve`, which is read behind the unlocking
  if deallocate = true ∧ toDelete = false then .error .indeterminate
  else if toPreserve = false then .ok (⟨0, [], s⟩, q)
  else do
    let r ← removeItems shouldDelete q.size deallocate q.size q.head ⟨q.heap, true, 0, [], [], s⟩
    let q ← q.rebuild r
    return (⟨r.deletions, r.toDelete, r.state⟩, q)

/-- `queue_selective_remove`. -/
def queueSelectiveRemove (shouldDelete : Bool → ℕ → σ → Except Abort (Bool × σ))
    (deallocate toDelete toPreserve lock : Bool) (s : σ) :
    QueueT → Except QueueAbort (Removed σ × QueueT) :=
  withLock lock .write (removeSelected shouldDelete deallocate toDelete toPreserve s)

end QueueT

end PoQ
