import PoQ.Lib.Locks
import PoQ.Lib.Runs
import PoQ.Lib.RwLocks
import PoQ.Server.Broadcast
import PoQ.Server.TableOps

/-!
# The handlers of the table and the queue, interleaved

Any number of threads run `poet_sgx_time_broadcast`, `poet_unfinished_node`, `poet_get_sgxtable`,
`poet_get_queue`, `poet_get_sgxtable_and_queue` and `sgx_table_and_queue_notification`. Each of them takes
its locks one by one, and changes or reads the table and the queue in many steps. The locks of a
`mutex_locks` are taken in the order of its arguments and released in the opposite order.
-/

namespace PoQ

inductive ServerLock
  | sgxTableLock
  | condMutex
  | queueLock
deriving DecidableEq, Repr

/-- The changes, with what the handlers have put together before they take the locks: the node of a
broadcast, and the record of an unfinished node, if there is one. -/
inductive Mutation
  | sgxTimeBroadcast (node : Node)
  | unfinishedNode (newNode : Option Node)
deriving DecidableEq, Repr

def Mutation.op : Mutation → TableOp
  | sgxTimeBroadcast node => .insertNode node
  | unfinishedNode newNode => .unfinishedNode newNode

/-- The change without interruption. -/
def Mutation.apply (g : Global) (m : Mutation) : Except Abort Global := m.op.whole g

/-- `poet_sgx_time_broadcast` does to the state what its change does, -/
theorem Mutation.apply_sgxTimeBroadcast {now : ℤ} {json : Json} {g : Global} {context : Context} {sgxt : ℕ}
    {node : Node} (hsgxt : announcedTime g json = some sgxt) (hnode : context.node = some node) :
    (sgxTimeBroadcast ⟨node.nodeId, toUint (now - g.serverStartingTime), sgxt, 0, sgxt⟩).apply g =
      (poetSgxTimeBroadcast now json g context).map (·.g) := by
  simp only [poetSgxTimeBroadcast, hsgxt, hnode, apply, op, TableOp.whole]
  cases insertNodeIntoSgxTableAndQueue _ g <;> rfl

/-- and so does `poet_unfinished_node`. -/
theorem Mutation.apply_unfinishedNode {raw : Json → ℤ} {json : Json} {newNode : Option Node}
    (hjson : jsonToNodeT raw json = .ok newNode) (g : Global) (context : Context) :
    (unfinishedNode newNode).apply g = (poetUnfinishedNode raw json g context).map (·.g) := by
  rw [poetUnfinishedNode_map_g, hjson]
  rfl

/-- The handlers that only read. -/
inductive Rendering
  | getSgxtable
  | getQueue
  | getSgxtableAndQueue
  | notification
deriving DecidableEq, Repr

def Rendering.locksTable : Rendering → Bool
  | getQueue => false
  | _ => true

def Rendering.rendersQueue : Rendering → Bool
  | getSgxtable => false
  | _ => true

/-- The table is locked by `pthread_mutex_timedlock`. -/
def Rendering.timed : Rendering → Bool
  | getSgxtable | getSgxtableAndQueue => true
  | _ => false

/-- Where a thread stands: between two handlers; in a change, before it takes each lock, with operations
that are still to be done, and before it releases each lock; in `queue_wait_change`, before
`pthread_mutex_trylock`, before and in `pthread_cond_wait`, about to take the mutex back, and before it
releases it; and in a function that reads, before it takes each lock, behind `i` elements with the text so
far, and before it releases each lock. -/
inductive HandlerPc
  | idle
  | lockTable (m : Mutation)
  | lockCond (m : Mutation)
  | lockQueue (m : Mutation)
  | mutating (m : Mutation) (ops : List TableOp)
  | unlockQueue
  | unlockCond
  | unlockTable
  | trylock
  | condWait
  | waiting
  | relock
  | unlockWait
  | renderLockTable (r : Rendering)
  | renderLockQueue (r : Rendering)
  | renderQueue (r : Rendering) (i : ℕ) (retried : Bool) (queueStr : List UInt8)
  | renderUnlockQueue (r : Rendering) (queueStr : List UInt8)
  | renderTable (r : Rendering) (queueStr : List UInt8) (i : ℕ) (tableStr : List UInt8)
  | renderUnlockTable (r : Rendering) (queueStr tableStr : List UInt8)
deriving DecidableEq, Repr

namespace HandlerPc

/-- The locks that the thread has taken and not released. -/
def held : HandlerPc → ServerLock → Option LockMode
  | lockCond _, .sgxTableLock | unlockTable, .sgxTableLock => some .write
  | lockQueue _, .sgxTableLock | lockQueue _, .condMutex => some .write
  | unlockCond, .sgxTableLock | unlockCond, .condMutex => some .write
  | mutating _ _, _ | unlockQueue, _ => some .write
  | condWait, .condMutex | unlockWait, .condMutex => some .write
  | renderLockQueue r, .sgxTableLock => if r.locksTable then some .write else none
  | renderQueue r _ _ _, .sgxTableLock | renderUnlockQueue r _, .sgxTableLock =>
    if r.locksTable then some .write else none
  | renderQueue _ _ _ _, .queueLock | renderUnlockQueue _ _, .queueLock => some .read
  | renderTable _ _ _ _, .sgxTableLock | renderUnlockTable _ _ _, .sgxTableLock => some .write
  | _, _ => none

/-- What the thread does to the locks in its next step. -/
def action : HandlerPc → LockAction ServerLock
  | lockTable _ | renderLockTable _ => .acquire .write .sgxTableLock
  | lockCond _ | trylock | relock => .acquire .write .condMutex
  | lockQueue _ => .acquire .write .queueLock
  | renderLockQueue _ => .acquire .read .queueLock
  | unlockQueue | renderUnlockQueue _ _ => .release .queueLock
  | unlockCond | condWait | unlockWait => .release .condMutex
  | unlockTable | renderUnlockTable _ _ _ => .release .sgxTableLock
  | idle | mutating _ _ | waiting | renderQueue _ _ _ _ | renderTable _ _ _ _ => .none

/-- Where the step leads to, and what it does to the table and the queue. -/
def after (g : Global) : HandlerPc → Except Abort (HandlerPc × Global)
  -- `poet_get_queue` does not lock the table
  | idle | waiting | renderLockTable .getQueue => .error .blocked
  | lockTable m => .ok (lockCond m, g)
  | lockCond m => .ok (lockQueue m, g)
  | lockQueue m => .ok (mutating m [m.op], g)
  | mutating _ [] => .ok (unlockQueue, g)
  | mutating m (op :: ops) => do
    let (g, more) ← op.step g
    return (mutating m (more ++ ops), g)
  | unlockQueue => .ok (unlockCond, g)
  | unlockCond => .ok (unlockTable, g)
  | unlockTable => .ok (idle, g)
  | trylock => .ok (condWait, g)
  | condWait => .ok (waiting, g)
  | relock => .ok (unlockWait, g)
  | unlockWait => .ok (renderLockTable .notification, g)
  | renderLockTable .getSgxtable => .ok (renderTable .getSgxtable [] 0 (ascii "["), g)
  | renderLockTable r => .ok (renderLockQueue r, g)
  | renderLockQueue r => .ok (renderQueue r 0 false (ascii "["), g)
  | renderQueue r i retried queueStr =>
    match g.queue[i]? with
    | some d =>
      -- an id that is not in the table is looked up once more
      if g.sgxTable[toSizeT (toInt d)]? = none ∧ retried = false then
        .ok (renderQueue r i true queueStr, g)
      else .ok (renderQueue r (i + 1) false (printQueueValueIntoBuffer g.sgxTable queueStr d), g)
    | none => .ok (renderUnlockQueue r (popTrailingComma queueStr ++ ascii "]"), g)
  | renderUnlockQueue r queueStr =>
    .ok (if r.locksTable then renderTable r queueStr 0 (ascii "[") else idle, g)
  | renderTable r queueStr i tableStr =>
    match g.sgxTable[i]? with
    | some node => .ok (renderTable r queueStr (i + 1) (tableStr ++ nodeTToJson node ++ ascii ","), g)
    | none => .ok (renderUnlockTable r queueStr (popTrailingComma tableStr ++ ascii "]"), g)
  | renderUnlockTable _ _ _ => .ok (idle, g)

/-- The change that is complete with the step. -/
def completes : HandlerPc → List Mutation
  | mutating m [] => [m]
  | _ => []

/-- The pair of texts that is complete with the step. -/
def renders : HandlerPc → List (List UInt8 × List UInt8)
  | renderUnlockTable r queueStr tableStr => if r.rendersQueue then [(queueStr, tableStr)] else []
  | _ => []

end HandlerPc

/-- The handlers of the threads. -/
inductive Handler
  | mutation (m : Mutation)
  | rendering (r : Rendering)
deriving DecidableEq, Repr

/-- Where a handler begins. -/
def Handler.entry : Handler → HandlerPc
  | mutation m => .lockTable m
  | rendering .notification => .trylock
  | rendering .getQueue => .renderLockQueue .getQueue
  | rendering r => .renderLockTable r

/-- The threads, the locks, and what the locks guard; the changes made so far, in the order in which they
were completed, and the pairs of texts rendered so far. -/
structure Handlers where
  locks : RwLocks ℕ ServerLock
  pc : ℕ → HandlerPc
  g : Global
  completed : List Mutation
  rendered : List (List UInt8 × List UInt8)

namespace Handlers

/-- No handler runs. -/
def initial (g : Global) : Handlers := ⟨.free, fun _ => .idle, g, [], []⟩

/-- The steps of a thread: it starts a handler; it goes on; a lock that it does not wait for is not
granted; or it is woken up, by a broadcast or for no reason. -/
inductive Event
  | start (t : ℕ) (handler : Handler)
  | next (t : ℕ)
  | refused (t : ℕ)
  | wake (t : ℕ)
deriving DecidableEq, Repr

/-- The thread goes on to another place. -/
def go (s : Handlers) (t : ℕ) (pc : HandlerPc) : Handlers := { s with pc := Function.update s.pc t pc }

/-- One step. A step that is not enabled is blocked. -/
def next (s : Handlers) : Event → Except Abort Handlers
  | .start t handler =>
    match s.pc t with
    | .idle => .ok (s.go t handler.entry)
    | _ => .error .blocked
  | .next t =>
    match s.locks.perform t (s.pc t).action with
    | some locks => do
      let (pc, g) ← (s.pc t).after s.g
      return {
        locks, g
        pc := Function.update s.pc t pc
        completed := s.completed ++ (s.pc t).completes
        rendered := s.rendered ++ (s.pc t).renders }
    | none => .error .blocked
  | .refused t =>
    match s.pc t with
    | .trylock => do
      ensure (s.locks.writer .condMutex ≠ none) .blocked
      return s
    | .renderLockTable r => do
      ensure (r.timed = true ∧ s.locks.writer .sgxTableLock ≠ none) .blocked
      return s.go t .idle
    | _ => .error .blocked
  | .wake t =>
    match s.pc t with
    | .waiting => .ok (s.go t .relock)
    | _ => .error .blocked

def step (s : Handlers) (e : Event) (s' : Handlers) : Prop := s.next e = .ok s'

end Handlers

/-! ## What a step of a thread does -/

namespace HandlerPc

variable {pc pc' : HandlerPc} {g g' : Global}

/-- A thread holds what it has taken. -/
theorem held_after (h : pc.after g = .ok (pc', g')) : pc'.held = pc.action.effect pc.held := by
  funext l
  cases pc with
  | idle | waiting => cases h
  | lockTable | lockCond | lockQueue | unlockQueue | unlockCond | unlockTable | trylock | condWait | relock |
      unlockWait | renderLockQueue | renderUnlockTable =>
    cases h
    cases l <;> rfl
  | mutating m ops =>
    cases ops with
    | nil =>
      cases h
      cases l <;> rfl
    | cons op ops =>
      obtain ⟨r, -, h⟩ := Except.bind_eq_ok.mp h
      cases h
      rfl
  | renderLockTable r => cases r <;> cases h <;> cases l <;> rfl
  | renderUnlockQueue r => cases r <;> cases h <;> cases l <;> rfl
  | renderQueue r i retried queueStr =>
    rw [after] at h
    split at h
    · split at h
      · cases h
        cases l <;> rfl
      · cases h
        cases l <;> rfl
    · cases h
      cases l <;> rfl
  | renderTable r queueStr i tableStr =>
    rw [after] at h
    split at h
    · cases h
      cases l <;> rfl
    · cases h
      cases l <;> rfl

/-- The thread is in the middle of a change. -/
def isMutating : HandlerPc → Bool
  | mutating _ _ => true
  | _ => false

/-- A step changes something, or completes a change, or begins one, or has nothing to do with one. -/
theorem after_cases (h : pc.after g = .ok (pc', g')) :
    (∃ m op ops more, pc = mutating m (op :: ops) ∧ op.step g = .ok (g', more) ∧
      pc' = mutating m (more ++ ops)) ∨
    g' = g ∧ ((∃ m, pc = mutating m [] ∧ pc' = unlockQueue) ∨
      (∃ m, pc = lockQueue m ∧ pc' = mutating m [m.op]) ∨
      pc.isMutating = false ∧ pc'.isMutating = false ∧ pc.completes = []) := by
  cases pc with
  | idle | waiting => cases h
  | lockTable | lockCond | unlockQueue | unlockCond | unlockTable | trylock | condWait | relock | unlockWait |
      renderLockQueue | renderUnlockTable =>
    cases h
    exact .inr ⟨rfl, .inr (.inr ⟨rfl, rfl, rfl⟩)⟩
  | renderLockTable r | renderUnlockQueue r =>
    cases r <;> cases h <;> exact .inr ⟨rfl, .inr (.inr ⟨rfl, rfl, rfl⟩)⟩
  | lockQueue m =>
    cases h
    exact .inr ⟨rfl, .inr (.inl ⟨m, rfl, rfl⟩)⟩
  | mutating m ops =>
    cases ops with
    | nil =>
      cases h
      exact .inr ⟨rfl, .inl ⟨m, rfl, rfl⟩⟩
    | cons op ops =>
      obtain ⟨r, hr, h⟩ := Except.bind_eq_ok.mp h
      cases h
      exact .inl ⟨m, op, ops, r.2, rfl, hr, rfl⟩
  | renderQueue r i retried queueStr =>
    rw [after] at h
    split at h
    · split at h <;> cases h <;> exact .inr ⟨rfl, .inr (.inr ⟨rfl, rfl, rfl⟩)⟩
    · cases h
      exact .inr ⟨rfl, .inr (.inr ⟨rfl, rfl, rfl⟩)⟩
  | renderTable r queueStr i tableStr =>
    rw [after] at h
    split at h <;> cases h <;> exact .inr ⟨rfl, .inr (.inr ⟨rfl, rfl, rfl⟩)⟩

/-- The texts of a thread that holds the table are those of the state as it is. -/
def Rendered (g : Global) : HandlerPc → Prop
  | renderQueue r i _ queueStr => r.locksTable = true →
    queueStr = (g.queue.take i).foldl (printQueueValueIntoBuffer g.sgxTable) (ascii "[")
  | renderUnlockQueue r queueStr => r.locksTable = true → queueStr = getQueueStr g.queue g.sgxTable
  | renderTable r queueStr i tableStr =>
    (r.rendersQueue = true → queueStr = getQueueStr g.queue g.sgxTable) ∧
    tableStr = (g.sgxTable.take i).foldl (fun s node => s ++ nodeTToJson node ++ ascii ",") (ascii "[")
  | renderUnlockTable r queueStr tableStr =>
    (r.rendersQueue = true → queueStr = getQueueStr g.queue g.sgxTable) ∧
    tableStr = getSgxTableStr g.sgxTable
  | _ => True

theorem rendered_of_held (h : pc.held .sgxTableLock = none) : pc.Rendered g := by
  cases pc with
  | renderQueue r | renderUnlockQueue r =>
    intro hr
    simp [held, hr] at h
  | renderTable | renderUnlockTable => cases h
  | _ => trivial

theorem Rendered.after (h : pc.Rendered g) (hafter : pc.after g = .ok (pc', g)) : pc'.Rendered g := by
  cases pc with
  | idle | waiting => cases hafter
  | lockTable | lockCond | lockQueue | unlockQueue | unlockCond | unlockTable | trylock | condWait | relock |
      unlockWait | renderUnlockTable =>
    cases hafter
    trivial
  | mutating m ops =>
    cases ops with
    | nil =>
      cases hafter
      trivial
    | cons op ops =>
      obtain ⟨r, -, hafter⟩ := Except.bind_eq_ok.mp hafter
      cases hafter
      trivial
  | renderLockTable r =>
    cases r <;> cases hafter
    · exact ⟨nofun, rfl⟩
    · trivial
    · trivial
  | renderLockQueue r =>
    cases hafter
    exact fun _ => rfl
  | renderQueue r i retried queueStr =>
    rw [HandlerPc.after] at hafter
    split at hafter
    · next d hd =>
      split at hafter
      · cases hafter
        exact h
      · cases hafter
        intro hr
        rw [List.take_add_one, hd, h hr]
        simp
    · next hd =>
      cases hafter
      intro hr
      rw [h hr, List.take_of_length_le (List.getElem?_eq_none_iff.mp hd), getQueueStr]
  | renderUnlockQueue r queueStr =>
    cases r <;> cases hafter
    · exact ⟨nofun, rfl⟩
    · trivial
    · exact ⟨fun _ => h rfl, rfl⟩
    · exact ⟨fun _ => h rfl, rfl⟩
  | renderTable r queueStr i tableStr =>
    rw [HandlerPc.after] at hafter
    split at hafter
    · next node hnode =>
      cases hafter
      refine ⟨h.1, ?_⟩
      rw [List.take_add_one, hnode, h.2]
      simp
    · next hnode =>
      cases hafter
      refine ⟨h.1, ?_⟩
      rw [h.2, List.take_of_length_le (List.getElem?_eq_none_iff.mp hnode), getSgxTableStr]

end HandlerPc

theorem Handler.held_entry (handler : Handler) : handler.entry.held = fun _ => none := by
  funext l
  cases handler with
  | mutation m => rfl
  | rendering r => cases r <;> cases l <;> rfl

namespace Handlers

variable {s s' : Handlers} {e : Event}

/-- A step is one of a thread that holds nothing before and after it, or goes on from where a thread
stands. -/
theorem next_cases (h : s.next e = .ok s') :
    (∃ t pc, s' = s.go t pc ∧ (s.pc t).held = (fun _ => none) ∧ pc.held = fun _ => none) ∨
    ∃ t locks pc g, s.locks.perform t (s.pc t).action = some locks ∧ (s.pc t).after s.g = .ok (pc, g) ∧
      s' = ⟨locks, Function.update s.pc t pc, g, s.completed ++ (s.pc t).completes,
        s.rendered ++ (s.pc t).renders⟩ := by
  cases e with
  | start t handler =>
    rw [next] at h
    split at h
    · next hpc =>
      cases h
      exact .inl ⟨t, handler.entry, rfl, by rw [hpc]; rfl, handler.held_entry⟩
    · cases h
  | next t =>
    rw [next] at h
    split at h
    · next locks hlocks =>
      obtain ⟨⟨pc, g⟩, hafter, h⟩ := Except.bind_eq_ok.mp h
      cases h
      exact .inr ⟨t, locks, pc, g, hlocks, hafter, rfl⟩
    · cases h
  | refused t =>
    rw [next] at h
    split at h
    · next hpc =>
      obtain ⟨_, -, h⟩ := Except.bind_eq_ok.mp h
      cases h
      refine .inl ⟨t, .trylock, ?_, by rw [hpc]; rfl, rfl⟩
      rw [go, ← hpc, Function.update_eq_self]
    · next r hpc =>
      obtain ⟨_, -, h⟩ := Except.bind_eq_ok.mp h
      cases h
      exact .inl ⟨t, .idle, rfl, by rw [hpc]; rfl, rfl⟩
    · cases h
  | wake t =>
    rw [next] at h
    split at h
    · next hpc =>
      cases h
      exact .inl ⟨t, .relock, rfl, by rw [hpc]; rfl, rfl⟩
    · cases h

/-- `base` is the state without the change that is being made, if there is one. -/
structure Between (pc : ℕ → HandlerPc) (g base : Global) : Prop where
  during : ∀ t m ops, pc t = .mutating m ops → TableOp.wholes ops g = m.apply base
  outside : (∀ t, (pc t).isMutating = false) → g = base

/-- The pair is what the state `g` looks like. -/
def Snapshot (g : Global) (pair : List UInt8 × List UInt8) : Prop :=
  pair = (getQueueStr g.queue g.sgxTable, getSgxTableStr g.sgxTable)

/-- The pair is what the state looks like after the first of the completed changes. -/
def Atomic (g₀ : Global) (completed : List Mutation) (pair : List UInt8 × List UInt8) : Prop :=
  ∃ ms g, ms <+: completed ∧ ms.foldlM Mutation.apply g₀ = .ok g ∧ Snapshot g pair

/-- The locks are held by those who have taken them; who holds the table has the texts of the state as it
is; and the completed changes have led to the state, up to a change that is being made. -/
structure Invariant (g₀ : Global) (s : Handlers) : Prop where
  agrees : s.locks.Agrees fun t => (s.pc t).held
  texts : ∀ t, (s.pc t).Rendered s.g
  between : ∃ base, s.completed.foldlM Mutation.apply g₀ = .ok base ∧ Between s.pc s.g base
  atomic : ∀ pair ∈ s.rendered, Atomic g₀ s.completed pair

theorem initial_invariant (g₀ : Global) : (initial g₀).Invariant g₀ where
  agrees := .free
  texts _ := trivial
  between := ⟨g₀, rfl, ⟨fun t m ops h => (by cases h), fun _ => rfl⟩⟩
  atomic pair h := by cases h

variable {g₀ g base : Global} {t u : ℕ} {pc : HandlerPc}

/-- Nobody else holds the table while a change is being made. -/
theorem Invariant.not_held (h : s.Invariant g₀) (ht : (s.pc t).held .sgxTableLock = some .write)
    (hu : u ≠ t) : (s.pc u).held .sgxTableLock = none := by
  cases hheld : (s.pc u).held .sgxTableLock with
  | none => rfl
  | some mode => exact absurd (h.agrees.eq_of_write ht hheld) hu

/-- Nobody else is in the middle of a change while a thread has the table. -/
theorem Invariant.isMutating (h : s.Invariant g₀) (ht : (s.pc t).held .sgxTableLock = some .write)
    (hu : u ≠ t) : (s.pc u).isMutating = false := by
  have hheld := h.not_held ht hu
  cases hpc : s.pc u with
  | mutating m ops =>
    rw [hpc] at hheld
    cases hheld
  | _ => rfl

theorem Atomic.mono {completed more : List Mutation} {pair : List UInt8 × List UInt8}
    (h : Atomic g₀ completed pair) : Atomic g₀ (completed ++ more) pair := by
  obtain ⟨ms, g, hms, hg, hpair⟩ := h
  exact ⟨ms, g, hms.trans (List.prefix_append ..), hg, hpair⟩

/-- The places of the threads when one of them has moved. -/
theorem moved_pc (P : ℕ → HandlerPc → Prop) (ht : P t pc) (hu : ∀ u, u ≠ t → P u (s.pc u)) (u : ℕ) :
    P u (Function.update s.pc t pc u) := by
  by_cases hut : u = t
  · rw [hut, Function.update_self]
    exact ht
  · rw [Function.update_of_ne hut]
    exact hu u hut

theorem held_moved (s : Handlers) (t : ℕ) (pc : HandlerPc) :
    (fun u => (Function.update s.pc t pc u).held) = Function.update (fun u => (s.pc u).held) t pc.held :=
  Function.comp_update HandlerPc.held s.pc t pc

/-- A thread that is not in the middle of a change goes somewhere else and is not in one there. -/
theorem Between.moved (h : Between s.pc g base) (hpc : (s.pc t).isMutating = false)
    (hpc' : pc.isMutating = false) : Between (Function.update s.pc t pc) g base := by
  refine ⟨moved_pc (fun _ pc => ∀ m ops, pc = .mutating m ops → TableOp.wholes ops g = m.apply base) ?_
    fun u _ => h.during u, fun hnone => h.outside fun u => ?_⟩
  · rintro m ops rfl
    cases hpc'
  · by_cases hu : u = t
    · exact hu ▸ hpc
    · have hother := hnone u
      rwa [Function.update_of_ne hu] at hother

/-- A thread that holds nothing goes somewhere else and holds nothing there. -/
theorem Invariant.go (h : s.Invariant g₀) (hpc : (s.pc t).held = fun _ => none)
    (hpc' : pc.held = fun _ => none) : (s.go t pc).Invariant g₀ := by
  obtain ⟨base, hbase, hbetween⟩ := h.between
  have hnot : ∀ pc : HandlerPc, (pc.held = fun _ => none) → pc.isMutating = false := by
    intro pc hpc
    cases pc with
    | mutating m ops => exact absurd (congrFun hpc .sgxTableLock) (Option.some_ne_none _)
    | _ => rfl
  refine ⟨?_, moved_pc _ ?_ fun u _ => h.texts u, ⟨base, hbase, hbetween.moved (hnot _ hpc) (hnot _ hpc')⟩,
    h.atomic⟩
  · have hheld := held_moved s t pc
    rw [hpc', ← hpc, Function.update_eq_self] at hheld
    exact hheld.symm ▸ h.agrees
  · exact HandlerPc.rendered_of_held (congrFun hpc' .sgxTableLock)

/-- The texts, when a thread goes on: the state changes only under a thread that holds the table. -/
theorem Invariant.texts_next (h : s.Invariant g₀) (hafter : (s.pc t).after s.g = .ok (pc, g)) (u : ℕ) :
    (Function.update s.pc t pc u).Rendered g := by
  obtain ⟨m, op, ops, more, hpc, hop, rfl⟩ | ⟨rfl, -⟩ := HandlerPc.after_cases hafter
  · have ht : (s.pc t).held .sgxTableLock = some .write := by
      rw [hpc]
      rfl
    refine moved_pc (fun _ pc => pc.Rendered g) ?_ (fun u hu => ?_) u
    · trivial
    · exact HandlerPc.rendered_of_held (h.not_held ht hu)
  · exact moved_pc (fun _ pc => pc.Rendered s.g) ((h.texts t).after hafter) (fun u _ => h.texts u) u

/-- A thread that has the table is the only one that can be in the middle of a change. -/
theorem Invariant.between_of_held (h : s.Invariant g₀) (ht : (s.pc t).held .sgxTableLock = some .write)
    (hduring : ∀ m ops, pc = .mutating m ops → TableOp.wholes ops g = m.apply base)
    (houtside : pc.isMutating = false → g = base) : Between (Function.update s.pc t pc) g base := by
  refine ⟨moved_pc (fun _ pc => ∀ m ops, pc = .mutating m ops → TableOp.wholes ops g = m.apply base)
    hduring ?_, fun hnone => houtside ?_⟩
  · intro u hu m ops hpc
    have hnot := h.isMutating ht hu
    rw [hpc] at hnot
    cases hnot
  · have hself := hnone t
    rwa [Function.update_self] at hself

/-- The state is that behind the completed changes when the table is held by a thread that is not in the
middle of one. -/
theorem Invariant.g_eq (h : s.Invariant g₀) (ht : (s.pc t).held .sgxTableLock = some .write)
    (hpc : (s.pc t).isMutating = false) (hbetween : Between s.pc s.g base) : s.g = base := by
  refine hbetween.outside fun u => ?_
  by_cases hu : u = t
  · exact hu ▸ hpc
  · exact h.isMutating ht hu

/-- The completed changes, when a thread goes on. -/
theorem Invariant.between_next (h : s.Invariant g₀) (hafter : (s.pc t).after s.g = .ok (pc, g)) :
    ∃ base, (s.completed ++ (s.pc t).completes).foldlM Mutation.apply g₀ = .ok base ∧
      Between (Function.update s.pc t pc) g base := by
  obtain ⟨base, hbase, hbetween⟩ := h.between
  obtain ⟨m, op, ops, more, hpc, hop, rfl⟩ | ⟨rfl, ⟨m, hpc, rfl⟩ | ⟨m, hpc, rfl⟩ | ⟨hpc, hpc', hnone⟩⟩ :=
    HandlerPc.after_cases hafter
  · have hwhole : TableOp.wholes (more ++ ops) g = m.apply base := by
      rw [← hbetween.during t m (op :: ops) hpc, TableOp.wholes, List.foldlM_append, TableOp.wholes,
        List.foldlM_cons, TableOp.whole_eq hop]
      rfl
    refine ⟨base, ?_, h.between_of_held (by rw [hpc]; rfl) (fun m' ops' hpc' => ?_) fun hmutating => ?_⟩
    · rw [hpc]
      exact (List.append_nil s.completed).symm ▸ hbase
    · cases hpc'
      exact hwhole
    · cases hmutating
  · refine ⟨s.g, ?_, h.between_of_held (by rw [hpc]; rfl) (fun m' ops' hpc' => ?_) fun _ => rfl⟩
    · rw [hpc, HandlerPc.completes, List.foldlM_append, hbase, Except.ok_bind, List.foldlM_cons,
        ← hbetween.during t m [] hpc]
      rfl
    · cases hpc'
  · have hg : s.g = base := h.g_eq (t := t) (by rw [hpc]; rfl) (by rw [hpc]; rfl) hbetween
    refine ⟨base, ?_, h.between_of_held (by rw [hpc]; rfl) (fun m' ops' hpc' => ?_) fun hmutating => ?_⟩
    · rw [hpc]
      exact (List.append_nil s.completed).symm ▸ hbase
    · cases hpc'
      rw [hg]
      exact bind_pure _
    · cases hmutating
  · refine ⟨base, ?_, hbetween.moved hpc hpc'⟩
    rwa [hnone, List.append_nil]

/-- The pairs that are complete, when a thread goes on. -/
theorem Invariant.atomic_next (h : s.Invariant g₀) {pair : List UInt8 × List UInt8}
    (hpair : pair ∈ (s.pc t).renders) : Atomic g₀ s.completed pair := by
  obtain ⟨base, hbase, hbetween⟩ := h.between
  cases hpc : s.pc t with
  | renderUnlockTable r queueStr tableStr =>
    have htexts := h.texts t
    have hg : s.g = base := h.g_eq (t := t) (by rw [hpc]; rfl) (by rw [hpc]; rfl) hbetween
    rw [hpc] at hpair htexts
    rw [HandlerPc.renders] at hpair
    split at hpair
    · next hr =>
      refine ⟨s.completed, base, List.prefix_rfl, hbase, ?_⟩
      rw [List.mem_singleton.mp hpair, Snapshot, ← hg, htexts.1 hr, htexts.2]
    · cases hpair
  | _ =>
    rw [hpc] at hpair
    cases hpair

theorem Invariant.next (h : s.Invariant g₀) (hnext : s.next e = .ok s') : s'.Invariant g₀ := by
  obtain ⟨t, pc, rfl, hpc, hpc'⟩ | ⟨t, locks, pc, g, hlocks, hafter, rfl⟩ := next_cases hnext
  · exact h.go hpc hpc'
  · refine ⟨?_, h.texts_next hafter, h.between_next hafter, fun pair hpair => ?_⟩
    · have hagrees := h.agrees.perform hlocks
      rw [← HandlerPc.held_after hafter] at hagrees
      exact (held_moved s t pc).symm ▸ hagrees
    · obtain hpair | hpair := List.mem_append.mp hpair
      · exact (h.atomic pair hpair).mono
      · exact (h.atomic_next hpair).mono

theorem invariant_of_runs (h : Runs step (fun _ _ => True) (initial g₀) s) : s.Invariant g₀ :=
  h.invariant (fun _ _ _ hs _ he => hs.next he) (initial_invariant g₀)

/-- Every pair of texts is that of the state behind the first of the completed changes, each made without
interruption. -/
theorem rendered_of_runs (h : Runs step (fun _ _ => True) (initial g₀) s) :
    ∀ pair ∈ s.rendered, ∃ ms g, ms <+: s.completed ∧ ms.foldlM Mutation.apply g₀ = .ok g ∧
      pair = (getQueueStr g.queue g.sgxTable, getSgxTableStr g.sgxTable) :=
  (invariant_of_runs h).atomic

/-- A node broadcasts. `poet_get_sgxtable_and_queue` finds the table locked, and on a second request gets
it; then an unfinished node comes and waits for the table. -/
def waitingForSnapshot : List Event :=
  [.start 0 (.mutation (.sgxTimeBroadcast ⟨0, 1, 5, 0, 5⟩)), .next 0,
    .start 1 (.rendering .getSgxtableAndQueue), .refused 1] ++ List.replicate 15 (.next 0) ++
  [.start 1 (.rendering .getSgxtableAndQueue), .next 1, .start 0 (.mutation (.unfinishedNode none))]

/-- The snapshot is taken before the unfinished node gets the table. -/
theorem rendered_waitingForSnapshot :
    ∃ s : Handlers, s.completed.length = 1 ∧ s.rendered.map Prod.fst = [ascii "[0]"] ∧
      ∀ pair ∈ s.rendered, ∃ ms g, ms <+: s.completed ∧
        ms.foldlM Mutation.apply (Global.initial 0 1 10 2) = .ok g ∧
        pair = (getQueueStr g.queue g.sgxTable, getSgxTableStr g.sgxTable) := by
  have hrun : (Runs.exec next (fun _ _ => True) .blocked (waitingForSnapshot ++ List.replicate 7 (.next 1))
      (initial (Global.initial 0 1 10 2))).map (fun s => decide (s.completed.length = 1 ∧
        s.rendered.map Prod.fst = [ascii "[0]"])) = .ok true := by
    decide
  obtain ⟨s, hs, h⟩ := Except.map_eq_ok.mp hrun
  obtain ⟨hcompleted, htext⟩ := of_decide_eq_true h
  exact ⟨s, hcompleted, htext, rendered_of_runs (Runs.of_exec hs)⟩

/-! ## No thread waits for itself -/

/-- The thread is in a call that takes the lock, also when the lock is free or the call does not wait. -/
def Waits (s : Handlers) (t : ℕ) (l : ServerLock) : Prop := ∃ mode, (s.pc t).action = .acquire mode l

end Handlers

/-- The order in which the locks are taken. -/
def ServerLock.rank : ServerLock → ℕ
  | sgxTableLock => 0
  | condMutex => 1
  | queueLock => 2

/-- A thread takes a lock only behind those that it holds. -/
theorem HandlerPc.rank_lt {pc : HandlerPc} {l m : ServerLock} {mode mode' : LockMode}
    (hl : pc.held l = some mode) (hm : pc.action = .acquire mode' m) : l.rank < m.rank := by
  cases pc with
  | lockTable | trylock | relock | renderLockTable => cases hl
  | lockCond | renderLockQueue =>
    cases hm
    cases l with
    | sgxTableLock => decide
    | condMutex | queueLock => cases hl
  | lockQueue =>
    cases hm
    cases l with
    | sgxTableLock | condMutex => decide
    | queueLock => cases hl
  | _ => cases hm

/-- No threads are blocked in a cycle. -/
theorem Handlers.not_cycle_of_runs {g₀ : Global} {s : Handlers}
    (h : Runs step (fun _ _ => True) (initial g₀) s) (t : ℕ) :
    ¬Relation.TransGen (BlockedBy s.locks.Holds s.Waits) t t := by
  have hs := invariant_of_runs h
  apply BlockedBy.acyclic ServerLock.rank
  intro u l m hl hm
  obtain ⟨mode, hheld⟩ := hs.agrees.holds_iff.mp hl
  obtain ⟨mode', haction⟩ := hm
  exact HandlerPc.rank_lt hheld haction

/-- The unfinished node waits for the thread that takes the snapshot, and that one for nobody. -/
theorem Handlers.not_cycle_waitingForSnapshot :
    ∃ s : Handlers, BlockedBy s.locks.Holds s.Waits 0 1 ∧
      ∀ t, ¬Relation.TransGen (BlockedBy s.locks.Holds s.Waits) t t := by
  have hrun : (Runs.exec next (fun _ _ => True) .blocked waitingForSnapshot
      (initial (Global.initial 0 1 10 2))).map (fun s =>
        decide ((s.pc 0).action = .acquire .write .sgxTableLock ∧
          s.locks.writer .sgxTableLock = some 1)) = .ok true := by
    decide
  obtain ⟨s, hs, h⟩ := Except.map_eq_ok.mp hrun
  obtain ⟨haction, hwriter⟩ := of_decide_eq_true h
  exact ⟨s, ⟨.sgxTableLock, ⟨.write, haction⟩, .inl hwriter⟩, not_cycle_of_runs (Runs.of_exec hs)⟩

end PoQ
