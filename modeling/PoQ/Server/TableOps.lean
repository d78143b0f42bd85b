import PoQ.Server.Functions

/-!
# The table and the queue step by step

What `insert_node_into_sgx_table_and_queue` and `poet_unfinished_node` do between taking and releasing
the locks, as a list of operations that is still to be done. An operation changes one field of an entry
or changes the queue once, or looks at the state and puts other operations in its place. Done one after
the other without interruption they are the functions of `Server.Functions`.
-/

namespace PoQ

/-- The operations. The first four and the last two but one decide what is done next; `pushMissing` is a
pass of the loop that fills the queue with what is missing from the copy `v`. -/
inductive TableOp
  | insertNode (node : Node)
  | unfinishedNode (newNode : Option Node)
  | cleanup
  | fill
  | storeSgxTime (i sgxTime : ℕ)
  | storeArrivalTime (i arrivalTime : ℕ)
  | storeTimeLeft (i timeLeft : ℕ)
  | countLeadership (i : ℕ)
  | pushBack (node : Node)
  | popWhenFull
  | push (d : ℕ)
  | pop
  | deleteContinuous
  | deleteRepeated
  | pushMissing (v : List ℕ) (i : ℕ)
deriving DecidableEq, Repr

/-- A field of an entry is stored. -/
def Global.modifyEntry (g : Global) (i : ℕ) (f : Node → Node) : Global :=
  { g with sgxTable := g.sgxTable.modify i f }

/-- An operation: the state behind it, and the operations that take its place. -/
def TableOp.step (g : Global) : TableOp → Except Abort (Global × List TableOp)
  | insertNode node =>
    match g.sgxTable[node.nodeId]? with
    | some n => do
      ensure (n.nodeId = node.nodeId) .entryHasNodeId
      ensure (node.sgxTime = node.timeLeft) .sgxTimeIsTimeLeft
      return (g, [storeSgxTime node.nodeId node.sgxTime, storeArrivalTime node.nodeId node.arrivalTime,
        storeTimeLeft node.nodeId node.timeLeft, countLeadership node.nodeId, popWhenFull,
        push node.nodeId, cleanup, fill])
    | none => .ok (g, [pushBack node, push node.nodeId, cleanup, fill])
  | unfinishedNode none => .ok (g, [])
  | unfinishedNode (some newNode) =>
    match g.sgxTable[newNode.nodeId]? with
    | none => .ok (g, [])
    | some dest => do
      ensure (dest.nodeId = newNode.nodeId) .entryHasNodeId
      ensure (dest.arrivalTime ≠ newNode.arrivalTime ∨ newNode.timeLeft ≤ dest.timeLeft)
        .timeLeftNotIncreased
      if dest.sgxTime = newNode.sgxTime ∧ dest.arrivalTime = newNode.arrivalTime then
        return (g, [storeTimeLeft newNode.nodeId newNode.timeLeft, cleanup, push dest.nodeId])
      else return (g, [])
  | cleanup =>
    .ok (g, if g.sgxTable.isEmpty then [] else [pop, deleteContinuous, deleteRepeated])
  | fill =>
    .ok (g, if g.queue.length < g.sgxTable.length then
        (List.range g.sgxTable.length).map (pushMissing g.queue) else [])
  | storeSgxTime i sgxTime => .ok (g.modifyEntry i fun n => { n with sgxTime }, [])
  | storeArrivalTime i arrivalTime => .ok (g.modifyEntry i fun n => { n with arrivalTime }, [])
  | storeTimeLeft i timeLeft => .ok (g.modifyEntry i fun n => { n with timeLeft }, [])
  | countLeadership i =>
    .ok (g.modifyEntry i fun n => { n with nLeadership := (n.nLeadership + 1) % uintSize }, [])
  | pushBack node => .ok ({ g with sgxTable := g.sgxTable ++ [node] }, [])
  | popWhenFull =>
    .ok ({ g with queue := if g.sgxTable.length ≤ g.queue.length then queuePop g.queue else g.queue }, [])
  | push d => .ok ({ g with queue := queuePush g.queue d }, [])
  | pop => .ok ({ g with queue := queuePop g.queue }, [])
  | deleteContinuous => do
    let (queue, _, repetitions) ←
      queueSelectiveRemove queueDeleteContinuousNodes true g.queue g.repetitions
    return ({ g with queue, repetitions }, [])
  | deleteRepeated => do
    let (queue, _, repetitions) ←
      queueSelectiveRemove queueDeleteRepeatedNodes true g.queue g.repetitions
    return ({ g with queue, repetitions }, [])
  | pushMissing v i =>
    let missing : Bool := i ∉ v ∧ ∃ node ∈ g.sgxTable[i]?, node.arrivalTime ≠ 0
    .ok ({ g with queue := if missing then queuePush g.queue i else g.queue }, [])

/-- What `poet_unfinished_node` does to the server's state with the record that it was sent. -/
def storeUnfinishedNode : Option Node → Global → Except Abort Global
  | none, g => .ok g
  | some newNode, g =>
    match g.sgxTable[newNode.nodeId]? with
    | none => .ok g
    | some dest => do
      ensure (dest.nodeId = newNode.nodeId) .entryHasNodeId
      ensure (dest.arrivalTime ≠ newNode.arrivalTime ∨ newNode.timeLeft ≤ dest.timeLeft)
        .timeLeftNotIncreased
      if dest.sgxTime = newNode.sgxTime ∧ dest.arrivalTime = newNode.arrivalTime then
        let table := g.sgxTable.set newNode.nodeId { dest with timeLeft := newNode.timeLeft }
        let (queue, _, repetitions) ← queueCleanup table g.queue g.repetitions
        return { g with sgxTable := table, queue := queuePush queue dest.nodeId, repetitions }
      else return g

theorem poetUnfinishedNode_map_g (raw : Json → ℤ) (json : Json) (g : Global) (context : Context) :
    (poetUnfinishedNode raw json g context).map (·.g) =
      jsonToNodeT raw json >>= fun newNode => storeUnfinishedNode newNode g := by
  unfold poetUnfinishedNode
  cases jsonToNodeT raw json with
  | error e => rfl
  | ok newNode =>
    cases newNode with
    | none => rfl
    | some newNode =>
      simp only [Except.ok_bind, storeUnfinishedNode]
      cases g.sgxTable[newNode.nodeId]? with
      | none => rfl
      | some dest =>
        simp only [ensure]
        by_cases hid : dest.nodeId = newNode.nodeId
        · rw [if_pos hid]
          split <;> split <;> try rfl
          cases queueCleanup _ g.queue g.repetitions <;> rfl
        · rw [if_neg hid]
          rfl

/-- What becomes of the state when an operation is done with everything that it puts in its place. -/
def TableOp.whole (g : Global) : TableOp → Except Abort Global
  | insertNode node => insertNodeIntoSgxTableAndQueue node g
  | unfinishedNode newNode => storeUnfinishedNode newNode g
  | cleanup => do
    let (queue, _, repetitions) ← queueCleanup g.sgxTable g.queue g.repetitions
    return { g with queue, repetitions }
  | fill => .ok { g with queue := fillQueue g.sgxTable g.queue }
  | op => (op.step g).map (·.1)

/-- A list of operations is done. -/
def TableOp.wholes (ops : List TableOp) (g : Global) : Except Abort Global :=
  ops.foldlM TableOp.whole g

/-! ## The operations are the functions -/

variable {g g' : Global}

/-- The loop that fills the queue. -/
theorem TableOp.wholes_pushMissing (v l : List ℕ) (g : Global) :
    wholes (l.map (pushMissing v)) g = .ok
      { g with queue := g.queue ++ l.filter fun i =>
          i ∉ v ∧ ∃ node ∈ g.sgxTable[i]?, node.arrivalTime ≠ 0 } := by
  induction l generalizing g with
  | nil => simp [wholes]
  | cons i l ih =>
    rw [List.map_cons, wholes, List.foldlM_cons]
    change wholes _ _ = _
    rw [ih, List.filter_cons]
    split
    · simp [queuePush]
    · rfl

theorem modify_of_getElem? {α : Type*} {l : List α} {i : ℕ} {a : α} (h : l[i]? = some a) (f : α → α) :
    l.modify i f = l.set i (f a) := by
  refine List.ext_getElem? fun j => ?_
  by_cases hj : i = j
  · subst hj
    have hlt := (List.getElem?_eq_some_iff.mp h).1
    rw [List.getElem?_modify_eq, h, List.getElem?_set_self hlt]
    rfl
  · rw [List.getElem?_modify_ne _ _ hj, List.getElem?_set_ne hj]

/-- Its fields stored one after the other, an entry is the one of a node that broadcasts again. -/
theorem modify_updatedEntry {table : List Node} {node n : Node} (h : table[node.nodeId]? = some n) :
    ((((table.modify node.nodeId fun n => { n with sgxTime := node.sgxTime }).modify node.nodeId
      fun n => { n with arrivalTime := node.arrivalTime }).modify node.nodeId
      fun n => { n with timeLeft := node.timeLeft }).modify node.nodeId
      fun n => { n with nLeadership := (n.nLeadership + 1) % uintSize }) =
      table.set node.nodeId (updatedEntry n node) := by
  rw [List.modify_modify_eq, List.modify_modify_eq, List.modify_modify_eq, modify_of_getElem? h]
  rfl

/-- Cleaning up, and filling what is shorter than the table. -/
theorem TableOp.wholes_cleanup_fill (g : Global) :
    wholes [cleanup, fill] g = (do
      let (queue, _, repetitions) ← queueCleanup g.sgxTable g.queue g.repetitions
      return { g with queue := fillQueue g.sgxTable queue, repetitions }) := by
  change (cleanup.whole g >>= fun g => fill.whole g >>= pure) = _
  rw [whole]
  cases queueCleanup g.sgxTable g.queue g.repetitions <;> rfl

theorem TableOp.whole_insertNode {node : Node} {ops : List TableOp}
    (h : (insertNode node).step g = .ok (g', ops)) : (insertNode node).whole g = wholes ops g' := by
  rw [step] at h
  rw [whole, insertNodeIntoSgxTableAndQueue]
  cases hn : g.sgxTable[node.nodeId]? with
  | some n =>
    rw [hn] at h
    obtain ⟨_, hid, h⟩ := Except.bind_eq_ok.mp h
    obtain ⟨_, hleft, h⟩ := Except.bind_eq_ok.mp h
    cases h
    change _ = wholes [cleanup, fill] { g with
      sgxTable := (((g.sgxTable.modify node.nodeId _).modify node.nodeId _).modify node.nodeId _).modify
        node.nodeId _
      queue := queuePush (if ((((g.sgxTable.modify node.nodeId _).modify node.nodeId _).modify
        node.nodeId _).modify node.nodeId _).length ≤ g.queue.length then queuePop g.queue else g.queue)
        node.nodeId }
    rw [wholes_cleanup_fill, modify_updatedEntry hn, List.length_set]
    simp only [hid, hleft, Except.ok_bind, Except.pure_eq_ok]
  | none =>
    rw [hn] at h
    cases h
    change _ = wholes [cleanup, fill]
      { g with sgxTable := g.sgxTable ++ [node], queue := queuePush g.queue node.nodeId }
    rw [wholes_cleanup_fill]
    rfl

theorem TableOp.whole_unfinishedNode {newNode : Option Node} {ops : List TableOp}
    (h : (unfinishedNode newNode).step g = .ok (g', ops)) :
    (unfinishedNode newNode).whole g = wholes ops g' := by
  cases newNode with
  | none =>
    cases h
    rfl
  | some newNode =>
    rw [step] at h
    rw [whole, storeUnfinishedNode]
    split at h
    · cases h
      rfl
    · next dest hdest =>
      obtain ⟨_, hid, h⟩ := Except.bind_eq_ok.mp h
      obtain ⟨_, hleft, h⟩ := Except.bind_eq_ok.mp h
      simp only [hid, hleft, Except.ok_bind]
      split at h
      · next hsame =>
        cases h
        rw [if_pos hsame]
        change _ = cleanup.whole { g with sgxTable := g.sgxTable.modify newNode.nodeId _ } >>= fun g =>
          (push dest.nodeId).whole g >>= pure
        rw [modify_of_getElem? hdest, whole]
        cases queueCleanup _ g.queue g.repetitions <;> rfl
      · next hsame =>
        cases h
        rw [if_neg hsame]
        rfl

theorem TableOp.whole_cleanup (g : Global) :
    cleanup.whole g =
      wholes (if g.sgxTable.isEmpty then [] else [pop, deleteContinuous, deleteRepeated]) g := by
  rw [whole, queueCleanup]
  split
  · rfl
  · change _ = deleteContinuous.whole { g with queue := queuePop g.queue } >>= fun g =>
      deleteRepeated.whole g >>= pure
    simp only [whole, step]
    cases queueSelectiveRemove queueDeleteContinuousNodes true (queuePop g.queue) g.repetitions with
    | error e => rfl
    | ok r =>
      simp only [Except.ok_bind, Except.map, Except.pure_eq_ok]
      cases queueSelectiveRemove queueDeleteRepeatedNodes true r.1 r.2.2 <;> rfl

/-- An operation is what is done at once and then everything that takes its place. -/
theorem TableOp.whole_eq {op : TableOp} {ops : List TableOp} (h : op.step g = .ok (g', ops)) :
    op.whole g = wholes ops g' := by
  cases op with
  | insertNode node => exact whole_insertNode h
  | unfinishedNode newNode => exact whole_unfinishedNode h
  | cleanup =>
    cases h
    exact whole_cleanup g
  | fill =>
    cases h
    rw [whole, fillQueue]
    split
    · exact (wholes_pushMissing ..).symm
    · rfl
  | storeSgxTime | storeArrivalTime | storeTimeLeft | countLeadership | pushBack | popWhenFull | push | pop |
      pushMissing =>
    cases h
    rfl
  | deleteContinuous | deleteRepeated =>
    have hops : ops = [] := by
      obtain ⟨r, hr, h⟩ := Except.bind_eq_ok.mp h
      cases h
      rfl
    subst hops
    exact congrArg (Except.map Prod.fst) h

end PoQ
