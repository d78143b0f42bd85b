import PoQ.Json
import PoQ.Queue

/-!
# The requests that change the server's state

`poet_register`, `poet_sgx_time_broadcast` and `poet_unfinished_node` of `poet_server_functions.cpp`
with the functions they call. A request is handled as a whole: the locks on the table and the queue are
taken to be granted, and memory allocation to succeed. The two timed locks of `poet_register` may fail.
-/

namespace PoQ

open CString

/-- `struct global` with the variables of `poet_server_functions.cpp`. -/
structure Global where
  serverStartingTime : ℤ
  currentId : ℕ
  sgxtLowerbound : ℕ
  sgxmax : ℕ
  nTiers : ℕ
  queue : List ℕ
  sgxTable : List Node
  publicKeys : List (List UInt8 × ℕ)
  repetitions : Repetitions

/-- The server before the first request. -/
def Global.initial (serverStartingTime : ℤ) (sgxtLowerbound sgxmax nTiers : ℕ) : Global :=
  { serverStartingTime, sgxtLowerbound, sgxmax, nTiers, currentId := 0, queue := [], sgxTable := [],
    publicKeys := [], repetitions := ⟨0, fun _ => 0⟩ }

/-- `poet_context` of a connection, with the flag of its socket. -/
structure Context where
  node : Option Node
  isClosed : Bool
deriving DecidableEq, Repr

/-- A connection that has just been accepted. -/
def Context.fresh : Context := ⟨none, false⟩

/-- What is sent back to the client. -/
inductive Reply
  | registered (sgxmax sgxtLower nodeId nTiers : ℕ) (serverStartingTime : ℤ)
  | broadcasted (nNodes nTiers : ℕ)
  | data (text : List UInt8)
  | success
  | failure
deriving DecidableEq, Repr

/-- What a handler leaves behind. -/
structure Handled where
  g : Global
  context : Context
  reply : Option Reply
  returned : Bool

/-! ## Registration -/

/-- `PUBLIC_KEY_SIZE` and `SIGNATURE_SIZE`. -/
def keySize : ℕ := 32

/-- A key or a signature is decoded and copied: whether it has the right size, and its bytes. The copy
is made also when the size is wrong. -/
def decodeKey (text : List UInt8) : Except Abort (Bool × List UInt8) :=
  match decode64base text with
  | none => .error .nullPointer
  | some decoded => do
    ensure (keySize ≤ decoded.allocated) .outOfRange
    return (decoded.bytes.length = keySize, decoded.bytes)

/-- The loops that look for a byte that is not zero. -/
def checkNonzero (valid : Bool) (bytes : List UInt8) : Bool :=
  bytes.foldl (fun valid b => if valid then valid || b ≠ 0 else valid) valid

/-- `check_public_key_and_signature_registration`: the result, and the node of the context, whose id
becomes that of the key when the key is known. -/
def checkPublicKeyAndSignatureRegistration (locked : Bool) (publicKeys : List (List UInt8 × ℕ))
    (pkStr signStr : List UInt8) (node : Node) : Except Abort (Bool × Node) :=
  if ¬locked then .ok (false, node)
  else do
    let node := match publicKeys.lookup pkStr with
      | some nodeId => { node with nodeId }
      | none => node
    let (valid, pk) ← decodeKey pkStr
    let (valid, sign) ← if valid then decodeKey signStr else pure (false, [])
    return (checkNonzero (checkNonzero valid pk) sign, node)

/-- `public_keys.insert`, which keeps the entry of a known key. -/
def insertPublicKey (publicKeys : List (List UInt8 × ℕ)) (pkStr : List UInt8) (nodeId : ℕ) :
    List (List UInt8 × ℕ) :=
  if (publicKeys.lookup pkStr).isSome then publicKeys else publicKeys ++ [(pkStr, nodeId)]

/-- `poet_register`. `keysLocked` and `idsLocked` are the outcomes of its two timed locks. -/
def poetRegister (keysLocked idsLocked : Bool) (json : Json) (g : Global) (context : Context) :
    Except Abort Handled :=
  let node := context.node.getD ⟨0, 0, 0, 0, 0⟩
  match findValue json "public_key", findValue json "signature" with
  | some (.string pk64base), some (.string sign64base) => do
    let pkStr := cstr pk64base
    let (valid, node) ←
      checkPublicKeyAndSignatureRegistration keysLocked g.publicKeys pkStr (cstr sign64base) node
    if valid then
      let (g, node) := if idsLocked then
          ({ g with
              currentId := (g.currentId + 1) % uintSize
              publicKeys := insertPublicKey g.publicKeys pkStr g.currentId },
            { node with nodeId := g.currentId })
        else (g, node)
      return {
        g
        context := { context with node := some node }
        reply := some <|
          .registered g.sgxmax g.sgxtLowerbound node.nodeId g.nTiers g.serverStartingTime
        returned := true }
    else
      return ⟨g, ⟨some node, true⟩, none, false⟩
  -- a missing text closes the socket too, but is not reported as a failure
  | _, _ => .ok ⟨g, ⟨some node, true⟩, none, true⟩

/-! ## Broadcasts -/

/-- The entry of a node that broadcasts again. -/
def updatedEntry (n node : Node) : Node :=
  { n with
    sgxTime := node.sgxTime
    arrivalTime := node.arrivalTime
    timeLeft := node.timeLeft
    nLeadership := (n.nLeadership + 1) % uintSize }

/-- A queue that is shorter than the table is filled with the missing ids of nodes that have
arrived. -/
def fillQueue (table : List Node) (queue : List ℕ) : List ℕ :=
  if queue.length < table.length then
    queue ++ (List.range table.length).filter fun i =>
      i ∉ queue ∧ ∃ node ∈ table[i]?, node.arrivalTime ≠ 0
  else queue

/-- `insert_node_into_sgx_table_and_queue`. -/
def insertNodeIntoSgxTableAndQueue (node : Node) (g : Global) : Except Abort Global := do
  let (table, queue) ← match g.sgxTable[node.nodeId]? with
    | some n => do
      ensure (n.nodeId = node.nodeId) .entryHasNodeId
      ensure (node.sgxTime = node.timeLeft) .sgxTimeIsTimeLeft
      let queue := if g.sgxTable.length ≤ g.queue.length then queuePop g.queue else g.queue
      pure (g.sgxTable.set node.nodeId (updatedEntry n node), queuePush queue node.nodeId)
    | none => pure (g.sgxTable ++ [node], queuePush g.queue node.nodeId)
  let (queue, _, repetitions) ← queueCleanup table queue g.repetitions
  return { g with sgxTable := table, queue := fillQueue table queue, repetitions }

/-- The time announced by a broadcast, when it is valid. -/
def announcedTime (g : Global) (json : Json) : Option ℕ :=
  match findValue json "sgxt" with
  | some (.integer n) =>
    let sgxt := toUint n
    if g.sgxtLowerbound ≤ sgxt ∧ sgxt ≤ g.sgxmax then some sgxt else none
  | _ => none

/-- `poet_sgx_time_broadcast` at the time `now`. -/
def poetSgxTimeBroadcast (now : ℤ) (json : Json) (g : Global) (context : Context) :
    Except Abort Handled :=
  match announcedTime g json with
  | none => .ok ⟨g, context, some .failure, false⟩
  | some sgxt =>
    match context.node with
    | none => .error .nullPointer
    | some node => do
      let node := { node with
        arrivalTime := toUint (now - g.serverStartingTime)
        nLeadership := 0
        sgxTime := sgxt
        timeLeft := sgxt }
      let g ← insertNodeIntoSgxTableAndQueue node g
      return ⟨g, { context with node := some node }, some (.broadcasted g.currentId g.nTiers), true⟩

/-! ## Unfinished nodes -/

/-- `poet_unfinished_node`. -/
def poetUnfinishedNode (raw : Json → ℤ) (json : Json) (g : Global) (context : Context) :
    Except Abort Handled := do
  let failure : Handled := ⟨g, context, some .failure, false⟩
  match ← jsonToNodeT raw json with
  | none => return failure
  | some newNode =>
    match g.sgxTable[newNode.nodeId]? with
    | none => return failure
    | some dest =>
      ensure (dest.nodeId = newNode.nodeId) .entryHasNodeId
      ensure (dest.arrivalTime ≠ newNode.arrivalTime ∨ newNode.timeLeft ≤ dest.timeLeft)
        .timeLeftNotIncreased
      if dest.sgxTime = newNode.sgxTime ∧ dest.arrivalTime = newNode.arrivalTime then
        let table := g.sgxTable.set newNode.nodeId { dest with timeLeft := newNode.timeLeft }
        let (queue, _, repetitions) ← queueCleanup table g.queue g.repetitions
        let g := { g with sgxTable := table, queue := queuePush queue dest.nodeId, repetitions }
        return ⟨g, context, some .success, true⟩
      else return failure

/-! ## What the requests can do -/

/-- Registration leaves the table and the queue alone. -/
theorem poetRegister_frame {keysLocked idsLocked : Bool} {json : Json} {g : Global}
    {context : Context} {r : Handled}
    (h : poetRegister keysLocked idsLocked json g context = .ok r) :
    r.g.sgxTable = g.sgxTable ∧ r.g.queue = g.queue := by
  unfold poetRegister at h
  split at h
  · obtain ⟨⟨valid, node⟩, -, h⟩ := Except.bind_eq_ok.mp h
    simp only at h
    split at h
    · cases idsLocked <;> cases h <;> exact ⟨rfl, rfl⟩
    · cases h
      exact ⟨rfl, rfl⟩
  · cases h
    exact ⟨rfl, rfl⟩

/-- The table and the pushed queue of a broadcast, before the queue is cleaned up. -/
def Inserted (node : Node) (g : Global) (table : List Node) (pushed : List ℕ) : Prop :=
  (∃ n, g.sgxTable[node.nodeId]? = some n ∧ n.nodeId = node.nodeId ∧ node.sgxTime = node.timeLeft ∧
    table = g.sgxTable.set node.nodeId (updatedEntry n node) ∧
    pushed = (if g.sgxTable.length ≤ g.queue.length then g.queue.tail else g.queue) ++
      [node.nodeId]) ∨
  (g.sgxTable.length ≤ node.nodeId ∧ table = g.sgxTable ++ [node] ∧
    pushed = g.queue ++ [node.nodeId])

theorem Inserted.table_ne_nil {node : Node} {g : Global} {table : List Node} {pushed : List ℕ}
    (h : Inserted node g table pushed) : table ≠ [] := by
  rcases h with ⟨n, hn, -, -, rfl, -⟩ | ⟨-, rfl, -⟩
  · have := List.mem_of_getElem? hn
    simpa using List.ne_nil_of_mem this
  · simp

/-- A broadcast returns when its two assertions hold, and then cleans up and fills the queue. -/
theorem insertNodeIntoSgxTableAndQueue_ok {node : Node} {g : Global} {table : List Node}
    {pushed : List ℕ} (h : Inserted node g table pushed) :
    ∃ repetitions, insertNodeIntoSgxTableAndQueue node g =
      .ok { g with sgxTable := table, queue := fillQueue table pushed.tail.dedup, repetitions } := by
  obtain ⟨deleted, repetitions, hclean, -⟩ := queueCleanup_ok h.table_ne_nil pushed g.repetitions
  refine ⟨repetitions, ?_⟩
  rcases h with ⟨n, hn, hid, hleft, rfl, rfl⟩ | ⟨hn, rfl, rfl⟩
  · simp only [insertNodeIntoSgxTableAndQueue, hn, ensure_of hid, ensure_of hleft, Except.ok_bind,
      Except.pure_eq_ok, queuePop, queuePush, hclean]
  · simp only [insertNodeIntoSgxTableAndQueue, List.getElem?_eq_none hn, Except.ok_bind,
      Except.pure_eq_ok, queuePush, hclean]

theorem insertNodeIntoSgxTableAndQueue_cases {node : Node} {g g' : Global}
    (h : insertNodeIntoSgxTableAndQueue node g = .ok g') :
    ∃ table pushed repetitions, Inserted node g table pushed ∧
      g' = { g with sgxTable := table, queue := fillQueue table pushed.tail.dedup, repetitions } := by
  obtain ⟨table, pushed, hins⟩ : ∃ table pushed, Inserted node g table pushed := by
    cases hn : g.sgxTable[node.nodeId]? with
    | none => exact ⟨_, _, .inr ⟨List.getElem?_eq_none_iff.mp hn, rfl, rfl⟩⟩
    | some n =>
      rw [insertNodeIntoSgxTableAndQueue, hn] at h
      obtain ⟨_, hid, h⟩ := Except.bind_eq_ok.mp h
      obtain ⟨_, hleft, -⟩ := Except.bind_eq_ok.mp h
      exact ⟨_, _, .inl ⟨n, hn, ensure_eq_ok.mp hid, ensure_eq_ok.mp hleft, rfl, rfl⟩⟩
  obtain ⟨repetitions, hok⟩ := insertNodeIntoSgxTableAndQueue_ok hins
  rw [hok] at h
  exact ⟨table, pushed, repetitions, hins, (Except.ok.inj h).symm⟩

/-- A broadcast is refused and changes nothing, or inserts the node of the connection with the
announced time. -/
theorem poetSgxTimeBroadcast_cases {now : ℤ} {json : Json} {g : Global} {context : Context}
    {r : Handled} (h : poetSgxTimeBroadcast now json g context = .ok r) :
    announcedTime g json = none ∧ r = ⟨g, context, some .failure, false⟩ ∨
      ∃ sgxt node, announcedTime g json = some sgxt ∧ context.node = some node ∧
        insertNodeIntoSgxTableAndQueue
          ⟨node.nodeId, toUint (now - g.serverStartingTime), sgxt, 0, sgxt⟩ g = .ok r.g ∧
        r.returned = true ∧
        r.context =
          ⟨some ⟨node.nodeId, toUint (now - g.serverStartingTime), sgxt, 0, sgxt⟩,
            context.isClosed⟩ := by
  unfold poetSgxTimeBroadcast at h
  split at h
  · next hnone =>
    cases h
    exact .inl ⟨hnone, rfl⟩
  · next sgxt hsome =>
    split at h
    · cases h
    · next node hnode =>
      obtain ⟨g', hins, h⟩ := Except.bind_eq_ok.mp h
      cases h
      exact .inr ⟨sgxt, node, hsome, hnode, hins, rfl, rfl⟩

/-- An unfinished node is refused and nothing changes, or its time left is stored and it goes to the
end of the cleaned up queue. -/
theorem poetUnfinishedNode_cases {raw : Json → ℤ} {json : Json} {g : Global} {context : Context}
    {r : Handled} (h : poetUnfinishedNode raw json g context = .ok r) :
    r = ⟨g, context, some .failure, false⟩ ∨
      ∃ newNode dest repetitions, jsonToNodeT raw json = .ok (some newNode) ∧
        g.sgxTable[newNode.nodeId]? = some dest ∧ dest.nodeId = newNode.nodeId ∧
        dest.sgxTime = newNode.sgxTime ∧ dest.arrivalTime = newNode.arrivalTime ∧
        newNode.timeLeft ≤ dest.timeLeft ∧
        r = ⟨{ g with
                sgxTable := g.sgxTable.set newNode.nodeId { dest with timeLeft := newNode.timeLeft }
                queue := g.queue.tail.dedup ++ [newNode.nodeId]
                repetitions },
              context, some .success, true⟩ := by
  unfold poetUnfinishedNode at h
  obtain ⟨newNode, hjson, h⟩ := Except.bind_eq_ok.mp h
  cases newNode with
  | none =>
    cases h
    exact .inl rfl
  | some newNode =>
    simp only at h
    split at h
    · cases h
      exact .inl rfl
    · next dest hdest =>
      obtain ⟨_, hid, h⟩ := Except.bind_eq_ok.mp h
      obtain ⟨_, hleft, h⟩ := Except.bind_eq_ok.mp h
      rw [ensure_eq_ok] at hid hleft
      split at h
      · next hsame =>
        have htable : g.sgxTable.set newNode.nodeId { dest with timeLeft := newNode.timeLeft } ≠
            [] := by
          simpa using List.ne_nil_of_mem (List.mem_of_getElem? hdest)
        obtain ⟨deleted, repetitions, hclean, -⟩ := queueCleanup_ok htable g.queue g.repetitions
        rw [hclean] at h
        cases h
        have hle := hleft.resolve_left (not_not.mpr hsame.2)
        refine .inr ⟨newNode, dest, repetitions, hjson, hdest, hid, hsame.1, hsame.2, hle, ?_⟩
        rw [queuePush, hid]
      · cases h
        exact .inl rfl

/-- `dest` is the entry of the record, and the record is accepted for it. -/
structure UnfinishedEntry (g : Global) (newNode dest : Node) : Prop where
  entry : g.sgxTable[newNode.nodeId]? = some dest
  nodeId : dest.nodeId = newNode.nodeId
  sgxTime : dest.sgxTime = newNode.sgxTime
  arrivalTime : dest.arrivalTime = newNode.arrivalTime
  timeLeft : newNode.timeLeft ≤ dest.timeLeft

theorem poetUnfinishedNode_ok {raw : Json → ℤ} {json : Json} {g : Global} {newNode dest : Node}
    (hjson : jsonToNodeT raw json = .ok (some newNode)) (h : UnfinishedEntry g newNode dest)
    (context : Context) :
    ∃ repetitions, poetUnfinishedNode raw json g context = .ok
      ⟨{ g with
          sgxTable := g.sgxTable.set newNode.nodeId { dest with timeLeft := newNode.timeLeft }
          queue := g.queue.tail.dedup ++ [newNode.nodeId]
          repetitions },
        context, some .success, true⟩ := by
  have htable : g.sgxTable.set newNode.nodeId { dest with timeLeft := newNode.timeLeft } ≠ [] := by
    simpa using List.ne_nil_of_mem (List.mem_of_getElem? h.entry)
  obtain ⟨deleted, repetitions, hclean, -⟩ := queueCleanup_ok htable g.queue g.repetitions
  refine ⟨repetitions, ?_⟩
  have hleft : dest.arrivalTime ≠ newNode.arrivalTime ∨ newNode.timeLeft ≤ dest.timeLeft :=
    .inr h.timeLeft
  have hsame : dest.sgxTime = newNode.sgxTime ∧ dest.arrivalTime = newNode.arrivalTime :=
    ⟨h.sgxTime, h.arrivalTime⟩
  simp only [poetUnfinishedNode, hjson, h.entry, ensure_of h.nodeId, ensure_of hleft, if_pos hsame,
    hclean, Except.ok_bind, Except.pure_eq_ok, queuePush]
  rw [h.nodeId]

end PoQ
