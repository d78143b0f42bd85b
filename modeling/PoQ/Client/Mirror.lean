import PoQ.Server.Broadcast

/-!
# The client's copy of the table and the queue

`update_sgx_table_and_queue_from_txt` of `poet_client.cpp`, which replaces the client's table and queue
by those of a notification, and the round trip from the server's state through the text of a
notification to the client's state.
-/

namespace PoQ

/-- A field of a node record is stored and the next one is read, or the reading ends here. -/
def storeField (raw : Json → ℤ) (root : Json) (name : String) (store : ℤ → Node → Node)
    (next : Node → Bool × Node) (node : Node) : Bool × Node :=
  match nodeField raw root name with
  | some value => next (store value node)
  | none => (false, node)

/-- `json_to_node_t` with the record it writes to, which keeps the fields read before a missing one. -/
def jsonToNodeTInto (raw : Json → ℤ) (json : Json) (node : Node) : Except Abort (Bool × Node) :=
  match json with
  | .object _ =>
    .ok <| storeField raw json "node_id" (fun v node => { node with nodeId := toUint v })
      (storeField raw json "sgx_time" (fun v node => { node with sgxTime := toUint v })
      (storeField raw json "n_leadership" (fun v node => { node with nLeadership := toUint v })
      (storeField raw json "time_left"
        (fun v node => { node with timeLeft := toUint (min (node.sgxTime : ℤ) v) })
      (storeField raw json "arrival_time" (fun v node => { node with arrivalTime := toUint v })
      fun node => (true, node))))) node
  | _ => .error .dataIsObject

/-- The variables of the client that a notification changes. -/
structure Mirror where
  sgxTable : List Node
  queue : List ℕ
  nodeCurrentTime : ℤ
deriving DecidableEq, Repr

/-- The loop of `get_sgx_table_from_json`. A record that cannot be read ends it, but is still added. -/
def sgxTableLoop (raw : Json → ℤ) : List Json → List Node → Except Abort (Bool × List Node)
  | [], table => .ok (true, table)
  | jsonNode :: values, table => do
    let (state, node) ← jsonToNodeTInto raw jsonNode ⟨0, 0, 0, 0, 0⟩
    let table := table ++ [node]
    if state then sgxTableLoop raw values table else return (false, table)

/-- `get_sgx_table_from_json`. -/
def getSgxTableFromJson (raw : Json → ℤ) (json : Json) (table : List Node) :
    Except Abort (Bool × List Node) :=
  match findValue json "sgx_table" with
  | some (.array values) => sgxTableLoop raw values []
  | _ => .ok (false, table)

/-- The loop of `get_queue_from_json`. A value that is no integer ends it, but is still pushed. -/
def queueLoop (raw : Json → ℤ) : List Json → List ℕ → Bool × List ℕ
  | [], queue => (true, queue)
  | value :: values, queue =>
    let queue := queue ++ [toUint (value.uInteger raw)]
    match value with
    | .integer _ => queueLoop raw values queue
    | _ => (false, queue)

/-- `get_queue_from_json`. -/
def getQueueFromJson (raw : Json → ℤ) (json : Json) (queue : List ℕ) : Bool × List ℕ :=
  match findValue json "queue" with
  | some (.array values) => queueLoop raw values []
  | _ => (false, queue)

/-- `update_sgx_table_and_queue_from_txt` at the time `now`. -/
def updateSgxTableAndQueueFromTxt {σ : Type} (lib : JsonLibrary σ) (raw : Json → ℤ)
    (now serverStartingTime : ℤ) (buffer : List UInt8) (m : Mirror) : Except Abort (Bool × Mirror) := do
  if ← checkJsonCompliance lib buffer then
    match lib.parse buffer with
    | none => .error .nullPointer
    | some json =>
      let (state, queue) := getQueueFromJson raw json m.queue
      let m := { m with queue }
      if state then
        let (state, sgxTable) ← getSgxTableFromJson raw json m.sgxTable
        let m := { m with sgxTable }
        return if state then (true, { m with nodeCurrentTime := now - serverStartingTime })
          else (false, m)
      else return (false, m)
  else return (false, m)

/-! ## Reading a notification -/

/-- A record is complete in the one version of `json_to_node_t` when it is in the other. -/
theorem jsonToNodeTInto_iff {raw : Json → ℤ} {json : Json} (node : Node) {n : Node} :
    jsonToNodeTInto raw json node = .ok (true, n) ↔ jsonToNodeT raw json = .ok (some n) := by
  cases json with
  | object entries =>
    simp only [jsonToNodeTInto, jsonToNodeT, storeField]
    cases nodeField raw (.object entries) "node_id" <;>
    cases nodeField raw (.object entries) "sgx_time" <;>
    cases nodeField raw (.object entries) "n_leadership" <;>
    cases nodeField raw (.object entries) "time_left" <;>
    cases nodeField raw (.object entries) "arrival_time" <;> simp
  | _ => simp [jsonToNodeTInto, jsonToNodeT]

theorem toUint_max_natCast {n : ℕ} (h : n < uintSize) : toUint (max (n : ℤ) 0) = n := by
  unfold toUint uintSize at *
  omega

theorem jsonToNodeT_nodeJson (raw : Json → ℤ) {node : Node} (h : node.InRange)
    (hleft : node.timeLeft ≤ node.sgxTime) : jsonToNodeT raw (nodeJson node) = .ok (some node) := by
  obtain ⟨h1, h2, h3, h4, h5⟩ := h
  have hid : nodeField raw (nodeJson node) "node_id" = some (max (node.nodeId : ℤ) 0) := rfl
  have hsgx : nodeField raw (nodeJson node) "sgx_time" = some (max (node.sgxTime : ℤ) 0) := rfl
  have hlead : nodeField raw (nodeJson node) "n_leadership" = some (max (node.nLeadership : ℤ) 0) :=
    rfl
  have hlft : nodeField raw (nodeJson node) "time_left" = some (max (node.timeLeft : ℤ) 0) := rfl
  have harr : nodeField raw (nodeJson node) "arrival_time" = some (max (node.arrivalTime : ℤ) 0) :=
    rfl
  have hmin : min (node.sgxTime : ℤ) (max (node.timeLeft : ℤ) 0) = max (node.timeLeft : ℤ) 0 := by
    omega
  change Except.ok _ = _
  simp only [hid, hsgx, hlead, hlft, harr, Option.bind_eq_bind, Option.bind_some, Option.pure_def,
    toUint_max_natCast h1, toUint_max_natCast h2, toUint_max_natCast h3, toUint_max_natCast h4, hmin,
    toUint_max_natCast h5]

theorem findValue_queue (queue : List ℕ) (table : List Node) :
    findValue (notificationJson queue table) "queue" =
      some (.array (queue.map fun u : ℕ => .integer u)) := by
  rfl

theorem findValue_sgxTable (queue : List ℕ) (table : List Node) :
    findValue (notificationJson queue table) "sgx_table" = some (.array (table.map nodeJson)) := by
  rfl

theorem sgxTableLoop_nodeJson (raw : Json → ℤ) {nodes : List Node}
    (h : ∀ node ∈ nodes, node.InRange ∧ node.timeLeft ≤ node.sgxTime) (table : List Node) :
    sgxTableLoop raw (nodes.map nodeJson) table = .ok (true, table ++ nodes) := by
  induction nodes generalizing table with
  | nil => simp [sgxTableLoop]
  | cons node nodes ih =>
    obtain ⟨hrange, hleft⟩ := h node List.mem_cons_self
    have hread := (jsonToNodeTInto_iff ⟨0, 0, 0, 0, 0⟩).mpr (jsonToNodeT_nodeJson raw hrange hleft)
    simp only [List.map_cons, sgxTableLoop, hread, Except.ok_bind, if_true]
    rw [ih fun node hnode => h node (List.mem_cons_of_mem _ hnode)]
    simp

theorem queueLoop_integers (raw : Json → ℤ) {ids : List ℕ} (h : ∀ u ∈ ids, u < uintSize)
    (queue : List ℕ) : queueLoop raw (ids.map fun u : ℕ => .integer u) queue = (true, queue ++ ids) := by
  induction ids generalizing queue with
  | nil => simp [queueLoop]
  | cons u ids ih =>
    have hu : toUint (u : ℤ) = u := by
      have := h u List.mem_cons_self
      unfold toUint uintSize at *
      omega
    simp only [List.map_cons, queueLoop, Json.uInteger, hu]
    rw [ih fun u hu => h u (List.mem_cons_of_mem _ hu)]
    simp

/-- A notification that is read replaces the table and the queue by those printed. -/
theorem updateSgxTableAndQueueFromTxt_eq {σ : Type} {lib : JsonLibrary σ} (hlib : lib.Correct)
    (raw : Json → ℤ) (now serverStartingTime : ℤ) {queue : List ℕ} {table : List Node}
    (htable : ∀ node ∈ table, node.InRange) (hleft : ∀ node ∈ table, node.timeLeft ≤ node.sgxTime)
    (m : Mirror) :
    updateSgxTableAndQueueFromTxt lib raw now serverStartingTime (notificationText queue table) m =
      if notificationLength (printedIds queue table) table < intSize then
        .ok (true, ⟨table, printedIds queue table, now - serverStartingTime⟩)
      else .error .intOverflow := by
  have htext := notificationText_hasText queue htable
  rw [updateSgxTableAndQueueFromTxt, checkJsonCompliance_hasText hlib htext,
    length_notificationText]
  split
  · have hids : ∀ u ∈ printedIds queue table, u < uintSize := by
      intro u hu
      obtain ⟨d, -, hd⟩ := List.mem_filterMap.mp hu
      obtain ⟨node, hnode, rfl⟩ := Option.map_eq_some_iff.mp hd
      exact (htable node (List.mem_of_getElem? hnode)).1
    have hqueue : getQueueFromJson raw (notificationJson (printedIds queue table) table) m.queue =
        (true, printedIds queue table) := by
      rw [getQueueFromJson, findValue_queue]
      exact queueLoop_integers raw hids []
    have hnodes : getSgxTableFromJson raw (notificationJson (printedIds queue table) table)
        m.sgxTable = .ok (true, table) := by
      rw [getSgxTableFromJson, findValue_sgxTable]
      exact sgxTableLoop_nodeJson raw (fun node hnode => ⟨htable node hnode, hleft node hnode⟩) []
    simp only [Except.ok_bind, if_true, hlib.parses htext, hqueue, hnodes, Except.pure_eq_ok]
  · rfl

/-- A notification gives the client the table and the queue of the server exactly when its text is
shorter than 2^31 characters, so that `check_json_compliance` can count its position in it. -/
theorem updateSgxTableAndQueueFromTxt_mirror_iff {σ : Type} {lib : JsonLibrary σ}
    (hlib : lib.Correct) (raw : Json → ℤ) (now serverStartingTime : ℤ) {queue : List ℕ}
    {table : List Node} (hid : IndexedById table) (htable : ∀ node ∈ table, node.InRange)
    (hleft : ∀ node ∈ table, node.timeLeft ≤ node.sgxTime) (hqueue : ∀ u ∈ queue, u < table.length)
    (m : Mirror) :
    (∃ m', updateSgxTableAndQueueFromTxt lib raw now serverStartingTime
        (notificationText queue table) m = .ok (true, m') ∧ m'.sgxTable = table ∧
        m'.queue = queue) ↔
      notificationLength queue table < intSize := by
  rw [updateSgxTableAndQueueFromTxt_eq hlib raw now serverStartingTime htable hleft]
  by_cases hsmall : ∀ u ∈ queue, u < intSize
  · rw [printedIds_eq hid hqueue hsmall]
    split
    · next hlt => exact iff_of_true ⟨_, rfl, rfl, rfl⟩ hlt
    · next hlt => exact iff_of_false (by simp) hlt
  · -- an id that is no `int` stands in a table whose text is too long in any case
    obtain ⟨u, hu, hbig⟩ : ∃ u ∈ queue, intSize ≤ u := by simpa using hsmall
    have hlong := hqueue u hu
    have h1 := length_le_notificationLength (printedIds queue table) table
    have h2 := length_le_notificationLength queue table
    rw [if_neg (by omega)]
    exact iff_of_false (by simp) (by omega)

/-- A table of `n` nodes. -/
def freshNodes (n : ℕ) : List Node := (List.range n).map fun i => ⟨i, 1, 1, 0, 1⟩

theorem mem_freshNodes {n : ℕ} {node : Node} (h : node ∈ freshNodes n) :
    ∃ i < n, node = ⟨i, 1, 1, 0, 1⟩ := by
  obtain ⟨i, hi, rfl⟩ := List.mem_map.mp h
  exact ⟨i, List.mem_range.mp hi, rfl⟩

theorem freshNodes_indexed (n : ℕ) : IndexedById (freshNodes n) := by
  intro i node h
  rw [freshNodes, List.getElem?_map] at h
  obtain ⟨j, hj, rfl⟩ := Option.map_eq_some_iff.mp h
  obtain ⟨hlt, rfl⟩ := List.getElem?_eq_some_iff.mp hj
  simp

theorem freshNodes_inRange {n : ℕ} (hn : n ≤ uintSize) : ∀ node ∈ freshNodes n, node.InRange := by
  intro node h
  obtain ⟨i, hi, rfl⟩ := mem_freshNodes h
  have h0 : 0 < uintSize := by decide
  have h1 : 1 < uintSize := by decide
  exact ⟨hi.trans_le hn, h1, h1, h0, h1⟩

theorem freshNodes_timeLeft (n : ℕ) : ∀ node ∈ freshNodes n, node.timeLeft ≤ node.sgxTime := by
  intro node h
  obtain ⟨i, -, rfl⟩ := mem_freshNodes h
  exact le_rfl

/-- The notification of 2^25 nodes is longer than 2^31 characters. -/
theorem updateSgxTableAndQueueFromTxt_manyNodes :
    readerLibrary.Correct ∧ IndexedById (freshNodes (2 ^ 25)) ∧
      (∀ node ∈ freshNodes (2 ^ 25), node.InRange) ∧
      (∀ node ∈ freshNodes (2 ^ 25), node.timeLeft ≤ node.sgxTime) ∧
      updateSgxTableAndQueueFromTxt readerLibrary (fun _ => 0) 7 0
        (notificationText [] (freshNodes (2 ^ 25))) ⟨[], [], 0⟩ = .error .intOverflow := by
  have hrange := freshNodes_inRange (n := 2 ^ 25) (by decide)
  refine ⟨readerLibrary_correct, freshNodes_indexed _, hrange, freshNodes_timeLeft _, ?_⟩
  rw [updateSgxTableAndQueueFromTxt_eq readerLibrary_correct _ _ _ hrange (freshNodes_timeLeft _)]
  have hlong := length_le_notificationLength (printedIds [] (freshNodes (2 ^ 25))) (freshNodes (2 ^ 25))
  have hlen : (freshNodes (2 ^ 25)).length = 2 ^ 25 := by
    rw [freshNodes, List.length_map, List.length_range]
  rw [hlen] at hlong
  exact if_neg (Nat.not_lt.mpr (le_trans (by decide) hlong))

/-- Two nodes, with the second in front. -/
theorem updateSgxTableAndQueueFromTxt_twoNodes :
    (∃ m', updateSgxTableAndQueueFromTxt readerLibrary (fun _ => 0) 7 0
        (notificationText [1, 0] (freshNodes 2)) ⟨[], [], 0⟩ = .ok (true, m') ∧
          m'.sgxTable = freshNodes 2 ∧ m'.queue = [1, 0]) ↔
      notificationLength [1, 0] (freshNodes 2) < intSize :=
  updateSgxTableAndQueueFromTxt_mirror_iff readerLibrary_correct (fun _ => 0) 7 0
    (freshNodes_indexed 2) (freshNodes_inRange (by decide)) (freshNodes_timeLeft 2) (by decide)
    ⟨[], [], 0⟩

end PoQ
