import PoQ.Client.SgxTime

/-!
# The integers of requests

A JSON integer is a signed 64-bit number. `poet_sgx_time_broadcast` and `process_secondary_node_addition` store
it in a `uint` first, and compare what is left of it with the bounds.
-/

namespace PoQ

/-- What `process_secondary_node_addition` leaves behind: the sockets of the subscribers, what is sent back, and
whether the connection is kept; otherwise it is closed. -/
structure Added where
  secondarySocketComms : ℕ → Option ℕ
  reply : Option Reply
  state : Bool

/-- `process_secondary_node_addition`, for the connection `socket` with the message that it has received. -/
def processSecondaryNodeAddition {σ : Type} (lib : JsonLibrary σ) (received : Option (List UInt8))
    (socket currentId : ℕ) (comms : ℕ → Option ℕ) : Except Abort Added :=
  match received with
  | none => .ok ⟨comms, none, false⟩
  | some buffer => do
    if ← checkJsonCompliance lib buffer then
      match (lib.parse buffer).bind (findValue · "node_id") with
      | some (.integer n) =>
        let nodeId := toUint n
        if currentId ≤ nodeId then return ⟨comms, some .failure, false⟩
        else return ⟨Function.update comms nodeId (some socket), some .success, true⟩
      | _ => return ⟨comms, none, false⟩
    else return ⟨comms, none, false⟩

/-- The request of a subscriber. -/
def nodeIdJson (n : ℤ) : Json := .object [(ascii "node_id", .integer n)]

/-- The integer is an SGX time that the server takes. -/
def Global.InBounds (g : Global) (v : ℤ) : Prop := g.sgxtLowerbound ≤ v ∧ v ≤ g.sgxmax

instance (g : Global) (v : ℤ) : Decidable (g.InBounds v) :=
  inferInstanceAs (Decidable (g.sgxtLowerbound ≤ v ∧ v ≤ g.sgxmax))

/-- The entry at the index of the node, if there is one, is that of the node. -/
def Global.OwnEntry (g : Global) (nodeId : ℕ) : Prop :=
  ∀ entry, g.sgxTable[nodeId]? = some entry → entry.nodeId = nodeId

/-- The node of the connection and the entry at `i` have this SGX time, and as much time left. -/
def Handled.HasTimes (r : Handled) (i : ℕ) (v : ℤ) : Prop :=
  ∃ node entry, r.context.node = some node ∧ r.g.sgxTable[i]? = some entry ∧
    node.sgxTime = v ∧ node.timeLeft = v ∧ entry.sgxTime = v ∧ entry.timeLeft = v

/-- The broadcast of `v` is accepted exactly when `v` is in the bounds, and `v` is stored then. -/
def BroadcastsFullWidth (now : ℤ) (g : Global) (context : Context) (nodeId : ℕ) (v : ℤ) : Prop :=
  ∃ r, poetSgxTimeBroadcast now (sgxtJson v) g context = .ok r ∧
    (r.returned = true ↔ g.InBounds v) ∧
    (r.returned = true → r.HasTimes (min nodeId g.sgxTable.length) v)

/-- The subscriber `v` is accepted exactly when there is such a node. -/
def AddsFullWidth {σ : Type} (lib : JsonLibrary σ) (text : List UInt8) (socket currentId : ℕ)
    (comms : ℕ → Option ℕ) (v : ℤ) : Prop :=
  ∃ r, processSecondaryNodeAddition lib (some text) socket currentId comms = .ok r ∧
    (r.state = true ↔ 0 ≤ v ∧ v < currentId)

theorem toUint_eq_iff {v : ℤ} : (toUint v : ℤ) = v ↔ 0 ≤ v ∧ v < uintSize := by
  unfold toUint uintSize
  omega

/-- It is the remainder of the integer that is compared and stored. -/
theorem announcedTime_sgxtJson_some {g : Global} {v : ℤ} (h : g.InBounds (toUint v)) :
    announcedTime g (sgxtJson v) = some (toUint v) := by
  have hfind : findValue (sgxtJson v) "sgxt" = some (.integer v) := rfl
  have hrange : g.sgxtLowerbound ≤ toUint v ∧ toUint v ≤ g.sgxmax := by
    obtain ⟨hlower, hupper⟩ := h
    omega
  simp only [announcedTime, hfind, if_pos hrange]

theorem announcedTime_sgxtJson_none {g : Global} {v : ℤ} (h : ¬g.InBounds (toUint v)) :
    announcedTime g (sgxtJson v) = none := by
  have hfind : findValue (sgxtJson v) "sgxt" = some (.integer v) := rfl
  have hrange : ¬(g.sgxtLowerbound ≤ toUint v ∧ toUint v ≤ g.sgxmax) := by
    unfold Global.InBounds at h
    omega
  simp only [announcedTime, hfind, if_neg hrange]

/-- The entry of a node that has been inserted. -/
theorem Inserted.getElem?_min {node : Node} {g : Global} {table : List Node} {pushed : List ℕ}
    (h : Inserted node g table pushed) :
    ∃ entry, table[min node.nodeId g.sgxTable.length]? = some entry ∧ entry.sgxTime = node.sgxTime ∧
      entry.timeLeft = node.timeLeft := by
  rcases h with ⟨n, hn, -, -, rfl, -⟩ | ⟨hge, rfl, -⟩
  · have hlt : node.nodeId < g.sgxTable.length := (List.getElem?_eq_some_iff.mp hn).1
    refine ⟨updatedEntry n node, ?_, rfl, rfl⟩
    rw [min_eq_left hlt.le, List.getElem?_set_self hlt]
  · refine ⟨node, ?_, rfl, rfl⟩
    rw [min_eq_right hge, List.getElem?_concat_length]

/-- The assertion on the entry is the only thing that can stop an insertion. -/
theorem exists_inserted_iff {node : Node} {g : Global} (htimes : node.sgxTime = node.timeLeft) :
    (∃ table pushed, Inserted node g table pushed) ↔ g.OwnEntry node.nodeId := by
  constructor
  · rintro ⟨table, pushed, ⟨n, hn, hid, -⟩ | ⟨hge, -⟩⟩ entry hentry
    · cases hn.symm.trans hentry
      exact hid
    · rw [List.getElem?_eq_none hge] at hentry
      cases hentry
  · intro hown
    cases hn : g.sgxTable[node.nodeId]? with
    | some n => exact ⟨_, _, .inl ⟨n, hn, hown n hn, htimes, rfl, rfl⟩⟩
    | none => exact ⟨_, _, .inr ⟨List.getElem?_eq_none_iff.mp hn, rfl, rfl⟩⟩

/-- A remainder in the bounds is stored, unless the assertion on the entry fails. -/
theorem broadcastsFullWidth_of_inBounds {now : ℤ} {g : Global} {context : Context} {node : Node}
    (hnode : context.node = some node) {v : ℤ} (hu : g.InBounds (toUint v)) :
    BroadcastsFullWidth now g context node.nodeId v ↔ toUint v = v ∧ g.OwnEntry node.nodeId := by
  have hsome := announcedTime_sgxtJson_some hu
  let sent : Node := ⟨node.nodeId, toUint (now - g.serverStartingTime), toUint v, 0, toUint v⟩
  rw [← @exists_inserted_iff sent g rfl]
  constructor
  · rintro ⟨r, hr, -, hstored⟩
    obtain ⟨hnone, -⟩ | ⟨sgxt, node', hsgxt, hnode', hins, hreturned, hcontext⟩ :=
      poetSgxTimeBroadcast_cases hr
    · cases hsome.symm.trans hnone
    · cases hsome.symm.trans hsgxt
      cases hnode.symm.trans hnode'
      obtain ⟨sent', entry, hsent, -, htime, -⟩ := hstored hreturned
      rw [hcontext] at hsent
      cases hsent
      obtain ⟨table, pushed, -, hinserted, -⟩ := insertNodeIntoSgxTableAndQueue_cases hins
      exact ⟨htime, table, pushed, hinserted⟩
  · rintro ⟨heq, table, pushed, hinserted⟩
    obtain ⟨repetitions, hins⟩ := insertNodeIntoSgxTableAndQueue_ok hinserted
    obtain ⟨entry, hentry, htime, hleft⟩ := hinserted.getElem?_min
    have hok : poetSgxTimeBroadcast now (sgxtJson v) g context = .ok
        ⟨{ g with sgxTable := table, queue := fillQueue table pushed.tail.dedup, repetitions },
          { context with node := some sent }, some (.broadcasted g.currentId g.nTiers), true⟩ := by
      simp only [poetSgxTimeBroadcast, hsome, hnode]
      rw [hins]
      rfl
    refine ⟨_, hok, iff_of_true rfl (heq ▸ hu), fun _ => ⟨sent, entry, rfl, hentry, heq, heq, ?_, ?_⟩⟩
    · rw [htime]
      exact heq
    · rw [hleft]
      exact heq

/-- Any other is refused. -/
theorem broadcastsFullWidth_of_not_inBounds {now : ℤ} {g : Global} {context : Context} {nodeId : ℕ} {v : ℤ}
    (hu : ¬g.InBounds (toUint v)) : BroadcastsFullWidth now g context nodeId v ↔ ¬g.InBounds v := by
  have hok : poetSgxTimeBroadcast now (sgxtJson v) g context = .ok ⟨g, context, some .failure, false⟩ := by
    simp only [poetSgxTimeBroadcast, announcedTime_sgxtJson_none hu]
  constructor
  · rintro ⟨r, hr, haccepted, -⟩ hv
    cases hok.symm.trans hr
    cases haccepted.mpr hv
  · intro hv
    exact ⟨_, hok, iff_of_false Bool.false_ne_true hv, fun h => absurd h Bool.false_ne_true⟩

/-- A broadcast stores what is left of the integer. -/
theorem broadcastsFullWidth_iff {now : ℤ} {g : Global} {context : Context} {node : Node}
    (hnode : context.node = some node) (v : ℤ) :
    BroadcastsFullWidth now g context node.nodeId v ↔
      (g.InBounds (toUint v) → toUint v = v ∧ g.OwnEntry node.nodeId) ∧
        (¬g.InBounds (toUint v) → ¬g.InBounds v) := by
  by_cases hu : g.InBounds (toUint v)
  · rw [and_iff_left fun h => absurd hu h, forall_prop_of_true hu]
    exact broadcastsFullWidth_of_inBounds hnode hu
  · rw [and_iff_right fun h => absurd h hu, forall_prop_of_true hu]
    exact broadcastsFullWidth_of_not_inBounds hu

/-- A subscriber is found by what is left of the integer. -/
theorem addsFullWidth_iff {σ : Type} {lib : JsonLibrary σ} {text : List UInt8} {v : ℤ}
    (hlib : lib.ReadsAs text (nodeIdJson v)) {currentId : ℕ} (hid : currentId < uintSize) (socket : ℕ)
    (comms : ℕ → Option ℕ) :
    AddsFullWidth lib text socket currentId comms v ↔ toUint v = v ∨ currentId ≤ toUint v := by
  have hfind : (lib.parse text).bind (findValue · "node_id") = some (.integer v) := by
    rw [hlib.parsed]
    rfl
  have hu : 0 ≤ (toUint v : ℤ) := Int.natCast_nonneg _
  have huv := toUint_eq_iff (v := v)
  by_cases hle : currentId ≤ toUint v
  · have hok : processSecondaryNodeAddition lib (some text) socket currentId comms =
        .ok ⟨comms, some .failure, false⟩ := by
      simp only [processSecondaryNodeAddition, hlib.accepted, hfind, Except.ok_bind, if_true, if_pos hle,
        Except.pure_eq_ok]
    refine iff_of_true ⟨_, hok, iff_of_false Bool.false_ne_true ?_⟩ (.inr hle)
    omega
  · have hok : processSecondaryNodeAddition lib (some text) socket currentId comms =
        .ok ⟨Function.update comms (toUint v) (some socket), some .success, true⟩ := by
      simp only [processSecondaryNodeAddition, hlib.accepted, hfind, Except.ok_bind, if_true, if_neg hle,
        Except.pure_eq_ok]
    rw [or_iff_left hle]
    constructor
    · rintro ⟨r, hr, haccepted⟩
      cases hok.symm.trans hr
      have := haccepted.mp rfl
      omega
    · intro heq
      refine ⟨_, hok, iff_of_true rfl ?_⟩
      omega

/-- The integers of both requests are handled at full width exactly when the integer is a `uint`, and the
assertion on the entry holds if the integer is in the bounds; or neither the integer nor its remainder is in
the bounds, and there is no node with the remainder as its id. -/
theorem requests_fullWidth_iff {σ : Type} {lib : JsonLibrary σ} {text : List UInt8} {v : ℤ}
    (hlib : lib.ReadsAs text (nodeIdJson v)) {g : Global} (hid : g.currentId < uintSize) {context : Context}
    {node : Node} (hnode : context.node = some node) (now : ℤ) (socket : ℕ) (comms : ℕ → Option ℕ) :
    BroadcastsFullWidth now g context node.nodeId v ∧
        AddsFullWidth lib text socket g.currentId comms v ↔
      (0 ≤ v ∧ v < uintSize ∧ (g.InBounds v → g.OwnEntry node.nodeId)) ∨
        (¬g.InBounds v ∧ ¬g.InBounds (toUint v) ∧ g.currentId ≤ toUint v) := by
  rw [broadcastsFullWidth_iff hnode, addsFullWidth_iff hlib hid, ← and_assoc, ← toUint_eq_iff]
  constructor
  · rintro ⟨⟨hin, hout⟩, heq | hle⟩
    · exact .inl ⟨heq, fun hv => (hin (heq.symm ▸ hv)).2⟩
    · by_cases hu : g.InBounds (toUint v)
      · exact .inl ⟨(hin hu).1, fun _ => (hin hu).2⟩
      · exact .inr ⟨hout hu, hu, hle⟩
  · rintro (⟨heq, hown⟩ | ⟨hv, hu, hle⟩)
    · rw [heq]
      exact ⟨⟨fun h => ⟨rfl, hown h⟩, id⟩, .inl rfl⟩
    · exact ⟨⟨fun h => absurd h hu, fun _ => hv⟩, .inr hle⟩

/-- A server with the bounds 1 and 10, at which six nodes have registered. -/
def sixRegistered : Global := { Global.initial 0 1 10 2 with currentId := 6 }

/-- The text of a request for the node 5. -/
theorem readerLibrary_readsAs_five :
    readerLibrary.ReadsAs (ascii "\x7b\"node_id\": 5\x7d") (nodeIdJson 5) :=
  ⟨by decide, rfl⟩

theorem requests_fullWidth_five :
    BroadcastsFullWidth 7 sixRegistered ⟨some ⟨5, 0, 0, 0, 0⟩, false⟩ 5 5 ∧
      AddsFullWidth readerLibrary (ascii "\x7b\"node_id\": 5\x7d") 8 6 (fun _ => none) 5 := by
  have hnode : (⟨some ⟨5, 0, 0, 0, 0⟩, false⟩ : Context).node = some ⟨5, 0, 0, 0, 0⟩ := rfl
  have hid : sixRegistered.currentId < uintSize := by decide
  refine (requests_fullWidth_iff readerLibrary_readsAs_five hid hnode 7 8 fun _ => none).mpr
    (.inl ⟨by decide, by decide, fun _ entry hentry => ?_⟩)
  cases hentry

/-- 5 more than `2 ^ 32` is taken for 5 by both. -/
theorem not_requests_fullWidth :
    readerLibrary.ReadsAs (ascii "\x7b\"node_id\": 4294967301\x7d") (nodeIdJson 4294967301) ∧
      ¬BroadcastsFullWidth 7 sixRegistered ⟨some ⟨5, 0, 0, 0, 0⟩, false⟩ 5 4294967301 ∧
      ¬AddsFullWidth readerLibrary (ascii "\x7b\"node_id\": 4294967301\x7d") 8 6 (fun _ => none)
        4294967301 := by
  have hlib : readerLibrary.ReadsAs (ascii "\x7b\"node_id\": 4294967301\x7d") (nodeIdJson 4294967301) :=
    ⟨by decide, rfl⟩
  have hu : toUint 4294967301 = 5 := by decide
  refine ⟨hlib, ?_, ?_⟩
  · have hnode : (⟨some ⟨5, 0, 0, 0, 0⟩, false⟩ : Context).node = some ⟨5, 0, 0, 0, 0⟩ := rfl
    rw [broadcastsFullWidth_iff hnode, hu]
    intro h
    exact absurd (h.1 (by decide)).1 (by decide)
  · rw [addsFullWidth_iff hlib (by decide), hu]
    decide

end PoQ
