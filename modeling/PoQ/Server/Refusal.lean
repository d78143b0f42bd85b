import PoQ.Server.Session

/-!
# Refused requests

A handler refuses a request by a reply with the status failure, or by returning false, which ends the
connection. What it refuses leaves the table, the queue, the next id and the keys alone. An unfinished
node is refused in this way only after two assertions on what the client has sent.
-/

namespace PoQ

/-- What the requests of all connections share. -/
structure Global.SameShared (g g' : Global) : Prop where
  sgxTable : g'.sgxTable = g.sgxTable
  queue : g'.queue = g.queue
  currentId : g'.currentId = g.currentId
  publicKeys : g'.publicKeys = g.publicKeys

theorem Global.SameShared.refl (g : Global) : g.SameShared g := ⟨rfl, rfl, rfl, rfl⟩

/-- The handler has answered with a failure or has returned false. -/
def Handled.Refused (r : Handled) : Prop := r.reply = some .failure ∨ r.returned = false

theorem Handled.refused_send {delivery : Delivery} {r : Handled} (h : (r.send delivery).Refused) :
    r.Refused := by
  unfold Handled.send at h
  split at h <;> exact h

/-- A registration is refused before it takes an id or stores a key. -/
theorem poetRegister_of_refused {keysLocked idsLocked : Bool} {json : Json} {g : Global}
    {context : Context} {r : Handled} (h : poetRegister keysLocked idsLocked json g context = .ok r)
    (hr : r.Refused) : g.SameShared r.g := by
  unfold poetRegister at h
  split at h
  · obtain ⟨⟨valid, node⟩, -, h⟩ := Except.bind_eq_ok.mp h
    simp only at h
    split at h
    · cases h
      rcases hr with hr | hr <;> cases hr
    · cases h
      exact .refl g
  · cases h
    exact .refl g

theorem poetSgxTimeBroadcast_of_refused {now : ℤ} {json : Json} {g : Global} {context : Context}
    {r : Handled} (h : poetSgxTimeBroadcast now json g context = .ok r) (hr : r.Refused) :
    g.SameShared r.g := by
  unfold poetSgxTimeBroadcast at h
  split at h
  · cases h
    exact .refl g
  · split at h
    · cases h
    · obtain ⟨g', -, h⟩ := Except.bind_eq_ok.mp h
      cases h
      rcases hr with hr | hr <;> cases hr

theorem poetUnfinishedNode_of_refused {raw : Json → ℤ} {json : Json} {g : Global} {context : Context}
    {r : Handled} (h : poetUnfinishedNode raw json g context = .ok r) (hr : r.Refused) :
    g.SameShared r.g := by
  obtain rfl | ⟨newNode, dest, repetitions, -, -, -, -, -, -, rfl⟩ := poetUnfinishedNode_cases h
  · exact .refl g
  · rcases hr with hr | hr <;> cases hr

/-- Every handler that refuses a request leaves what is shared as it was. -/
theorem PoetFunction.function_of_refused {i : PoetFunction} {raw : Json → ℤ} {env : Surroundings}
    {json : Json} {g : Global} {context : Context} {r : Handled}
    (h : i.function raw env json g context = .ok r) (hr : r.Refused) : g.SameShared r.g := by
  cases i with
  | register =>
    obtain ⟨r', hr', rfl⟩ := Except.map_eq_ok.mp h
    rw [Handled.send_g]
    exact poetRegister_of_refused hr' (Handled.refused_send hr)
  | sgxTimeBroadcast =>
    obtain ⟨r', hr', rfl⟩ := Except.map_eq_ok.mp h
    rw [Handled.send_g]
    exact poetSgxTimeBroadcast_of_refused hr' (Handled.refused_send hr)
  | unfinishedNode =>
    obtain ⟨r', hr', rfl⟩ := Except.map_eq_ok.mp h
    rw [Handled.send_g]
    exact poetUnfinishedNode_of_refused hr' (Handled.refused_send hr)
  | getSgxtableAndQueue =>
    cases h
    unfold poetGetSgxtableAndQueue
    split <;> exact .refl g
  | remoteAttestation | getSgxtable | getQueue | closeConnection =>
    cases h
    exact .refl g

/-- Whatever the message and the state: a message that is refused, by the dispatcher or by its handler,
changes nothing that the connections share. -/
theorem delegateMessage_of_refused {σ : Type} {lib : JsonLibrary σ} {raw : Json → ℤ}
    {env : Surroundings} {buffer : List UInt8} {g : Global} {context : Context} {r : Handled}
    (h : delegateMessage lib raw env buffer g context = .ok r)
    (hr : r.reply = some .failure ∨ r.returned = false) :
    r.g.sgxTable = g.sgxTable ∧ r.g.queue = g.queue ∧ r.g.currentId = g.currentId ∧
      r.g.publicKeys = g.publicKeys := by
  have hsame : g.SameShared r.g := by
    cases hmsg : acceptedMessage lib buffer with
    | none =>
      rw [delegateMessage_of_not_accepted hmsg h]
      exact .refl g
    | some p =>
      obtain ⟨i, data⟩ := p
      rw [delegateMessage_of_accepted hmsg] at h
      exact PoetFunction.function_of_refused h hr
  exact ⟨hsame.sgxTable, hsame.queue, hsame.currentId, hsame.publicKeys⟩

/-- A server with one node that waits in the queue. -/
def oneNodeWaiting : Global :=
  { Global.initial 0 1 10 2 with
    currentId := 1, queue := [0], sgxTable := [⟨0, 7, 6, 0, 4⟩], publicKeys := [(ascii keyA, 0)] }

/-- The node announces a time that is too long. -/
theorem delegateMessage_of_refused_tooLong :
    ∃ r, delegateMessage readerLibrary (fun _ => 0) ⟨true, true, true, 9, .delivered⟩
        (broadcastText 11) oneNodeWaiting ⟨some ⟨0, 7, 6, 0, 6⟩, false⟩ = .ok r ∧
      r.g.sgxTable = [⟨0, 7, 6, 0, 4⟩] ∧ r.g.queue = [0] ∧ r.g.currentId = 1 ∧
      r.g.publicKeys = [(ascii keyA, 0)] := by
  have hrun : (delegateMessage readerLibrary (fun _ => 0) ⟨true, true, true, 9, .delivered⟩
      (broadcastText 11) oneNodeWaiting ⟨some ⟨0, 7, 6, 0, 6⟩, false⟩).map
        (fun r => r.reply) = .ok (some .failure) := by
    decide +kernel
  obtain ⟨r, hr, hreply⟩ := Except.map_eq_ok.mp hrun
  exact ⟨r, hr, delegateMessage_of_refused hr (.inl hreply)⟩

/-! ## Unfinished nodes -/

section

variable (raw : Json → ℤ) (json : Json) (g : Global)

/-- The data of an unfinished node that are to be refused: no object, an object in which a field is
missing, or a record for an id that is not in the table or with more time left than is stored. -/
inductive Unsuitable : Prop
  | noObject : (∀ entries, json ≠ .object entries) → Unsuitable
  | missingField : jsonToNodeT raw json = .ok none → Unsuitable
  | unknownId {newNode : Node} : jsonToNodeT raw json = .ok (some newNode) →
      g.sgxTable[newNode.nodeId]? = none → Unsuitable
  | moreTimeLeft {newNode dest : Node} : jsonToNodeT raw json = .ok (some newNode) →
      g.sgxTable[newNode.nodeId]? = some dest → dest.timeLeft < newNode.timeLeft → Unsuitable

/-- `poet_unfinished_node` replies, and what is unsuitable it answers with a failure. -/
def RepliesToUnfinished (context : Context) : Prop :=
  ∃ r, poetUnfinishedNode raw json g context = .ok r ∧
    (r.reply = some .success ∨ r.reply = some .failure) ∧
    (Unsuitable raw json g → r.reply = some .failure)

/-- The data are an object, and not a record with the arrival time of its entry and more time left. -/
structure PassesAssertions : Prop where
  isObject : ∃ entries, json = .object entries
  timeLeft : ∀ newNode dest, jsonToNodeT raw json = .ok (some newNode) →
    g.sgxTable[newNode.nodeId]? = some dest → dest.arrivalTime = newNode.arrivalTime →
    newNode.timeLeft ≤ dest.timeLeft

end

section

variable {raw : Json → ℤ} {json : Json} {g : Global} {context : Context}

theorem jsonToNodeT_of_object {entries : List (List UInt8 × Json)} (h : json = .object entries) :
    ∃ o, jsonToNodeT raw json = .ok o := by
  subst h
  exact ⟨_, rfl⟩

/-- Data that are no object end the server. -/
theorem isObject_of_poetUnfinishedNode_ok {r : Handled}
    (h : poetUnfinishedNode raw json g context = .ok r) : ∃ entries, json = .object entries := by
  obtain ⟨o, ho, -⟩ := Except.bind_eq_ok.mp h
  unfold jsonToNodeT at ho
  split at ho
  · exact ⟨_, rfl⟩
  · cases ho

theorem timeLeft_le_of_poetUnfinishedNode_ok {r : Handled}
    (h : poetUnfinishedNode raw json g context = .ok r) {newNode dest : Node}
    (hjson : jsonToNodeT raw json = .ok (some newNode))
    (hdest : g.sgxTable[newNode.nodeId]? = some dest)
    (harrival : dest.arrivalTime = newNode.arrivalTime) : newNode.timeLeft ≤ dest.timeLeft := by
  simp only [poetUnfinishedNode, hjson, Except.ok_bind, hdest] at h
  obtain ⟨_, -, h⟩ := Except.bind_eq_ok.mp h
  obtain ⟨_, hleft, -⟩ := Except.bind_eq_ok.mp h
  exact (ensure_eq_ok.mp hleft).resolve_left (not_not.mpr harrival)

/-- Data without a record, or with a record that does not fit its entry, are refused. -/
theorem PassesAssertions.poetUnfinishedNode_ok (h : PassesAssertions raw json g)
    (hid : IndexedById g.sgxTable) (context : Context) :
    (∃ newNode dest, jsonToNodeT raw json = .ok (some newNode) ∧ UnfinishedEntry g newNode dest) ∨
      poetUnfinishedNode raw json g context = .ok ⟨g, context, some .failure, false⟩ := by
  obtain ⟨entries, hobject⟩ := h.isObject
  obtain ⟨o, ho⟩ : ∃ o, jsonToNodeT raw json = .ok o := jsonToNodeT_of_object hobject
  cases o with
  | none =>
    refine .inr ?_
    simp only [poetUnfinishedNode, ho, Except.ok_bind, Except.pure_eq_ok]
  | some newNode =>
    cases hdest : g.sgxTable[newNode.nodeId]? with
    | none =>
      refine .inr ?_
      simp only [poetUnfinishedNode, ho, hdest, Except.ok_bind, Except.pure_eq_ok]
    | some dest =>
      have hnodeId := hid newNode.nodeId dest hdest
      have hleft := h.timeLeft newNode dest ho hdest
      by_cases hsame : dest.sgxTime = newNode.sgxTime ∧ dest.arrivalTime = newNode.arrivalTime
      · exact .inl ⟨newNode, dest, ho, hdest, hnodeId, hsame.1, hsame.2, hleft hsame.2⟩
      · refine .inr ?_
        have hassert : dest.arrivalTime ≠ newNode.arrivalTime ∨ newNode.timeLeft ≤ dest.timeLeft :=
          Decidable.not_or_of_imp hleft
        simp only [poetUnfinishedNode, ho, hdest, ensure_of hnodeId, ensure_of hassert, if_neg hsame,
          Except.ok_bind, Except.pure_eq_ok]

/-- A record that fits its entry is suitable. -/
theorem UnfinishedEntry.not_unsuitable {newNode dest : Node} (h : UnfinishedEntry g newNode dest)
    (hjson : jsonToNodeT raw json = .ok (some newNode)) : ¬Unsuitable raw json g := by
  intro hunsuitable
  cases hunsuitable with
  | noObject hno =>
    unfold jsonToNodeT at hjson
    split at hjson
    · exact hno _ rfl
    · cases hjson
  | missingField hnone =>
    rw [hjson] at hnone
    cases hnone
  | unknownId hjson' hnone =>
    cases hjson.symm.trans hjson'
    cases h.entry.symm.trans hnone
  | moreTimeLeft hjson' hdest' hlt =>
    cases hjson.symm.trans hjson'
    cases h.entry.symm.trans hdest'
    exact absurd h.timeLeft (Nat.not_le.mpr hlt)

/-- `poet_unfinished_node` replies, and refuses what is unsuitable, exactly when the data are an object
and do not report more time left for an entry with the same arrival time. Otherwise an assertion ends
the server. -/
theorem poetUnfinishedNode_replies_iff (hid : IndexedById g.sgxTable) :
    RepliesToUnfinished raw json g context ↔ PassesAssertions raw json g := by
  constructor
  · rintro ⟨r, hr, -, -⟩
    exact ⟨isObject_of_poetUnfinishedNode_ok hr,
      fun _ _ => timeLeft_le_of_poetUnfinishedNode_ok hr⟩
  · intro h
    obtain ⟨newNode, dest, hjson, hentry⟩ | hrefused := h.poetUnfinishedNode_ok hid context
    · obtain ⟨repetitions, hok⟩ := PoQ.poetUnfinishedNode_ok hjson hentry context
      exact ⟨_, hok, .inl rfl, fun hno => absurd hno (hentry.not_unsuitable hjson)⟩
    · exact ⟨_, hrefused, .inr rfl, fun _ => rfl⟩

end

theorem oneNodeWaiting_indexed : IndexedById oneNodeWaiting.sgxTable := by
  intro i node h
  cases i with
  | zero =>
    cases h
    rfl
  | succ i => cases h

/-- A text instead of a record, and a record with more time left than is stored. -/
theorem not_repliesToUnfinished :
    IndexedById oneNodeWaiting.sgxTable ∧
      ¬RepliesToUnfinished (fun _ => 0) (.string (ascii "0")) oneNodeWaiting .fresh ∧
      ¬RepliesToUnfinished (fun _ => 0) (nodeJson ⟨0, 7, 6, 0, 5⟩) oneNodeWaiting .fresh := by
  have hnoObject : poetUnfinishedNode (fun _ => 0) (.string (ascii "0")) oneNodeWaiting .fresh =
      .error .dataIsObject := rfl
  have hincreased : (poetUnfinishedNode (fun _ => 0) (nodeJson ⟨0, 7, 6, 0, 5⟩) oneNodeWaiting
      .fresh).map (fun r => r.returned) = .error .timeLeftNotIncreased := by
    decide
  refine ⟨oneNodeWaiting_indexed, ?_, ?_⟩
  · rintro ⟨r, hr, -⟩
    cases hnoObject.symm.trans hr
  · rintro ⟨r, hr, -⟩
    rw [hr] at hincreased
    cases hincreased

/-- A record with less time left than is stored is answered. -/
theorem poetUnfinishedNode_replies_oneNodeWaiting :
    ∃ json, RepliesToUnfinished (fun _ => 0) json oneNodeWaiting .fresh := by
  have hjson : jsonToNodeT (fun _ => 0) (nodeJson ⟨0, 7, 6, 0, 2⟩) = .ok (some ⟨0, 7, 6, 0, 2⟩) := by
    decide
  refine ⟨nodeJson ⟨0, 7, 6, 0, 2⟩,
    (poetUnfinishedNode_replies_iff oneNodeWaiting_indexed).mpr ⟨⟨_, rfl⟩, ?_⟩⟩
  intro newNode dest hnew hdest _
  rw [hjson] at hnew
  cases hnew
  cases hdest
  decide

end PoQ
