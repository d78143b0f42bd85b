import PoQ.Server.Broadcast
import PoQ.Server.Connections

/-!
# Messages and sessions

`delegate_message` and `check_message_integrity` of `poet_server.cpp`, and all the handlers of
`poet_functions`. The dispatcher accepts every method at every moment, so that the order of a session is
left to the handlers; and the node that a request is about is that of the connection in one handler and
that of the message in another.
-/

namespace PoQ

/-- What becomes of a reply: `socket_send` takes all of it, fails, or finds the connection closed. -/
inductive Delivery
  | delivered
  | lost
  | hungUp
deriving DecidableEq, Repr

/-- What the handlers depend on apart from the message and the state: their timed locks, the clock, and
the delivery of the reply. -/
structure Surroundings where
  keysLocked : Bool
  idsLocked : Bool
  tableLocked : Bool
  now : ℤ
  delivery : Delivery

/-- `socket_send_message` on an open socket, and whether the result is positive. -/
def socketSendMessage (delivery : Delivery) (context : Context) : Bool × Context :=
  match delivery with
  | .delivered => (true, context)
  | .lost => (false, context)
  | .hungUp => (false, { context with isClosed := true })

/-! ## The handlers -/

/-- The reply of a handler that does not look at the result of sending it. -/
def Handled.send (delivery : Delivery) (r : Handled) : Handled :=
  match r.reply with
  | some _ => { r with context := (socketSendMessage delivery r.context).2 }
  | none => r

/-- A handler that sends a reply and returns whether this has worked. -/
def answer (delivery : Delivery) (reply : Reply) (g : Global) (context : Context) : Handled :=
  let (state, context) := socketSendMessage delivery context
  ⟨g, context, some reply, state⟩

/-- `poet_remote_attestation`, compiled with `NO_RA`. -/
def poetRemoteAttestation (delivery : Delivery) : Global → Context → Handled :=
  answer delivery .success

/-- `poet_get_sgxtable`. When the lock is not granted the table is sent as an empty one. -/
def poetGetSgxtable (tableLocked : Bool) (delivery : Delivery) (g : Global) : Context → Handled :=
  answer delivery (.data <| ascii "\x7b\"status\":\"success\", \"data\":\x7b\"sgx_table\": " ++
    getSgxTableStr (if tableLocked then g.sgxTable else []) ++ ascii "\x7d\x7d") g

/-- `poet_get_queue`. -/
def poetGetQueue (delivery : Delivery) (g : Global) : Context → Handled :=
  answer delivery (.data <| ascii "\x7b\"status\":\"success\", \"data\":\x7b\"queue\": " ++
    getQueueStr g.queue g.sgxTable ++ ascii "\x7d\x7d") g

/-- `poet_get_sgxtable_and_queue`. -/
def poetGetSgxtableAndQueue (tableLocked : Bool) (delivery : Delivery) (g : Global)
    (context : Context) : Handled :=
  if tableLocked then
    answer delivery (.data <| ascii "\x7b\"status\":\"success\", \"data\":\x7b\"queue\": " ++
      getQueueStr g.queue g.sgxTable ++ ascii ", \"sgx_table\": " ++ getSgxTableStr g.sgxTable ++
      ascii "\x7d\x7d") g context
  else { answer delivery .failure g context with returned := false }

/-- `poet_close_connection`. -/
def poetCloseConnection (delivery : Delivery) (g : Global) (context : Context) : Handled :=
  { answer delivery .success g context with context := { context with isClosed := true } }

/-- The handlers of `poet_functions`. -/
inductive PoetFunction
  | register
  | remoteAttestation
  | sgxTimeBroadcast
  | getSgxtable
  | getQueue
  | getSgxtableAndQueue
  | closeConnection
  | unfinishedNode
deriving DecidableEq, Repr

namespace PoetFunction

/-- The name of the method. -/
def name : PoetFunction → String
  | register => "register"
  | remoteAttestation => "remote_attestation"
  | sgxTimeBroadcast => "sgx_time_broadcast"
  | getSgxtable => "get_sgxtable"
  | getQueue => "get_queue"
  | getSgxtableAndQueue => "get_sgxtable_and_queue"
  | closeConnection => "close_connection"
  | unfinishedNode => "unfinished_node"

/-- The call of the handler on the data of a message. -/
def function (raw : Json → ℤ) (env : Surroundings) (json : Json) (g : Global) (context : Context) :
    PoetFunction → Except Abort Handled
  | register => (poetRegister env.keysLocked env.idsLocked json g context).map (·.send env.delivery)
  | remoteAttestation => .ok (poetRemoteAttestation env.delivery g context)
  | sgxTimeBroadcast => (poetSgxTimeBroadcast env.now json g context).map (·.send env.delivery)
  | getSgxtable => .ok (poetGetSgxtable env.tableLocked env.delivery g context)
  | getQueue => .ok (poetGetQueue env.delivery g context)
  | getSgxtableAndQueue => .ok (poetGetSgxtableAndQueue env.tableLocked env.delivery g context)
  | closeConnection => .ok (poetCloseConnection env.delivery g context)
  | unfinishedNode => (poetUnfinishedNode raw json g context).map (·.send env.delivery)

/-- The handler changes the record of a node. -/
def needsIdentity : PoetFunction → Bool
  | sgxTimeBroadcast | unfinishedNode => true
  | _ => false

end PoetFunction

/-- `poet_functions`. -/
def poetFunctions : List PoetFunction :=
  [.register, .remoteAttestation, .sgxTimeBroadcast, .getSgxtable, .getQueue, .getSgxtableAndQueue,
    .closeConnection, .unfinishedNode]

/-! ## Delegation -/

/-- `check_message_integrity`. -/
def checkMessageIntegrity (json : Json) : Bool :=
  match json with
  | .object entries =>
    2 ≤ entries.length &&
      (match findValue json "method" with
        | some (.string s) => poetFunctions.any fun i => sameString s (ascii i.name)
        | _ => false) &&
      (findValue json "data").isSome
  | _ => false

/-- The function that a message names, and the data for it. -/
def Json.delegated (json : Json) : Option (PoetFunction × Json) :=
  match findValue json "method", findValue json "data" with
  | some (.string funcName), some data =>
    (poetFunctions.find? fun i => sameString funcName (ascii i.name)).map (·, data)
  | _, _ => none

/-- `delegate_message`. -/
def delegateMessage {σ : Type} (lib : JsonLibrary σ) (raw : Json → ℤ) (env : Surroundings)
    (buffer : List UInt8) (g : Global) (context : Context) : Except Abort Handled := do
  let refused : Handled := ⟨g, context, none, false⟩
  if ← checkJsonCompliance lib buffer then
    match lib.parse buffer with
    | none => .error .nullPointer
    | some json =>
      if checkMessageIntegrity json then
        match json.delegated with
        | some (function, data) => function.function raw env data g context
        | none => .error .functionFound
      else return refused
  else return refused

/-- What a text asks for, when it is accepted by `check_message_integrity`. -/
def acceptedMessage {σ : Type} (lib : JsonLibrary σ) (buffer : List UInt8) :
    Option (PoetFunction × Json) :=
  match checkJsonCompliance lib buffer, lib.parse buffer with
  | .ok true, some json => if checkMessageIntegrity json then json.delegated else none
  | _, _ => none

/-- A text on a connection. -/
structure Message where
  env : Surroundings
  buffer : List UInt8

/-- A text on the connection `c` is handled, as in the loop of `process_new_node`. -/
def Server.deliver {σ : Type} (lib : JsonLibrary σ) (raw : Json → ℤ) (s : Server) :
    ℕ × Message → Except Abort Server
  | (c, m) => do
    ensure ((s.contexts c).isClosed = false) .blocked
    let r ← delegateMessage lib raw m.env m.buffer s.g (s.contexts c)
    return s.after c r

/-! ## What a message can do -/

@[simp] theorem Handled.send_g (delivery : Delivery) (r : Handled) : (r.send delivery).g = r.g := by
  unfold send
  split <;> rfl

@[simp] theorem Handled.send_reply (delivery : Delivery) (r : Handled) :
    (r.send delivery).reply = r.reply := by
  unfold send
  split <;> rfl

/-- A function is found for every message that is accepted. -/
theorem exists_delegated {json : Json} (h : checkMessageIntegrity json = true) :
    ∃ p, json.delegated = some p := by
  unfold checkMessageIntegrity at h
  split at h
  · next entries =>
    simp only [Bool.and_eq_true] at h
    obtain ⟨⟨-, hmethod⟩, hdata⟩ := h
    obtain ⟨data, hdata⟩ := Option.isSome_iff_exists.mp hdata
    split at hmethod
    · next s hs =>
      have hfind : (poetFunctions.find? fun i => sameString s (ascii i.name)).isSome := by
        rw [List.find?_isSome]
        simpa using hmethod
      obtain ⟨i, hi⟩ := Option.isSome_iff_exists.mp hfind
      exact ⟨(i, data), by simp [Json.delegated, hs, hdata, hi]⟩
    · cases hmethod
  · cases h

section

variable {σ : Type} {lib : JsonLibrary σ} {raw : Json → ℤ} {env : Surroundings} {buffer : List UInt8}
  {g : Global} {context : Context}

/-- An accepted message is handled by the function that it names. -/
theorem delegateMessage_of_accepted {i : PoetFunction} {data : Json}
    (h : acceptedMessage lib buffer = some (i, data)) (raw : Json → ℤ) (env : Surroundings)
    (g : Global) (context : Context) :
    delegateMessage lib raw env buffer g context = i.function raw env data g context := by
  unfold acceptedMessage at h
  split at h
  · next json hcheck hparse =>
    split at h
    · next hintegrity =>
      simp only [delegateMessage, hcheck, hparse, hintegrity, h, Except.ok_bind, if_true]
    · cases h
  · cases h

/-- A message that is not accepted ends the connection. -/
theorem delegateMessage_of_not_accepted {r : Handled} (h : acceptedMessage lib buffer = none)
    (hr : delegateMessage lib raw env buffer g context = .ok r) : r = ⟨g, context, none, false⟩ := by
  obtain ⟨valid, hcheck, hr⟩ := Except.bind_eq_ok.mp hr
  cases valid with
  | false =>
    cases hr
    rfl
  | true =>
    simp only [if_true] at hr
    split at hr
    · cases hr
    · next json hparse =>
      split at hr
      · next hintegrity =>
        obtain ⟨p, hp⟩ := exists_delegated hintegrity
        simp [acceptedMessage, hcheck, hparse, hintegrity, hp] at h
      · cases hr
        rfl

/-- The table and the queue are changed by a broadcast of the connection's node or by an unfinished node,
and by nothing else. -/
theorem delegateMessage_cases {r : Handled}
    (h : delegateMessage lib raw env buffer g context = .ok r) :
    r.g.sgxTable = g.sgxTable ∧ r.g.queue = g.queue ∨
      (∃ data r', acceptedMessage lib buffer = some (.sgxTimeBroadcast, data) ∧
        poetSgxTimeBroadcast env.now data g context = .ok r' ∧ r.g = r'.g) ∨
      ∃ data r', acceptedMessage lib buffer = some (.unfinishedNode, data) ∧
        poetUnfinishedNode raw data g context = .ok r' ∧ r.g = r'.g := by
  cases hmsg : acceptedMessage lib buffer with
  | none =>
    rw [delegateMessage_of_not_accepted hmsg h]
    exact .inl ⟨rfl, rfl⟩
  | some p =>
    obtain ⟨i, data⟩ := p
    rw [delegateMessage_of_accepted hmsg] at h
    cases i with
    | register =>
      obtain ⟨r', hr', rfl⟩ := Except.map_eq_ok.mp h
      exact .inl (by simpa using poetRegister_frame hr')
    | sgxTimeBroadcast =>
      obtain ⟨r', hr', rfl⟩ := Except.map_eq_ok.mp h
      exact .inr (.inl ⟨data, r', rfl, hr', by simp⟩)
    | unfinishedNode =>
      obtain ⟨r', hr', rfl⟩ := Except.map_eq_ok.mp h
      exact .inr (.inr ⟨data, r', rfl, hr', by simp⟩)
    | getSgxtableAndQueue =>
      cases h
      unfold poetGetSgxtableAndQueue
      split <;> exact .inl ⟨rfl, rfl⟩
    | remoteAttestation | getSgxtable | getQueue | closeConnection =>
      cases h
      exact .inl ⟨rfl, rfl⟩

end

theorem Server.deliver_cases {σ : Type} {lib : JsonLibrary σ} {raw : Json → ℤ} {s t : Server} {c : ℕ}
    {m : Message} (h : s.deliver lib raw (c, m) = .ok t) :
    (s.contexts c).isClosed = false ∧
      ∃ r, delegateMessage lib raw m.env m.buffer s.g (s.contexts c) = .ok r ∧ t = s.after c r := by
  obtain ⟨_, hopen, h⟩ := Except.bind_eq_ok.mp h
  obtain ⟨r, hr, h⟩ := Except.bind_eq_ok.mp h
  cases h
  exact ⟨ensure_eq_ok.mp hopen, r, hr, rfl⟩

theorem Server.deliver_ok {σ : Type} {lib : JsonLibrary σ} {raw : Json → ℤ} {s : Server} {c : ℕ}
    {m : Message} {r : Handled} (hopen : (s.contexts c).isClosed = false)
    (hr : delegateMessage lib raw m.env m.buffer s.g (s.contexts c) = .ok r) :
    s.deliver lib raw (c, m) = .ok (s.after c r) := by
  simp only [deliver, hopen, ensure_of, Except.ok_bind, hr, Except.pure_eq_ok]

/-! ## The node of a connection -/

section

variable {σ : Type} (lib : JsonLibrary σ) (raw : Json → ℤ)

/-- The message leaves the entries of other nodes than that of its connection as they are. -/
def OwnNodeOnly (s : Server) (a : ℕ × Message) : Prop :=
  ∀ (node : Node) (t : Server), (s.contexts a.1).node = some node → s.deliver lib raw a = .ok t →
    ∀ (k : ℕ) (entry : Node), s.g.sgxTable[k]? = some entry → entry.nodeId ≠ node.nodeId →
      t.g.sgxTable[k]? = some entry

/-- The message does not report less time for another node than that of its connection, with the values
of the other node's entry. -/
def ReportsOwnNode (s : Server) (a : ℕ × Message) : Prop :=
  ∀ (node : Node) (data : Json) (newNode dest : Node), (s.contexts a.1).isClosed = false →
    (s.contexts a.1).node = some node →
    acceptedMessage lib a.2.buffer = some (.unfinishedNode, data) →
    jsonToNodeT raw data = .ok (some newNode) → UnfinishedEntry s.g newNode dest →
    newNode.nodeId ≠ node.nodeId → newNode.timeLeft = dest.timeLeft

end

/-- A broadcast changes only the entry of its node. -/
theorem insertNodeIntoSgxTableAndQueue_frame {node : Node} {g g' : Global}
    (h : insertNodeIntoSgxTableAndQueue node g = .ok g') {k : ℕ} {entry : Node}
    (hk : g.sgxTable[k]? = some entry) (hne : entry.nodeId ≠ node.nodeId) :
    g'.sgxTable[k]? = some entry := by
  obtain ⟨table, pushed, repetitions, hins, rfl⟩ := insertNodeIntoSgxTableAndQueue_cases h
  rcases hins with ⟨n, hn, hid, -, rfl, -⟩ | ⟨-, rfl, -⟩
  · have hkne : node.nodeId ≠ k := by
      rintro rfl
      rw [hn] at hk
      cases hk
      exact hne hid
    rw [List.getElem?_set_ne hkne, hk]
  · rw [List.getElem?_append_left (List.getElem?_eq_some_iff.mp hk).1, hk]

section

variable {σ : Type} {lib : JsonLibrary σ} {raw : Json → ℤ}

/-- Messages leave other nodes alone exactly when they report nobody else as unfinished. -/
theorem ownNodeOnly_iff (s : Server) (a : ℕ × Message) :
    OwnNodeOnly lib raw s a ↔ ReportsOwnNode lib raw s a := by
  obtain ⟨c, m⟩ := a
  constructor
  · intro h node data newNode dest hopen hnode hmsg hjson hentry hne
    obtain ⟨repetitions, hr⟩ := poetUnfinishedNode_ok hjson hentry (s.contexts c)
    have hdelegate := delegateMessage_of_accepted hmsg raw m.env s.g (s.contexts c)
    rw [PoetFunction.function, hr] at hdelegate
    have hkept := h node _ hnode (Server.deliver_ok hopen hdelegate) newNode.nodeId dest hentry.entry
      (by rwa [hentry.nodeId])
    have hlt := (List.getElem?_eq_some_iff.mp hentry.entry).1
    rw [Server.after, Handled.send_g, List.getElem?_set_self hlt] at hkept
    have htime := congrArg Node.timeLeft (Option.some.inj hkept)
    exact htime
  · intro h node t hnode ht k entry hk hne
    obtain ⟨hopen, r, hr, rfl⟩ := Server.deliver_cases ht
    change r.g.sgxTable[k]? = some entry
    obtain ⟨htable, -⟩ | ⟨data, r', hmsg, hr', hg⟩ | ⟨data, r', hmsg, hr', hg⟩ :=
      delegateMessage_cases hr
    · rw [htable, hk]
    · rw [hg]
      obtain ⟨-, rfl⟩ | ⟨sgxt, node', -, hnode', hins, -, -⟩ := poetSgxTimeBroadcast_cases hr'
      · exact hk
      · obtain rfl : node = node' := Option.some.inj (hnode ▸ hnode')
        exact insertNodeIntoSgxTableAndQueue_frame hins hk hne
    · rw [hg]
      obtain rfl | ⟨newNode, dest, repetitions, hjson, hdest, hid, hsgx, harrival, hleft, rfl⟩ :=
        poetUnfinishedNode_cases hr'
      · exact hk
      · change (s.g.sgxTable.set newNode.nodeId _)[k]? = some entry
        by_cases hkid : newNode.nodeId = k
        · subst hkid
          rw [hdest] at hk
          cases hk
          have hsame := h node data newNode entry hopen hnode hmsg hjson
            ⟨hdest, hid, hsgx, harrival, hleft⟩ (by rwa [← hid])
          rw [List.getElem?_set_self (List.getElem?_eq_some_iff.mp hdest).1, hsame]
        · rw [List.getElem?_set_ne hkid, hk]

/-- In every run, whatever the messages on whatever connections: no message changes an entry of another
node than that of its connection exactly when no message reports less time for another node with the
values of that node's entry. -/
theorem Server.along_ownNodeOnly_iff (lib : JsonLibrary σ) (raw : Json → ℤ) (serverStartingTime : ℤ)
    (sgxtLowerbound sgxmax nTiers : ℕ) (l : List (ℕ × Message)) :
    Along (Server.deliver lib raw) (OwnNodeOnly lib raw)
        (Server.initial serverStartingTime sgxtLowerbound sgxmax nTiers) l ↔
      Along (Server.deliver lib raw) (ReportsOwnNode lib raw)
        (Server.initial serverStartingTime sgxtLowerbound sgxmax nTiers) l :=
  Along.congr fun s a _ => ownNodeOnly_iff s a

end

/-- The text of a message, as the client writes it. -/
def messageText (method : String) (data : List UInt8) : List UInt8 :=
  ascii "\x7b\"method\": \"" ++ ascii method ++ ascii "\", \"data\": " ++ data ++ ascii "\x7d"

def registerText (key : String) : List UInt8 :=
  messageText "register" (ascii "\x7b\"public_key\": \"" ++ ascii key ++
    ascii "\", \"signature\": \"" ++ ascii key ++ ascii "\"\x7d")

def broadcastText (sgxt : ℕ) : List UInt8 :=
  messageText "sgx_time_broadcast" (ascii "\x7b\"sgxt\": " ++ decimal sgxt ++ ascii "\x7d")

def unfinishedText (node : Node) : List UInt8 := messageText "unfinished_node" (nodeTToJson node)

/-- A text that meets no obstacle. -/
def message (now : ℤ) (buffer : List UInt8) : Message :=
  ⟨⟨true, true, true, now, .delivered⟩, buffer⟩

/-- Two nodes register and broadcast. -/
def twoNodes : List (ℕ × Message) :=
  [(0, message 5 (registerText keyA)), (1, message 6 (registerText keyB)),
    (0, message 7 (broadcastText 6)), (1, message 8 (broadcastText 9))]

/-- Node 1 reports that node 0 has 2 seconds left of its 6. -/
theorem Server.along_ownNodeOnly_twoNodes :
    ¬Along (Server.deliver readerLibrary fun _ => 0) (OwnNodeOnly readerLibrary fun _ => 0)
      (Server.initial 0 1 10 2) (twoNodes ++ [(1, message 9 (unfinishedText ⟨0, 7, 6, 0, 2⟩))]) := by
  intro h
  have hrun : (twoNodes.foldlM (Server.deliver readerLibrary fun _ => 0)
      (Server.initial 0 1 10 2)).map (fun s => ((s.contexts 1).node.map Node.nodeId, s.g.sgxTable,
        (s.deliver readerLibrary (fun _ => 0) (1, message 9 (unfinishedText ⟨0, 7, 6, 0, 2⟩))).map
          fun t => t.g.sgxTable)) =
      .ok (some 1, [⟨0, 7, 6, 0, 6⟩, ⟨1, 8, 9, 0, 9⟩],
        .ok [⟨0, 7, 6, 0, 2⟩, ⟨1, 8, 9, 0, 9⟩]) := by
    decide +kernel
  obtain ⟨s, hs, hvalues⟩ := Except.map_eq_ok.mp hrun
  simp only [Prod.mk.injEq, Option.map_eq_some_iff] at hvalues
  obtain ⟨⟨node, hnode, hid⟩, htable, ht⟩ := hvalues
  obtain ⟨t, ht, httable⟩ := Except.map_eq_ok.mp ht
  have hkept := h.of_foldlM hs node t hnode ht 0 ⟨0, 7, 6, 0, 6⟩ (by rw [htable]; rfl)
    (by rw [hid]; decide)
  rw [httable] at hkept
  cases hkept

/-! ## The order of a session -/

/-- The data is a record, and either it has no entry or it passes the assertions and differs from its
entry. -/
structure RefusedUnfinished (raw : Json → ℤ) (data : Json) (g : Global) : Prop where
  isObject : ∃ entries, data = .object entries
  differs : ∀ (newNode dest : Node), jsonToNodeT raw data = .ok (some newNode) →
    g.sgxTable[newNode.nodeId]? = some dest →
    dest.nodeId = newNode.nodeId ∧
      (dest.arrivalTime = newNode.arrivalTime → newNode.timeLeft ≤ dest.timeLeft) ∧
      (dest.sgxTime = newNode.sgxTime → dest.arrivalTime ≠ newNode.arrivalTime)

/-- The handler returns and refuses a record exactly when it is to be refused. -/
theorem poetUnfinishedNode_refused_iff {raw : Json → ℤ} {data : Json} {g : Global}
    {context : Context} :
    poetUnfinishedNode raw data g context = .ok ⟨g, context, some .failure, false⟩ ↔
      RefusedUnfinished raw data g := by
  constructor
  · intro h
    obtain ⟨record, hjson, h⟩ := Except.bind_eq_ok.mp h
    refine ⟨?_, fun newNode dest hnew hdest => ?_⟩
    · cases data with
      | object entries => exact ⟨entries, rfl⟩
      | _ => cases hjson
    · rw [hnew] at hjson
      cases hjson
      simp only [hdest] at h
      obtain ⟨_, hid, h⟩ := Except.bind_eq_ok.mp h
      obtain ⟨_, hleft, h⟩ := Except.bind_eq_ok.mp h
      rw [ensure_eq_ok] at hid hleft
      refine ⟨hid, fun harrival => hleft.resolve_left (not_not.mpr harrival), ?_⟩
      intro hsgx harrival
      rw [if_pos ⟨hsgx, harrival⟩] at h
      obtain ⟨_, -, h⟩ := Except.bind_eq_ok.mp h
      have hreply := congrArg Handled.reply (Except.ok.inj h)
      cases hreply
  · rintro ⟨⟨entries, rfl⟩, hdiffers⟩
    obtain ⟨record, hjson⟩ : ∃ record, jsonToNodeT raw (.object entries) = .ok record := ⟨_, rfl⟩
    unfold poetUnfinishedNode
    rw [hjson, Except.ok_bind]
    cases record with
    | none => rfl
    | some newNode =>
      cases hdest : g.sgxTable[newNode.nodeId]? with
      | none => simp [hdest]
      | some dest =>
        obtain ⟨hid, hleft, hne⟩ := hdiffers newNode dest hjson hdest
        have hassert : dest.arrivalTime ≠ newNode.arrivalTime ∨ newNode.timeLeft ≤ dest.timeLeft := by
          by_cases harrival : dest.arrivalTime = newNode.arrivalTime
          · exact .inr (hleft harrival)
          · exact .inl harrival
        have hnot : ¬(dest.sgxTime = newNode.sgxTime ∧ dest.arrivalTime = newNode.arrivalTime) :=
          fun h => hne h.1 h.2
        simp only [hdest, ensure_of hid, ensure_of hassert, Except.ok_bind, if_neg hnot,
          Except.pure_eq_ok]

/-- With the node of the context set, a broadcast goes through no null pointer. -/
theorem poetSgxTimeBroadcast_ne_nullPointer {now : ℤ} {json : Json} {g : Global} {context : Context}
    {node : Node} (hnode : context.node = some node) :
    poetSgxTimeBroadcast now json g context ≠ .error .nullPointer := by
  unfold poetSgxTimeBroadcast
  rw [hnode]
  cases announcedTime g json with
  | none =>
    intro h
    cases h
  | some sgxt =>
    set inserted : Node := ⟨node.nodeId, toUint (now - g.serverStartingTime), sgxt, 0, sgxt⟩
    change (insertNodeIntoSgxTableAndQueue inserted g >>= _) ≠ _
    cases hn : g.sgxTable[inserted.nodeId]? with
    | none =>
      have hins : Inserted inserted g _ _ := .inr ⟨List.getElem?_eq_none_iff.mp hn, rfl, rfl⟩
      obtain ⟨_, hok⟩ := insertNodeIntoSgxTableAndQueue_ok hins
      rw [hok]
      intro h
      cases h
    | some n =>
      by_cases hid : n.nodeId = inserted.nodeId
      · have hins : Inserted inserted g _ _ := .inl ⟨n, hn, hid, rfl, rfl, rfl⟩
        obtain ⟨_, hok⟩ := insertNodeIntoSgxTableAndQueue_ok hins
        rw [hok]
        intro h
        cases h
      · simp only [insertNodeIntoSgxTableAndQueue, hn, ensure, if_neg hid, Except.error_bind]
        intro h
        cases h

section

variable {σ : Type} (lib : JsonLibrary σ) (raw : Json → ℤ)

/-- The message does not make its handler go through a node that is not set; and when it needs a node and
there is none, it is answered with a failure, or not answered and the connection is closed, and the
table and the queue stay as they are. -/
def KeepsSessionOrder (s : Server) (a : ℕ × Message) : Prop :=
  (s.contexts a.1).isClosed = false →
    ∀ (i : PoetFunction) (data : Json), acceptedMessage lib a.2.buffer = some (i, data) →
      (i = .sgxTimeBroadcast →
        delegateMessage lib raw a.2.env a.2.buffer s.g (s.contexts a.1) ≠ .error .nullPointer) ∧
      ((s.contexts a.1).node = none → i.needsIdentity = true →
        ∃ r, delegateMessage lib raw a.2.env a.2.buffer s.g (s.contexts a.1) = .ok r ∧
          r.g.sgxTable = s.g.sgxTable ∧ r.g.queue = s.g.queue ∧
          (r.reply = some .failure ∨
            r.reply = none ∧ ((s.after a.1 r).contexts a.1).isClosed = true))

/-- On a connection without a node there is no broadcast of a valid time, and an unfinished node is one
that is refused. -/
def WaitsForNode (s : Server) (a : ℕ × Message) : Prop :=
  (s.contexts a.1).isClosed = false → (s.contexts a.1).node = none →
    ∀ (i : PoetFunction) (data : Json), acceptedMessage lib a.2.buffer = some (i, data) →
      (i = .sgxTimeBroadcast → announcedTime s.g data = none) ∧
      (i = .unfinishedNode → RefusedUnfinished raw data s.g)

end

section

variable {σ : Type} {lib : JsonLibrary σ} {raw : Json → ℤ}

theorem KeepsSessionOrder.waitsForNode {s : Server} {a : ℕ × Message}
    (h : KeepsSessionOrder lib raw s a) : WaitsForNode lib raw s a := by
  obtain ⟨c, m⟩ := a
  intro hopen hnode i data hmsg
  obtain ⟨hnull, hrefused⟩ := h hopen i data hmsg
  rw [delegateMessage_of_accepted hmsg] at hnull hrefused
  refine ⟨?_, ?_⟩
  · rintro rfl
    by_contra hsome
    obtain ⟨sgxt, hsgxt⟩ := Option.ne_none_iff_exists'.mp hsome
    apply hnull rfl
    simp only [PoetFunction.function, poetSgxTimeBroadcast, hsgxt]
    rw [hnode]
    rfl
  · rintro rfl
    obtain ⟨r, hr, -, -, hreply⟩ := hrefused hnode rfl
    obtain ⟨r', hr', rfl⟩ := Except.map_eq_ok.mp hr
    rw [Handled.send_reply] at hreply
    obtain rfl | ⟨_, _, _, _, _, _, _, _, _, rfl⟩ := poetUnfinishedNode_cases hr'
    · exact poetUnfinishedNode_refused_iff.mp hr'
    · simp at hreply

/-- A handler that refuses its request and leaves everything as it is. -/
theorem exists_refused {handled : Except Abort Handled} {g : Global} {context : Context}
    (h : handled = .ok ⟨g, context, some .failure, false⟩) (delivery : Delivery) :
    ∃ r, handled.map (·.send delivery) = .ok r ∧ r.g.sgxTable = g.sgxTable ∧
      r.g.queue = g.queue ∧ r.reply = some .failure := by
  rw [h]
  exact ⟨_, rfl, by simp, by simp, by simp⟩

theorem WaitsForNode.keepsSessionOrder {s : Server} {a : ℕ × Message}
    (h : WaitsForNode lib raw s a) : KeepsSessionOrder lib raw s a := by
  obtain ⟨c, m⟩ := a
  intro hopen i data hmsg
  rw [delegateMessage_of_accepted hmsg]
  refine ⟨?_, fun hnode hneeds => ?_⟩
  · rintro rfl hnull
    have hbroadcast : poetSgxTimeBroadcast m.env.now data s.g (s.contexts c) =
        .error .nullPointer := by
      cases hr : poetSgxTimeBroadcast m.env.now data s.g (s.contexts c) with
      | ok r => simp [PoetFunction.function, hr, Except.map] at hnull
      | error e => simpa [PoetFunction.function, hr, Except.map] using hnull
    cases hnode : (s.contexts c).node with
    | none =>
      have hnone := (h hopen hnode _ data hmsg).1 rfl
      simp [poetSgxTimeBroadcast, hnone] at hbroadcast
    | some node => exact poetSgxTimeBroadcast_ne_nullPointer hnode hbroadcast
  · obtain ⟨hbroadcast, hunfinished⟩ := h hopen hnode i data hmsg
    cases i with
    | sgxTimeBroadcast =>
      have hr : poetSgxTimeBroadcast m.env.now data s.g (s.contexts c) =
          .ok ⟨s.g, s.contexts c, some .failure, false⟩ := by
        simp [poetSgxTimeBroadcast, hbroadcast rfl]
      obtain ⟨r, hsent, htable, hqueue, hreply⟩ := exists_refused hr m.env.delivery
      exact ⟨r, hsent, htable, hqueue, .inl hreply⟩
    | unfinishedNode =>
      have hr : poetUnfinishedNode raw data s.g (s.contexts c) =
          .ok ⟨s.g, s.contexts c, some .failure, false⟩ :=
        poetUnfinishedNode_refused_iff.mpr (hunfinished rfl)
      obtain ⟨r, hsent, htable, hqueue, hreply⟩ := exists_refused hr m.env.delivery
      exact ⟨r, hsent, htable, hqueue, .inl hreply⟩
    | register | remoteAttestation | getSgxtable | getQueue | getSgxtableAndQueue
    | closeConnection => cases hneeds

/-- In every run, whatever the messages on whatever connections: the order of the sessions is kept
exactly when nobody broadcasts a valid time, or reports an entry of the table as unfinished, on a
connection on which nobody has registered. -/
theorem Server.along_keepsSessionOrder_iff (lib : JsonLibrary σ) (raw : Json → ℤ)
    (serverStartingTime : ℤ) (sgxtLowerbound sgxmax nTiers : ℕ) (l : List (ℕ × Message)) :
    Along (Server.deliver lib raw) (KeepsSessionOrder lib raw)
        (Server.initial serverStartingTime sgxtLowerbound sgxmax nTiers) l ↔
      Along (Server.deliver lib raw) (WaitsForNode lib raw)
        (Server.initial serverStartingTime sgxtLowerbound sgxmax nTiers) l :=
  Along.congr fun _ _ _ => ⟨KeepsSessionOrder.waitsForNode, WaitsForNode.keepsSessionOrder⟩

end

/-- The first message on a connection broadcasts a valid time. -/
theorem Server.along_keepsSessionOrder_broadcastFirst :
    ¬Along (Server.deliver readerLibrary fun _ => 0) (KeepsSessionOrder readerLibrary fun _ => 0)
      (Server.initial 0 1 10 2) [(0, message 7 (broadcastText 6))] := by
  rintro ⟨h, -⟩
  have hmsg : (acceptedMessage readerLibrary (broadcastText 6)).map Prod.fst =
      some .sgxTimeBroadcast := by
    decide +kernel
  have hnull : (delegateMessage readerLibrary (fun _ => 0) ⟨true, true, true, 7, .delivered⟩
      (broadcastText 6) (Global.initial 0 1 10 2) .fresh).map (fun _ => ()) =
      .error .nullPointer := by
    decide +kernel
  obtain ⟨⟨i, data⟩, hmsg, rfl⟩ := Option.map_eq_some_iff.mp hmsg
  refine (h rfl _ data hmsg).1 rfl ?_
  cases hr : delegateMessage readerLibrary (fun _ => 0) ⟨true, true, true, 7, .delivered⟩
      (broadcastText 6) (Global.initial 0 1 10 2) .fresh with
  | ok r => simp [hr, Except.map] at hnull
  | error e =>
    rw [hr] at hnull
    cases hnull
    exact hr

end PoQ
