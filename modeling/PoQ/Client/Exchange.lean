import PoQ.Base64Canonical
import PoQ.Client.Mirror
import PoQ.Client.SgxTime
import PoQ.Client.StartingTime
import PoQ.Server.KeyCheck
import PoQ.Server.Session

/-!
# Requests of the client and the replies to them

The requests of `poet_client.cpp` with the texts that it sends, handled by the server, and what the client
makes of the reply. The texts hold strings and `null`, which are beyond the texts of `PoQ.JsonText`; that
the parser reads them as they are meant is an assumption about each of them.
-/

namespace PoQ

open CString

/-! ## The texts -/

/-- `poet_register_with_pk`: the text with the two keys in base64. -/
def registerRequest (pk64base sign64base : List UInt8) : List UInt8 :=
  ascii "\x7b\"method\" : \"register\", \"data\": \x7b\"public_key\": \"" ++ pk64base ++
    ascii "\", \"signature\" : \"" ++ sign64base ++ ascii "\"\x7d\x7d"

/-- `notify_readdition_of_node_into_queue`. -/
def unfinishedNodeRequest (node : Node) : List UInt8 :=
  ascii "\x7b\"method\":\"unfinished_node\", \"data\": " ++ nodeTToJson node ++ ascii "\x7d"

/-- `get_queue_and_sgx_table`. -/
def getSgxtableAndQueueRequest : List UInt8 :=
  ascii "\x7b\"method\":\"get_sgxtable_and_queue\", \"data\": null\x7d"

/-- A request with these data. -/
def requestJson (i : PoetFunction) (data : Json) : Json :=
  .object [(ascii "method", .string (ascii i.name)), (ascii "data", data)]

/-- What is sent for a reply. `poet_unfinished_node` writes a blank behind the colon, the other handlers
do not. -/
def PoetFunction.replyText (i : PoetFunction) : Reply → List UInt8
  | .registered sgxmax sgxtLower nodeId nTiers serverStartingTime =>
    registeredText sgxmax sgxtLower nodeId nTiers (toSizeT serverStartingTime)
  | .broadcasted nNodes nTiers =>
    ascii "\x7b\"status\":\"success\", \"data\": \x7b\"n_nodes\": " ++ decimal nNodes ++
      ascii ", \"n_tiers\": " ++ decimal nTiers ++
      ascii ", \"arrival_times\": [], \"quantum_times\": []\x7d\x7d"
  | .data text => text
  | .success => ascii (if i = .unfinishedNode then "\x7b\"status\": \"success\"\x7d"
      else "\x7b\"status\":\"success\"\x7d")
  | .failure => ascii (if i = .unfinishedNode then "\x7b\"status\": \"failure\"\x7d"
      else "\x7b\"status\":\"failure\"\x7d")

/-! ## The client's side -/

/-- `check_json_success_status`: a reply without a status, or with one that is no text, passes. -/
def checkJsonSuccessStatus {σ : Type} (lib : JsonLibrary σ) (buffer : List UInt8) :
    Except Abort (Option Json) := do
  if ← checkJsonCompliance lib buffer then
    match lib.parse buffer with
    | none => .error .nullPointer
    | some json =>
      match findValue json "status" with
      | some (.string s) => return if sameString s (ascii "success") then some json else none
      | _ => return some json
  else return none

/-- The end of `get_queue_and_sgx_table`, with the reply that has been received. -/
def getQueueAndSgxTable {σ : Type} (lib : JsonLibrary σ) (raw : Json → ℤ) (buffer : List UInt8)
    (m : Mirror) : Except Abort (Bool × Mirror) := do
  match ← checkJsonSuccessStatus lib buffer with
  | none => return (false, m)
  | some json =>
    let (state, queue) := getQueueFromJson raw json m.queue
    let m := { m with queue }
    if state then
      let (state, sgxTable) ← getSgxTableFromJson raw json m.sgxTable
      return (state, { m with sgxTable })
    else return (false, m)

/-! ## Requests arrive -/

section

variable {σ : Type} {lib : JsonLibrary σ} {text : List UInt8}

/-- A request that is read as it is meant is handled by the function that it names. -/
theorem acceptedMessage_requestJson {i : PoetFunction} {data : Json}
    (h : lib.ReadsAs text (requestJson i data)) : acceptedMessage lib text = some (i, data) := by
  have hmethod : findValue (requestJson i data) "method" = some (.string (ascii i.name)) := rfl
  have hdata : findValue (requestJson i data) "data" = some data := rfl
  have hfind : (poetFunctions.find? fun j => sameString (ascii i.name) (ascii j.name)) = some i := by
    cases i <;> rfl
  have hany : (poetFunctions.any fun j => sameString (ascii i.name) (ascii j.name)) = true := by
    cases i <;> rfl
  have hintegrity : checkMessageIntegrity (requestJson i data) = true := by
    simp only [requestJson] at hmethod hdata
    simp only [checkMessageIntegrity, requestJson, hmethod, hdata, hany]
    rfl
  have hdelegated : (requestJson i data).delegated = some (i, data) := by
    rw [Json.delegated, hmethod, hdata]
    simp only [hfind, Option.map_some]
  simp only [acceptedMessage, h.accepted, h.parsed, hintegrity, if_true, hdelegated]

/-- A reply with nothing but a status. -/
def statusJson (status : String) : Json := .object [(ascii "status", .string (ascii status))]

theorem checkJsonSuccessStatus_success (h : lib.ReadsAs text (statusJson "success")) :
    checkJsonSuccessStatus lib text = .ok (some (statusJson "success")) := by
  have hstatus : findValue (statusJson "success") "status" = some (.string (ascii "success")) := rfl
  have hsame : sameString (ascii "success") (ascii "success") = true := rfl
  simp only [checkJsonSuccessStatus, h.accepted, h.parsed, Except.ok_bind, if_true, hstatus, hsame,
    Except.pure_eq_ok]

theorem checkJsonSuccessStatus_failure (h : lib.ReadsAs text (statusJson "failure")) :
    checkJsonSuccessStatus lib text = .ok none := by
  have hstatus : findValue (statusJson "failure") "status" = some (.string (ascii "failure")) := rfl
  have hsame : sameString (ascii "failure") (ascii "success") = false := rfl
  simp only [checkJsonSuccessStatus, h.accepted, h.parsed, Except.ok_bind, if_true, hstatus, hsame,
    Except.pure_eq_ok, Bool.false_eq_true, if_false]

theorem checkJsonSuccessStatus_successJson {data : List (List UInt8 × Json)}
    (h : lib.ReadsAs text (successJson data)) :
    checkJsonSuccessStatus lib text = .ok (some (successJson data)) := by
  have hsame : sameString (ascii "success") (ascii "success") = true := rfl
  simp only [checkJsonSuccessStatus, h.accepted, h.parsed, Except.ok_bind, if_true, findValue_status, hsame,
    Except.pure_eq_ok]

end

/-! ## Registration -/

/-- What `%s` prints of the result of `encode_64base`. -/
def printed64base (buffer : List UInt8) : List UInt8 :=
  match encode64base buffer with
  | .ok (some block) => cstr block
  | _ => []

theorem printed64base_eq {buffer : List UInt8} (h : buffer ≠ []) :
    printed64base buffer = inLines (base64Codes buffer) 0 := by
  simp only [printed64base, encode64base_eq h, cstr_inLines]

theorem decode64base_printed64base {buffer : List UInt8} (h : buffer ≠ []) :
    decode64base (printed64base buffer) = some ⟨(buffer.length + 2) / 3 * 3, buffer⟩ ∧
      cstr (printed64base buffer) = printed64base buffer := by
  have hlines := lines_inLines (base64Codes buffer) 0
  rw [printed64base_eq h]
  refine ⟨decode64base_of_lines h hlines, ?_⟩
  rw [← List.append_nil (inLines _ 0), cstr_append (hlines.ne_zero (isCode_base64Codes buffer))]
  rfl

/-- A key of the right size arrives as it was, and is copied from a buffer that holds it. -/
theorem decodeKey_printed64base {key : List UInt8} (h : key.length = keySize) :
    decodeKey (printed64base key) = .ok (true, key) := by
  have hne : key ≠ [] := List.ne_nil_of_length_pos (h ▸ Nat.succ_pos 31)
  have hdecoded := (decode64base_printed64base hne).1
  have hfits : keySize ≤ (key.length + 2) / 3 * 3 := by
    rw [h]
    decide
  exact decodeKey_eq_ok.mpr ⟨_, hdecoded, hfits, by simp [h], rfl⟩

/-- The data of a registration. -/
def registerData (pk64base sign64base : List UInt8) : Json :=
  .object [(ascii "public_key", .string pk64base), (ascii "signature", .string sign64base)]

/-- Keys of the right size are accepted, and the connection becomes that of the next id. -/
theorem poetRegister_printed64base {pk sign : List UInt8} (hpk : pk.length = keySize)
    (hsign : sign.length = keySize) (g : Global) (context : Context) :
    ∃ node, node.nodeId = g.currentId ∧
      poetRegister true true (registerData (printed64base pk) (printed64base sign)) g context =
        .ok ⟨{ g with
            currentId := (g.currentId + 1) % uintSize
            publicKeys := insertPublicKey g.publicKeys (printed64base pk) g.currentId },
          { context with node := some node },
          some (.registered g.sgxmax g.sgxtLowerbound g.currentId g.nTiers g.serverStartingTime), true⟩ := by
  have hne : ∀ key : List UInt8, key.length = keySize → key ≠ [] :=
    fun key h => List.ne_nil_of_length_pos (h ▸ Nat.succ_pos 31)
  have hpkStr := (decode64base_printed64base (hne pk hpk)).2
  have hsignStr := (decode64base_printed64base (hne sign hsign)).2
  have hpk64 : findValue (registerData (printed64base pk) (printed64base sign)) "public_key" =
      some (.string (printed64base pk)) := rfl
  have hsign64 : findValue (registerData (printed64base pk) (printed64base sign)) "signature" =
      some (.string (printed64base sign)) := rfl
  simp only [poetRegister, hpk64, hsign64, hpkStr, hsignStr, checkPublicKeyAndSignatureRegistration,
    decodeKey_printed64base hpk, decodeKey_printed64base hsign, checkNonzero_eq, Except.ok_bind,
    Except.pure_eq_ok, not_true_eq_false, if_false, if_true]
  exact ⟨_, rfl, rfl⟩

/-- The client takes over all the constants of the reply. -/
theorem poetRegisterWithPk_eq {σ : Type} {lib : JsonLibrary σ} {big : ℕ → Json}
    {sgxmax sgxtLowerbound nodeId nTiers serverStartingTime : ℕ} {text : List UInt8}
    (hlib : lib.ReadsAs text
      (successJson (registeredData big sgxmax sgxtLowerbound nodeId nTiers serverStartingTime)))
    (hmax : sgxmax < 2 ^ 63) (hlower : sgxtLowerbound < 2 ^ 63) (hid : nodeId < uintSize)
    (htiers : nTiers < uintSize) (hstart : serverStartingTime < 2 ^ 63) (c : ClientConstants) :
    poetRegisterWithPk lib text c =
      .ok (true, ⟨sgxmax % uintSize, sgxtLowerbound % uintSize, nodeId, nTiers, serverStartingTime⟩) := by
  let data := registeredData big sgxmax sgxtLowerbound nodeId nTiers serverStartingTime
  have hfield : ∀ (name : String) (n : ℕ), n < 2 ^ 63 →
      sameString (ascii "status") (ascii name) = false → sameString (ascii "data") (ascii name) = false →
      data.find? (fun entry => sameString entry.1 (ascii name)) = some (ascii name, jsonNumber big n) →
      integerField (successJson data) name = some (n : ℤ) := by
    intro name n hn hstatus hdata hentry
    rw [integerField_successJson hstatus hdata hentry, integer?_jsonNumber hn]
  have h1 := hfield "sgxmax" sgxmax hmax rfl rfl rfl
  have h2 := hfield "sgxt_lower" sgxtLowerbound hlower rfl rfl rfl
  have h3 := hfield "node_id" nodeId (hid.trans (by decide)) rfl rfl rfl
  have h4 := hfield "n_tiers" nTiers (htiers.trans (by decide)) rfl rfl rfl
  have h5 := hfield "server_starting_time" serverStartingTime hstart rfl rfl rfl
  have hsuccess : sameString (ascii "success") (ascii "success") = true := rfl
  simp only [data] at h1 h2 h3 h4 h5
  simp only [poetRegisterWithPk, hlib.accepted, hlib.parsed, Except.ok_bind, findValue_status, hsuccess,
    if_true, Except.pure_eq_ok, h1, h2, h3, h4, h5, storedUint, Option.map_some, Option.getD_some,
    toUint_natCast, Nat.mod_eq_of_lt hid, Nat.mod_eq_of_lt htiers, Option.isSome_some]

/-- Registration from one end to the other, for all keys of the right size and all states of the server:
the server decodes both keys to the bytes that the client has encoded, and binds the connection to the
next id; the client reads this id and the constants of the server off the reply, the bounds modulo
`2 ^ 32`. -/
theorem poetRegister_exchange {σ : Type} {lib : JsonLibrary σ} {big : ℕ → Json} {pk sign : List UInt8}
    (hpk : pk.length = keySize) (hsign : sign.length = keySize) (raw : Json → ℤ) {env : Surroundings}
    (hkeys : env.keysLocked = true) (hids : env.idsLocked = true) (g : Global) (context : Context)
    (hmax : g.sgxmax < 2 ^ 63) (hlower : g.sgxtLowerbound < 2 ^ 63) (hid : g.currentId < uintSize)
    (htiers : g.nTiers < uintSize) (hstart : 0 ≤ g.serverStartingTime)
    (hstart' : g.serverStartingTime < 2 ^ 63)
    (hrequest : lib.ReadsAs (registerRequest (printed64base pk) (printed64base sign))
      (requestJson .register (registerData (printed64base pk) (printed64base sign))))
    (hreply : lib.ReadsAs
      (registeredText g.sgxmax g.sgxtLowerbound g.currentId g.nTiers (toSizeT g.serverStartingTime))
      (successJson (registeredData big g.sgxmax g.sgxtLowerbound g.currentId g.nTiers
        (toSizeT g.serverStartingTime)))) :
    decodeKey (printed64base pk) = .ok (true, pk) ∧ decodeKey (printed64base sign) = .ok (true, sign) ∧
      ∃ handled reply node, delegateMessage lib raw env
          (registerRequest (printed64base pk) (printed64base sign)) g context = .ok handled ∧
        handled.returned = true ∧ handled.reply = some reply ∧ handled.context.node = some node ∧
        node.nodeId = g.currentId ∧ handled.g.currentId = (g.currentId + 1) % uintSize ∧
        (handled.g.publicKeys.lookup (printed64base pk)).isSome ∧
        ∀ c, poetRegisterWithPk lib (PoetFunction.register.replyText reply) c =
          .ok (true, ⟨g.sgxmax % uintSize, g.sgxtLowerbound % uintSize, g.currentId, g.nTiers,
            g.serverStartingTime⟩) := by
  refine ⟨decodeKey_printed64base hpk, decodeKey_printed64base hsign, ?_⟩
  obtain ⟨node, hnode, hregister⟩ := poetRegister_printed64base hpk hsign g context
  have htime : toSizeT g.serverStartingTime < 2 ^ 63 ∧
      (toSizeT g.serverStartingTime : ℤ) = g.serverStartingTime := by
    unfold toSizeT
    omega
  rw [delegateMessage_of_accepted (acceptedMessage_requestJson hrequest), PoetFunction.function, hkeys, hids,
    hregister]
  refine ⟨_, _, node, rfl, ?_, rfl, ?_, hnode, ?_, ?_, fun c => ?_⟩
  · cases env.delivery <;> rfl
  · cases env.delivery <;> rfl
  · cases env.delivery <;> rfl
  · rw [Handled.send_g]
    change ((insertPublicKey g.publicKeys (printed64base pk) g.currentId).lookup _).isSome
    unfold insertPublicKey
    split
    · next hknown => exact hknown
    · simp
  · have hread := poetRegisterWithPk_eq hreply hmax hlower hid htiers htime.1 c
    rw [htime.2] at hread
    exact hread

set_option maxRecDepth 20000 in
theorem replyLibrary_readsAs_register : replyLibrary.ReadsAs (registerRequest (ascii keyA) (ascii keyB))
    (requestJson .register (registerData (ascii keyA) (ascii keyB))) :=
  ⟨by decide, rfl⟩

set_option maxRecDepth 20000 in
theorem replyLibrary_readsAs_registered : replyLibrary.ReadsAs (registeredText 10 1 0 2 3)
    (successJson (registeredData (fun _ => .null) 10 1 0 2 3)) :=
  ⟨by decide, rfl⟩

/-- The key is 32 times the letter A, the signature 32 times the letter B. -/
theorem poetRegister_exchange_letters :
    ∃ handled reply, delegateMessage replyLibrary (fun _ => 0) ⟨true, true, true, 7, .delivered⟩
        (registerRequest (ascii keyA) (ascii keyB)) (Global.initial 3 1 10 2) .fresh = .ok handled ∧
      handled.reply = some reply ∧
      ∀ c, poetRegisterWithPk replyLibrary (PoetFunction.register.replyText reply) c =
        .ok (true, ⟨10, 1, 0, 2, 3⟩) := by
  have hA : printed64base (List.replicate 32 65) = ascii keyA := by decide
  have hB : printed64base (List.replicate 32 66) = ascii keyB := by decide
  have hrequest := replyLibrary_readsAs_register
  rw [← hA, ← hB] at hrequest
  have hkeys : (⟨true, true, true, 7, .delivered⟩ : Surroundings).keysLocked = true := rfl
  obtain ⟨-, -, handled, reply, node, hhandled, -, hreply, -, -, -, -, hread⟩ :=
    poetRegister_exchange (by decide) (by decide) (fun _ => 0) hkeys rfl (Global.initial 3 1 10 2) .fresh
      (by decide) (by decide) (by decide) (by decide) (by decide) (by decide) hrequest
      replyLibrary_readsAs_registered
  rw [hA, hB] at hhandled
  exact ⟨handled, reply, hhandled, hreply, hread⟩

/-! ## Unfinished nodes -/

/-- The record that the client sends, as the server reads it. -/
theorem jsonToNodeT_notified (raw : Json → ℤ) {mine sent : Node} {timeLeft : ℤ} (hmine : mine.InRange)
    (h : notifyReadditionOfNodeIntoQueue mine timeLeft = .ok (.notify sent)) :
    jsonToNodeT raw (nodeJson sent) = .ok (some sent) ∧ sent = { mine with timeLeft := timeLeft.toNat } ∧
      0 < timeLeft := by
  obtain ⟨_, hpos, h⟩ := Except.bind_eq_ok.mp h
  obtain ⟨_, hlt, h⟩ := Except.bind_eq_ok.mp h
  rw [ensure_eq_ok] at hpos hlt
  cases h
  obtain ⟨h1, h2, h3, h4, h5⟩ := hmine
  refine ⟨jsonToNodeT_nodeJson raw ⟨h1, h2, h3, h4, ?_⟩ ?_, rfl, hpos⟩
  · change timeLeft.toNat < uintSize
    omega
  · change timeLeft.toNat ≤ mine.sgxTime
    omega

/-- What becomes of a notice that a node with the entry `mine` in its own table has not finished and has
`timeLeft` left, for every state of the server: if the server has the same times for the node and not less
time left, it stores the time left, puts the node to the end of the queue, and the client is told so; if it
has the same arrival time and less time left, an assertion ends the server; in all other cases it changes
nothing, the client is told of the failure, and the connection ends. -/
theorem notifyReadditionOfNodeIntoQueue_exchange {σ : Type} {lib : JsonLibrary σ} (raw : Json → ℤ)
    (env : Surroundings) {g : Global} (hg : IndexedById g.sgxTable) (context : Context) {mine sent : Node}
    (hmine : mine.InRange) {timeLeft : ℤ}
    (h : notifyReadditionOfNodeIntoQueue mine timeLeft = .ok (.notify sent))
    (hrequest : lib.ReadsAs (unfinishedNodeRequest sent) (requestJson .unfinishedNode (nodeJson sent)))
    (hsuccess : lib.ReadsAs (PoetFunction.unfinishedNode.replyText .success) (statusJson "success"))
    (hfailure : lib.ReadsAs (PoetFunction.unfinishedNode.replyText .failure) (statusJson "failure")) :
    (∀ dest, g.sgxTable[mine.nodeId]? = some dest → dest.sgxTime = mine.sgxTime →
      dest.arrivalTime = mine.arrivalTime → timeLeft ≤ dest.timeLeft →
      ∃ handled, delegateMessage lib raw env (unfinishedNodeRequest sent) g context = .ok handled ∧
        handled.returned = true ∧
        handled.g.sgxTable = g.sgxTable.set mine.nodeId { dest with timeLeft := timeLeft.toNat } ∧
        handled.g.queue = g.queue.tail.dedup ++ [mine.nodeId] ∧ handled.reply = some .success ∧
        ∃ json, checkJsonSuccessStatus lib (PoetFunction.unfinishedNode.replyText .success) =
          .ok (some json)) ∧
    (∀ dest, g.sgxTable[mine.nodeId]? = some dest → dest.arrivalTime = mine.arrivalTime →
      dest.timeLeft < timeLeft →
      delegateMessage lib raw env (unfinishedNodeRequest sent) g context = .error .timeLeftNotIncreased) ∧
    ((∀ dest, g.sgxTable[mine.nodeId]? = some dest → dest.arrivalTime = mine.arrivalTime →
        dest.sgxTime ≠ mine.sgxTime ∧ timeLeft ≤ dest.timeLeft) →
      ∃ handled, delegateMessage lib raw env (unfinishedNodeRequest sent) g context = .ok handled ∧
        handled.returned = false ∧ handled.g = g ∧ handled.reply = some .failure ∧
        checkJsonSuccessStatus lib (PoetFunction.unfinishedNode.replyText .failure) = .ok none) := by
  obtain ⟨hjson, rfl, hpos⟩ := jsonToNodeT_notified raw hmine h
  rw [delegateMessage_of_accepted (acceptedMessage_requestJson hrequest), PoetFunction.function]
  refine ⟨fun dest hdest hsgx harrival hleft => ?_, fun dest hdest harrival hleft => ?_, fun hother => ?_⟩
  · have hid := hg _ dest hdest
    obtain ⟨repetitions, hr⟩ := poetUnfinishedNode_ok hjson (g := g)
      ⟨hdest, hid, hsgx, harrival, by change timeLeft.toNat ≤ _; omega⟩ context
    rw [hr]
    refine ⟨_, rfl, ?_, ?_, ?_, ?_, _, checkJsonSuccessStatus_success hsuccess⟩
    · cases env.delivery <;> rfl
    · rw [Handled.send_g]
    · rw [Handled.send_g]
    · rw [Handled.send_reply]
  · have hid := hg _ dest hdest
    have hassert : ¬(dest.arrivalTime ≠ mine.arrivalTime ∨ timeLeft.toNat ≤ dest.timeLeft) := by omega
    simp only [poetUnfinishedNode, hjson, Except.ok_bind, hdest, hid, ensure, if_neg hassert, Except.error_bind]
    rfl
  · have hrefused : poetUnfinishedNode raw (nodeJson { mine with timeLeft := timeLeft.toNat }) g context =
        .ok ⟨g, context, some .failure, false⟩ := by
      refine poetUnfinishedNode_refused_iff.mpr ⟨⟨_, rfl⟩, fun newNode dest hnew hdest => ?_⟩
      cases hjson.symm.trans hnew
      refine ⟨hg _ dest hdest, fun harrival => ?_, fun hsgx harrival => ?_⟩
      · change timeLeft.toNat ≤ dest.timeLeft
        have := (hother dest hdest harrival).2
        omega
      · exact (hother dest hdest harrival).1 hsgx
    rw [hrefused]
    refine ⟨_, rfl, ?_, ?_, ?_, checkJsonSuccessStatus_failure hfailure⟩
    · cases env.delivery <;> rfl
    · rw [Handled.send_g]
    · rw [Handled.send_reply]

set_option maxRecDepth 20000 in
/-- A node that has 2 of 6 left, in a server that has 4 left for it. -/
theorem notifyReadditionOfNodeIntoQueue_exchange_accepted :
    ∃ handled, delegateMessage readerLibrary (fun _ => 0) ⟨true, true, true, 9, .delivered⟩
        (unfinishedNodeRequest ⟨0, 7, 6, 0, 2⟩)
        { Global.initial 0 1 10 2 with sgxTable := [⟨0, 7, 6, 0, 4⟩], queue := [0] } .fresh = .ok handled ∧
      handled.returned = true ∧ handled.g.sgxTable = [⟨0, 7, 6, 0, 2⟩] ∧ handled.g.queue = [0] ∧
      handled.reply = some .success ∧
      ∃ json, checkJsonSuccessStatus readerLibrary (PoetFunction.unfinishedNode.replyText .success) =
        .ok (some json) := by
  have hindexed : IndexedById [⟨0, 7, 6, 0, 4⟩] := by
    intro i node h
    rcases i with _ | i
    · cases h
      rfl
    · cases h
  have hmine : Node.InRange ⟨0, 7, 6, 0, 6⟩ := by
    unfold Node.InRange
    decide
  have hnotify : notifyReadditionOfNodeIntoQueue ⟨0, 7, 6, 0, 6⟩ 2 = .ok (.notify ⟨0, 7, 6, 0, 2⟩) := rfl
  exact (notifyReadditionOfNodeIntoQueue_exchange (fun _ => 0) ⟨true, true, true, 9, .delivered⟩ hindexed
    .fresh hmine hnotify ⟨by decide, rfl⟩ ⟨by decide +kernel, rfl⟩ ⟨by decide, rfl⟩).1
    ⟨0, 7, 6, 0, 4⟩ rfl rfl rfl (by decide)

/-! ## The table and the queue on request -/

/-- The data of the reply of `poet_get_sgxtable_and_queue`. -/
def tableAndQueueData (queue : List ℕ) (table : List Node) : List (List UInt8 × Json) :=
  [(ascii "queue", .array (queue.map fun u : ℕ => .integer u)),
    (ascii "sgx_table", .array (table.map nodeJson))]

/-- The reply of `poet_get_sgxtable_and_queue`. -/
def tableAndQueueText (queue : List ℕ) (table : List Node) : List UInt8 :=
  ascii "\x7b\"status\":\"success\", \"data\":\x7b\"queue\": " ++ getQueueStr queue table ++
    ascii ", \"sgx_table\": " ++ getSgxTableStr table ++ ascii "\x7d\x7d"

/-- The client asks for the table and the queue, whatever it has: when the server is granted its lock, the
client has the server's table and queue afterwards, and keeps its time; otherwise it keeps what it has, and
the connection ends. The server's state stays the same. -/
theorem getQueueAndSgxTable_exchange {σ : Type} {lib : JsonLibrary σ} (raw : Json → ℤ)
    (env : Surroundings) {g : Global} (hg : g.Indexed) (hsmall : g.sgxTable.length ≤ intSize)
    (hrange : ∀ node ∈ g.sgxTable, node.InRange) (hleft : ∀ node ∈ g.sgxTable, node.timeLeft ≤ node.sgxTime)
    (context : Context) (m : Mirror)
    (hrequest : lib.ReadsAs getSgxtableAndQueueRequest (requestJson .getSgxtableAndQueue .null))
    (hdata : lib.ReadsAs (tableAndQueueText g.queue g.sgxTable)
      (successJson (tableAndQueueData (printedIds g.queue g.sgxTable) g.sgxTable)))
    (hfailure : lib.ReadsAs (PoetFunction.getSgxtableAndQueue.replyText .failure) (statusJson "failure")) :
    ∃ handled reply, delegateMessage lib raw env getSgxtableAndQueueRequest g context = .ok handled ∧
      handled.g = g ∧ handled.reply = some reply ∧
      (env.tableLocked = true →
        getQueueAndSgxTable lib raw (PoetFunction.getSgxtableAndQueue.replyText reply) m =
          .ok (true, ⟨g.sgxTable, g.queue, m.nodeCurrentTime⟩)) ∧
      (env.tableLocked = false → handled.returned = false ∧
        getQueueAndSgxTable lib raw (PoetFunction.getSgxtableAndQueue.replyText reply) m =
          .ok (false, m)) := by
  rw [delegateMessage_of_accepted (acceptedMessage_requestJson hrequest), PoetFunction.function,
    poetGetSgxtableAndQueue]
  cases hlocked : env.tableLocked with
  | true =>
    refine ⟨_, _, rfl, rfl, rfl, fun _ => ?_, fun hfalse => absurd hfalse (by decide)⟩
    have hids : printedIds g.queue g.sgxTable = g.queue :=
      printedIds_eq hg.table hg.queue fun u hu => (hg.queue u hu).trans_le hsmall
    rw [hids] at hdata
    have hqueue : getQueueFromJson raw (successJson (tableAndQueueData g.queue g.sgxTable)) m.queue =
        (true, g.queue) := by
      have hfind : findValue (successJson (tableAndQueueData g.queue g.sgxTable)) "queue" =
          some (.array (g.queue.map fun u : ℕ => .integer u)) := findValue_successJson rfl rfl rfl
      rw [getQueueFromJson, hfind]
      exact queueLoop_integers raw
        (fun u hu => ((hg.queue u hu).trans_le hsmall).trans (by decide)) []
    have htable : getSgxTableFromJson raw (successJson (tableAndQueueData g.queue g.sgxTable)) m.sgxTable =
        .ok (true, g.sgxTable) := by
      have hfind : findValue (successJson (tableAndQueueData g.queue g.sgxTable)) "sgx_table" =
          some (.array (g.sgxTable.map nodeJson)) := findValue_successJson rfl rfl rfl
      rw [getSgxTableFromJson, hfind]
      exact sgxTableLoop_nodeJson raw (fun node hnode => ⟨hrange node hnode, hleft node hnode⟩) []
    have hstatus := checkJsonSuccessStatus_successJson hdata
    change getQueueAndSgxTable lib raw (tableAndQueueText g.queue g.sgxTable) m = _
    simp only [getQueueAndSgxTable, hstatus, Except.ok_bind, hqueue, htable, if_true, Except.pure_eq_ok]
  | false =>
    refine ⟨_, _, rfl, rfl, rfl, fun htrue => absurd htrue (by decide), fun _ => ⟨rfl, ?_⟩⟩
    simp only [getQueueAndSgxTable, checkJsonSuccessStatus_failure hfailure, Except.ok_bind,
      Except.pure_eq_ok]

/-- Two nodes with the second in front, in a library that knows the texts of this exchange. -/
def exchangeLibrary : JsonLibrary Unit where
  newChecker _ := ()
  checkerChar _ _ := some ()
  checkerDone _ := true
  parse text :=
    if text = getSgxtableAndQueueRequest then some (requestJson .getSgxtableAndQueue .null)
    else if text = tableAndQueueText [1, 0] (freshNodes 2) then
      some (successJson (tableAndQueueData [1, 0] (freshNodes 2)))
    else if text = PoetFunction.getSgxtableAndQueue.replyText .failure then some (statusJson "failure")
    else none

theorem exchangeLibrary_readsAs :
    exchangeLibrary.ReadsAs getSgxtableAndQueueRequest (requestJson .getSgxtableAndQueue .null) ∧
      exchangeLibrary.ReadsAs (tableAndQueueText [1, 0] (freshNodes 2))
        (successJson (tableAndQueueData (printedIds [1, 0] (freshNodes 2)) (freshNodes 2))) ∧
      exchangeLibrary.ReadsAs (PoetFunction.getSgxtableAndQueue.replyText .failure)
        (statusJson "failure") := by
  have hne : tableAndQueueText [1, 0] (freshNodes 2) ≠ getSgxtableAndQueueRequest := by decide
  have hne' : PoetFunction.getSgxtableAndQueue.replyText .failure ≠ getSgxtableAndQueueRequest ∧
      PoetFunction.getSgxtableAndQueue.replyText .failure ≠ tableAndQueueText [1, 0] (freshNodes 2) := by
    decide
  have hprinted : printedIds [1, 0] (freshNodes 2) = [1, 0] := by decide
  refine ⟨⟨by decide, ?_⟩, ⟨by decide +kernel, ?_⟩, ⟨by decide, ?_⟩⟩
  · simp only [exchangeLibrary, if_true]
  · simp only [exchangeLibrary, if_neg hne, if_true, hprinted]
  · simp only [exchangeLibrary, if_neg hne'.1, if_neg hne'.2, if_true]

theorem getQueueAndSgxTable_exchange_two :
    ∃ handled reply, delegateMessage exchangeLibrary (fun _ => 0) ⟨true, true, true, 9, .delivered⟩
        getSgxtableAndQueueRequest
        { Global.initial 0 1 10 2 with sgxTable := freshNodes 2, queue := [1, 0] } .fresh = .ok handled ∧
      handled.reply = some reply ∧
      getQueueAndSgxTable exchangeLibrary (fun _ => 0)
          (PoetFunction.getSgxtableAndQueue.replyText reply) ⟨[], [], 5⟩ =
        .ok (true, ⟨freshNodes 2, [1, 0], 5⟩) := by
  obtain ⟨hrequest, hdata, hfailure⟩ := exchangeLibrary_readsAs
  have hindexed : Global.Indexed
      { Global.initial 0 1 10 2 with sgxTable := freshNodes 2, queue := [1, 0] } :=
    ⟨freshNodes_indexed 2, by decide⟩
  obtain ⟨handled, reply, hhandled, -, hreply, hlocked, -⟩ :=
    getQueueAndSgxTable_exchange (fun _ => 0) ⟨true, true, true, 9, .delivered⟩ hindexed (by decide)
      (freshNodes_inRange (by decide)) (freshNodes_timeLeft 2) .fresh ⟨[], [], 5⟩ hrequest hdata hfailure
  exact ⟨handled, reply, hhandled, hreply, hlocked rfl⟩

end PoQ
