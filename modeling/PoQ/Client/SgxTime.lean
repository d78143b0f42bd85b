import PoQ.JsonText
import PoQ.Server.Admissible

/-!
# The SGX time that a client draws

The server sends its bounds for the SGX times in the reply to a registration, `poet_register_with_pk` of
`poet_client.cpp` stores them, and `generate_random_sgx_time` draws a time between them. The bounds are
`size_t` variables of the server and `uint` variables of the client.
-/

namespace PoQ

/-- The variables that `poet_register_with_pk` sets. They are 0 at the start. -/
structure ClientConstants where
  sgxmax : ℕ
  sgxLowerbound : ℕ
  nodeId : ℕ
  ntiers : ℕ
  serverStartingTime : ℤ
deriving DecidableEq, Repr

def ClientConstants.initial : ClientConstants := ⟨0, 0, 0, 0, 0⟩

/-- `u.integer`, when the type is `json_integer`. -/
def Json.integer? : Json → Option ℤ
  | integer n => some n
  | _ => none

/-- A field of the reply, when it is an integer. -/
def integerField (json : Json) (name : String) : Option ℤ := (findValue json name).bind Json.integer?

/-- Storing such a field; a variable keeps its value when there is none. -/
def storedUint (field : Option ℤ) (old : ℕ) : ℕ := (field.map toUint).getD old

/-- The end of `poet_register_with_pk`, with the reply in `buffer`. Every field overwrites the state that
the one before it has left, so that the last one decides. -/
def poetRegisterWithPk {σ : Type} (lib : JsonLibrary σ) (buffer : List UInt8) (c : ClientConstants) :
    Except Abort (Bool × ClientConstants) := do
  if ← checkJsonCompliance lib buffer then
    match lib.parse buffer with
    | none => .error .nullPointer
    | some json =>
      match findValue json "status" with
      | some (.string s) =>
        if sameString s (ascii "success") then
          return ((integerField json "server_starting_time").isSome,
            { sgxmax := storedUint (integerField json "sgxmax") c.sgxmax
              sgxLowerbound := storedUint (integerField json "sgxt_lower") c.sgxLowerbound
              nodeId := storedUint (integerField json "node_id") c.nodeId
              ntiers := storedUint (integerField json "n_tiers") c.ntiers
              serverStartingTime :=
                (integerField json "server_starting_time").getD c.serverStartingTime })
        else return (false, c)
      | _ => return (false, c)
  else return (false, c)

/-- `generate_random_sgx_time`, with the random word of the enclave. -/
def generateRandomSgxTime (c : ClientConstants) (word : ℕ) : Except Abort ℕ := do
  let divisor := toUint (c.sgxmax - c.sgxLowerbound + 1)
  ensure (divisor ≠ 0) .divisionByZero
  return toUint (c.sgxLowerbound + (word % divisor : ℕ))

/-! ## The reply to a registration -/

/-- The text that `poet_register` writes. -/
def registeredText (sgxmax sgxtLowerbound nodeId nTiers serverStartingTime : ℕ) : List UInt8 :=
  ascii "\x7b\"status\":\"success\", \"data\": \x7b\"sgxmax\" : " ++ decimal sgxmax ++
    ascii ", \"sgxt_lower\": " ++ decimal sgxtLowerbound ++
    ascii ", \"node_id\" : " ++ decimal nodeId ++
    ascii ", \"n_tiers\": " ++ decimal nTiers ++
    ascii ", \"server_starting_time\": " ++ decimal serverStartingTime ++ ascii "\x7d\x7d"

/-- The value of a decimal number. Numbers from `2 ^ 63` on do not fit `json_int_t`; what the parser
makes of them is `big`. -/
def jsonNumber (big : ℕ → Json) (n : ℕ) : Json := if n < 2 ^ 63 then .integer n else big n

/-- The members of the reply's data. -/
def registeredData (big : ℕ → Json) (sgxmax sgxtLowerbound nodeId nTiers serverStartingTime : ℕ) :
    List (List UInt8 × Json) :=
  [(ascii "sgxmax", jsonNumber big sgxmax), (ascii "sgxt_lower", jsonNumber big sgxtLowerbound),
    (ascii "node_id", jsonNumber big nodeId), (ascii "n_tiers", jsonNumber big nTiers),
    (ascii "server_starting_time", jsonNumber big serverStartingTime)]

/-- A reply of success with these data. -/
def successJson (data : List (List UInt8 × Json)) : Json :=
  .object [(ascii "status", .string (ascii "success")), (ascii "data", .object data)]

/-- The library accepts the text, and reads this value from it. -/
structure JsonLibrary.ReadsAs {σ : Type} (lib : JsonLibrary σ) (text : List UInt8) (json : Json) :
    Prop where
  accepted : checkJsonCompliance lib text = .ok true
  parsed : lib.parse text = some json

/-- A field of the data is found when it is not the name of a member of the reply itself. -/
theorem findValue_successJson {name : String} {data : List (List UInt8 × Json)}
    {key : List UInt8} {value : Json} (hstatus : sameString (ascii "status") (ascii name) = false)
    (hdata : sameString (ascii "data") (ascii name) = false)
    (hentry : data.find? (fun entry => sameString entry.1 (ascii name)) = some (key, value)) :
    findValue (successJson data) name = some value := by
  have hsize : (successJson data).size = Json.sizeEntries data + 3 := by
    simp only [successJson, Json.size, Json.sizeEntries]
    omega
  rw [findValue, hsize]
  simp [findValueLoop, successJson, hstatus, hdata, hentry]

theorem findValue_status (data : List (List UInt8 × Json)) :
    findValue (successJson data) "status" = some (.string (ascii "success")) := rfl

theorem integerField_successJson {name : String} {data : List (List UInt8 × Json)}
    {key : List UInt8} {value : Json} (hstatus : sameString (ascii "status") (ascii name) = false)
    (hdata : sameString (ascii "data") (ascii name) = false)
    (hentry : data.find? (fun entry => sameString entry.1 (ascii name)) = some (key, value)) :
    integerField (successJson data) name = value.integer? := by
  rw [integerField, findValue_successJson hstatus hdata hentry]
  rfl

theorem integer?_jsonNumber {big : ℕ → Json} {n : ℕ} (h : n < 2 ^ 63) :
    (jsonNumber big n).integer? = some (n : ℤ) := by
  rw [jsonNumber, if_pos h]
  rfl

/-- The client stores what it reads, each bound in a variable of its own. -/
theorem poetRegisterWithPk_registered {σ : Type} {lib : JsonLibrary σ} {big : ℕ → Json}
    {sgxmax sgxtLowerbound nodeId nTiers serverStartingTime : ℕ} {text : List UInt8}
    (hlib : lib.ReadsAs text
      (successJson (registeredData big sgxmax sgxtLowerbound nodeId nTiers serverStartingTime)))
    (hstart : serverStartingTime < 2 ^ 63) :
    ∃ c, poetRegisterWithPk lib text .initial = .ok (true, c) ∧
      c.sgxmax = storedUint (jsonNumber big sgxmax).integer? 0 ∧
      c.sgxLowerbound = storedUint (jsonNumber big sgxtLowerbound).integer? 0 := by
  let data := registeredData big sgxmax sgxtLowerbound nodeId nTiers serverStartingTime
  have hmax : integerField (successJson data) "sgxmax" = (jsonNumber big sgxmax).integer? :=
    integerField_successJson rfl rfl rfl
  have hlower : integerField (successJson data) "sgxt_lower" =
      (jsonNumber big sgxtLowerbound).integer? :=
    integerField_successJson rfl rfl rfl
  have htime : integerField (successJson data) "server_starting_time" =
      (jsonNumber big serverStartingTime).integer? :=
    integerField_successJson rfl rfl rfl
  rw [integer?_jsonNumber hstart] at htime
  have hsuccess : sameString (ascii "success") (ascii "success") = true := rfl
  have hok : poetRegisterWithPk lib text .initial = .ok (true,
      { sgxmax := storedUint (integerField (successJson data) "sgxmax") 0
        sgxLowerbound := storedUint (integerField (successJson data) "sgxt_lower") 0
        nodeId := storedUint (integerField (successJson data) "node_id") 0
        ntiers := storedUint (integerField (successJson data) "n_tiers") 0
        serverStartingTime := serverStartingTime }) := by
    simp only [poetRegisterWithPk, hlib.accepted, hlib.parsed, Except.ok_bind, findValue_status,
      hsuccess, if_true, Except.pure_eq_ok]
    rw [htime]
    rfl
  exact ⟨_, hok, by rw [hmax], by rw [hlower]⟩

/-! ## Every draw is accepted -/

/-- A client that has registered draws a time that the server accepts, whatever the random word. -/
def DrawsAccepted {σ : Type} (lib : JsonLibrary σ) (config : Configuration)
    (nodeId serverStartingTime : ℕ) : Prop :=
  ∃ c, poetRegisterWithPk lib (registeredText config.sgxmax config.sgxtLowerbound nodeId
      config.nTiers serverStartingTime) .initial = .ok (true, c) ∧
    ∀ word < uintSize, ∃ sgxt, generateRandomSgxTime c word = .ok sgxt ∧
      announcedTime (config.server serverStartingTime).g (sgxtJson sgxt) = some sgxt

theorem toUint_lt (i : ℤ) : toUint i < uintSize := by
  unfold toUint uintSize
  omega

theorem toUint_natCast (n : ℕ) : toUint n = n % uintSize := by
  unfold toUint
  omega

theorem announcedTime_sgxtJson {g : Global} {sgxt : ℕ} (h : sgxt < uintSize) :
    announcedTime g (sgxtJson sgxt) = some sgxt ↔ g.sgxtLowerbound ≤ sgxt ∧ sgxt ≤ g.sgxmax := by
  have hfind : findValue (sgxtJson sgxt) "sgxt" = some (.integer sgxt) := rfl
  have hsgxt : toUint sgxt = sgxt := (toUint_natCast sgxt).trans (Nat.mod_eq_of_lt h)
  simp only [announcedTime, hfind, hsgxt]
  split
  · next hrange => exact iff_of_true rfl hrange
  · next hrange => exact iff_of_false nofun hrange

theorem generateRandomSgxTime_lt {c : ClientConstants} {word sgxt : ℕ}
    (h : generateRandomSgxTime c word = .ok sgxt) : sgxt < uintSize := by
  obtain ⟨_, -, h⟩ := Except.bind_eq_ok.mp h
  cases h
  exact toUint_lt _

/-- Bounds in order: the draws are between them. -/
theorem generateRandomSgxTime_ok {c : ClientConstants} (hpos : 0 < c.sgxLowerbound)
    (hle : c.sgxLowerbound ≤ c.sgxmax) (hlt : c.sgxmax < uintSize) (word : ℕ) :
    ∃ sgxt, generateRandomSgxTime c word = .ok sgxt ∧ c.sgxLowerbound ≤ sgxt ∧ sgxt ≤ c.sgxmax := by
  have hdivisor : toUint (c.sgxmax - c.sgxLowerbound + 1) = c.sgxmax - c.sgxLowerbound + 1 := by
    unfold toUint uintSize at *
    omega
  let drawn := word % (c.sgxmax - c.sgxLowerbound + 1)
  have hdrawn : drawn < c.sgxmax - c.sgxLowerbound + 1 := Nat.mod_lt _ (Nat.succ_pos _)
  have hsum : toUint (c.sgxLowerbound + (drawn : ℕ)) = c.sgxLowerbound + drawn := by
    unfold toUint uintSize at *
    omega
  refine ⟨c.sgxLowerbound + drawn, ?_, Nat.le_add_right _ _, by omega⟩
  simp only [generateRandomSgxTime, hdivisor, ensure_of (Nat.succ_ne_zero _), Except.ok_bind,
    Except.pure_eq_ok]
  rw [← hsum]

/-- Bounds out of order: the divisor is 0, or one word is drawn to 0. -/
theorem exists_generateRandomSgxTime_zero {c : ClientConstants} (hlt : c.sgxmax < c.sgxLowerbound)
    (hlower : c.sgxLowerbound < uintSize) :
    ∃ word < uintSize, generateRandomSgxTime c word = .error .divisionByZero ∨
      generateRandomSgxTime c word = .ok 0 := by
  refine ⟨uintSize - c.sgxLowerbound, by unfold uintSize at *; omega, ?_⟩
  by_cases hnext : c.sgxmax + 1 = c.sgxLowerbound
  · left
    have hdivisor : toUint (c.sgxmax - c.sgxLowerbound + 1) = 0 := by
      unfold toUint uintSize at *
      omega
    simp [generateRandomSgxTime, hdivisor, ensure]
  · right
    have hdivisor : toUint (c.sgxmax - c.sgxLowerbound + 1) =
        uintSize - c.sgxLowerbound + c.sgxmax + 1 := by
      unfold toUint uintSize at *
      omega
    have hword : (uintSize - c.sgxLowerbound) % (uintSize - c.sgxLowerbound + c.sgxmax + 1) =
        uintSize - c.sgxLowerbound := Nat.mod_eq_of_lt (by omega)
    have hsum : toUint (c.sgxLowerbound + (uintSize - c.sgxLowerbound : ℕ)) = 0 := by
      unfold toUint uintSize at *
      omega
    simp only [generateRandomSgxTime, hdivisor, ensure_of (Nat.succ_ne_zero _), Except.ok_bind,
      hword, hsum, Except.pure_eq_ok]

/-- With the lower bound as it is in the client, and an upper bound that is not larger: every draw is
accepted exactly when the lower bound fits a `uint` and is not above the upper bound of the client. -/
theorem forall_word_accepted_iff {c : ClientConstants} {g : Global}
    (hlower : g.sgxtLowerbound < uintSize → c.sgxLowerbound = g.sgxtLowerbound)
    (hupper : c.sgxmax ≤ g.sgxmax) (hlt : c.sgxmax < uintSize) (hpos : 0 < g.sgxtLowerbound) :
    (∀ word < uintSize, ∃ sgxt, generateRandomSgxTime c word = .ok sgxt ∧
        announcedTime g (sgxtJson sgxt) = some sgxt) ↔
      g.sgxtLowerbound < uintSize ∧ g.sgxtLowerbound ≤ c.sgxmax := by
  constructor
  · intro h
    have hfits : g.sgxtLowerbound < uintSize := by
      obtain ⟨sgxt, hdraw, haccepted⟩ := h 0 (by decide)
      have hsgxt := generateRandomSgxTime_lt hdraw
      exact ((announcedTime_sgxtJson hsgxt).mp haccepted).1.trans_lt hsgxt
    refine ⟨hfits, Nat.le_of_not_lt fun habove => ?_⟩
    rw [← hlower hfits] at habove
    obtain ⟨word, hword, hdraw⟩ :=
      exists_generateRandomSgxTime_zero habove (hlower hfits ▸ hfits)
    obtain ⟨sgxt, hok, haccepted⟩ := h word hword
    rcases hdraw with hdraw | hdraw
    · cases hdraw.symm.trans hok
    · cases hdraw.symm.trans hok
      have hzero : 0 < uintSize := by decide
      have hrange := (announcedTime_sgxtJson hzero).mp haccepted
      exact absurd hpos (Nat.not_lt.mpr hrange.1)
  · rintro ⟨hfits, hle⟩ word -
    have heq := hlower hfits
    obtain ⟨sgxt, hdraw, hge, hsgxt⟩ :=
      generateRandomSgxTime_ok (heq ▸ hpos) (heq ▸ hle) hlt word
    refine ⟨sgxt, hdraw, (announcedTime_sgxtJson (generateRandomSgxTime_lt hdraw)).mpr ?_⟩
    exact ⟨heq ▸ hge, hsgxt.trans hupper⟩

/-- A bound in the client. -/
theorem storedUint_jsonNumber {big : ℕ → Json} {n : ℕ} (h : n < 2 ^ 63) :
    storedUint (jsonNumber big n).integer? 0 = n % uintSize := by
  rw [integer?_jsonNumber h]
  exact toUint_natCast n

theorem storedUint_lt (field : Option ℤ) : storedUint field 0 < uintSize := by
  cases field with
  | none => decide
  | some i => exact toUint_lt i

/-- Every SGX time that a client draws is accepted exactly when the server's lower bound fits a `uint` and
is not above what the client has for the upper bound, which is the remainder modulo `2 ^ 32`; for an
upper bound from `2 ^ 63` on it is what the parser makes of it. -/
theorem drawsAccepted_iff {σ : Type} {lib : JsonLibrary σ} {big : ℕ → Json} {config : Configuration}
    {nodeId serverStartingTime : ℕ} (hstart : serverStartingTime < 2 ^ 63)
    (hlib : lib.ReadsAs
      (registeredText config.sgxmax config.sgxtLowerbound nodeId config.nTiers serverStartingTime)
      (successJson (registeredData big config.sgxmax config.sgxtLowerbound nodeId config.nTiers
        serverStartingTime))) :
    (config.sgxmax < 2 ^ 63 → (DrawsAccepted lib config nodeId serverStartingTime ↔
        config.sgxtLowerbound < 2 ^ 32 ∧ config.sgxtLowerbound ≤ config.sgxmax % 2 ^ 32)) ∧
      (2 ^ 63 ≤ config.sgxmax → (DrawsAccepted lib config nodeId serverStartingTime ↔
        config.sgxtLowerbound < 2 ^ 32 ∧
          config.sgxtLowerbound ≤ storedUint (big config.sgxmax).integer? 0)) := by
  obtain ⟨c, hc, hmax, hlower⟩ := poetRegisterWithPk_registered hlib hstart
  have hcmax : c.sgxmax < uintSize := hmax ▸ storedUint_lt _
  have hclower : config.sgxtLowerbound < uintSize → c.sgxLowerbound = config.sgxtLowerbound := by
    intro hfits
    have hsmall : config.sgxtLowerbound < 2 ^ 63 := by unfold uintSize at hfits; omega
    rw [hlower, storedUint_jsonNumber hsmall, Nat.mod_eq_of_lt hfits]
  have hiff : c.sgxmax ≤ config.sgxmax → (DrawsAccepted lib config nodeId serverStartingTime ↔
      config.sgxtLowerbound < uintSize ∧ config.sgxtLowerbound ≤ c.sgxmax) := by
    intro hle
    have hdraws := forall_word_accepted_iff (g := (config.server serverStartingTime).g) hclower hle hcmax
      config.lowerbound_pos
    refine ⟨fun ⟨c', hc', h⟩ => ?_, fun h => ⟨c, hc, hdraws.mpr h⟩⟩
    cases hc.symm.trans hc'
    exact hdraws.mp h
  constructor
  · intro hsmall
    rw [storedUint_jsonNumber hsmall] at hmax
    have hle : c.sgxmax ≤ config.sgxmax := hmax ▸ Nat.mod_le _ _
    rw [hiff hle, hmax]
    rfl
  · intro hlarge
    have hle : c.sgxmax ≤ config.sgxmax := by unfold uintSize at hcmax; omega
    rw [hiff hle, hmax, jsonNumber, if_neg (Nat.not_lt.mpr hlarge)]
    rfl

/-- A text without the blanks in front of its colons. -/
def tightened : List UInt8 → List UInt8
  | 32 :: 58 :: text => 58 :: tightened text
  | b :: text => b :: tightened text
  | [] => []

/-- The reader, for replies of the server. -/
def replyLibrary : JsonLibrary (List UInt8) where
  newChecker := readerLibrary.newChecker
  checkerChar := readerLibrary.checkerChar
  checkerDone text := (readJson (tightened text)).isSome
  parse text := readJson (tightened text)

/-- SGX times from 1 to `2 ^ 32`. -/
def upTo32Bits : Configuration :=
  ⟨1, 2 ^ 32, 1, by decide, by decide, by decide, Nat.one_pos, Nat.one_pos, by decide⟩

/-- The upper bound of the client is 0, and the divisor `0 - 1 + 1` is 0. -/
theorem not_drawsAccepted_upTo32Bits : ¬DrawsAccepted replyLibrary upTo32Bits 0 0 := by
  have hregistered : poetRegisterWithPk replyLibrary (registeredText (2 ^ 32) 1 0 1 0) .initial =
      .ok (true, ⟨0, 1, 0, 1, 0⟩) := by
    decide +kernel
  rintro ⟨c, hc, hdraws⟩
  cases hregistered.symm.trans hc
  obtain ⟨sgxt, hdraw, -⟩ := hdraws 0 (by decide)
  cases hdraw

set_option maxRecDepth 20000 in
theorem drawsAccepted_oneToTen : DrawsAccepted replyLibrary oneToTen 0 0 := by
  have haccepted : checkJsonCompliance replyLibrary (registeredText 10 1 0 2 0) = .ok true := by
    decide
  have hparsed : replyLibrary.parse (registeredText 10 1 0 2 0) =
      some (successJson (registeredData (fun _ => .null) 10 1 0 2 0)) := rfl
  have hlib : replyLibrary.ReadsAs
      (registeredText oneToTen.sgxmax oneToTen.sgxtLowerbound 0 oneToTen.nTiers 0)
      (successJson (registeredData (fun _ => .null) oneToTen.sgxmax oneToTen.sgxtLowerbound 0
        oneToTen.nTiers 0)) := ⟨haccepted, hparsed⟩
  exact ((drawsAccepted_iff (by decide) hlib).1 (by decide)).mpr (by decide)

end PoQ
