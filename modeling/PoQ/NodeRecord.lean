import PoQ.Json

/-!
# Node records

`json_to_node_t` looks for the five names of a node record and stores what it finds. It looks neither at the
types of the values nor at their sizes.
-/

namespace PoQ

/-- The type of a value is `json_integer`. -/
def Json.isInteger : Json → Bool
  | .integer _ => true
  | _ => false

/-- The names of the fields, in the order in which `json_to_node_t` looks for them. -/
def nodeFields : List String := ["node_id", "sgx_time", "n_leadership", "time_left", "arrival_time"]

/-- The value is an object in which all of them are found. -/
def Json.isRecord : Json → Bool
  | .object entries => nodeFields.all fun name => (findValue (.object entries) name).isSome
  | _ => false

/-- The name resolves to an integer that fits a `uint` once it is not negative. -/
def IsField (json : Json) (name : String) (v : ℤ) : Prop :=
  findValue json name = some (.integer v) ∧ v < uintSize

/-- The fields of the node are the integers that the names resolve to, with 0 for negative ones and no more
time left than SGX time. -/
def IsNodeRecord (json : Json) (node : Node) : Prop :=
  ∃ nodeId sgxTime nLeadership timeLeft arrivalTime : ℤ,
    IsField json "node_id" nodeId ∧ IsField json "sgx_time" sgxTime ∧
    IsField json "n_leadership" nLeadership ∧ IsField json "time_left" timeLeft ∧
    IsField json "arrival_time" arrivalTime ∧
    node.nodeId = max nodeId 0 ∧ node.sgxTime = max sgxTime 0 ∧ node.nLeadership = max nLeadership 0 ∧
    node.timeLeft = min (max timeLeft 0) (max sgxTime 0) ∧ node.arrivalTime = max arrivalTime 0

/-- A record that is read: whatever the names resolve to is stored. -/
theorem jsonToNodeT_eq_some {raw : Json → ℤ} {entries : List (List UInt8 × Json)} {node : Node} :
    jsonToNodeT raw (.object entries) = .ok (some node) ↔
      ∃ nodeId sgxTime nLeadership timeLeft arrivalTime : Json,
        findValue (.object entries) "node_id" = some nodeId ∧
        findValue (.object entries) "sgx_time" = some sgxTime ∧
        findValue (.object entries) "n_leadership" = some nLeadership ∧
        findValue (.object entries) "time_left" = some timeLeft ∧
        findValue (.object entries) "arrival_time" = some arrivalTime ∧
        node.nodeId = toUint (max (nodeId.uInteger raw) 0) ∧
        node.sgxTime = toUint (max (sgxTime.uInteger raw) 0) ∧
        node.nLeadership = toUint (max (nLeadership.uInteger raw) 0) ∧
        node.timeLeft = toUint (min (toUint (max (sgxTime.uInteger raw) 0) : ℤ) (max (timeLeft.uInteger raw) 0)) ∧
        node.arrivalTime = toUint (max (arrivalTime.uInteger raw) 0) := by
  simp only [jsonToNodeT, nodeField]
  cases findValue (.object entries) "node_id" with
  | none => simp
  | some nodeId =>
    cases findValue (.object entries) "sgx_time" with
    | none => simp
    | some sgxTime =>
      cases findValue (.object entries) "n_leadership" with
      | none => simp
      | some nLeadership =>
        cases findValue (.object entries) "time_left" with
        | none => simp
        | some timeLeft =>
          cases findValue (.object entries) "arrival_time" with
          | none => simp
          | some arrivalTime =>
            constructor
            · intro h
              cases h
              exact ⟨_, _, _, _, _, rfl, rfl, rfl, rfl, rfl, rfl, rfl, rfl, rfl, rfl⟩
            · rintro ⟨_, _, _, _, _, ⟨⟩, ⟨⟩, ⟨⟩, ⟨⟩, ⟨⟩, h1, h2, h3, h4, h5⟩
              cases node
              cases h1
              cases h2
              cases h3
              cases h4
              cases h5
              rfl

theorem toUint_max {v : ℤ} (h : v < uintSize) : (toUint (max v 0) : ℤ) = max v 0 := by
  unfold toUint uintSize at *
  omega

/-- All names resolve, exactly if a record is read. -/
theorem exists_jsonToNodeT_iff {raw : Json → ℤ} {entries : List (List UInt8 × Json)} :
    (∃ node, jsonToNodeT raw (.object entries) = .ok (some node)) ↔
      ∀ name ∈ nodeFields, findValue (.object entries) name ≠ none := by
  simp only [jsonToNodeT_eq_some, nodeFields, List.forall_mem_cons, Option.ne_none_iff_exists']
  constructor
  · rintro ⟨_, _, _, _, _, _, h1, h2, h3, h4, h5, -⟩
    exact ⟨⟨_, h1⟩, ⟨_, h2⟩, ⟨_, h3⟩, ⟨_, h4⟩, ⟨_, h5⟩, by simp⟩
  · rintro ⟨⟨_, h1⟩, ⟨_, h2⟩, ⟨_, h3⟩, ⟨_, h4⟩, ⟨_, h5⟩, -⟩
    exact ⟨⟨_, _, _, _, _⟩, _, _, _, _, _, h1, h2, h3, h4, h5, rfl, rfl, rfl, rfl, rfl⟩

/-- Whatever `json_to_node_t` reads from an object is a node record exactly when one of the names is missing,
so that it reads nothing, or all of them resolve to integers below `2 ^ 32`. -/
theorem jsonToNodeT_isNodeRecord_iff (raw : Json → ℤ) (entries : List (List UInt8 × Json)) :
    (∀ node, jsonToNodeT raw (.object entries) = .ok (some node) → IsNodeRecord (.object entries) node) ↔
      (∃ name ∈ nodeFields, findValue (.object entries) name = none) ∨
        ∀ name ∈ nodeFields, ∃ v, IsField (.object entries) name v := by
  constructor
  · intro h
    by_cases hall : ∀ name ∈ nodeFields, findValue (.object entries) name ≠ none
    · obtain ⟨node, hnode⟩ := exists_jsonToNodeT_iff.mpr hall
      obtain ⟨_, _, _, _, _, h1, h2, h3, h4, h5, -⟩ := h node hnode
      right
      simp only [nodeFields, List.forall_mem_cons]
      exact ⟨⟨_, h1⟩, ⟨_, h2⟩, ⟨_, h3⟩, ⟨_, h4⟩, ⟨_, h5⟩, by simp⟩
    · push Not at hall
      exact .inl hall
  · rintro (⟨name, hname, hnone⟩ | hfields) node hnode
    · exact absurd hnone (exists_jsonToNodeT_iff.mp ⟨node, hnode⟩ name hname)
    · simp only [nodeFields, List.forall_mem_cons] at hfields
      obtain ⟨⟨v1, hv1⟩, ⟨v2, hv2⟩, ⟨v3, hv3⟩, ⟨v4, hv4⟩, ⟨v5, hv5⟩, -⟩ := hfields
      obtain ⟨_, _, _, _, _, h1, h2, h3, h4, h5, e1, e2, e3, e4, e5⟩ := jsonToNodeT_eq_some.mp hnode
      cases h1.symm.trans hv1.1
      cases h2.symm.trans hv2.1
      cases h3.symm.trans hv3.1
      cases h4.symm.trans hv4.1
      cases h5.symm.trans hv5.1
      refine ⟨v1, v2, v3, v4, v5, hv1, hv2, hv3, hv4, hv5, ?_, ?_, ?_, ?_, ?_⟩
      · rw [e1]
        exact toUint_max hv1.2
      · rw [e2]
        exact toUint_max hv2.2
      · rw [e3]
        exact toUint_max hv3.2
      · have hlt := hv2.2
        rw [e4]
        simp only [Json.uInteger, toUint_max hlt]
        unfold toUint uintSize at *
        omega
      · rw [e5]
        exact toUint_max hv5.2

/-- The id is a text, and the SGX time is `2 ^ 32 + 5`. -/
def oddRecord : Json :=
  .object [(ascii "node_id", .string (ascii "7")), (ascii "sgx_time", .integer (2 ^ 32 + 5)),
    (ascii "n_leadership", .integer 0), (ascii "time_left", .integer 3), (ascii "arrival_time", .integer 1)]

/-- It is read as a record of the SGX time 5, with the id 1, the length of the text, which shares its memory
with `u.integer`. -/
theorem not_jsonToNodeT_isNodeRecord :
    jsonToNodeT (fun _ => 1) oddRecord = .ok (some ⟨1, 1, 5, 0, 3⟩) ∧ ∀ node, ¬IsNodeRecord oddRecord node := by
  refine ⟨by decide, ?_⟩
  rintro node ⟨nodeId, _, _, _, _, hid, -⟩
  have hfind : findValue oddRecord "node_id" = some (.string (ascii "7")) := rfl
  cases hfind.symm.trans hid.1

end PoQ
