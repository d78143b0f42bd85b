import PoQ.Client.Mirror
import PoQ.NodeRecord

/-!
# Updates that are rejected

`update_sgx_table_and_queue_from_txt` empties the client's queue and table before it reads the new ones, value
by value. When it comes upon a value that it cannot use, what has been read up to there, and what stands for
that value, is all that is left.
-/

namespace PoQ

/-- The ids that are pushed: those of the values up to the first one that is no integer, with that one. -/
def pushedIds (raw : Json → ℤ) (values : List Json) : List ℕ :=
  (values.take (values.findIdx (!·.isInteger) + 1)).map fun value => toUint (value.uInteger raw)

/-- A fresh node with the fields that `json_to_node_t` reads up to the first one that is missing. -/
def recordOf (raw : Json → ℤ) (json : Json) : Node :=
  match jsonToNodeTInto raw json ⟨0, 0, 0, 0, 0⟩ with
  | .ok (_, node) => node
  | .error _ => ⟨0, 0, 0, 0, 0⟩

/-- The records that are added: those up to the first one that is not complete, with that one. -/
def addedRecords (raw : Json → ℤ) (values : List Json) : List Node :=
  (values.take (values.findIdx (!·.isRecord) + 1)).map (recordOf raw)

theorem queueLoop_eq (raw : Json → ℤ) (values : List Json) (queue : List ℕ) :
    queueLoop raw values queue = (values.all Json.isInteger, queue ++ pushedIds raw values) := by
  induction values generalizing queue with
  | nil => simp [queueLoop, pushedIds]
  | cons value values ih =>
    cases value with
    | integer n =>
      rw [queueLoop]
      simp only [ih, pushedIds, List.findIdx_cons, List.append_assoc]
      simp [Json.isInteger]
    | _ => simp [queueLoop, pushedIds, List.findIdx_cons, Json.isInteger]

theorem jsonToNodeTInto_object (raw : Json → ℤ) (entries : List (List UInt8 × Json)) :
    jsonToNodeTInto raw (.object entries) ⟨0, 0, 0, 0, 0⟩ =
      .ok ((Json.object entries).isRecord, recordOf raw (.object entries)) := by
  have hok : ∃ r, jsonToNodeTInto raw (.object entries) ⟨0, 0, 0, 0, 0⟩ = .ok r ∧
      r.1 = (Json.object entries).isRecord := by
    refine ⟨_, rfl, ?_⟩
    simp only [Json.isRecord, nodeFields, List.all_cons, List.all_nil, storeField, nodeField]
    cases findValue (.object entries) "node_id" <;> try rfl
    cases findValue (.object entries) "sgx_time" <;> try rfl
    cases findValue (.object entries) "n_leadership" <;> try rfl
    cases findValue (.object entries) "time_left" <;> try rfl
    cases findValue (.object entries) "arrival_time" <;> rfl
  obtain ⟨⟨state, node⟩, hr, rfl⟩ := hok
  rw [recordOf, hr]

/-- The loop of `get_sgx_table_from_json`: it goes through, ends at an object that is no record, or fails at
a value that is no object. -/
theorem sgxTableLoop_eq (raw : Json → ℤ) (values : List Json) (table : List Node) :
    sgxTableLoop raw values table =
      match values.find? (!·.isRecord) with
      | none => .ok (true, table ++ addedRecords raw values)
      | some (.object _) => .ok (false, table ++ addedRecords raw values)
      | some _ => .error .dataIsObject := by
  induction values generalizing table with
  | nil => simp [sgxTableLoop, addedRecords]
  | cons value values ih =>
    cases value with
    | object entries =>
      rw [sgxTableLoop, jsonToNodeTInto_object, Except.ok_bind]
      cases hrecord : (Json.object entries).isRecord with
      | true =>
        simp only [if_true, ih, List.find?_cons, hrecord, Bool.not_true, addedRecords, List.findIdx_cons,
          cond_false, List.take_succ_cons, List.map_cons, List.append_assoc, List.singleton_append]
      | false =>
        simp [hrecord, addedRecords, List.findIdx_cons]
    | _ => rfl

/-- The values of the array with this name, when there is one. -/
def arrayNamed (json : Json) (name : String) : Option (List Json) :=
  match findValue json name with
  | some (.array values) => some values
  | _ => none

theorem getQueueFromJson_eq (raw : Json → ℤ) (json : Json) (queue : List ℕ) :
    getQueueFromJson raw json queue =
      match arrayNamed json "queue" with
      | some ids => (ids.all Json.isInteger, pushedIds raw ids)
      | none => (false, queue) := by
  rw [getQueueFromJson, arrayNamed]
  cases findValue json "queue" with
  | none => rfl
  | some value => cases value <;> first | rfl | exact queueLoop_eq raw _ []

theorem getSgxTableFromJson_eq (raw : Json → ℤ) (json : Json) (table : List Node) :
    getSgxTableFromJson raw json table =
      match arrayNamed json "sgx_table" with
      | some records => sgxTableLoop raw records []
      | none => .ok (false, table) := by
  rw [getSgxTableFromJson, arrayNamed]
  cases findValue json "sgx_table" with
  | none => rfl
  | some value => cases value <;> rfl

/-- Nothing of the client's table and queue is lost by an update with `json`: it has no queue; it is accepted
as a whole; it fails at a record that is no object, where the client ends; or what is read of it up to the
value that cannot be used is what the client has. -/
def KeepsView (raw : Json → ℤ) (json : Json) (m : Mirror) : Prop :=
  match arrayNamed json "queue", arrayNamed json "sgx_table" with
  | none, _ => True
  | some ids, none => pushedIds raw ids = m.queue
  | some ids, some records =>
    if ids.all Json.isInteger then
      match records.find? (!·.isRecord) with
      | none => True
      | some (.object _) => pushedIds raw ids = m.queue ∧ addedRecords raw records = m.sgxTable
      | some _ => True
    else pushedIds raw ids = m.queue

/-- A rejected update leaves the client's queue and table as they were exactly when nothing is read of it, it
is accepted or ends the client, or what is read of it is what the client has already. -/
theorem updateSgxTableAndQueueFromTxt_keeps_iff {σ : Type} (lib : JsonLibrary σ) (raw : Json → ℤ)
    (now serverStartingTime : ℤ) (buffer : List UInt8) (m : Mirror) :
    (∀ m', updateSgxTableAndQueueFromTxt lib raw now serverStartingTime buffer m = .ok (false, m') →
      m'.queue = m.queue ∧ m'.sgxTable = m.sgxTable) ↔
    (checkJsonCompliance lib buffer = .ok true → ∀ json, lib.parse buffer = some json →
      KeepsView raw json m) := by
  rw [updateSgxTableAndQueueFromTxt]
  cases checkJsonCompliance lib buffer with
  | error e => simp
  | ok compliant =>
    cases compliant with
    | false => simp
    | true =>
      cases lib.parse buffer with
      | none => simp
      | some json =>
        simp only [Except.ok_bind, if_true, forall_const, Option.some.injEq, forall_eq', KeepsView,
          getQueueFromJson_eq, getSgxTableFromJson_eq]
        cases arrayNamed json "queue" with
        | none => simp
        | some ids =>
          cases arrayNamed json "sgx_table" with
          | none => by_cases hall : ids.all Json.isInteger = true <;> simp [hall]
          | some records =>
            by_cases hall : ids.all Json.isInteger = true
            · simp only [if_pos hall, sgxTableLoop_eq]
              split <;> simp
            · simp only [if_neg hall]
              simp

/-- The text `{"queue": [1]}` for a client with the queue of node 0: it is rejected since it has no table, and
the queue is that of node 1. -/
theorem not_updateSgxTableAndQueueFromTxt_keeps :
    updateSgxTableAndQueueFromTxt readerLibrary (fun _ => 0) 7 0 (ascii "\x7b\"queue\": [1]\x7d") ⟨[], [0], 3⟩ =
      .ok (false, ⟨[], [1], 3⟩) := by
  decide +kernel

end PoQ
