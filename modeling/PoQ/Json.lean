import PoQ.Base64
import PoQ.Basic
import PoQ.Lib.CString

/-!
# JSON values

The values that the parser hands to the program, `find_value`, and the node records read from them.
-/

namespace PoQ

open CString

/-- `json_value`. Names and texts are bytes. -/
inductive Json
  | object (entries : List (List UInt8 × Json))
  | array (values : List Json)
  | integer (n : ℤ)
  | double (bits : ℕ)
  | string (text : List UInt8)
  | boolean (b : Bool)
  | null

namespace Json

mutual

/-- The number of values in a tree. -/
def size : Json → ℕ
  | object entries => sizeEntries entries + 1
  | array values => sizeValues values + 1
  | _ => 1

def sizeEntries : List (List UInt8 × Json) → ℕ
  | [] => 0
  | (_, value) :: entries => value.size + sizeEntries entries

def sizeValues : List Json → ℕ
  | [] => 0
  | value :: values => value.size + sizeValues values

end

/-- The member `u.integer`. It shares its memory with the members for other types; what it then reads
is not determined by the parser's interface, and `raw` stands for it. -/
def uInteger (raw : Json → ℤ) : Json → ℤ
  | integer n => n
  | json => raw json

end Json

/-- `strcmp` finds no difference. -/
def sameString (a b : List UInt8) : Bool := cstr a = cstr b

/-- The loop of `find_value` on the queue of values still to be visited. Every value is visited at most
once, so that the fuel lasts if it is the size of the tree. -/
def findValueLoop (name : List UInt8) : ℕ → List Json → Option Json
  | 0, _ => none
  | _ + 1, [] => none
  | fuel + 1, u :: queue =>
    match u with
    | .object entries =>
      match entries.find? fun entry => sameString entry.1 name with
      | some entry => some entry.2
      | none => findValueLoop name fuel (queue ++ entries.map Prod.snd)
    | .array values => findValueLoop name fuel (queue ++ values)
    | _ => findValueLoop name fuel queue

/-- `find_value`, with the name given as text. -/
def findValue (u : Json) (name : String) : Option Json :=
  findValueLoop (ascii name) u.size [u]

/-- The field of a node record: `std::max(value->u.integer, 0)`. -/
def nodeField (raw : Json → ℤ) (root : Json) (name : String) : Option ℤ :=
  (findValue root name).map fun value => max (value.uInteger raw) 0

/-- `json_to_node_t`; there is no record when a field is missing. -/
def jsonToNodeT (raw : Json → ℤ) (json : Json) : Except Abort (Option Node) :=
  match json with
  | .object _ =>
    .ok do
      let nodeId := toUint (← nodeField raw json "node_id")
      let sgxTime := toUint (← nodeField raw json "sgx_time")
      let nLeadership := toUint (← nodeField raw json "n_leadership")
      let timeLeft := toUint (min (sgxTime : ℤ) (← nodeField raw json "time_left"))
      let arrivalTime := toUint (← nodeField raw json "arrival_time")
      return { nodeId, arrivalTime, sgxTime, nLeadership, timeLeft }
  | _ => .error .dataIsObject

/-- A node record as JSON: an entry of the table that is sent to the clients, or the data of an unfinished
node. -/
def nodeJson (node : Node) : Json :=
  .object [(ascii "node_id", .integer node.nodeId), (ascii "sgx_time", .integer node.sgxTime),
    (ascii "arrival_time", .integer node.arrivalTime), (ascii "time_left", .integer node.timeLeft),
    (ascii "n_leadership", .integer node.nLeadership)]

end PoQ
