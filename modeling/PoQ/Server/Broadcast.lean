import PoQ.JsonText

/-!
# The text of the table and the queue

`node_t_to_json` of `general_structs.cpp`, `get_sgx_table_str` and `get_queue_str` of
`poet_server_functions.cpp`, and the text that `sgx_table_and_queue_notification` sends to the
subscribers. The texts are put together piece by piece, with a comma behind every element that is taken
away again behind the last one.
-/

namespace PoQ

/-- `node_t_to_json`. -/
def nodeTToJson (node : Node) : List UInt8 :=
  ascii "\x7b\"node_id\": " ++ decimal node.nodeId ++
    ascii ", \"sgx_time\": " ++ decimal node.sgxTime ++
    ascii ", \"arrival_time\": " ++ decimal node.arrivalTime ++
    ascii ", \"time_left\": " ++ decimal node.timeLeft ++
    ascii ", \"n_leadership\": " ++ decimal node.nLeadership ++ ascii "\x7d"

/-- `if (s.back() == ',') s.pop_back()`. -/
def popTrailingComma (s : List UInt8) : List UInt8 := if s.getLast? = some 44 then s.dropLast else s

/-- `get_sgx_table_str`, with the table locked. -/
def getSgxTableStr (table : List Node) : List UInt8 :=
  popTrailingComma (table.foldl (fun s node => s ++ nodeTToJson node ++ ascii ",") (ascii "[")) ++
    ascii "]"

/-- An `int` where a `size_t` is expected. -/
def toSizeT (i : ℤ) : ℕ := (i % 2 ^ 64).toNat

/-- `print_queue_value_into_buffer`. An id that is not in the table is left out. -/
def printQueueValueIntoBuffer (table : List Node) (queueStr : List UInt8) (d : ℕ) : List UInt8 :=
  match table[toSizeT (toInt d)]? with
  | some node => queueStr ++ decimal node.nodeId ++ ascii ","
  | none => queueStr

/-- `get_queue_str`. -/
def getQueueStr (queue : List ℕ) (table : List Node) : List UInt8 :=
  popTrailingComma (queue.foldl (printQueueValueIntoBuffer table) (ascii "[")) ++ ascii "]"

/-- The text of a notification. Each piece is appended by `strcat`, which finds the end of the text from
any position in it. -/
def notificationText (queue : List ℕ) (table : List Node) : List UInt8 :=
  ascii "\x7b\"data\":\x7b\"queue\": " ++ getQueueStr queue table ++ ascii ", \"sgx_table\": " ++
    getSgxTableStr table ++ ascii "\x7d\x7d"

/-! ## The values the texts stand for -/

/-- The value of a notification. -/
def notificationJson (queue : List ℕ) (table : List Node) : Json :=
  .object [(ascii "data", .object [(ascii "queue", .array (queue.map fun u : ℕ => .integer u)),
    (ascii "sgx_table", .array (table.map nodeJson))])]

/-- Every field is in the range of `uint`. -/
def Node.InRange (node : Node) : Prop :=
  node.nodeId < uintSize ∧ node.arrivalTime < uintSize ∧ node.sgxTime < uintSize ∧
    node.nLeadership < uintSize ∧ node.timeLeft < uintSize

/-- The elements of an array with commas in between, and the closing bracket. -/
def elementsText : List (List UInt8) → List UInt8
  | [] => [93]
  | [text] => text ++ [93]
  | text :: texts => text ++ 44 :: elementsText texts

theorem elementsText_cons_cons (text next : List UInt8) (texts : List (List UInt8)) :
    elementsText (text :: next :: texts) = text ++ 44 :: elementsText (next :: texts) := rfl

/-- A comma behind every element, and none behind the last. -/
theorem popTrailingComma_foldl (s text : List UInt8) (texts : List (List UInt8)) :
    popTrailingComma ((text :: texts).foldl (fun s text => s ++ text ++ ascii ",") s) ++ ascii "]" =
      s ++ elementsText (text :: texts) := by
  have hcomma : ascii "," = [44] := by decide
  have hbracket : ascii "]" = [93] := by decide
  induction texts generalizing s text with
  | nil => simp [popTrailingComma, hcomma, hbracket, elementsText]
  | cons next texts ih =>
    rw [List.foldl_cons, ih, elementsText_cons_cons, hcomma]
    simp

theorem popTrailingComma_elements (texts : List (List UInt8)) :
    popTrailingComma (texts.foldl (fun s text => s ++ text ++ ascii ",") (ascii "[")) ++ ascii "]" =
      91 :: elementsText texts := by
  cases texts with
  | nil => decide
  | cons text texts =>
    rw [popTrailingComma_foldl]
    rfl

/-- The text stands for the value, whatever follows, as long as it does not go on with a digit. -/
def TextOf (json : Json) (text : List UInt8) : Prop :=
  ∀ rest, EndsNumber rest → Reads (text ++ rest) (.value json) rest

theorem endsNumber_cons {b : UInt8} (h : isDigitByte b = false) (rest : List UInt8) :
    EndsNumber (b :: rest) := by
  simpa [EndsNumber] using h

theorem Reads.elementsText {values : List Json} {texts : List (List UInt8)}
    (h : List.Forall₂ TextOf values texts) (hne : values ≠ []) (rest : List UInt8) :
    Reads (elementsText texts ++ rest) (.elements values) rest := by
  induction h with
  | nil => exact absurd rfl hne
  | @cons value text values texts hv h ih =>
    cases h with
    | nil =>
      rw [PoQ.elementsText, List.append_assoc]
      exact .lastElement (hv _ (endsNumber_cons (by decide) rest))
    | cons hv' h' =>
      rw [elementsText_cons_cons, List.append_assoc]
      exact .element (hv _ (endsNumber_cons (by decide) _)) (ih (by simp))

theorem TextOf.array {values : List Json} {texts : List (List UInt8)}
    (h : List.Forall₂ TextOf values texts) : TextOf (.array values) (91 :: elementsText texts) := by
  intro rest _
  cases h with
  | nil => exact .emptyArray rest
  | cons hv h => exact .array (.elementsText (.cons hv h) (by simp) rest)

theorem TextOf.integer {n : ℕ} (h : n < uintSize) : TextOf (.integer n) (decimal n) :=
  fun _ hrest => .integer n (h.trans (by decide)) hrest

/-- A member as the program writes it: a number behind a blank. -/
theorem Reads.integerMember {name text rest : List UInt8} {n : ℕ}
    {entries : List (List UInt8 × Json)} (hname : PlainName name) (hn : n < uintSize)
    (h : Reads text (.members entries) rest) :
    Reads (34 :: (name ++ 34 :: 58 :: 32 :: (decimal n ++ 44 :: 32 :: text)))
      (.members ((name, .integer n) :: entries)) rest :=
  .member hname (.blank (TextOf.integer hn _ (endsNumber_cons (by decide) _))) (.memberBlank h)

theorem nodeTToJson_append (node : Node) (rest : List UInt8) :
    nodeTToJson node ++ rest = 123 :: 34 :: (ascii "node_id" ++ 34 :: 58 :: 32 ::
      (decimal node.nodeId ++ 44 :: 32 :: 34 :: (ascii "sgx_time" ++ 34 :: 58 :: 32 ::
      (decimal node.sgxTime ++ 44 :: 32 :: 34 :: (ascii "arrival_time" ++ 34 :: 58 :: 32 ::
      (decimal node.arrivalTime ++ 44 :: 32 :: 34 :: (ascii "time_left" ++ 34 :: 58 :: 32 ::
      (decimal node.timeLeft ++ 44 :: 32 :: 34 :: (ascii "n_leadership" ++ 34 :: 58 :: 32 ::
      (decimal node.nLeadership ++ 125 :: rest)))))))))) := by
  have h1 : ascii "\x7b\"node_id\": " = 123 :: 34 :: (ascii "node_id" ++ [34, 58, 32]) := by decide
  have h2 : ascii ", \"sgx_time\": " = 44 :: 32 :: 34 :: (ascii "sgx_time" ++ [34, 58, 32]) := by decide
  have h3 : ascii ", \"arrival_time\": " = 44 :: 32 :: 34 :: (ascii "arrival_time" ++ [34, 58, 32]) := by
    decide
  have h4 : ascii ", \"time_left\": " = 44 :: 32 :: 34 :: (ascii "time_left" ++ [34, 58, 32]) := by decide
  have h5 : ascii ", \"n_leadership\": " = 44 :: 32 :: 34 :: (ascii "n_leadership" ++ [34, 58, 32]) := by
    decide
  have h6 : ascii "\x7d" = [125] := by decide
  simp only [nodeTToJson, h1, h2, h3, h4, h5, h6, List.append_assoc, List.cons_append, List.nil_append]

theorem TextOf.node {node : Node} (h : node.InRange) : TextOf (nodeJson node) (nodeTToJson node) := by
  intro rest _
  obtain ⟨h1, h2, h3, h4, h5⟩ := h
  rw [nodeTToJson_append]
  refine .object (.integerMember (by decide) h1 (.integerMember (by decide) h3
    (.integerMember (by decide) h2 (.integerMember (by decide) h5 ?_))))
  exact .lastMember (by decide) (.blank (TextOf.integer h4 _ (endsNumber_cons (by decide) _)))

/-- The ids that are printed for a queue. -/
def printedIds (queue : List ℕ) (table : List Node) : List ℕ :=
  queue.filterMap fun d => table[toSizeT (toInt d)]?.map Node.nodeId

theorem getSgxTableStr_eq (table : List Node) :
    getSgxTableStr table = 91 :: elementsText (table.map nodeTToJson) := by
  rw [← popTrailingComma_elements, getSgxTableStr, List.foldl_map]

theorem getQueueStr_eq (queue : List ℕ) (table : List Node) :
    getQueueStr queue table = 91 :: elementsText ((printedIds queue table).map decimal) := by
  have hfold : ∀ s, queue.foldl (printQueueValueIntoBuffer table) s =
      ((printedIds queue table).map decimal).foldl (fun s text => s ++ text ++ ascii ",") s := by
    induction queue with
    | nil => intro s; rfl
    | cons d queue ih =>
      intro s
      rw [List.foldl_cons, ih, printQueueValueIntoBuffer, printedIds]
      cases hd : table[toSizeT (toInt d)]? <;> simp [hd, printedIds]
  rw [← popTrailingComma_elements, getQueueStr, hfold]

/-- The text of a notification is JSON for the ids printed and the table. -/
theorem notificationText_hasText (queue : List ℕ) {table : List Node}
    (htable : ∀ node ∈ table, node.InRange) :
    (notificationJson (printedIds queue table) table).HasText (notificationText queue table) := by
  have hqueue : TextOf (.array ((printedIds queue table).map fun u : ℕ => .integer u))
      (getQueueStr queue table) := by
    rw [getQueueStr_eq]
    refine .array ?_
    rw [List.forall₂_map_left_iff, List.forall₂_map_right_iff, List.forall₂_same]
    intro u hu
    obtain ⟨d, -, hd⟩ := List.mem_filterMap.mp hu
    obtain ⟨node, hnode, rfl⟩ := Option.map_eq_some_iff.mp hd
    exact .integer (htable node (List.mem_of_getElem? hnode)).1
  have htext : TextOf (.array (table.map nodeJson)) (getSgxTableStr table) := by
    rw [getSgxTableStr_eq]
    refine .array ?_
    rw [List.forall₂_map_left_iff, List.forall₂_map_right_iff, List.forall₂_same]
    exact fun node hnode => .node (htable node hnode)
  have hshape : notificationText queue table = 123 :: 34 :: (ascii "data" ++ 34 :: 58 :: 123 :: 34 ::
      (ascii "queue" ++ 34 :: 58 :: 32 :: (getQueueStr queue table ++ 44 :: 32 :: 34 ::
      (ascii "sgx_table" ++ 34 :: 58 :: 32 :: (getSgxTableStr table ++ 125 :: 125 :: []))))) := by
    have h1 : ascii "\x7b\"data\":\x7b\"queue\": " =
        123 :: 34 :: (ascii "data" ++ 34 :: 58 :: 123 :: 34 :: (ascii "queue" ++ [34, 58, 32])) := by
      decide
    have h2 : ascii ", \"sgx_table\": " = 44 :: 32 :: 34 :: (ascii "sgx_table" ++ [34, 58, 32]) := by
      decide
    have h3 : ascii "\x7d\x7d" = [125, 125] := by decide
    simp only [notificationText, h1, h2, h3, List.append_assoc, List.cons_append, List.nil_append]
  rw [Json.HasText, hshape]
  refine .object (.lastMember (by decide) (.object (.member (by decide)
    (.blank (hqueue _ (endsNumber_cons (by decide) _))) (.memberBlank (.lastMember (by decide)
    (.blank (htext _ (endsNumber_cons (by decide) _))))))))

theorem toSizeT_toInt {d : ℕ} (h : d < intSize) : toSizeT (toInt d) = d := by
  unfold intSize at h
  unfold toSizeT toInt
  rw [Int.bmod_eq_of_le (by omega) (by omega)]
  omega

/-- Ids that fit into an `int` are printed as they are. -/
theorem printedIds_eq {queue : List ℕ} {table : List Node} (hid : IndexedById table)
    (hqueue : ∀ u ∈ queue, u < table.length) (hsmall : ∀ u ∈ queue, u < intSize) :
    printedIds queue table = queue := by
  unfold printedIds
  refine (List.filterMap_congr fun d hd => ?_).trans List.filterMap_some
  have hnode := List.getElem?_eq_getElem (hqueue d hd)
  rw [toSizeT_toInt (hsmall d hd), hnode, Option.map_some, hid d _ hnode]

/-! ## The length of a notification -/

/-- The number of digits that `%u` prints. -/
def digitCount (n : ℕ) : ℕ := (decimal n).length

/-- The length of an array of texts of these lengths. -/
def arrayLength (lengths : List ℕ) : ℕ := lengths.sum + (lengths.length - 1) + 2

def nodeLength (node : Node) : ℕ :=
  78 + digitCount node.nodeId + digitCount node.sgxTime + digitCount node.arrivalTime +
    digitCount node.timeLeft + digitCount node.nLeadership

/-- The length of the notification of a queue and a table. -/
def notificationLength (queue : List ℕ) (table : List Node) : ℕ :=
  35 + arrayLength (queue.map digitCount) + arrayLength (table.map nodeLength)

theorem length_elementsText (texts : List (List UInt8)) :
    (91 :: elementsText texts).length = arrayLength (texts.map List.length) := by
  cases texts with
  | nil => rfl
  | cons text texts =>
    have key : (elementsText (text :: texts)).length =
        ((text :: texts).map List.length).sum + texts.length + 1 := by
      induction texts generalizing text with
      | nil => simp [elementsText]
      | cons next texts ih =>
        rw [elementsText_cons_cons, List.length_append, List.length_cons, ih]
        simp only [List.map_cons, List.sum_cons, List.length_cons]
        omega
    rw [List.length_cons, key, arrayLength, List.length_map, List.length_cons, Nat.add_sub_cancel]

theorem length_nodeTToJson (node : Node) : (nodeTToJson node).length = nodeLength node := by
  have h1 : (ascii "\x7b\"node_id\": ").length = 12 := by decide
  have h2 : (ascii ", \"sgx_time\": ").length = 14 := by decide
  have h3 : (ascii ", \"arrival_time\": ").length = 18 := by decide
  have h4 : (ascii ", \"time_left\": ").length = 15 := by decide
  have h5 : (ascii ", \"n_leadership\": ").length = 18 := by decide
  have h6 : (ascii "\x7d").length = 1 := by decide
  simp only [nodeTToJson, List.length_append, nodeLength, digitCount, h1, h2, h3, h4, h5, h6]
  omega

theorem length_notificationText (queue : List ℕ) (table : List Node) :
    (notificationText queue table).length = notificationLength (printedIds queue table) table := by
  have h1 : (ascii "\x7b\"data\":\x7b\"queue\": ").length = 18 := by decide
  have h2 : (ascii ", \"sgx_table\": ").length = 15 := by decide
  have h3 : (ascii "\x7d\x7d").length = 2 := by decide
  have hnodes : (table.map nodeTToJson).map List.length = table.map nodeLength := by
    rw [List.map_map]
    exact List.map_congr_left fun node _ => length_nodeTToJson node
  have hids : ((printedIds queue table).map decimal).map List.length =
      (printedIds queue table).map digitCount := List.map_map
  simp only [notificationText, List.length_append, getQueueStr_eq, getSgxTableStr_eq,
    length_elementsText, hnodes, hids, notificationLength, h1, h2, h3]
  omega

/-- Every entry of the table takes at least 78 characters. -/
theorem length_le_notificationLength (queue : List ℕ) (table : List Node) :
    78 * table.length ≤ notificationLength queue table := by
  have hsum : 78 * table.length ≤ (table.map nodeLength).sum := by
    induction table with
    | nil => simp
    | cons node table ih =>
      have : 78 ≤ nodeLength node := by unfold nodeLength; omega
      simp only [List.length_cons, List.map_cons, List.sum_cons]
      omega
  simp only [notificationLength, arrayLength]
  omega

end PoQ
