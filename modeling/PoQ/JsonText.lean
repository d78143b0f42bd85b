import PoQ.Json

/-!
# JSON texts

The texts of JSON values, as far as the program writes them: decimal numbers without a sign, arrays,
objects whose names need no escapes, and blanks in front of values and members. The parser and the
checker that the program links against are not part of the repository; `JsonLibrary` stands for them,
and `JsonLibrary.Correct` says that they accept these texts and read the right value. `readItem` is a
reader that does.
-/

namespace PoQ

/-- The digits that `%u` prints. -/
def decimal (n : ℕ) : List UInt8 := (Nat.toDigits 10 n).map fun c => c.toNat.toUInt8

def isDigitByte (b : UInt8) : Bool := 48 ≤ b ∧ b ≤ 57

/-- A number that stands in front of `rest` ends there. -/
def EndsNumber (rest : List UInt8) : Prop := ∀ b ∈ rest.head?, isDigitByte b = false

/-- The bytes that may stand in a name as they are: no quote, no backslash, no control character, and
nothing outside ASCII. -/
def PlainName (name : List UInt8) : Prop := ∀ b ∈ name, b ≠ 34 ∧ b ≠ 92 ∧ 32 ≤ b ∧ b < 127

instance (name : List UInt8) : Decidable (PlainName name) :=
  List.decidableBAll (fun b => b ≠ 34 ∧ b ≠ 92 ∧ 32 ≤ b ∧ b < 127) name

/-- What is read from a text: a value, the values of an array up to its closing bracket, or the members
of an object up to its closing brace. -/
inductive Item
  | value (json : Json)
  | elements (values : List Json)
  | members (entries : List (List UInt8 × Json))

/-- `item` is read from the beginning of a text, and the rest is left. The bytes are a blank (32),
a quote (34), a comma (44), a colon (58), brackets (91, 93) and braces (123, 125). -/
inductive Reads : List UInt8 → Item → List UInt8 → Prop
  | blank {text rest : List UInt8} {value : Json} : Reads text (.value value) rest →
      Reads (32 :: text) (.value value) rest
  | integer {rest : List UInt8} (n : ℕ) : n < 2 ^ 63 → EndsNumber rest →
      Reads (decimal n ++ rest) (.value (.integer n)) rest
  | emptyArray (rest : List UInt8) : Reads (91 :: 93 :: rest) (.value (.array [])) rest
  | array {text rest : List UInt8} {values : List Json} : Reads text (.elements values) rest →
      Reads (91 :: text) (.value (.array values)) rest
  | object {text rest : List UInt8} {entries : List (List UInt8 × Json)} :
      Reads text (.members entries) rest → Reads (123 :: text) (.value (.object entries)) rest
  | lastElement {text rest : List UInt8} {value : Json} : Reads text (.value value) (93 :: rest) →
      Reads text (.elements [value]) rest
  | element {text text' rest : List UInt8} {value : Json} {values : List Json} :
      Reads text (.value value) (44 :: text') → Reads text' (.elements values) rest →
      Reads text (.elements (value :: values)) rest
  | memberBlank {text rest : List UInt8} {entries : List (List UInt8 × Json)} :
      Reads text (.members entries) rest → Reads (32 :: text) (.members entries) rest
  | lastMember {name text rest : List UInt8} {value : Json} : PlainName name →
      Reads text (.value value) (125 :: rest) →
      Reads (34 :: (name ++ 34 :: 58 :: text)) (.members [(name, value)]) rest
  | member {name text text' rest : List UInt8} {value : Json}
      {entries : List (List UInt8 × Json)} : PlainName name →
      Reads text (.value value) (44 :: text') → Reads text' (.members entries) rest →
      Reads (34 :: (name ++ 34 :: 58 :: text)) (.members ((name, value) :: entries)) rest

/-- The text is JSON for this value. -/
def Json.HasText (json : Json) (text : List UInt8) : Prop := Reads text (.value json) []

/-- The functions of `JSON_checker` and `json-parser` that the program calls. The checker is fed one
character at a time, and gives up at the first that does not fit. -/
structure JsonLibrary (σ : Type) where
  newChecker : ℕ → σ
  checkerChar : σ → UInt8 → Option σ
  checkerDone : σ → Bool
  parse : List UInt8 → Option Json

/-- JSON is accepted and read as it is. -/
structure JsonLibrary.Correct {σ : Type} (lib : JsonLibrary σ) : Prop where
  accepts : ∀ {json : Json} {text : List UInt8}, json.HasText text →
    ∃ jc, text.foldlM lib.checkerChar (lib.newChecker text.length) = some jc ∧
      lib.checkerDone jc = true
  parses : ∀ {json : Json} {text : List UInt8}, json.HasText text → lib.parse text = some json

/-! ## `check_json_compliance` -/

/-- The loop of `check_json_compliance` at the position `currentPos`, which is an `int`. It ends early
at a zero, or when the checker gives up. -/
def checkJsonComplianceLoop {σ : Type} (lib : JsonLibrary σ) :
    ℕ → List UInt8 → σ → Except Abort (Option σ)
  | _, [], jc => .ok (some jc)
  | currentPos, nextChar :: buffer, jc =>
    if nextChar = 0 then .ok (some jc)
    else do
      let jc := lib.checkerChar jc nextChar
      ensure (currentPos + 1 < intSize) .intOverflow
      match jc with
      | some jc => checkJsonComplianceLoop lib (currentPos + 1) buffer jc
      | none => return none

/-- `check_json_compliance`. -/
def checkJsonCompliance {σ : Type} (lib : JsonLibrary σ) (buffer : List UInt8) :
    Except Abort Bool :=
  if buffer.length = 0 then .ok false
  else do
    match ← checkJsonComplianceLoop lib 0 buffer (lib.newChecker buffer.length) with
    | some jc => return lib.checkerDone jc
    | none => return false

theorem checkJsonComplianceLoop_eq {σ : Type} {lib : JsonLibrary σ} {text : List UInt8} {jc jc' : σ}
    (hzero : ∀ b ∈ text, b ≠ 0) (h : text.foldlM lib.checkerChar jc = some jc') {currentPos : ℕ}
    (hpos : currentPos < intSize) :
    checkJsonComplianceLoop lib currentPos text jc =
      if currentPos + text.length < intSize then .ok (some jc') else .error .intOverflow := by
  induction text generalizing jc currentPos with
  | nil =>
    cases h
    simp [checkJsonComplianceLoop, hpos]
  | cons b text ih =>
    rw [List.foldlM_cons] at h
    obtain ⟨jc₁, hb, h⟩ := Option.bind_eq_some_iff.mp h
    have hb0 : b ≠ 0 := hzero b List.mem_cons_self
    simp only [checkJsonComplianceLoop, hb0, if_false, hb, List.length_cons]
    by_cases hlt : currentPos + 1 < intSize
    · rw [ensure_of hlt, Except.ok_bind, ih (fun b' hb' => hzero b' (List.mem_cons_of_mem _ hb')) h hlt]
      simp only [Nat.add_assoc, Nat.add_comm 1]
    · have hlong : ¬currentPos + (text.length + 1) < intSize := by omega
      rw [ensure, if_neg hlt, if_neg hlong, Except.error_bind]

/-! ## A reader -/

inductive ItemKind
  | value
  | elements
  | members
deriving DecidableEq, Repr

def Item.kind : Item → ItemKind
  | value _ => .value
  | elements _ => .elements
  | members _ => .members

def ofDecimal (digits : List UInt8) : ℕ := digits.foldl (fun n b => 10 * n + (b.toNat - 48)) 0

/-- Reads an item of a certain kind. Every second call takes a byte off the text. -/
def readItem : ℕ → ItemKind → List UInt8 → Option (Item × List UInt8)
  | 0, _, _ => none
  | fuel + 1, .value, 32 :: text => readItem fuel .value text
  | _ + 1, .value, 91 :: 93 :: rest => some (.value (.array []), rest)
  | fuel + 1, .value, 91 :: text =>
    match readItem fuel .elements text with
    | some (.elements values, rest) => some (.value (.array values), rest)
    | _ => none
  | fuel + 1, .value, 123 :: text =>
    match readItem fuel .members text with
    | some (.members entries, rest) => some (.value (.object entries), rest)
    | _ => none
  | _ + 1, .value, 34 :: text =>
    match text.dropWhile (· ≠ 34) with
    | 34 :: rest => some (.value (.string (text.takeWhile (· ≠ 34))), rest)
    | _ => none
  | _ + 1, .value, text =>
    match text.takeWhile isDigitByte with
    | [] => none
    | digits => some (.value (.integer (ofDecimal digits)), text.dropWhile isDigitByte)
  | fuel + 1, .elements, text =>
    match readItem fuel .value text with
    | some (.value value, 93 :: rest) => some (.elements [value], rest)
    | some (.value value, 44 :: text) =>
      match readItem fuel .elements text with
      | some (.elements values, rest) => some (.elements (value :: values), rest)
      | _ => none
    | _ => none
  | fuel + 1, .members, 32 :: text => readItem fuel .members text
  | fuel + 1, .members, 34 :: text =>
    match text.dropWhile (· ≠ 34) with
    | 34 :: 58 :: text' =>
      match readItem fuel .value text' with
      | some (.value value, 125 :: rest) =>
        some (.members [(text.takeWhile (· ≠ 34), value)], rest)
      | some (.value value, 44 :: text'') =>
        match readItem fuel .members text'' with
        | some (.members entries, rest) =>
          some (.members ((text.takeWhile (· ≠ 34), value) :: entries), rest)
        | _ => none
      | _ => none
    | _ => none
  | _ + 1, .members, _ => none

/-- A text that holds one value and nothing else. -/
def readJson (text : List UInt8) : Option Json :=
  match readItem (2 * text.length) .value text with
  | some (.value json, []) => some json
  | _ => none

/-- A checker that collects the text and reads it at the end. -/
def readerLibrary : JsonLibrary (List UInt8) where
  newChecker _ := []
  checkerChar text b := some (text ++ [b])
  checkerDone text := (readJson text).isSome
  parse := readJson

/-! ## The reader reads every text -/

theorem toNat_of_isDigit {c : Char} (h : c.isDigit = true) : 48 ≤ c.toNat ∧ c.toNat ≤ 57 := by
  simp only [Char.isDigit, Bool.and_eq_true, decide_eq_true_eq, UInt32.le_iff_toNat_le] at h
  exact h

theorem isDigitByte_of_mem_decimal {n : ℕ} {b : UInt8} (h : b ∈ decimal n) : isDigitByte b = true := by
  obtain ⟨c, hc, rfl⟩ := List.mem_map.mp h
  have hd := Nat.isDigit_of_mem_toDigits (by decide) (by decide) hc
  have hrange := toNat_of_isDigit hd
  simp only [isDigitByte, decide_eq_true_eq, UInt8.le_iff_toNat_le]
  simp
  omega

theorem ofDecimal_decimal (n : ℕ) : ofDecimal (decimal n) = n := by
  conv_rhs => rw [← Nat.ofDigitChars_ten_toDigits (n := n), Nat.ofDigitChars_eq_foldl]
  rw [ofDecimal, decimal, List.foldl_map]
  refine List.foldl_ext _ _ _ fun m c hc => ?_
  have := toNat_of_isDigit (Nat.isDigit_of_mem_toDigits (by decide) (by decide) hc)
  simp
  omega

theorem decimal_eq_cons (n : ℕ) : ∃ d ds, decimal n = d :: ds ∧ isDigitByte d = true := by
  obtain ⟨d, ds, h⟩ := List.exists_cons_of_ne_nil (l := decimal n)
    (by simp [decimal, Nat.toDigits_ne_nil])
  exact ⟨d, ds, h, isDigitByte_of_mem_decimal (n := n) (by simp [h])⟩

/-- A number is read up to its end. -/
theorem span_decimal {rest : List UInt8} (n : ℕ) (h : EndsNumber rest) :
    (decimal n ++ rest).takeWhile isDigitByte = decimal n ∧
      (decimal n ++ rest).dropWhile isDigitByte = rest := by
  have hn : ∀ b ∈ decimal n, isDigitByte b = true := fun b hb => isDigitByte_of_mem_decimal hb
  rw [List.takeWhile_append_of_pos hn, List.dropWhile_append_of_pos hn]
  cases rest with
  | nil => simp
  | cons b rest =>
    have hb : isDigitByte b = false := h b (by simp)
    simp [hb]

theorem readItem_decimal {rest : List UInt8} (fuel n : ℕ) (h : EndsNumber rest) :
    readItem (fuel + 1) .value (decimal n ++ rest) = some (.value (.integer n), rest) := by
  obtain ⟨htake, hdrop⟩ := span_decimal n h
  obtain ⟨d, ds, hds, hdigit⟩ := decimal_eq_cons n
  have hne : ∀ b : UInt8, isDigitByte b = false → d ≠ b := fun b hb h => by simp [h, hb] at hdigit
  rw [readItem, htake, hdrop, hds]
  · simp only [← hds, ofDecimal_decimal]
  · intro text h
    rw [hds, List.cons_append, List.cons.injEq] at h
    exact hne 32 (by decide) h.1
  · intro text h
    rw [hds, List.cons_append, List.cons.injEq] at h
    exact hne 91 (by decide) h.1
  · intro text h
    rw [hds, List.cons_append, List.cons.injEq] at h
    exact hne 91 (by decide) h.1
  · intro text h
    rw [hds, List.cons_append, List.cons.injEq] at h
    exact hne 123 (by decide) h.1
  · intro text h
    rw [hds, List.cons_append, List.cons.injEq] at h
    exact hne 34 (by decide) h.1

/-- A name is read up to its quote. -/
theorem PlainName.span {name : List UInt8} (h : PlainName name) (text : List UInt8) :
    (name ++ 34 :: text).takeWhile (· ≠ 34) = name ∧
      (name ++ 34 :: text).dropWhile (· ≠ 34) = 34 :: text := by
  have hn : ∀ b ∈ name, decide (b ≠ 34) = true := fun b hb => by simpa using (h b hb).1
  rw [List.takeWhile_append_of_pos hn, List.dropWhile_append_of_pos hn]
  simp

theorem PlainName.ne_zero {name text : List UInt8} (hname : PlainName name)
    (htext : ∀ b ∈ text, b ≠ 0) : ∀ b ∈ 34 :: (name ++ 34 :: 58 :: text), b ≠ 0 := by
  have hn : ∀ b ∈ name, b ≠ 0 := by
    rintro b hb rfl
    exact absurd (hname 0 hb).2.2.1 (by decide)
  simp only [List.mem_cons, List.mem_append]
  rintro b (rfl | hb | rfl | rfl | hb)
  · decide
  · exact hn b hb
  · decide
  · decide
  · exact htext b hb

theorem Reads.ne_zero {text rest : List UInt8} {item : Item} (h : Reads text item rest)
    (hrest : ∀ b ∈ rest, b ≠ 0) : ∀ b ∈ text, b ≠ 0 := by
  induction h with
  | integer n _ _ =>
    intro b hb
    rcases List.mem_append.mp hb with hb | hb
    · have := isDigitByte_of_mem_decimal hb
      rintro rfl
      simp [isDigitByte] at this
    · exact hrest b hb
  | emptyArray => simpa using hrest
  | blank _ ih | memberBlank _ ih | array _ ih | object _ ih => simpa using ih hrest
  | lastElement _ ih => exact ih (by simpa using hrest)
  | element _ _ ih ih' => exact ih (by simpa using ih' hrest)
  | lastMember hname _ ih =>
    have htext := ih (by simpa using hrest)
    exact hname.ne_zero htext
  | member hname _ _ ih ih' =>
    have htext := ih (by simpa using ih' hrest)
    exact hname.ne_zero htext

/-- A call for elements or members is followed by one for a value on the same text. -/
def ItemKind.weight : ItemKind → ℕ
  | value => 0
  | elements | members => 1

theorem Reads.length_lt {text rest : List UInt8} {item : Item} (h : Reads text item rest) :
    rest.length < text.length := by
  induction h with
  | integer n _ _ =>
    obtain ⟨d, ds, hds, -⟩ := decimal_eq_cons n
    simp only [hds, List.cons_append, List.length_cons, List.length_append]
    omega
  | emptyArray | blank _ ih | memberBlank _ ih | array _ ih | object _ ih | lastElement _ ih
  | element _ _ ih ih' | lastMember _ _ ih | member _ _ _ ih ih' =>
    simp only [List.length_cons, List.length_append] at *
    omega

/-- A value does not begin with a closing bracket. -/
theorem Reads.head?_ne {text rest : List UInt8} {item : Item} (h : Reads text item rest) :
    text.head? ≠ some 93 := by
  induction h with
  | integer n _ _ =>
    obtain ⟨d, ds, hds, hdigit⟩ := decimal_eq_cons n
    intro h
    rw [hds, List.cons_append, List.head?_cons, Option.some.injEq] at h
    simp [h, isDigitByte] at hdigit
  | lastElement _ ih => exact ih
  | element _ _ ih _ => exact ih
  | emptyArray | blank | memberBlank | array | object | lastMember | member =>
    rw [List.head?_cons]
    decide

/-- What is readable is not empty, so that there is fuel for a first step. -/
theorem Reads.exists_fuel {text rest : List UInt8} {item : Item} (h : Reads text item rest) {fuel : ℕ}
    (hfuel : 2 * text.length + item.kind.weight ≤ fuel) :
    ∃ f, fuel = f + 1 ∧ 2 * text.length + item.kind.weight ≤ f + 1 := by
  have hlen := h.length_lt
  obtain ⟨f, rfl⟩ := Nat.exists_eq_succ_of_ne_zero (n := fuel) (by omega)
  exact ⟨f, rfl, hfuel⟩

/-- The reader reads every text when it has two steps for every byte. -/
theorem Reads.readItem {text rest : List UInt8} {item : Item} (h : Reads text item rest) :
    ∀ fuel, 2 * text.length + item.kind.weight ≤ fuel →
      readItem fuel item.kind text = some (item, rest) := by
  induction h with
  | blank h ih =>
    intro fuel hfuel
    obtain ⟨fuel, rfl, hfuel⟩ := h.blank.exists_fuel hfuel
    simp only [List.length_cons] at hfuel
    exact ih fuel (by omega)
  | memberBlank h ih =>
    intro fuel hfuel
    obtain ⟨fuel, rfl, hfuel⟩ := h.memberBlank.exists_fuel hfuel
    simp only [List.length_cons] at hfuel
    exact ih fuel (by omega)
  | integer n hn hrest =>
    intro fuel hfuel
    obtain ⟨fuel, rfl, -⟩ := (Reads.integer n hn hrest).exists_fuel hfuel
    exact readItem_decimal fuel n hrest
  | emptyArray rest =>
    intro fuel hfuel
    obtain ⟨fuel, rfl, -⟩ := (Reads.emptyArray rest).exists_fuel hfuel
    rfl
  | @array text rest values h ih =>
    intro fuel hfuel
    obtain ⟨fuel, rfl, hfuel⟩ := h.array.exists_fuel hfuel
    simp only [Item.kind, ItemKind.weight, List.length_cons] at hfuel ih ⊢
    have hread := ih fuel (by omega)
    rw [PoQ.readItem]
    · rw [hread]
    · intro rest' h'
      exact h.head?_ne (by rw [h', List.head?_cons])
  | @object text rest entries h ih =>
    intro fuel hfuel
    obtain ⟨fuel, rfl, hfuel⟩ := h.object.exists_fuel hfuel
    simp only [Item.kind, ItemKind.weight, List.length_cons] at hfuel ih ⊢
    have hread := ih fuel (by omega)
    simp only [PoQ.readItem, hread]
  | @lastElement text rest value h ih =>
    intro fuel hfuel
    obtain ⟨fuel, rfl, hfuel⟩ := h.lastElement.exists_fuel hfuel
    simp only [Item.kind, ItemKind.weight] at hfuel ih ⊢
    have hread := ih fuel (by omega)
    simp only [PoQ.readItem, hread]
  | @element text text' rest value values h h' ih ih' =>
    intro fuel hfuel
    obtain ⟨fuel, rfl, hfuel⟩ := (h.element h').exists_fuel hfuel
    have hlen := h.length_lt
    simp only [Item.kind, ItemKind.weight, List.length_cons] at hfuel hlen ih ih' ⊢
    have hread := ih fuel (by omega)
    have hread' := ih' fuel (by omega)
    simp only [PoQ.readItem, hread, hread']
  | @lastMember name text rest value hname h ih =>
    intro fuel hfuel
    obtain ⟨fuel, rfl, hfuel⟩ := (Reads.lastMember hname h).exists_fuel hfuel
    simp only [Item.kind, ItemKind.weight, List.length_cons, List.length_append] at hfuel ih ⊢
    have hread := ih fuel (by omega)
    obtain ⟨htake, hdrop⟩ := hname.span (58 :: text)
    simp only [PoQ.readItem, htake, hdrop, hread]
  | @member name text text' rest value entries hname h h' ih ih' =>
    intro fuel hfuel
    obtain ⟨fuel, rfl, hfuel⟩ := (Reads.member hname h h').exists_fuel hfuel
    have hlen := h.length_lt
    simp only [Item.kind, ItemKind.weight, List.length_cons, List.length_append] at hfuel hlen ih ih' ⊢
    have hread := ih fuel (by omega)
    have hread' := ih' fuel (by omega)
    obtain ⟨htake, hdrop⟩ := hname.span (58 :: text)
    simp only [PoQ.readItem, htake, hdrop, hread, hread']

theorem readJson_of_hasText {json : Json} {text : List UInt8} (h : json.HasText text) :
    readJson text = some json := by
  have := h.readItem (2 * text.length) le_rfl
  simp only [Item.kind] at this
  rw [readJson, this]

theorem readerLibrary_correct : readerLibrary.Correct where
  accepts {json text} h := by
    have hfold : ∀ text seen : List UInt8, text.foldlM readerLibrary.checkerChar seen =
        some (seen ++ text) := by
      intro text
      induction text with
      | nil => intro seen; simp
      | cons b text ih =>
        intro seen
        rw [List.foldlM_cons]
        exact (ih (seen ++ [b])).trans (by simp)
    refine ⟨text, hfold text [], ?_⟩
    simp [readerLibrary, readJson_of_hasText h]
  parses h := readJson_of_hasText h

/-- JSON is found compliant unless the position passes the range of an `int`. -/
theorem checkJsonCompliance_hasText {σ : Type} {lib : JsonLibrary σ} (hlib : lib.Correct) {json : Json}
    {text : List UInt8} (h : json.HasText text) :
    checkJsonCompliance lib text =
      if text.length < intSize then .ok true else .error .intOverflow := by
  obtain ⟨jc, hfold, hdone⟩ := hlib.accepts h
  have hlen : text.length ≠ 0 := by
    have := h.length_lt
    simp at this
    omega
  have hzero : ∀ b ∈ text, b ≠ 0 := h.ne_zero (by simp)
  rw [checkJsonCompliance, if_neg hlen, checkJsonComplianceLoop_eq hzero hfold (by decide),
    Nat.zero_add]
  split
  · simp [hdone]
  · rfl

end PoQ
