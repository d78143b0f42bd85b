import PoQ.FindValue
import PoQ.Server.Session

/-!
# The format of messages

The clients send objects with the entries `method` and `data`. `check_message_integrity` and
`delegate_message` look for both with `find_value`, which goes through the whole tree: what is missing in
the object may be found further inside.
-/

namespace PoQ

/-- The value is an object with this entry. -/
def HasEntry (json : Json) (name : String) (value : Json) : Prop :=
  ∃ entries key, json = .object entries ∧ (key, value) ∈ entries ∧ sameString key (ascii name) = true

/-- The value is a text, and names the handler. -/
def NamesHandler (value : Json) (i : PoetFunction) : Prop :=
  ∃ s, value = .string s ∧ i ∈ poetFunctions ∧ sameString s (ascii i.name) = true

/-- The format of a message: an object of at least two entries, with `method` and `data` among them. -/
structure IsMessage (json : Json) : Prop where
  entries : ∃ entries, json = .object entries ∧ 2 ≤ entries.length
  method : ∃ value i, HasEntry json "method" value ∧ NamesHandler value i
  data : ∃ value, HasEntry json "data" value

/-- The dispatcher accepts the value exactly when it is a message, and runs the handler that is named in
it on the data that is in it. -/
structure DispatchesFormat (json : Json) : Prop where
  accepts : checkMessageIntegrity json = true ↔ IsMessage json
  runs : checkMessageIntegrity json = true → ∃ method i data, HasEntry json "method" method ∧
    NamesHandler method i ∧
    HasEntry json "data" data ∧ ∀ {σ : Type} (lib : JsonLibrary σ) (raw : Json → ℤ) (env : Surroundings)
      (buffer : List UInt8) (g : Global) (context : Context), checkJsonCompliance lib buffer = .ok true →
        lib.parse buffer = some json →
          delegateMessage lib raw env buffer g context = i.function raw env data g context

/-- Where an object of two entries has what belongs to a message: both in the object itself, where the
first `method` names a handler or none of them does; or not both in the object, and the first `method` of
the tree names no handler, or there is no `data` in the tree. -/
def WellPlaced (json : Json) : Prop :=
  (∃ entries, json = .object entries ∧ 2 ≤ entries.length) →
    (∃ method data, entryNamed (ascii "method") json = some method ∧
      entryNamed (ascii "data") json = some data ∧
      ((∃ i, NamesHandler method i) ∨ ∀ value i, HasEntry json "method" value → ¬NamesHandler value i)) ∨
    (entryNamed (ascii "method") json = none ∨ entryNamed (ascii "data") json = none) ∧
      ((∀ method i, FirstEntry (ascii "method") json method → ¬NamesHandler method i) ∨
        Unnamed (ascii "data") json)

variable {json value : Json} {name : String}

theorem hasEntry_of_entryNamed (h : entryNamed (ascii name) json = some value) :
    HasEntry json name value := by
  obtain ⟨entries, key, position, rfl, hentry, hname, -⟩ := entryNamed_eq_some h
  exact ⟨entries, key, rfl, List.mem_of_getElem? hentry, hname⟩

theorem HasEntry.entryNamed_ne_none (h : HasEntry json name value) :
    entryNamed (ascii name) json ≠ none := by
  obtain ⟨entries, key, rfl, hmem, hname⟩ := h
  intro hnone
  have hdifferent := entryNamed_eq_none.mp hnone entries rfl _ hmem
  rw [hname] at hdifferent
  cases hdifferent

/-- What is in the object itself is found first. -/
theorem findValue_of_entryNamed (h : entryNamed (ascii name) json = some value) :
    findValue json name = some value := by
  obtain ⟨entries, -, -, rfl, -⟩ := entryNamed_eq_some h
  obtain ⟨entry, hfind, rfl⟩ := Option.map_eq_some_iff.mp h
  rw [findValue, Json.size, findValueLoop, hfind]

/-- What `check_message_integrity` checks. -/
theorem checkMessageIntegrity_iff :
    checkMessageIntegrity json = true ↔
      (∃ entries, json = .object entries ∧ 2 ≤ entries.length) ∧
        (∃ method i, findValue json "method" = some method ∧ NamesHandler method i) ∧
          findValue json "data" ≠ none := by
  cases json with
  | object entries =>
    cases hfind : findValue (.object entries) "method" with
    | none => simp [checkMessageIntegrity, hfind]
    | some method =>
      cases method with
      | string s => simp [checkMessageIntegrity, hfind, NamesHandler, Option.isSome_iff_ne_none, and_assoc]
      | object | array | integer | double | boolean | null =>
        simp [checkMessageIntegrity, hfind, NamesHandler]
  | array | integer | double | string | boolean | null => simp [checkMessageIntegrity]

/-- An accepted value is handed to a handler that `find_value` has found the name of. -/
theorem delegateMessage_of_findValue {method data : Json} {i : PoetFunction}
    (hmethod : findValue json "method" = some method) (hnames : NamesHandler method i)
    (hdata : findValue json "data" = some data) (haccepted : checkMessageIntegrity json = true) :
    ∃ j, NamesHandler method j ∧ ∀ {σ : Type} (lib : JsonLibrary σ) (raw : Json → ℤ) (env : Surroundings)
      (buffer : List UInt8) (g : Global) (context : Context), checkJsonCompliance lib buffer = .ok true →
        lib.parse buffer = some json →
          delegateMessage lib raw env buffer g context = j.function raw env data g context := by
  obtain ⟨s, rfl, hi, hname⟩ := hnames
  obtain ⟨j, hj⟩ : ∃ j, poetFunctions.find? (fun i => sameString s (ascii i.name)) = some j := by
    rw [← Option.isSome_iff_exists, List.find?_isSome]
    exact ⟨i, hi, hname⟩
  have hdelegated : json.delegated = some (j, data) := by
    rw [Json.delegated, hmethod, hdata]
    simp only [hj, Option.map_some]
  have hnamed : sameString s (ascii j.name) = true := by simpa using List.find?_some hj
  refine ⟨j, ⟨s, rfl, List.mem_of_find?_eq_some hj, hnamed⟩, ?_⟩
  intro σ lib raw env buffer g context hcompliant hparsed
  apply delegateMessage_of_accepted
  simp only [acceptedMessage, hcompliant, hparsed, haccepted, if_true, hdelegated]

/-- No object of two entries: it is refused, as it should be. -/
theorem dispatchesFormat_of_short (h : ¬∃ entries, json = .object entries ∧ 2 ≤ entries.length) :
    DispatchesFormat json := by
  have hrefused : ¬checkMessageIntegrity json = true :=
    fun haccepted => h (checkMessageIntegrity_iff.mp haccepted).1
  exact ⟨iff_of_false hrefused fun hmessage => h hmessage.entries,
    fun haccepted => absurd haccepted hrefused⟩

/-- Both entries are in the object itself. -/
theorem dispatchesFormat_iff_of_top {method data : Json}
    (hentries : ∃ entries, json = .object entries ∧ 2 ≤ entries.length)
    (hmethod : entryNamed (ascii "method") json = some method)
    (hdata : entryNamed (ascii "data") json = some data) :
    DispatchesFormat json ↔
      (∃ i, NamesHandler method i) ∨ ∀ value i, HasEntry json "method" value → ¬NamesHandler value i := by
  have hfind := findValue_of_entryNamed hmethod
  have haccepted : checkMessageIntegrity json = true ↔ ∃ i, NamesHandler method i := by
    rw [checkMessageIntegrity_iff, and_iff_right hentries, findValue_of_entryNamed hdata, hfind]
    simp
  constructor
  · intro h
    rcases Classical.em (∃ i, NamesHandler method i) with hnames | hnames
    · exact .inl hnames
    · right
      intro value i hvalue hi
      exact hnames (haccepted.mp (h.accepts.mpr ⟨hentries, ⟨value, i, hvalue, hi⟩, data,
        hasEntry_of_entryNamed hdata⟩))
  · intro h
    constructor
    · rw [haccepted]
      constructor
      · intro hnames
        obtain ⟨i, hi⟩ := hnames
        exact ⟨hentries, ⟨method, i, hasEntry_of_entryNamed hmethod, hi⟩, data,
          hasEntry_of_entryNamed hdata⟩
      · intro hmessage
        obtain ⟨value, i, hvalue, hi⟩ := hmessage.method
        exact h.resolve_right fun hnone => hnone value i hvalue hi
    · intro hok
      obtain ⟨i, hi⟩ := haccepted.mp hok
      obtain ⟨j, hj, hruns⟩ := delegateMessage_of_findValue hfind hi (findValue_of_entryNamed hdata) hok
      exact ⟨method, j, data, hasEntry_of_entryNamed hmethod, hj, hasEntry_of_entryNamed hdata, hruns⟩

/-- One of the entries is not in the object itself: then the value is no message, and has to be refused. -/
theorem dispatchesFormat_iff_of_nested (hentries : ∃ entries, json = .object entries ∧ 2 ≤ entries.length)
    (hmissing : entryNamed (ascii "method") json = none ∨ entryNamed (ascii "data") json = none) :
    DispatchesFormat json ↔
      (∀ method i, FirstEntry (ascii "method") json method → ¬NamesHandler method i) ∨
        Unnamed (ascii "data") json := by
  have hno : ¬IsMessage json := by
    intro h
    obtain ⟨method, _, hmethod, -⟩ := h.method
    obtain ⟨data, hdata⟩ := h.data
    rcases hmissing with hnone | hnone
    · exact hmethod.entryNamed_ne_none hnone
    · exact hdata.entryNamed_ne_none hnone
  have haccepted : checkMessageIntegrity json = true ↔
      (∃ method i, FirstEntry (ascii "method") json method ∧ NamesHandler method i) ∧
        ¬Unnamed (ascii "data") json := by
    rw [checkMessageIntegrity_iff, and_iff_right hentries, ne_eq, (findValue_spec json "data").1]
    simp only [(findValue_spec json "method").2]
  constructor
  · intro h
    rcases Classical.em (Unnamed (ascii "data") json) with hdata | hdata
    · exact .inr hdata
    · left
      intro method i hmethod hi
      exact hno (h.accepts.mp (haccepted.mpr ⟨⟨method, i, hmethod, hi⟩, hdata⟩))
  · intro h
    have hrefused : ¬checkMessageIntegrity json = true := by
      rw [haccepted]
      rintro ⟨⟨method, i, hmethod, hi⟩, hdata⟩
      rcases h with hnames | hunnamed
      · exact hnames method i hmethod hi
      · exact hdata hunnamed
    exact ⟨iff_of_false hrefused hno, fun hok => absurd hok hrefused⟩

/-- Every value is dispatched by its format exactly when it is well placed. -/
theorem dispatchesFormat_iff (json : Json) : DispatchesFormat json ↔ WellPlaced json := by
  rcases Classical.em (∃ entries, json = .object entries ∧ 2 ≤ entries.length) with hentries | hentries
  · rw [WellPlaced, forall_prop_of_true hentries]
    cases hmethod : entryNamed (ascii "method") json with
    | none => simp [dispatchesFormat_iff_of_nested hentries (.inl hmethod)]
    | some method =>
      cases hdata : entryNamed (ascii "data") json with
      | none => simp [dispatchesFormat_iff_of_nested hentries (.inr hdata)]
      | some data => simp [dispatchesFormat_iff_of_top hentries hmethod hdata]
  · exact iff_of_true (dispatchesFormat_of_short hentries) fun h => absurd h hentries

/-- Neither entry is in the object itself, in which there is a message and a number. -/
def wrappedMessage : Json :=
  .object [(ascii "wrapped", .object [(ascii "method", .string (ascii "get_queue")),
    (ascii "data", .null)]),
    (ascii "number", .integer 1)]

/-- It is accepted, though it is no message, and its inner one is handled. -/
theorem not_dispatchesFormat_wrappedMessage :
    checkMessageIntegrity wrappedMessage = true ∧ ¬IsMessage wrappedMessage ∧
      ¬DispatchesFormat wrappedMessage := by
  have haccepted : checkMessageIntegrity wrappedMessage = true := by decide
  have hno : ¬IsMessage wrappedMessage := by
    intro h
    obtain ⟨method, _, hmethod, -⟩ := h.method
    have hnone : entryNamed (ascii "method") wrappedMessage = none := rfl
    exact hmethod.entryNamed_ne_none hnone
  exact ⟨haccepted, hno, fun h => hno (h.accepts.mp haccepted)⟩

end PoQ
