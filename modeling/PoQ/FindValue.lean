import PoQ.Json
import PoQ.Lib.LevelOrder
import PoQ.Queue

/-!
# The search of `find_value`

The loop of `find_value` with its two variables, the queue and the result: the values of an object are pushed until
one is found under the name. All counters stay within their types, since the text of a message has less than
`2 ^ 31` characters.
-/

namespace PoQ

open LevelOrder

/-- The loop of `find_value` over the entries of an object. A value is pushed before its name is compared, and the
first that has the name ends the loop. -/
def visitEntries (name : List UInt8) :
    List (List UInt8 × Json) → List Json → Option Json → List Json × Option Json
  | [], queue, r => (queue, r)
  | _ :: _, queue, some value => (queue, some value)
  | (key, value) :: entries, queue, none =>
    visitEntries name entries (queuePush queue value) (if sameString key name then some value else none)

/-- The body of the loop of `find_value`. -/
def visit (name : List UInt8) (u : Json) (queue : List Json) : List Json × Option Json :=
  match u with
  | .object entries => visitEntries name entries queue none
  | .array values => (values.foldl queuePush queue, none)
  | _ => (queue, none)

/-- The loop of `find_value`. -/
def findValueWhile (name : List UInt8) : ℕ → List Json → Option Json → Except Abort (Option Json)
  | _, [], r => .ok r
  | _, _ :: _, some value => .ok (some value)
  | 0, _ :: _, none => .error .outOfFuel
  | fuel + 1, u :: queue, none =>
    let (queue, r) := visit name u queue
    findValueWhile name fuel queue r

/-! ## Level order -/

/-- The values inside a value. -/
def Json.children : Json → List Json
  | object entries => entries.map Prod.snd
  | array values => values
  | _ => []

/-- The first entry of an object that has the name. -/
def entryNamed (name : List UInt8) : Json → Option Json
  | .object entries => (entries.find? fun entry => sameString entry.1 name).map Prod.snd
  | _ => none

theorem visitEntries_some (name : List UInt8) (entries : List (List UInt8 × Json)) (queue : List Json)
    (value : Json) : visitEntries name entries queue (some value) = (queue, some value) := by
  cases entries <;> rfl

theorem visitEntries_eq (name : List UInt8) (entries : List (List UInt8 × Json)) (queue : List Json) :
    (visitEntries name entries queue none).2 = entryNamed name (.object entries) ∧
      (entryNamed name (.object entries) = none →
        (visitEntries name entries queue none).1 = queue ++ entries.map Prod.snd) := by
  induction entries generalizing queue with
  | nil => exact ⟨rfl, fun _ => (List.append_nil queue).symm⟩
  | cons entry entries ih =>
    obtain ⟨key, value⟩ := entry
    rw [visitEntries, entryNamed]
    cases hname : sameString key name with
    | true =>
      rw [if_pos rfl, visitEntries_some, List.find?_cons_of_pos (by exact hname)]
      exact ⟨rfl, fun h => by cases h⟩
    | false =>
      obtain ⟨hfound, hqueue⟩ := ih (queuePush queue value)
      rw [if_neg Bool.false_ne_true, List.find?_cons_of_neg (by simp [hname])]
      refine ⟨hfound, fun h => ?_⟩
      rw [hqueue h, queuePush, List.append_assoc]
      rfl

theorem foldl_queuePush {α : Type*} (values queue : List α) : values.foldl queuePush queue = queue ++ values := by
  induction values generalizing queue with
  | nil => exact (List.append_nil queue).symm
  | cons value values ih => rw [List.foldl_cons, ih, queuePush, List.append_assoc]; rfl

/-- What a visit finds, and what it leaves in the queue when it finds nothing. -/
theorem visit_eq (name : List UInt8) (u : Json) (queue : List Json) :
    (visit name u queue).2 = entryNamed name u ∧
      (entryNamed name u = none → (visit name u queue).1 = queue ++ u.children) := by
  cases u with
  | object entries => exact visitEntries_eq name entries queue
  | array values => exact ⟨rfl, fun _ => foldl_queuePush values queue⟩
  | integer | double | string | boolean | null => exact ⟨rfl, fun _ => (List.append_nil queue).symm⟩

/-- The loop is the search for a name, level by level. -/
theorem findValueWhile_eq (name : List UInt8) (fuel : ℕ) (queue : List Json) :
    findValueWhile name fuel queue none =
      (search Json.children (entryNamed name) fuel queue).elim (.error .outOfFuel) .ok := by
  induction fuel generalizing queue with
  | zero => cases queue <;> rfl
  | succ fuel ih =>
    cases queue with
    | nil => rfl
    | cons u queue =>
      obtain ⟨hfound, hqueue⟩ := visit_eq name u queue
      rw [findValueWhile, search]
      simp only [hfound]
      cases hname : entryNamed name u with
      | some value => cases fuel <;> cases (visit name u queue).1 <;> rfl
      | none =>
        simp only [hqueue hname]
        exact ih _

/-- So is the loop that does without the variable for the result. -/
theorem findValueLoop_eq (name : List UInt8) (fuel : ℕ) (queue : List Json) :
    findValueLoop name fuel queue = (search Json.children (entryNamed name) fuel queue).getD none := by
  induction fuel generalizing queue with
  | zero => cases queue <;> rfl
  | succ fuel ih =>
    cases queue with
    | nil => rfl
    | cons u queue =>
      rw [search]
      cases u with
      | object entries =>
        rw [findValueLoop, entryNamed]
        cases entries.find? fun entry => sameString entry.1 name with
        | some entry => rfl
        | none => exact ih _
      | array values => exact ih _
      | integer | double | string | boolean | null =>
        simp only [findValueLoop, entryNamed, Json.children, List.append_nil]
        exact ih _

theorem Json.sizeEntries_eq (entries : List (List UInt8 × Json)) :
    Json.sizeEntries entries = ((entries.map Prod.snd).map Json.size).sum := by
  induction entries with
  | nil => rfl
  | cons entry entries ih => rw [sizeEntries, ih, List.map_cons, List.map_cons, List.sum_cons]

theorem Json.sizeValues_eq (values : List Json) : Json.sizeValues values = (values.map Json.size).sum := by
  induction values with
  | nil => rfl
  | cons value values ih => rw [sizeValues, ih, List.map_cons, List.sum_cons]

theorem Json.sum_size_children_lt (u : Json) : (u.children.map Json.size).sum < u.size := by
  cases u with
  | object entries =>
    rw [children, size, sizeEntries_eq]
    exact Nat.lt_succ_self _
  | array values =>
    rw [children, size, sizeValues_eq]
    exact Nat.lt_succ_self _
  | integer | double | string | boolean | null => exact Nat.one_pos

/-! ## Entries -/

/-- The value `w` stands somewhere in a tree. -/
inductive Json.Within (w : Json) : Json → Prop
  | self : Within w w
  | entry {entries : List (List UInt8 × Json)} {entry : List UInt8 × Json} : entry ∈ entries →
      Within w entry.2 → Within w (.object entries)
  | element {values : List Json} {value : Json} : value ∈ values → Within w value → Within w (.array values)

theorem Json.Within.of_mem_children {u v w : Json} (hv : v ∈ u.children) (h : Within w v) : Within w u := by
  cases u with
  | object entries =>
    obtain ⟨entry, hentry, rfl⟩ := List.mem_map.mp hv
    exact .entry hentry h
  | array values => exact .element hv h
  | integer | double | string | boolean | null => cases hv

/-- The values of a tree are those of its levels. -/
theorem Json.within_iff {u w : Json} : Within w u ↔ ∃ k, w ∈ level children [u] k := by
  constructor
  · intro h
    -- a value inside `v` is one level further below a value that holds `v`
    have hchild : ∀ {u v : Json}, v ∈ u.children → (∃ k, w ∈ level children [v] k) →
        ∃ k, w ∈ level children [u] k := by
      rintro u v hv ⟨k, hk⟩
      refine ⟨k + 1, ?_⟩
      rw [level_succ, mem_level]
      exact ⟨v, by simpa using hv, hk⟩
    induction h with
    | self => exact ⟨0, List.mem_singleton_self _⟩
    | entry hentry _ ih => exact hchild (List.mem_map_of_mem hentry) ih
    | element hvalue _ ih => exact hchild hvalue ih
  · rintro ⟨k, hk⟩
    induction k generalizing u with
    | zero =>
      cases List.mem_singleton.mp hk
      exact .self
    | succ k ih =>
      rw [level_succ, mem_level] at hk
      obtain ⟨v, hv, hk⟩ := hk
      exact .of_mem_children (by simpa using hv) (ih hk)

/-- No object of the tree has an entry of the name. -/
def Unnamed (name : List UInt8) (u : Json) : Prop :=
  ∀ entries, Json.Within (.object entries) u → ∀ entry ∈ entries, sameString entry.1 name = false

/-- An entry of the name: the depth of its object, the place of the object among the values of this depth, the place
of the entry in the object, and its value. -/
def EntryAt (name : List UInt8) (u : Json) (depth index position : ℕ) (value : Json) : Prop :=
  ∃ entries key, (level Json.children [u] depth)[index]? = some (.object entries) ∧
    entries[position]? = some (key, value) ∧ sameString key name = true

/-- The entry comes first in level order. -/
def FirstEntry (name : List UInt8) (u : Json) (value : Json) : Prop :=
  ∃ depth index position, EntryAt name u depth index position value ∧
    ∀ depth' index' position' value', EntryAt name u depth' index' position' value' →
      depth < depth' ∨ depth = depth' ∧ (index < index' ∨ index = index' ∧ position ≤ position')

theorem entryNamed_eq_none {name : List UInt8} {u : Json} :
    entryNamed name u = none ↔
      ∀ entries, u = .object entries → ∀ entry ∈ entries, sameString entry.1 name = false := by
  cases u with
  | object entries => simp [entryNamed]
  | array | integer | double | string | boolean | null => simp [entryNamed]

theorem EntryAt.entryNamed_ne_none {name : List UInt8} {u value : Json} {depth index position : ℕ}
    (h : EntryAt name u depth index position value) :
    ∃ v ∈ (level Json.children [u] depth)[index]?, entryNamed name v ≠ none := by
  obtain ⟨entries, key, hobject, hentry, hname⟩ := h
  refine ⟨_, hobject, fun hnone => ?_⟩
  have := entryNamed_eq_none.mp hnone entries rfl _ (List.mem_of_getElem? hentry)
  rw [hname] at this
  cases this

/-- There is nothing to pick exactly when no object has an entry of the name. -/
theorem unnamed_of_isFirst {name : List UInt8} {u : Json}
    (h : IsFirst Json.children (entryNamed name) [u] none) : Unnamed name u := by
  intro entries hwithin
  obtain ⟨k, hk⟩ := Json.within_iff.mp hwithin
  exact entryNamed_eq_none.mp (h k _ hk) entries rfl

/-- The entry that an object gives is the first of the name in it. -/
theorem entryNamed_eq_some {name : List UInt8} {u value : Json} (h : entryNamed name u = some value) :
    ∃ entries key, ∃ position : ℕ, u = .object entries ∧ entries[position]? = some (key, value) ∧
      sameString key name = true ∧
      ∀ (position' : ℕ) key' value', entries[position']? = some (key', value') → sameString key' name = true →
        position ≤ position' := by
  cases u with
  | object entries =>
    obtain ⟨⟨key, _⟩, hfind, rfl⟩ := Option.map_eq_some_iff.mp h
    obtain ⟨hname, before, after, rfl, hbefore⟩ := List.find?_eq_some_iff_append.mp hfind
    refine ⟨_, key, before.length, rfl, by simp, hname, fun position' key' value' hentry hname' => ?_⟩
    by_contra hlt
    rw [List.getElem?_append_left (Nat.not_le.mp hlt)] at hentry
    have := hbefore _ (List.mem_of_getElem? hentry)
    simp [hname'] at this
  | array | integer | double | string | boolean | null => cases h

/-- What is picked first is the first entry in level order. -/
theorem firstEntry_of_isFirst {name : List UInt8} {u value : Json}
    (h : IsFirst Json.children (entryNamed name) [u] (some value)) : FirstEntry name u value := by
  obtain ⟨depth, hbefore, hfirst⟩ := h
  obtain ⟨l₁, v, l₂, hlevel, hv, hl₁⟩ := List.findSome?_eq_some_iff.mp hfirst
  obtain ⟨entries, key, position, rfl, hentry, hname, hleast⟩ := entryNamed_eq_some hv
  have hobject : (level Json.children [u] depth)[l₁.length]? = some (.object entries) := by
    rw [hlevel]
    simp
  refine ⟨depth, l₁.length, position, ⟨entries, key, hobject, hentry, hname⟩, ?_⟩
  intro depth' index' position' value' hother
  obtain ⟨v', hv', hnamed⟩ := hother.entryNamed_ne_none
  -- no object above this depth, in front of this place, or of this object in front of this entry has the name
  rcases Nat.lt_trichotomy depth' depth with hlt | rfl | hgt
  · exact absurd (hbefore depth' hlt v' (List.mem_of_getElem? hv')) hnamed
  · refine .inr ⟨rfl, ?_⟩
    rcases Nat.lt_trichotomy index' l₁.length with hlt | rfl | hgt
    · rw [hlevel, Option.mem_def, List.getElem?_append_left hlt] at hv'
      exact absurd (hl₁ v' (List.mem_of_getElem? hv')) hnamed
    · obtain ⟨entries', key', hobject', hentry', hname'⟩ := hother
      cases hobject.symm.trans hobject'
      exact .inr ⟨rfl, hleast position' key' value' hentry' hname'⟩
    · exact .inl hgt
  · exact .inl hgt

/-- There is at most one first entry. -/
theorem FirstEntry.unique {name : List UInt8} {u value value' : Json} (h : FirstEntry name u value)
    (h' : FirstEntry name u value') : value = value' := by
  obtain ⟨d, i, p, hentry, hleast⟩ := h
  obtain ⟨d', i', p', hentry', hleast'⟩ := h'
  have hle := hleast _ _ _ _ hentry'
  have hle' := hleast' _ _ _ _ hentry
  obtain ⟨rfl, rfl, rfl⟩ : d = d' ∧ i = i' ∧ p = p' := by omega
  obtain ⟨entries, key, hobject, hvalue, -⟩ := hentry
  obtain ⟨entries', key', hobject', hvalue', -⟩ := hentry'
  cases hobject.symm.trans hobject'
  cases hvalue.symm.trans hvalue'
  rfl

theorem FirstEntry.not_unnamed {name : List UInt8} {u value : Json} (h : FirstEntry name u value) :
    ¬Unnamed name u := by
  obtain ⟨d, i, p, ⟨entries, key, hobject, hvalue, hname⟩, -⟩ := h
  intro hunnamed
  have hwithin : Json.Within (.object entries) u := Json.within_iff.mpr ⟨d, List.mem_of_getElem? hobject⟩
  have := hunnamed entries hwithin _ (List.mem_of_getElem? hvalue)
  rw [hname] at this
  cases this

/-- What is picked first, in terms of the entries. -/
theorem firstEntry_iff_of_isFirst {name : List UInt8} {u : Json} {r : Option Json}
    (h : IsFirst Json.children (entryNamed name) [u] r) :
    (r = none ↔ Unnamed name u) ∧ ∀ value, r = some value ↔ FirstEntry name u value := by
  cases r with
  | none =>
    have hunnamed := unnamed_of_isFirst h
    refine ⟨iff_of_true rfl hunnamed, fun value => iff_of_false (by simp) fun hfirst => ?_⟩
    exact hfirst.not_unnamed hunnamed
  | some value =>
    have hfirst := firstEntry_of_isFirst h
    refine ⟨iff_of_false (by simp) hfirst.not_unnamed, fun value' => ⟨fun heq => ?_, fun hfirst' => ?_⟩⟩
    · cases heq
      exact hfirst
    · rw [hfirst.unique hfirst']

/-- The fuel does not matter once there is enough of it. -/
theorem exists_search_eq (u : Json) (name : List UInt8) :
    ∃ r, (∀ fuel, u.size ≤ fuel → search Json.children (entryNamed name) fuel [u] = some r) ∧
      IsFirst Json.children (entryNamed name) [u] r := by
  have hrun : ∀ fuel, u.size ≤ fuel → ∃ r, search Json.children (entryNamed name) fuel [u] = some r ∧
      IsFirst Json.children (entryNamed name) [u] r := fun fuel hfuel =>
    search_isFirst Json.sum_size_children_lt (by simpa using hfuel)
  obtain ⟨r, -, hfirst⟩ := hrun u.size le_rfl
  refine ⟨r, fun fuel hfuel => ?_, hfirst⟩
  obtain ⟨r', hr', hfirst'⟩ := hrun fuel hfuel
  obtain ⟨hnone, hsome⟩ := firstEntry_iff_of_isFirst hfirst
  obtain ⟨hnone', hsome'⟩ := firstEntry_iff_of_isFirst hfirst'
  have heq : r' = r := by
    cases r with
    | none => exact hnone'.mpr (hnone.mp rfl)
    | some value => exact (hsome' value).mpr ((hsome value).mp rfl)
  rw [hr', heq]

/-- What `find_value` returns, in terms of the entries. -/
theorem findValue_spec (u : Json) (name : String) :
    (findValue u name = none ↔ Unnamed (ascii name) u) ∧
      ∀ value, findValue u name = some value ↔ FirstEntry (ascii name) u value := by
  obtain ⟨r, hr, hfirst⟩ := exists_search_eq u (ascii name)
  have hfind : findValue u name = r := by
    rw [findValue, findValueLoop_eq, hr u.size le_rfl]
    rfl
  rw [hfind]
  exact firstEntry_iff_of_isFirst hfirst

/-- For every tree and every name the loop of `find_value` ends, after at most as many passes as the tree has values. It
returns nothing exactly when no object of the tree has an entry of the name, and a value exactly when it is that of
the first such entry in level order. -/
theorem findValue_levelOrder (u : Json) (name : List UInt8) :
    ∃ r, (∀ fuel, u.size ≤ fuel → findValueWhile name fuel [u] none = .ok r) ∧
      findValueLoop name u.size [u] = r ∧ (r = none ↔ Unnamed name u) ∧
      ∀ value, r = some value ↔ FirstEntry name u value := by
  obtain ⟨r, hr, hfirst⟩ := exists_search_eq u name
  refine ⟨r, fun fuel hfuel => ?_, ?_, firstEntry_iff_of_isFirst hfirst⟩
  · rw [findValueWhile_eq, hr fuel hfuel]
    rfl
  · rw [findValueLoop_eq, hr u.size le_rfl]
    rfl

/-- The first object has the name deeper inside, and the second one has it twice. -/
example :
    findValueWhile (ascii "a") 9 [.array [.object [(ascii "b", .object [(ascii "a", .null)])],
      .object [(ascii "a", .integer 1), (ascii "a", .integer 2)]]] none = .ok (some (.integer 1)) :=
  rfl

end PoQ
