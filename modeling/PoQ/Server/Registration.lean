import Mathlib.Data.List.Nodup
import Mathlib.Data.Nat.ModEq
import PoQ.Server.Connections

/-!
# Ids and keys

The ids in the replies to a sequence of registrations. A key that is known already has an id of its
own, but the registration goes on and hands out the next one; and when the locks for the counter are
not granted, the reply carries the id that the node of the connection happens to have.
-/

namespace PoQ

open CString

/-- A registration on a connection, with the outcomes of the two timed locks. -/
structure Registration where
  connection : ℕ
  keysLocked : Bool
  idsLocked : Bool
  json : Json

namespace Registration

def request (a : Registration) : ℕ × Request :=
  (a.connection, .register a.keysLocked a.idsLocked a.json)

/-- A text of the request, as the C string that the handler makes of it. -/
def text (a : Registration) (name : String) : Option (List UInt8) :=
  match findValue a.json name with
  | some (.string text) => some (cstr text)
  | _ => none

def publicKey (a : Registration) : Option (List UInt8) := a.text "public_key"

/-- Whether the key and the signature are accepted. The keys that are known already have no part in
this. -/
def verdict (a : Registration) : Except Abort Bool :=
  match a.publicKey, a.text "signature" with
  | some pkStr, some signStr =>
    (checkPublicKeyAndSignatureRegistration a.keysLocked [] pkStr signStr ⟨0, 0, 0, 0, 0⟩).map
      Prod.fst
  | _, _ => .ok false

end Registration

/-- The id in the reply to a registration. -/
def Reply.nodeId : Reply → Option ℕ
  | registered _ _ nodeId _ _ => some nodeId
  | _ => none

/-- The reply to a request. -/
def Server.reply (raw : Json → ℤ) (s : Server) : ℕ × Request → Option Reply
  | (c, request) =>
    match request.handler raw s.g (s.contexts c) with
    | .ok r => r.reply
    | .error _ => none

/-- The requests are handled one after the other, up to the first one that does not return: what is
sent back to each, and the server afterwards. -/
def Server.respond (raw : Json → ℤ) : Server → List (ℕ × Request) → List (Option Reply) × Server
  | s, [] => ([], s)
  | s, a :: l =>
    match s.serve raw a with
    | .error _ => ([], s)
    | .ok t => (s.reply raw a :: (t.respond raw l).1, (t.respond raw l).2)

/-- The ids of the success replies. -/
def registeredIds (replies : List (Option Reply)) : List ℕ :=
  replies.filterMap fun reply => reply.bind Reply.nodeId

/-! ## One registration -/

/-- The known keys decide the id of the node, and nothing else. -/
theorem checkPublicKeyAndSignatureRegistration_eq (locked : Bool)
    (publicKeys : List (List UInt8 × ℕ)) (pkStr signStr : List UInt8) (node : Node) :
    ∃ nodeId, (publicKeys.lookup pkStr = none → nodeId = node.nodeId) ∧
      checkPublicKeyAndSignatureRegistration locked publicKeys pkStr signStr node =
        (checkPublicKeyAndSignatureRegistration locked [] pkStr signStr ⟨0, 0, 0, 0, 0⟩).map
          fun r => (r.1, { node with nodeId }) := by
  unfold checkPublicKeyAndSignatureRegistration
  cases locked with
  | false => exact ⟨node.nodeId, fun _ => rfl, rfl⟩
  | true =>
    refine ⟨(publicKeys.lookup pkStr).getD node.nodeId, fun h => by rw [h]; rfl, ?_⟩
    cases decodeKey pkStr with
    | error e => rfl
    | ok pk =>
      obtain ⟨valid, pk⟩ := pk
      cases valid with
      | false => cases publicKeys.lookup pkStr <;> rfl
      | true => cases decodeKey signStr <;> cases publicKeys.lookup pkStr <;> rfl

namespace Registration

variable {a : Registration}

theorem text_eq_some {name : String} {str : List UInt8} :
    a.text name = some str ↔ ∃ text, findValue a.json name = some (.string text) ∧ cstr text = str := by
  unfold text
  split <;> simp_all

/-- The state after a registration that is accepted. -/
def registered (a : Registration) (pkStr : List UInt8) (g : Global) : Global :=
  if a.idsLocked then
    { g with
      currentId := (g.currentId + 1) % uintSize
      publicKeys := insertPublicKey g.publicKeys pkStr g.currentId }
  else g

/-- An accepted registration is answered with the next id, or, when the locks for it are not granted,
with the id that the node has; for a key that is not known this is still the one it had before. -/
theorem poetRegister_accepted (h : a.verdict = .ok true) (g : Global) (context : Context) :
    ∃ pkStr r, a.publicKey = some pkStr ∧
      poetRegister a.keysLocked a.idsLocked a.json g context = .ok r ∧
      r.g = a.registered pkStr g ∧ r.returned = true ∧ r.context.isClosed = context.isClosed ∧
      ∃ nodeId, r.reply.bind Reply.nodeId = some nodeId ∧ (a.idsLocked → nodeId = g.currentId) ∧
        (a.idsLocked = false → context.node = none → g.publicKeys.lookup pkStr = none →
          nodeId = 0) := by
  unfold verdict at h
  unfold poetRegister
  split at h
  · next pkStr signStr hpkStr hsignStr =>
    obtain ⟨pk, hpk, rfl⟩ := text_eq_some.mp hpkStr
    obtain ⟨sign, hsign, rfl⟩ := text_eq_some.mp hsignStr
    obtain ⟨⟨valid, node⟩, hcheck, rfl⟩ := Except.map_eq_ok.mp h
    obtain ⟨nodeId, hid, heq⟩ := checkPublicKeyAndSignatureRegistration_eq a.keysLocked g.publicKeys
      (cstr pk) (cstr sign) (context.node.getD ⟨0, 0, 0, 0, 0⟩)
    rw [hcheck] at heq
    simp only [hpk, hsign, heq, Except.map, Except.ok_bind, if_true]
    refine ⟨cstr pk, _, hpkStr, rfl, ?_, rfl, rfl, ?_⟩
    · cases hids : a.idsLocked <;> simp [registered, hids]
    · cases hids : a.idsLocked with
      | false =>
        refine ⟨_, rfl, by simp, fun _ hnode hnone => ?_⟩
        simp [hid hnone, hnode]
      | true => exact ⟨_, rfl, by simp, by simp⟩
  · cases h

/-- A registration that is not accepted gets no id. -/
theorem poetRegister_refused (h : a.verdict = .ok false) (g : Global) (context : Context) :
    ∃ r, poetRegister a.keysLocked a.idsLocked a.json g context = .ok r ∧
      r.g = g ∧ r.reply = none := by
  simp only [verdict, publicKey, text] at h
  unfold poetRegister
  split
  · next pk sign hpk hsign =>
    simp only [hpk, hsign] at h
    obtain ⟨⟨valid, node⟩, hcheck, rfl⟩ := Except.map_eq_ok.mp h
    obtain ⟨nodeId, -, heq⟩ := checkPublicKeyAndSignatureRegistration_eq a.keysLocked g.publicKeys
      (cstr pk) (cstr sign) (context.node.getD ⟨0, 0, 0, 0, 0⟩)
    rw [hcheck] at heq
    simp only [heq, Except.map, Except.ok_bind]
    exact ⟨_, rfl, rfl, rfl⟩
  · exact ⟨_, rfl, rfl, rfl⟩

/-- Where the check does not return, the server does not either. -/
theorem poetRegister_aborted {e : Abort} (h : a.verdict = .error e) (g : Global)
    (context : Context) :
    poetRegister a.keysLocked a.idsLocked a.json g context = .error e := by
  unfold verdict at h
  unfold poetRegister
  split at h
  · next pkStr signStr hpkStr hsignStr =>
    obtain ⟨pk, hpk, rfl⟩ := text_eq_some.mp hpkStr
    obtain ⟨sign, hsign, rfl⟩ := text_eq_some.mp hsignStr
    obtain ⟨nodeId, -, heq⟩ := checkPublicKeyAndSignatureRegistration_eq a.keysLocked g.publicKeys
      (cstr pk) (cstr sign) (context.node.getD ⟨0, 0, 0, 0, 0⟩)
    simp only [hpk, hsign, heq]
    cases hcheck : checkPublicKeyAndSignatureRegistration a.keysLocked [] (cstr pk) (cstr sign)
        ⟨0, 0, 0, 0, 0⟩ with
    | error e' =>
      rw [hcheck] at h
      cases h
      rfl
    | ok r =>
      rw [hcheck] at h
      cases h
  · cases h

end Registration

namespace Server

variable (raw : Json → ℤ) {s : Server} {a : Registration} {l : List (ℕ × Request)}

theorem serve_register {r : Handled} (hopen : (s.contexts a.connection).isClosed = false)
    (h : poetRegister a.keysLocked a.idsLocked a.json s.g (s.contexts a.connection) = .ok r) :
    s.serve raw a.request = .ok (s.after a.connection r) := by
  simp only [Registration.request, serve, hopen, ensure_of, Except.ok_bind, Request.handler, h,
    Except.pure_eq_ok, after]

/-- An accepted registration and the requests after it. -/
theorem respond_accepted (hopen : (s.contexts a.connection).isClosed = false)
    (h : a.verdict = .ok true) :
    ∃ (pkStr : List UInt8) (reply : Option Reply) (nodeId : ℕ) (t : Server),
      a.publicKey = some pkStr ∧ t.g = a.registered pkStr s.g ∧
      (t.contexts a.connection).isClosed = false ∧
      (∀ c, c ≠ a.connection → t.contexts c = s.contexts c) ∧
      s.respond raw (a.request :: l) = (reply :: (t.respond raw l).1, (t.respond raw l).2) ∧
      reply.bind Reply.nodeId = some nodeId ∧ (a.idsLocked → nodeId = s.g.currentId) ∧
      (a.idsLocked = false → (s.contexts a.connection).node = none →
        s.g.publicKeys.lookup pkStr = none → nodeId = 0) := by
  obtain ⟨pkStr, r, hpk, hr, hg, hret, hclosed, nodeId, hreply, hlocked, hunlocked⟩ :=
    Registration.poetRegister_accepted h s.g (s.contexts a.connection)
  have hserve := serve_register raw hopen hr
  refine ⟨pkStr, r.reply, nodeId, s.after a.connection r, hpk, hg, ?_,
    fun c hc => after_contexts_of_ne hc r, ?_, hreply, hlocked, hunlocked⟩
  · simp [after, hret, hclosed, hopen]
  · rw [respond, hserve]
    simp only [reply, Registration.request, Request.handler, hr]

/-- A registration that is refused and the requests after it. -/
theorem respond_refused (hopen : (s.contexts a.connection).isClosed = false)
    (h : a.verdict = .ok false) :
    ∃ t : Server, t.g = s.g ∧ (∀ c, c ≠ a.connection → t.contexts c = s.contexts c) ∧
      s.respond raw (a.request :: l) = (none :: (t.respond raw l).1, (t.respond raw l).2) := by
  obtain ⟨r, hr, hg, hreply⟩ :=
    Registration.poetRegister_refused h s.g (s.contexts a.connection)
  have hserve := serve_register raw hopen hr
  refine ⟨s.after a.connection r, hg, fun c hc => after_contexts_of_ne hc r, ?_⟩
  rw [respond, hserve]
  simp only [reply, Registration.request, Request.handler, hr, hreply]

/-- After a registration that does not return there are no replies. -/
theorem respond_aborted {e : Abort} (hopen : (s.contexts a.connection).isClosed = false)
    (h : a.verdict = .error e) : s.respond raw (a.request :: l) = ([], s) := by
  have hserve : s.serve raw a.request = .error e := by
    simp only [Registration.request, serve, hopen, ensure_of, Except.ok_bind, Request.handler,
      Registration.poetRegister_aborted h, Except.error_bind]
  rw [respond, hserve]

end Server

/-! ## One id for a key -/

theorem lookup_insertPublicKey (publicKeys : List (List UInt8 × ℕ)) (pkStr key : List UInt8)
    (nodeId : ℕ) : (insertPublicKey publicKeys pkStr nodeId).lookup key =
      (publicKeys.lookup key).or (if pkStr = key then some nodeId else none) := by
  unfold insertPublicKey
  split
  · next hsome =>
    split
    · next hkey =>
      rw [hkey] at hsome
      rw [Option.or_of_isSome hsome]
    · rw [Option.or_none]
  · rw [List.lookup_append, List.lookup_cons]
    congr 1
    by_cases hkey : pkStr = key
    · simp [hkey]
    · have hne : (key == pkStr) = false := by simpa using Ne.symm hkey
      simp [hkey, hne]

/-- The id in the reply to the request at `i`. -/
def repliedId (replies : List (Option Reply)) (i : ℕ) : Option ℕ :=
  replies[i]?.bind fun reply => reply.bind Reply.nodeId

/-- The id of the first request with a key, when the first request of all gets the id `k`. -/
def firstId (l : List Registration) (k : ℕ) (key : List UInt8) : Option ℕ :=
  (l.findIdx? fun a => a.publicKey = some key).map fun i => (k + i) % uintSize

theorem firstId_cons (a : Registration) (l : List Registration) (k : ℕ) (key : List UInt8) :
    firstId (a :: l) k key =
      if a.publicKey = some key then some (k % uintSize) else firstId l (k + 1) key := by
  unfold firstId
  rw [List.findIdx?_cons]
  by_cases h : a.publicKey = some key
  · simp [h]
  · simp [h, Function.comp_def, Nat.add_assoc, Nat.add_comm 1]

/-- With all locks granted and all texts valid, the ids are handed out one after the other, and a key
keeps the first one that was handed out for it. -/
theorem Server.respond_locked (raw : Json → ℤ) {l : List Registration} {s : Server} {k : ℕ}
    (hl : ∀ a ∈ l, a.idsLocked = true ∧ a.verdict = .ok true)
    (hk : s.g.currentId = k % uintSize) (hopen : ∀ c, (s.contexts c).isClosed = false) :
    (∀ i, i < l.length →
      repliedId (s.respond raw (l.map Registration.request)).1 i = some ((k + i) % uintSize)) ∧
    ∀ key, (s.respond raw (l.map Registration.request)).2.g.publicKeys.lookup key =
      (s.g.publicKeys.lookup key).or (firstId l k key) := by
  induction l generalizing s k with
  | nil => exact ⟨fun i hi => absurd hi (by simp), fun key => by simp [respond, firstId]⟩
  | cons a l ih =>
    obtain ⟨hids, hvalid⟩ := hl a List.mem_cons_self
    obtain ⟨pkStr, reply, nodeId, t, hpk, hg, hclosed, hother, hrespond, hreply, hid, -⟩ :=
      respond_accepted raw (l := l.map Registration.request) (hopen a.connection) hvalid
    have htopen : ∀ c, (t.contexts c).isClosed = false := by
      intro c
      by_cases hc : c = a.connection
      · rw [hc, hclosed]
      · rw [hother c hc, hopen c]
    simp only [Registration.registered, hids, if_true] at hg
    have htk : t.g.currentId = (k + 1) % uintSize := by
      rw [hg, hk, Nat.mod_add_mod]
    obtain ⟨ihids, ihkeys⟩ := ih (fun b hb => hl b (List.mem_cons_of_mem _ hb)) htk htopen
    rw [List.map_cons, hrespond]
    refine ⟨fun i hi => ?_, fun key => ?_⟩
    · cases i with
      | zero => simpa [repliedId, ← hk, ← hid hids] using hreply
      | succ i =>
        have := ihids i (by simpa using hi)
        rw [Nat.add_right_comm] at this
        simpa only [repliedId, List.getElem?_cons_succ, Nat.add_assoc] using this
    · rw [ihkeys, hg]
      simp only
      rw [lookup_insertPublicKey, hk, firstId_cons, hpk, Option.or_assoc]
      congr 1
      by_cases hkey : pkStr = key <;> simp [hkey]

theorem Registration.exists_publicKey {a : Registration} (h : a.verdict = .ok true) :
    ∃ key, a.publicKey = some key := by
  unfold verdict at h
  split at h
  · next key _ hkey _ => exact ⟨key, hkey⟩
  · cases h

theorem firstId_of_mem {l : List Registration} {i k : ℕ} {a : Registration} {key : List UInt8}
    (hi : l[i]? = some a) (hkey : a.publicKey = some key) :
    ∃ j b, l[j]? = some b ∧ b.publicKey = some key ∧ firstId l k key = some ((k + j) % uintSize) := by
  have hsome : (l.findIdx? fun a => a.publicKey = some key).isSome := by
    rw [List.findIdx?_isSome]
    exact List.any_eq_true.mpr ⟨a, List.mem_of_getElem? hi, by simpa using hkey⟩
  obtain ⟨j, hj⟩ := Option.isSome_iff_exists.mp hsome
  obtain ⟨hlt, hb, -⟩ := List.findIdx?_eq_some_iff_getElem.mp hj
  exact ⟨j, l[j], List.getElem?_eq_getElem hlt, by simpa using hb, by rw [firstId, hj]; rfl⟩

/-- Requests with one key are answered with one id, and it is the one that is stored for the key. -/
def OneIdPerKey (l : List Registration) (replies : List (Option Reply))
    (publicKeys : List (List UInt8 × ℕ)) : Prop :=
  ∀ i j a b, l[i]? = some a → l[j]? = some b → a.publicKey = b.publicKey →
    ∀ x y, repliedId replies i = some x → repliedId replies j = some y →
      x = y ∧ ∃ key, a.publicKey = some key ∧ publicKeys.lookup key = some x

/-- When all locks are granted and all texts are valid, every registration is answered with an id; and a
key has one id exactly when the requests with this key are a multiple of the range of `uint` apart, so
that the counter has come round to it again. -/
theorem Server.respond_oneIdPerKey_iff (raw : Json → ℤ) (serverStartingTime : ℤ)
    (sgxtLowerbound sgxmax nTiers : ℕ) {l : List Registration}
    (hlocked : ∀ a ∈ l, a.keysLocked = true ∧ a.idsLocked = true)
    (hvalid : ∀ a ∈ l, a.verdict = .ok true) :
    let r := (Server.initial serverStartingTime sgxtLowerbound sgxmax nTiers).respond raw
      (l.map Registration.request)
    (∀ i, i < l.length → (repliedId r.1 i).isSome) ∧
      (OneIdPerKey l r.1 r.2.g.publicKeys ↔
        ∀ i j a b, l[i]? = some a → l[j]? = some b → a.publicKey = b.publicKey →
          i ≡ j [MOD uintSize]) := by
  intro r
  obtain ⟨hids, hkeys⟩ := Server.respond_locked raw (k := 0)
    (s := Server.initial serverStartingTime sgxtLowerbound sgxmax nTiers)
    (fun a ha => ⟨(hlocked a ha).2, hvalid a ha⟩) rfl fun _ => rfl
  simp only [Nat.zero_add] at hids
  have hid : ∀ i a, l[i]? = some a → repliedId r.1 i = some (i % uintSize) :=
    fun i a hi => hids i (List.getElem?_eq_some_iff.mp hi).1
  refine ⟨fun i hi => by rw [hids i hi]; rfl, fun h i j a b hi hj hab => ?_, fun h => ?_⟩
  · exact (h i j a b hi hj hab _ _ (hid i a hi) (hid j b hj)).1
  · intro i j a b hi hj hab x y hx hy
    rw [hid i a hi] at hx
    rw [hid j b hj] at hy
    cases hx
    cases hy
    obtain ⟨key, hkey⟩ := Registration.exists_publicKey (hvalid a (List.mem_of_getElem? hi))
    -- the id that is stored is that of the first request with the key
    obtain ⟨f, c, hf, hc, hfirst⟩ := firstId_of_mem (k := 0) hi hkey
    have hstored : r.2.g.publicKeys.lookup key = some (f % uintSize) := by
      rw [hkeys key, hfirst, Nat.zero_add]
      rfl
    refine ⟨h i j a b hi hj hab, key, hkey, ?_⟩
    rw [hstored, h f i c a hf hi (hc.trans hkey.symm)]

/-- The registration of a key with all locks granted. -/
def registration (connection : ℕ) (key : String) : Registration :=
  ⟨connection, true, true, registerJson key⟩

theorem verdict_keyA (connection : ℕ) : (registration connection keyA).verdict = .ok true := by
  have : (registration 0 keyA).verdict = .ok true := by decide +kernel
  exact this

theorem verdict_keyB (connection : ℕ) : (registration connection keyB).verdict = .ok true := by
  have : (registration 0 keyB).verdict = .ok true := by decide +kernel
  exact this

theorem publicKey_keyA_ne_keyB :
    (registration 0 keyA).publicKey ≠ (registration 1 keyB).publicKey := by
  decide +kernel

/-- Two keys: each is stored with the id of its reply. -/
theorem Server.respond_oneIdPerKey_twoKeys :
    let l := [registration 0 keyA, registration 1 keyB]
    let r := (Server.initial 0 1 10 2).respond (fun _ => 0) (l.map Registration.request)
    OneIdPerKey l r.1 r.2.g.publicKeys := by
  refine (Server.respond_oneIdPerKey_iff (fun _ => 0) 0 1 10 2 ?_ ?_).2.mpr ?_
  · simp [registration]
  · simp [verdict_keyA, verdict_keyB]
  · have hne := publicKey_keyA_ne_keyB
    intro i j a b hi hj hab
    match i, j with
    | 0, 0 => exact Nat.ModEq.refl 0
    | 0, 1 =>
      cases hi
      cases hj
      exact absurd hab hne
    | 1, 0 =>
      cases hi
      cases hj
      exact absurd hab hne.symm
    | 1, 1 => exact Nat.ModEq.refl 1
    | i + 2, _ => cases hi
    | _, j + 2 => cases hj

/-- A node that connects again and registers its key again gets another id than before, and the one that
is stored is the old one. -/
theorem Server.respond_sameKeyTwice :
    let l := [registration 0 keyA, registration 1 keyA]
    let r := (Server.initial 0 1 10 2).respond (fun _ => 0) (l.map Registration.request)
    (∀ a ∈ l, a.keysLocked = true ∧ a.idsLocked = true) ∧ (∀ a ∈ l, a.verdict = .ok true) ∧
      repliedId r.1 0 = some 0 ∧ repliedId r.1 1 = some 1 ∧
      r.2.g.publicKeys.lookup (ascii keyA) = some 0 ∧ ¬OneIdPerKey l r.1 r.2.g.publicKeys := by
  intro l r
  have hr : (repliedId r.1 0, repliedId r.1 1, r.2.g.publicKeys.lookup (ascii keyA)) =
      (some 0, some 1, some 0) := by
    decide
  obtain ⟨h0, hr⟩ := Prod.mk.inj hr
  obtain ⟨h1, hstored⟩ := Prod.mk.inj hr
  have hlocked : ∀ a ∈ l, a.keysLocked = true ∧ a.idsLocked = true := by simp [l, registration]
  have hvalid : ∀ a ∈ l, a.verdict = .ok true := by simp [l, verdict_keyA]
  have hkey : (registration 0 keyA).publicKey = (registration 1 keyA).publicKey := rfl
  refine ⟨hlocked, hvalid, h0, h1, hstored, fun h => ?_⟩
  have := (h 0 1 _ _ rfl rfl hkey 0 1 h0 h1).1
  cases this

/-! ## Ids that are shared -/

/-- The ids of accepted registrations, given whether the locks for the counter were granted to each,
when the counter stands at `k`. -/
def handedOut : ℕ → List Bool → List ℕ
  | _, [] => []
  | k, true :: l => k % uintSize :: handedOut (k + 1) l
  | k, false :: l => 0 :: handedOut k l

theorem zero_mem_handedOut {k : ℕ} {l : List Bool} (h : false ∈ l) : 0 ∈ handedOut k l := by
  fun_induction handedOut k l with
  | case1 => cases h
  | case2 k l ih => exact List.mem_cons_of_mem _ (ih (by simpa using h))
  | case3 k l ih => exact List.mem_cons_self

theorem handedOut_eq_map {k : ℕ} {l : List Bool} (h : false ∉ l) :
    handedOut k l = (List.range' k l.length).map (· % uintSize) := by
  fun_induction handedOut k l with
  | case1 => rfl
  | case2 k l ih => rw [ih fun hl => h (List.mem_cons_of_mem _ hl)]; rfl
  | case3 k l ih => exact absurd List.mem_cons_self h

theorem nodup_map_mod_iff (n m : ℕ) (hm : 0 < m) :
    ((List.range' 0 n).map (· % m)).Nodup ↔ n ≤ m := by
  constructor
  · intro h
    by_contra hlt
    have hinj := List.inj_on_of_nodup_map h (x := 0) (y := m) (by simp; omega) (by simp; omega)
    have := hinj (by simp)
    omega
  · intro hle
    refine List.Nodup.map_on (fun x hx y hy hxy => ?_) List.nodup_range'
    have hx : x < m := by
      have := (List.mem_range'_1.mp hx).2
      omega
    have hy : y < m := by
      have := (List.mem_range'_1.mp hy).2
      omega
    rwa [Nat.mod_eq_of_lt hx, Nat.mod_eq_of_lt hy] at hxy

/-- From the counter's start, the ids differ exactly when there is only one, or the locks were granted
to all and the counter does not come round. -/
theorem nodup_handedOut_iff (l : List Bool) :
    (handedOut 0 l).Nodup ↔ l.length ≤ 1 ∨ (false ∉ l ∧ l.length ≤ uintSize) := by
  have hpos : 0 < uintSize := by decide
  constructor
  · intro h
    by_cases hl : false ∈ l
    · left
      match l with
      | [] => simp
      | [_] => simp
      | false :: b :: l =>
        -- the next id is 0 again, whether it comes from the counter or not
        have hmem : 0 ∈ handedOut 0 (b :: l) := by cases b <;> simp [handedOut]
        exact absurd hmem (List.nodup_cons.mp h).1
      | true :: b :: l =>
        have hmem : 0 ∈ handedOut 1 (b :: l) := zero_mem_handedOut (by simpa using hl)
        exact absurd hmem (List.nodup_cons.mp h).1
    · rw [handedOut_eq_map hl, nodup_map_mod_iff _ _ hpos] at h
      exact .inr ⟨hl, h⟩
  · rintro (h | ⟨hl, hle⟩)
    · match l with
      | [] => simp [handedOut]
      | [b] => cases b <;> simp [handedOut]
    · rw [handedOut_eq_map hl, nodup_map_mod_iff _ _ hpos]
      exact hle

/-- The registrations that are answered with success: the accepted ones before the first one on which
the check does not return. -/
def accepted (l : List Registration) : List Registration :=
  (l.takeWhile fun a => a.verdict.isOk).filter fun a => a.verdict = .ok true

/-- The registrations come on connections of their own that are still fresh, with keys of their own that
are not known yet. -/
structure Newcomers (s : Server) (l : List Registration) : Prop where
  fresh : ∀ a ∈ l, s.contexts a.connection = .fresh
  connections : (l.map Registration.connection).Nodup
  unknown : ∀ a ∈ l, ∀ key, a.publicKey = some key → s.g.publicKeys.lookup key = none
  keys : l.Pairwise fun a b => ∀ key, a.publicKey = some key → b.publicKey ≠ some key

theorem Newcomers.tail {s t : Server} {a : Registration} {l : List Registration}
    (h : Newcomers s (a :: l)) (hother : ∀ c, c ≠ a.connection → t.contexts c = s.contexts c)
    (hlookup : ∀ key, a.publicKey ≠ some key →
      t.g.publicKeys.lookup key = s.g.publicKeys.lookup key) : Newcomers t l := by
  obtain ⟨hconn, hconnections⟩ := List.nodup_cons.mp h.connections
  obtain ⟨hkey, hkeys⟩ := List.pairwise_cons.mp h.keys
  refine ⟨fun b hb => ?_, hconnections, fun b hb key hbkey => ?_, hkeys⟩
  · have hne : b.connection ≠ a.connection := fun heq => hconn (heq ▸ List.mem_map_of_mem hb)
    rw [hother _ hne, h.fresh b (List.mem_cons_of_mem _ hb)]
  · have hne : a.publicKey ≠ some key := fun hakey => hkey b hb key hakey hbkey
    rw [hlookup key hne, h.unknown b (List.mem_cons_of_mem _ hb) key hbkey]

theorem accepted_cons_of_ok {a : Registration} {valid : Bool} (h : a.verdict = .ok valid)
    (l : List Registration) : accepted (a :: l) = if valid then a :: accepted l else accepted l := by
  cases valid <;> simp [accepted, h, Except.isOk, Except.toBool]

theorem Registration.lookup_registered {a : Registration} {pkStr key : List UInt8} {g : Global}
    (h : pkStr ≠ key) :
    (a.registered pkStr g).publicKeys.lookup key = g.publicKeys.lookup key := by
  unfold registered
  split
  · rw [lookup_insertPublicKey, if_neg h, Option.or_none]
  · rfl

/-- The ids in the replies to newcomers are those that are handed out to the accepted ones. -/
theorem Server.registeredIds_respond {raw : Json → ℤ} {l : List Registration} {s : Server} {k : ℕ}
    (hk : s.g.currentId = k % uintSize) (h : Newcomers s l) :
    registeredIds (s.respond raw (l.map Registration.request)).1 =
      handedOut k ((accepted l).map Registration.idsLocked) := by
  induction l generalizing s k with
  | nil => rfl
  | cons a l ih =>
    have hctx : s.contexts a.connection = .fresh := h.fresh a List.mem_cons_self
    have hopen : (s.contexts a.connection).isClosed = false := by rw [hctx]; rfl
    rw [List.map_cons]
    cases hv : a.verdict with
    | error e =>
      rw [respond_aborted raw hopen hv]
      simp [registeredIds, accepted, hv, Except.isOk, Except.toBool, handedOut]
    | ok valid =>
      rw [accepted_cons_of_ok hv]
      cases valid with
      | false =>
        obtain ⟨t, hg, hother, hrespond⟩ :=
          respond_refused raw (l := l.map Registration.request) hopen hv
        rw [hrespond]
        exact ih (hg ▸ hk) (h.tail hother fun key _ => by rw [hg])
      | true =>
        obtain ⟨pkStr, reply, nodeId, t, hpk, hg, -, hother, hrespond, hreply, hlocked, hunlocked⟩ :=
          respond_accepted raw (l := l.map Registration.request) hopen hv
        have hnew : Newcomers t l := h.tail hother fun key hkey => by
          have hne : pkStr ≠ key := fun heq => hkey (heq ▸ hpk)
          rw [hg, Registration.lookup_registered hne]
        have hids : ∀ ids, registeredIds (reply :: ids) = nodeId :: registeredIds ids := by
          simp [registeredIds, hreply]
        rw [hrespond, hids]
        cases hidsLocked : a.idsLocked with
        | true =>
          have htk : t.g.currentId = (k + 1) % uintSize := by
            rw [hg, Registration.registered, if_pos hidsLocked, hk, Nat.mod_add_mod]
          rw [ih htk hnew, hlocked hidsLocked, hk]
          simp [handedOut, hidsLocked]
        | false =>
          have htk : t.g.currentId = k % uintSize := by
            rw [hg, Registration.registered, if_neg (by simp [hidsLocked]), hk]
          have hzero := hunlocked hidsLocked (by rw [hctx]; rfl)
            (h.unknown a List.mem_cons_self pkStr hpk)
          rw [ih htk hnew, hzero]
          simp [handedOut, hidsLocked]

end PoQ
