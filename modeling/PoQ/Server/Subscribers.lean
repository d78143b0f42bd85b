import PoQ.Server.IntegerWidth
import PoQ.Socket.Send

/-!
# The subscribers of the server

The threads of `poet_server.cpp` that answer the connections of subscribers, `process_secondary_node_addition`,
next to the rounds of `sgx_table_and_queue_notification`, which send a text to every subscriber. A round goes
through `secondary_socket_comms` under its lock, and makes a thread for every socket; a subscriber is put into
it before it is answered, and nothing keeps a round from writing to a socket that is being answered. A step of
a thread that sends is one call of `send`; where that returns 0 the socket is closed, and stays in the map.
-/

namespace PoQ

/-- `secondary_socket_comms[k] = v`: the entries are in the order of their keys. -/
def mapSet {β : Type} (k : ℕ) (v : β) : List (ℕ × β) → List (ℕ × β)
  | [] => [(k, v)]
  | (k', v') :: m =>
    if k < k' then (k, v) :: (k', v') :: m
    else if k = k' then (k, v) :: m
    else (k', v') :: mapSet k v m

theorem mem_of_mem_mapSet {β : Type} {k : ℕ} {v : β} {m : List (ℕ × β)} {p : ℕ × β}
    (h : p ∈ mapSet k v m) : p = (k, v) ∨ p ∈ m := by
  induction m with
  | nil => exact .inl (List.mem_singleton.mp h)
  | cons q m ih =>
    obtain ⟨k', v'⟩ := q
    rw [mapSet] at h
    split at h
    · exact List.mem_cons.mp h
    · split at h
      · exact (List.mem_cons.mp h).imp_right (List.mem_cons_of_mem _)
      · rcases List.mem_cons.mp h with rfl | h
        · exact .inr List.mem_cons_self
        · exact (ih h).imp_right (List.mem_cons_of_mem _)

theorem pairwise_mapSet {β : Type} (k : ℕ) (v : β) {m : List (ℕ × β)} (h : m.Pairwise fun p q => p.1 < q.1) :
    (mapSet k v m).Pairwise fun p q => p.1 < q.1 := by
  induction m with
  | nil => exact List.pairwise_singleton _ _
  | cons q m ih =>
    obtain ⟨k', v'⟩ := q
    obtain ⟨hk', hm⟩ := List.pairwise_cons.mp h
    rw [mapSet]
    split
    · next hlt =>
      refine List.pairwise_cons.mpr ⟨fun p hp => ?_, h⟩
      rcases List.mem_cons.mp hp with rfl | hp
      · exact hlt
      · exact hlt.trans (hk' p hp)
    · split
      · next heq =>
        subst heq
        exact List.pairwise_cons.mpr ⟨hk', hm⟩
      · next hlt hne =>
        refine List.pairwise_cons.mpr ⟨fun p hp => ?_, ih hm⟩
        rcases mem_of_mem_mapSet hp with rfl | hp
        · exact Nat.lt_of_le_of_ne (Nat.le_of_not_lt hlt) (Ne.symm hne)
        · exact hk' p hp

theorem keys_mapSet {β : Type} (k : ℕ) (v : β) {m : List (ℕ × β)} {i : ℕ} (hi : i ∈ m.map Prod.fst) :
    i ∈ (mapSet k v m).map Prod.fst := by
  induction m with
  | nil => cases hi
  | cons q m ih =>
    obtain ⟨k', v'⟩ := q
    rw [mapSet]
    split
    · exact List.mem_cons_of_mem _ hi
    · split
      · next heq =>
        subst heq
        exact hi
      · exact (List.mem_cons.mp hi).elim (fun heq => heq ▸ List.mem_cons_self)
          fun hi => List.mem_cons_of_mem _ (ih hi)

theorem nodup_mapSet {β : Type} {k : ℕ} {v : β} {m : List (ℕ × β)} (hnodup : (m.map Prod.snd).Nodup)
    (hv : v ∉ m.map Prod.snd) : ((mapSet k v m).map Prod.snd).Nodup := by
  induction m with
  | nil => exact List.nodup_singleton v
  | cons q m ih =>
    obtain ⟨k', v'⟩ := q
    obtain ⟨hv', hm⟩ := List.nodup_cons.mp hnodup
    have hne : v' ≠ v ∧ v ∉ m.map Prod.snd := by
      rw [List.map_cons, List.mem_cons, not_or] at hv
      exact ⟨Ne.symm hv.1, hv.2⟩
    rw [mapSet]
    split
    · exact List.nodup_cons.mpr ⟨hv, hnodup⟩
    · split
      · exact List.nodup_cons.mpr ⟨hne.2, hm⟩
      · refine List.nodup_cons.mpr ⟨fun hmem => ?_, ih hm hne.2⟩
        -- the entry of another key is an old one or the new one
        obtain ⟨p, hp, hpv⟩ := List.mem_map.mp hmem
        rcases mem_of_mem_mapSet hp with rfl | hp
        · exact hne.1 hpv.symm
        · exact hv' (List.mem_map.mpr ⟨p, hp, hpv⟩)

/-- Where the thread of a connection is: about to read the request; behind the check of the id, and about
to take the lock; answering, with what is left to be sent; or at its end, with the socket kept or
closed. -/
inductive AdditionPc
  | reading
  | valid (nodeId : ℕ)
  | replying (accepted : Bool) (left : List UInt8)
  | ended (accepted : Bool)
deriving DecidableEq, Repr

/-- Where the notifying thread is: waiting for a change; under the lock, with the sockets that have been
given a thread and the entries that have not; or waiting for these threads. -/
inductive NoticePc
  | idle
  | dispatching (text : List UInt8) (sockets : List ℕ) (rest : List (ℕ × ℕ))
  | joining (sockets : List ℕ)
deriving DecidableEq, Repr

/-- The sockets of subscribers are numbers. -/
structure Subscribers where
  currentId : ℕ
  secondarySocketComms : List (ℕ × ℕ)
  threads : ℕ → AdditionPc
  notifier : NoticePc
  /-- What `asyncronous_send_message` has left to send. -/
  senders : ℕ → List UInt8
  /-- What has been sent to a socket. -/
  wire : ℕ → List UInt8
  closed : ℕ → Bool
  /-- The texts of all rounds. -/
  rounds : List (List UInt8)

/-- What happens next: `register` in another thread, a step of the thread of a connection, of the notifying
thread, or of a thread that sends for it. -/
inductive SubscriberEvent
  | register
  | receive (c : ℕ) (received : Option (List UInt8))
  | insert (c : ℕ)
  | reply (c : ℕ) (outcome : SendOutcome)
  | finish (c : ℕ)
  | round (text : List UInt8)
  | create
  | unlock
  | send (c : ℕ) (outcome : SendOutcome)
  | join
deriving DecidableEq, Repr

/-- The node id of a request, as a `uint`. -/
def subscribedId {σ : Type} (lib : JsonLibrary σ) (received : Option (List UInt8)) :
    Except Abort (Option ℕ) :=
  match received with
  | none => .ok none
  | some buffer => do
    if ← checkJsonCompliance lib buffer then
      match (lib.parse buffer).bind (findValue · "node_id") with
      | some (.integer n) => return some (toUint n)
      | _ => return none
    else return none

/-- The texts that a subscriber is answered with. -/
def additionText (accepted : Bool) : List UInt8 :=
  ascii (if accepted then "\x7b\"status\":\"success\"\x7d" else "\x7b\"status\":\"failure\"\x7d")

namespace Subscribers

/-- What becomes of a request with this id. -/
def addition (socket currentId : ℕ) (comms : ℕ → Option ℕ) : Option ℕ → Added
  | none => ⟨comms, none, false⟩
  | some nodeId =>
    if currentId ≤ nodeId then ⟨comms, some .failure, false⟩
    else ⟨Function.update comms nodeId (some socket), some .success, true⟩

/-- The request is read first, and then only its id matters. -/
theorem processSecondaryNodeAddition_eq {σ : Type} (lib : JsonLibrary σ) (received : Option (List UInt8))
    (socket currentId : ℕ) (comms : ℕ → Option ℕ) :
    processSecondaryNodeAddition lib received socket currentId comms =
      (subscribedId lib received).map (addition socket currentId comms) := by
  rcases received with _ | buffer
  · rfl
  rw [processSecondaryNodeAddition, subscribedId]
  rcases checkJsonCompliance lib buffer with e | compliant
  · rfl
  rcases compliant with _ | _
  · rfl
  simp only [Except.ok_bind, if_true, Except.pure_eq_ok]
  generalize (lib.parse buffer).bind (findValue · "node_id") = found
  rcases found with _ | json
  · rfl
  cases json with
  | integer n =>
    exact (apply_ite Except.ok (currentId ≤ toUint n) _ _).symm
  | _ => rfl

def initial (currentId : ℕ) : Subscribers where
  currentId := currentId
  secondarySocketComms := []
  threads := fun _ => .reading
  notifier := .idle
  senders := fun _ => []
  wire := fun _ => []
  closed := fun _ => false
  rounds := []

def setThread (s : Subscribers) (c : ℕ) (pc : AdditionPc) : Subscribers :=
  { s with threads := Function.update s.threads c pc }

/-- A step of a call that sends to a socket. -/
def write (s : Subscribers) (c : ℕ) (step : SendStep) : Subscribers :=
  { s with
    wire := Function.update s.wire c (s.wire c ++ step.taken)
    closed := Function.update s.closed c (s.closed c || step.closes) }

def setSender (s : Subscribers) (c : ℕ) (left : List UInt8) : Subscribers :=
  { s with senders := Function.update s.senders c left }

/-- `process_secondary_node_addition` behind the request: an id that has not been given to a node is
refused, a request without an id is not answered. -/
def checked (s : Subscribers) (c : ℕ) : Option ℕ → Subscribers
  | some nodeId =>
    s.setThread c (if s.currentId ≤ nodeId then .replying false (frame (additionText false)) else .valid nodeId)
  | none => s.setThread c (.replying false [])

/-- One step. A step that is not enabled is blocked. -/
def next {σ : Type} (lib : JsonLibrary σ) (s : Subscribers) : SubscriberEvent → Except Abort Subscribers
  | .register => .ok { s with currentId := (s.currentId + 1) % uintSize }
  | .receive c received =>
    if s.threads c = .reading then (subscribedId lib received).map (s.checked c) else .error .blocked
  | .insert c =>
    match s.threads c, s.notifier with
    -- the round has the lock
    | .valid _, .dispatching _ _ _ => .error .blocked
    | .valid nodeId, _ =>
      .ok ({ s with secondarySocketComms := mapSet nodeId c s.secondarySocketComms }.setThread c
        (.replying true (frame (additionText true))))
    | _, _ => .error .blocked
  | .reply c outcome =>
    match s.threads c with
    | .replying accepted left =>
      if left = [] then .error .blocked
      else
        let step := sendStep (s.closed c) left outcome
        .ok ((s.write c step).setThread c (.replying accepted step.left))
    | _ => .error .blocked
  | .finish c =>
    match s.threads c with
    | .replying accepted [] =>
      .ok { s.setThread c (.ended accepted) with
        closed := Function.update s.closed c (s.closed c || !accepted) }
    | _ => .error .blocked
  | .round text =>
    if s.notifier = .idle then
      .ok { s with notifier := .dispatching text [] s.secondarySocketComms, rounds := s.rounds ++ [text] }
    else .error .blocked
  | .create =>
    match s.notifier with
    | .dispatching text sockets ((_, c) :: rest) =>
      .ok { s.setSender c (frame text) with notifier := .dispatching text (sockets ++ [c]) rest }
    | _ => .error .blocked
  | .unlock =>
    match s.notifier with
    | .dispatching _ sockets [] => .ok { s with notifier := .joining sockets }
    | _ => .error .blocked
  | .send c outcome =>
    if s.senders c = [] then .error .blocked
    else
      let step := sendStep (s.closed c) (s.senders c) outcome
      .ok ((s.write c step).setSender c step.left)
  | .join =>
    match s.notifier with
    | .joining sockets =>
      if ∀ c ∈ sockets, s.senders c = [] then .ok { s with notifier := .idle } else .error .blocked
    | _ => .error .blocked

variable {σ : Type} {lib : JsonLibrary σ} {s t : Subscribers} {e : SubscriberEvent} {c : ℕ}

/-- What a step does, with what it needs. -/
inductive Does (lib : JsonLibrary σ) (s : Subscribers) : SubscriberEvent → Subscribers → Prop
  | register : Does lib s .register { s with currentId := (s.currentId + 1) % uintSize }
  | receive (c : ℕ) (received : Option (List UInt8)) (nodeId : Option ℕ) : s.threads c = .reading →
    subscribedId lib received = .ok nodeId → Does lib s (.receive c received) (s.checked c nodeId)
  | insert (c nodeId : ℕ) : s.threads c = .valid nodeId →
    (∀ text sockets rest, s.notifier ≠ .dispatching text sockets rest) →
    Does lib s (.insert c)
      ({ s with secondarySocketComms := mapSet nodeId c s.secondarySocketComms }.setThread c
        (.replying true (frame (additionText true))))
  | reply (c : ℕ) (outcome : SendOutcome) (accepted : Bool) (left : List UInt8) :
    s.threads c = .replying accepted left →
    Does lib s (.reply c outcome) ((s.write c (sendStep (s.closed c) left outcome)).setThread c
      (.replying accepted (sendStep (s.closed c) left outcome).left))
  | finish (c : ℕ) (accepted : Bool) : s.threads c = .replying accepted [] →
    Does lib s (.finish c) { s.setThread c (.ended accepted) with
      closed := Function.update s.closed c (s.closed c || !accepted) }
  | round (text : List UInt8) : s.notifier = .idle →
    Does lib s (.round text)
      { s with notifier := .dispatching text [] s.secondarySocketComms, rounds := s.rounds ++ [text] }
  | create (text : List UInt8) (sockets : List ℕ) (i c : ℕ) (rest : List (ℕ × ℕ)) :
    s.notifier = .dispatching text sockets ((i, c) :: rest) →
    Does lib s .create
      { s.setSender c (frame text) with notifier := .dispatching text (sockets ++ [c]) rest }
  | unlock (text : List UInt8) (sockets : List ℕ) : s.notifier = .dispatching text sockets [] →
    Does lib s .unlock { s with notifier := .joining sockets }
  | send (c : ℕ) (outcome : SendOutcome) : s.senders c ≠ [] →
    Does lib s (.send c outcome) ((s.write c (sendStep (s.closed c) (s.senders c) outcome)).setSender c
      (sendStep (s.closed c) (s.senders c) outcome).left)
  | join (sockets : List ℕ) : s.notifier = .joining sockets → (∀ c ∈ sockets, s.senders c = []) →
    Does lib s .join { s with notifier := .idle }

theorem does_of_next (h : s.next lib e = .ok t) : Does lib s e t := by
  cases e with
  | register =>
    cases h
    exact .register
  | receive c received =>
    rw [next] at h
    split at h
    · next hpc =>
      obtain ⟨nodeId, hid, rfl⟩ := Except.map_eq_ok.mp h
      exact .receive c received nodeId hpc hid
    · cases h
  | insert c =>
    rw [next] at h
    split at h
    · cases h
    · next nodeId hpc hlock =>
      cases h
      exact .insert c nodeId hpc hlock
    · cases h
  | reply c outcome =>
    rw [next] at h
    split at h
    · next accepted left hpc =>
      split at h
      · cases h
      · cases h
        exact .reply c outcome accepted left hpc
    · cases h
  | finish c =>
    rw [next] at h
    split at h
    · next accepted hpc =>
      cases h
      exact .finish c accepted hpc
    · cases h
  | round text =>
    rw [next] at h
    split at h
    · next hidle =>
      cases h
      exact .round text hidle
    · cases h
  | create =>
    rw [next] at h
    split at h
    · next text sockets i c rest hpc =>
      cases h
      exact .create text sockets i c rest hpc
    · cases h
  | unlock =>
    rw [next] at h
    split at h
    · next text sockets hpc =>
      cases h
      exact .unlock text sockets hpc
    · cases h
  | send c outcome =>
    rw [next] at h
    split at h
    · cases h
    · next hleft =>
      cases h
      exact .send c outcome hleft
  | join =>
    rw [next] at h
    split at h
    · next sockets hpc =>
      split at h
      · next hdone =>
        cases h
        exact .join sockets hpc hdone
      · cases h
    · cases h

/-! ## What holds all the time -/

/-- The connection is one of a subscriber. -/
def Accepted : AdditionPc → Prop
  | .replying accepted _ | .ended accepted => accepted = true
  | .reading | .valid _ => False

/-- The sockets that have been given a thread in this round. -/
def targets : NoticePc → List ℕ
  | .idle => []
  | .dispatching _ sockets _ | .joining sockets => sockets

/-- What a connection that is not one of a subscriber has been sent. -/
def Refused (wire : List UInt8) : AdditionPc → Prop
  | .reading | .valid _ => wire = []
  | .replying accepted left => accepted = false → wire ++ left <+: frame (additionText false)
  | .ended accepted => accepted = false → wire <+: frame (additionText false)

structure Sound (s : Subscribers) : Prop where
  sorted : s.secondarySocketComms.Pairwise fun p q => p.1 < q.1
  nodup : (s.secondarySocketComms.map Prod.snd).Nodup
  subscribed : ∀ p ∈ s.secondarySocketComms, Accepted (s.threads p.2)
  notified : ∀ c ∈ targets s.notifier, Accepted (s.threads c)
  sending : ∀ c, s.senders c ≠ [] → c ∈ targets s.notifier
  rest : ∀ text sockets rest, s.notifier = .dispatching text sockets rest →
    s.secondarySocketComms.map Prod.snd = sockets ++ rest.map Prod.snd
  refused : ∀ c, Refused (s.wire c) (s.threads c)

theorem refused_of_accepted {q : AdditionPc} (h : Accepted q) (wire : List UInt8) : Refused wire q := by
  cases q with
  | reading | valid => exact h.elim
  | replying | ended =>
    cases h
    exact fun h => Bool.noConfusion h

namespace Sound

theorem initial (currentId : ℕ) : (initial currentId).Sound where
  sorted := List.Pairwise.nil
  nodup := List.nodup_nil
  subscribed _ h := absurd h List.not_mem_nil
  notified _ h := absurd h List.not_mem_nil
  sending _ h := absurd rfl h
  rest _ _ _ h := nomatch h
  refused _ := rfl

/-- The thread of a connection goes on. -/
theorem move (h : s.Sound) {q : AdditionPc} (hkeep : Accepted (s.threads c) → Accepted q) {w : List UInt8}
    (hrefused : Refused w q) (closed : ℕ → Bool) :
    Sound { s with
      threads := Function.update s.threads c q, wire := Function.update s.wire c w, closed } := by
  have haccepted (d : ℕ) (hd : Accepted (s.threads d)) : Accepted (Function.update s.threads c q d) := by
    rcases eq_or_ne d c with rfl | hne
    · rw [Function.update_self]
      exact hkeep hd
    · rwa [Function.update_of_ne hne]
  have hwire (d : ℕ) : Refused (Function.update s.wire c w d) (Function.update s.threads c q d) := by
    rcases eq_or_ne d c with rfl | hne
    · rwa [Function.update_self, Function.update_self]
    · rw [Function.update_of_ne hne, Function.update_of_ne hne]
      exact h.refused d
  exact ⟨h.sorted, h.nodup, fun p hp => haccepted p.2 (h.subscribed p hp),
    fun d hd => haccepted d (h.notified d hd), h.sending, h.rest, hwire⟩

/-- And sends nothing. -/
theorem setThread (h : s.Sound) {q : AdditionPc} (hkeep : Accepted (s.threads c) → Accepted q)
    (hrefused : Refused (s.wire c) q) : (s.setThread c q).Sound := by
  have hmove := h.move hkeep hrefused s.closed
  rwa [Function.update_eq_self] at hmove

/-- A thread of the round goes on. -/
theorem setSender (h : s.Sound) {left : List UInt8} (hleft : left ≠ [] → c ∈ targets s.notifier) :
    (s.setSender c left).Sound := by
  refine { h with sending := fun d hd => ?_ }
  rcases eq_or_ne d c with rfl | hne
  · exact hleft (by simpa [Subscribers.setSender] using hd)
  · exact h.sending d (by simpa [Subscribers.setSender, hne] using hd)

/-- Something is sent to a subscriber. -/
theorem write (h : s.Sound) (hc : Accepted (s.threads c)) (step : SendStep) : (s.write c step).Sound := by
  refine { h with refused := fun d => ?_ }
  rcases eq_or_ne d c with rfl | hne
  · exact refused_of_accepted hc _
  · simpa [Subscribers.write, hne] using h.refused d

/-- An id that is not known to the server is refused, as is a request without one. -/
theorem checked (h : s.Sound) (hpc : s.threads c = .reading) (nodeId : Option ℕ) :
    (s.checked c nodeId).Sound := by
  have hwire : s.wire c = [] := by simpa [hpc, Refused] using h.refused c
  have hkeep (pc : AdditionPc) (hc : Accepted (s.threads c)) : Accepted pc := by
    rw [hpc] at hc
    exact hc.elim
  rcases nodeId with _ | nodeId
  · exact h.setThread (hkeep _) fun _ => by simp [hwire]
  · refine h.setThread (hkeep _) ?_
    split
    · exact fun _ => by simp [hwire]
    · exact hwire

theorem insert (h : s.Sound) {nodeId : ℕ} (hpc : s.threads c = .valid nodeId)
    (hlock : ∀ text sockets rest, s.notifier ≠ .dispatching text sockets rest) :
    ({ s with secondarySocketComms := mapSet nodeId c s.secondarySocketComms }.setThread c
      (.replying true (frame (additionText true)))).Sound := by
  have hnew : c ∉ s.secondarySocketComms.map Prod.snd := by
    intro hmem
    obtain ⟨p, hp, rfl⟩ := List.mem_map.mp hmem
    have hc := h.subscribed p hp
    rw [hpc] at hc
    exact hc
  have hthread := h.setThread (c := c) (q := .replying true (frame (additionText true))) (fun _ => rfl)
    fun hrefused => Bool.noConfusion hrefused
  refine { hthread with
    sorted := pairwise_mapSet nodeId c h.sorted, nodup := nodup_mapSet h.nodup hnew,
    subscribed := fun p hp => ?_, rest := fun text sockets rest heq => absurd heq (hlock text sockets rest) }
  rcases mem_of_mem_mapSet hp with rfl | hp
  · simp [Subscribers.setThread, Accepted]
  · exact hthread.subscribed p hp

theorem step (h : s.Sound) (hstep : Does lib s e t) : t.Sound := by
  cases hstep with
  | register => exact { h with }
  | receive c received nodeId hpc => exact h.checked hpc nodeId
  | insert c nodeId hpc hlock => exact h.insert hpc hlock
  | reply c outcome accepted left hpc =>
    have hwire := h.refused c
    rw [hpc] at hwire
    have hrefused : Refused (s.wire c ++ (sendStep (s.closed c) left outcome).taken)
        (.replying accepted (sendStep (s.closed c) left outcome).left) := by
      intro hrefused
      rw [List.append_assoc]
      exact ((List.prefix_append_right_inj _).mpr (sendStep_taken_isPrefix _ left outcome)).trans (hwire hrefused)
    exact h.move (by simp [hpc, Accepted]) hrefused _
  | finish c accepted hpc =>
    have hmove := h.move (c := c) (q := .ended accepted) (w := s.wire c) (by simp [hpc, Accepted])
      (fun hrefused => ?_) (Function.update s.closed c (s.closed c || !accepted))
    · rwa [Function.update_eq_self] at hmove
    · have hwire := h.refused c
      rw [hpc] at hwire
      rw [← List.append_nil (s.wire c)]
      exact hwire hrefused
  | round text hidle =>
    have hsending (c : ℕ) : s.senders c = [] := by
      by_contra hc
      have hmem := h.sending c hc
      rw [hidle] at hmem
      cases hmem
    refine { h with
      notified := fun c hc => absurd hc List.not_mem_nil, sending := fun c hc => absurd (hsending c) hc,
      rest := fun _ _ _ heq => ?_ }
    cases heq
    rfl
  | create text sockets i c rest hpc =>
    have hrest := h.rest _ _ _ hpc
    have hmem : c ∈ s.secondarySocketComms.map Prod.snd := by simp [hrest]
    obtain ⟨p, hp, rfl⟩ := List.mem_map.mp hmem
    have hnotified := h.notified
    have hsending := h.sending
    rw [hpc] at hnotified hsending
    refine { h with
      notified := fun d hd => ?_, sending := fun d hd => ?_, rest := fun _ _ _ heq => ?_ }
    · rcases List.mem_append.mp hd with hd | hd
      · exact hnotified d hd
      · cases List.mem_singleton.mp hd
        exact h.subscribed p hp
    · rcases eq_or_ne d p.2 with rfl | hne
      · exact List.mem_append_right _ (List.mem_singleton_self _)
      · exact List.mem_append_left _ (hsending d (by simpa [Subscribers.setSender, hne] using hd))
    · cases heq
      rw [List.append_assoc]
      exact hrest
  | unlock text sockets hpc =>
    have hnotified := h.notified
    have hsending := h.sending
    rw [hpc] at hnotified hsending
    exact { h with notified := hnotified, sending := hsending, rest := fun _ _ _ heq => nomatch heq }
  | send c outcome hleft =>
    have hmem := h.sending c hleft
    exact (h.write (h.notified c hmem) _).setSender fun _ => hmem
  | join sockets hpc hdone =>
    have hsending := h.sending
    rw [hpc] at hsending
    exact { h with
      notified := fun c hc => absurd hc List.not_mem_nil
      sending := fun c hc => absurd (hdone c (hsending c hc)) hc
      rest := fun _ _ _ heq => nomatch heq }

end Sound

theorem sound_of_runs {currentId : ℕ}
    (h : Runs (fun s e t => s.next lib e = .ok t) (fun _ _ => True) (initial currentId) s) : s.Sound :=
  Runs.invariant (I := Sound) (fun _ _ _ hs _ hstep => hs.step (does_of_next hstep)) h (.initial currentId)

/-! ## Sockets that are not subscribed -/

theorem checked_eq (s : Subscribers) (c : ℕ) (nodeId : Option ℕ) :
    ∃ pc, s.checked c nodeId = s.setThread c pc := by
  rcases nodeId with _ | nodeId
  · exact ⟨_, rfl⟩
  · exact ⟨_, rfl⟩

theorem Sound.senders_eq_nil (h : s.Sound) (hc : c ∉ targets s.notifier) : s.senders c = [] := by
  by_contra hleft
  exact hc (h.sending c hleft)

/-- The thread of the connection has come to its end, and no round has to do with its socket. -/
structure Silent (c : ℕ) (accepted closed : Bool) (wire : List UInt8) (s : Subscribers) : Prop where
  thread : s.threads c = .ended accepted
  comms : c ∉ s.secondarySocketComms.map Prod.snd
  targets : c ∉ targets s.notifier
  closed : s.closed c = closed
  wire : s.wire c = wire

theorem Silent.step {accepted closed : Bool} {wire : List UInt8} (h : Silent c accepted closed wire s)
    (hs : s.Sound) (hstep : Does lib s e t) : Silent c accepted closed wire t := by
  have hother {d : ℕ} (hd : s.threads d ≠ .ended accepted) : c ≠ d := by
    rintro rfl
    exact hd h.thread
  have hthread {d : ℕ} (hd : s.threads d ≠ .ended accepted) (pc : AdditionPc) :
      (s.setThread d pc).threads c = .ended accepted := by
    simpa [setThread, hother hd] using h.thread
  cases hstep with
  | register => exact { h with }
  | receive d received nodeId hpc =>
    obtain ⟨pc, hchecked⟩ := checked_eq s d nodeId
    rw [hchecked]
    exact { h with thread := hthread (by simp [hpc]) pc }
  | insert d nodeId hpc =>
    have hne := hother (d := d) (by simp [hpc])
    refine { h with thread := hthread (by simp [hpc]) _, comms := fun hmem => ?_ }
    obtain ⟨p, hp, hpc'⟩ := List.mem_map.mp hmem
    rcases mem_of_mem_mapSet hp with rfl | hp
    · exact hne hpc'.symm
    · exact h.comms (List.mem_map.mpr ⟨p, hp, hpc'⟩)
  | reply d outcome accepted' left hpc =>
    have hne := hother (d := d) (by simp [hpc])
    refine { h with thread := hthread (by simp [hpc]) _, closed := ?_, wire := ?_ }
    · simpa [setThread, write, hne] using h.closed
    · simpa [setThread, write, hne] using h.wire
  | finish d accepted' hpc =>
    have hne := hother (d := d) (by simp [hpc])
    refine { h with thread := hthread (by simp [hpc]) _, closed := ?_ }
    simpa [setThread, hne] using h.closed
  | round text hidle => exact { h with targets := List.not_mem_nil }
  | create text sockets i d rest hpc =>
    have hne : c ≠ d := by
      rintro rfl
      exact h.comms (by simp [hs.rest _ _ _ hpc])
    refine { h with targets := fun hmem => ?_ }
    rcases List.mem_append.mp hmem with hmem | hmem
    · exact h.targets (by rwa [hpc])
    · exact hne (List.mem_singleton.mp hmem)
  | unlock text sockets hpc =>
    refine { h with targets := fun hmem => h.targets ?_ }
    rwa [hpc]
  | send d outcome hleft =>
    have hne : c ≠ d := by
      rintro rfl
      exact hleft (hs.senders_eq_nil h.targets)
    refine { h with closed := ?_, wire := ?_ }
    · simpa [write, setSender, hne] using h.closed
    · simpa [write, setSender, hne] using h.wire
  | join sockets hpc hdone => exact { h with targets := List.not_mem_nil }

theorem Silent.runs {accepted closed : Bool} {wire : List UInt8} (h : Silent c accepted closed wire s)
    (hs : s.Sound) (hrun : Runs (fun s e t => s.next lib e = .ok t) (fun _ _ => True) s t) :
    Silent c accepted closed wire t :=
  (Runs.invariant (I := fun s => Silent c accepted closed wire s ∧ s.Sound)
    (fun _ _ _ hs _ hstep => ⟨hs.1.step hs.2 (does_of_next hstep), hs.2.step (does_of_next hstep)⟩) hrun
    ⟨h, hs⟩).1

/-- A subscriber whose thread has ended and whose id another connection has taken over is never sent anything
again, and its socket is neither closed nor opened, when no round was going on. -/
theorem replaced_of_runs {currentId : ℕ}
    (h : Runs (fun s e t => s.next lib e = .ok t) (fun _ _ => True) (initial currentId) s)
    (hthread : s.threads c = .ended true) (hcomms : c ∉ s.secondarySocketComms.map Prod.snd)
    (hidle : s.notifier = .idle)
    (hrun : Runs (fun s e t => s.next lib e = .ok t) (fun _ _ => True) s t) :
    t.wire c = s.wire c ∧ t.closed c = s.closed c := by
  have hs := sound_of_runs h
  have hsilent : Silent c true (s.closed c) (s.wire c) s :=
    ⟨hthread, hcomms, by rw [hidle]; exact List.not_mem_nil, rfl, rfl⟩
  exact ⟨(hsilent.runs hs hrun).wire, (hsilent.runs hs hrun).closed⟩

/-! ## Closed sockets -/

/-- A socket that has been closed stays closed, and nothing is written to it. -/
theorem Does.closed (h : Does lib s e t) (hc : s.closed c = true) :
    t.closed c = true ∧ t.wire c = s.wire c := by
  cases h with
  | register | insert | round | create | unlock | join => exact ⟨hc, rfl⟩
  | receive d received nodeId hpc =>
    obtain ⟨pc, hchecked⟩ := checked_eq s d nodeId
    rw [hchecked]
    exact ⟨hc, rfl⟩
  | reply d outcome accepted left hpc =>
    rcases eq_or_ne c d with rfl | hne
    · simp [setThread, write, hc]
    · simpa [setThread, write, hne] using hc
  | finish d accepted hpc =>
    rcases eq_or_ne c d with rfl | hne
    · simp [setThread, hc]
    · simpa [setThread, hne] using hc
  | send d outcome hleft =>
    rcases eq_or_ne c d with rfl | hne
    · simp [setSender, write, hc]
    · simpa [setSender, write, hne] using hc

/-- An id that is subscribed stays subscribed. -/
theorem Does.subscribed (h : Does lib s e t) {i : ℕ} (hi : i ∈ s.secondarySocketComms.map Prod.fst) :
    i ∈ t.secondarySocketComms.map Prod.fst := by
  cases h with
  | insert d nodeId => exact keys_mapSet nodeId d hi
  | receive d received nodeId =>
    obtain ⟨pc, hchecked⟩ := checked_eq s d nodeId
    rw [hchecked]
    exact hi
  | register | reply | finish | round | create | unlock | send | join => exact hi

/-- It is not a call of `send` on the socket that returns 0. -/
def Connected (c : ℕ) (_ : Subscribers) : SubscriberEvent → Prop
  | .reply d outcome | .send d outcome => d = c → outcome.isZero = false
  | .register | .receive _ _ | .insert _ | .finish _ | .round _ | .create | .unlock | .join => True

instance (c : ℕ) (s : Subscribers) (e : SubscriberEvent) : Decidable (Connected c s e) :=
  match e with
  | .reply d outcome | .send d outcome => inferInstanceAs (Decidable (d = c → outcome.isZero = false))
  | .register | .receive _ _ | .insert _ | .finish _ | .round _ | .create | .unlock | .join => .isTrue trivial

/-- Then only the thread of a connection that is refused closes it, at its end. -/
theorem Does.connected (h : Does lib s e t) (he : Connected c s e)
    (hs : s.closed c = true → s.threads c = .ended false) :
    t.closed c = true → t.threads c = .ended false := by
  have hthread {d : ℕ} (hd : s.threads d ≠ .ended false) (pc : AdditionPc) (hc : s.closed c = true) :
      Function.update s.threads d pc c = .ended false := by
    rw [Function.update_of_ne]
    · exact hs hc
    · rintro rfl
      exact hd (hs hc)
  cases h with
  | register | round | create | unlock | join => exact hs
  | receive d received nodeId hpc =>
    obtain ⟨pc, hchecked⟩ := checked_eq s d nodeId
    rw [hchecked]
    exact hthread (by simp [hpc]) pc
  | insert d nodeId hpc => exact hthread (by simp [hpc]) _
  | reply d outcome accepted left hpc =>
    refine fun hc => hthread (by simp [hpc]) _ ?_
    rcases eq_or_ne c d with rfl | hne
    · have hopen : (sendStep (s.closed c) left outcome).closes = false := by
        by_contra hcloses
        exact Bool.false_ne_true ((he rfl).symm.trans (sendStep_closes (by simpa using hcloses)))
      simpa [setThread, write, hopen] using hc
    · simpa [setThread, write, hne] using hc
  | finish d accepted hpc =>
    intro hc
    rcases eq_or_ne c d with rfl | hne
    · have hopen : s.closed c = false := by
        by_contra hclosed
        have hended := hs (by simpa using hclosed)
        rw [hpc] at hended
        cases hended
      have haccepted : accepted = false := by simpa [setThread, hopen] using hc
      simp [setThread, haccepted]
    · have hclosed : s.closed c = true := by simpa [setThread, hne] using hc
      simpa [setThread, hne] using hs hclosed
  | send d outcome hleft =>
    refine fun hc => hs ?_
    rcases eq_or_ne c d with rfl | hne
    · have hopen : (sendStep (s.closed c) (s.senders c) outcome).closes = false := by
        by_contra hcloses
        exact Bool.false_ne_true ((he rfl).symm.trans (sendStep_closes (by simpa using hcloses)))
      simpa [setSender, write, hopen] using hc
    · simpa [setSender, write, hne] using hc

/-- What a connection that has not been accepted has been sent is a refusal, or the beginning of one. -/
theorem Sound.wire_prefix (h : s.Sound) (hc : ¬Accepted (s.threads c)) :
    s.wire c <+: frame (additionText false) := by
  have hrefused := h.refused c
  cases hpc : s.threads c with
  | reading | valid =>
    rw [hpc] at hrefused
    exact (show s.wire c = [] from hrefused) ▸ List.nil_prefix
  | replying accepted left =>
    rw [hpc] at hc hrefused
    exact (List.prefix_append _ _).trans (hrefused (by simpa [Accepted] using hc))
  | ended accepted =>
    rw [hpc] at hc hrefused
    exact hrefused (by simpa [Accepted] using hc)

/-- What is left of the answer. -/
def left : AdditionPc → List UInt8
  | .replying _ left => left
  | .reading | .valid _ | .ended _ => []

/-- What a round will send to a socket that it has not come to. -/
def pending (c : ℕ) : NoticePc → List UInt8
  | .dispatching text _ rest => if c ∈ rest.map Prod.snd then frame text else []
  | .idle | .joining _ => []

/-- All that is still to be sent to a socket. -/
def due (s : Subscribers) (c : ℕ) : List UInt8 := left (s.threads c) ++ s.senders c ++ pending c s.notifier

/-- The socket that a round comes to next. -/
def nextTarget : NoticePc → Option ℕ
  | .dispatching _ _ rest => rest.head?.map Prod.snd
  | .idle | .joining _ => none

/-- Nothing that is sent to the socket is lost, and a round that comes to it finds it answered. -/
def Quiet (c : ℕ) (s : Subscribers) : SubscriberEvent → Prop
  | .reply d outcome => d = c → (sendStep (s.closed d) (left (s.threads d)) outcome).Keeps (left (s.threads d))
  | .send d outcome => d = c → (sendStep (s.closed d) (s.senders d) outcome).Keeps (s.senders d)
  | .create => ∀ d ∈ nextTarget s.notifier, d = c → s.threads c = .ended true
  | .register | .receive _ _ | .insert _ | .finish _ | .round _ | .unlock | .join => True

instance (c : ℕ) (s : Subscribers) (e : SubscriberEvent) : Decidable (Quiet c s e) :=
  match e with
  | .reply d outcome => inferInstanceAs (Decidable (d = c →
      (sendStep (s.closed d) (left (s.threads d)) outcome).Keeps (left (s.threads d))))
  | .send d outcome =>
    inferInstanceAs (Decidable (d = c → (sendStep (s.closed d) (s.senders d) outcome).Keeps (s.senders d)))
  | .create => inferInstanceAs (Decidable (∀ d ∈ nextTarget s.notifier, d = c → s.threads c = .ended true))
  | .register | .receive _ _ | .insert _ | .finish _ | .round _ | .unlock | .join => .isTrue trivial

/-- A subscriber that was added behind `n` rounds: as long as it is one, it is sent the answer, and the
texts of all rounds since then. -/
structure Follows (c n : ℕ) (s : Subscribers) : Prop where
  accepted : Accepted (s.threads c)
  rounds : n ≤ s.rounds.length
  answered : s.senders c ≠ [] → left (s.threads c) = []
  wire : c ∈ s.secondarySocketComms.map Prod.snd →
    s.wire c ++ s.due c = frame (additionText true) ++ ((s.rounds.drop n).map frame).flatten

namespace Follows

variable {n : ℕ}

/-- Nothing that belongs to the subscriber changes. -/
theorem unchanged (h : Follows c n s) (hthread : t.threads c = s.threads c)
    (hsender : t.senders c = s.senders c) (hwire : t.wire c = s.wire c)
    (hcomms : c ∈ t.secondarySocketComms.map Prod.snd → c ∈ s.secondarySocketComms.map Prod.snd)
    (hpending : pending c t.notifier = pending c s.notifier) (hrounds : t.rounds = s.rounds) :
    Follows c n t := by
  refine ⟨?_, ?_, ?_, fun hmem => ?_⟩
  · rw [hthread]
    exact h.accepted
  · rw [hrounds]
    exact h.rounds
  · rw [hsender, hthread]
    exact h.answered
  · rw [due, hthread, hsender, hwire, hpending, hrounds]
    exact h.wire (hcomms hmem)

/-- The thread of the connection goes on. -/
theorem answer (h : Follows c n s) {q : AdditionPc} (hq : Accepted q) {step : SendStep}
    (hleft : step.taken ++ left q = left (s.threads c)) :
    Follows c n ((s.write c step).setThread c q) := by
  have hthread : ((s.write c step).setThread c q).threads c = q := by simp [Subscribers.setThread]
  refine ⟨?_, h.rounds, fun hsenders => ?_, fun hmem => ?_⟩
  · rwa [hthread]
  · rw [hthread]
    rw [h.answered hsenders] at hleft
    exact (List.append_eq_nil_iff.mp hleft).2
  · have hwire := h.wire hmem
    rw [due, ← hleft] at hwire
    rw [due, hthread]
    refine Eq.trans ?_ hwire
    simp [Subscribers.setThread, write]

/-- A thread of the round goes on. -/
theorem sent (h : Follows c n s) {step : SendStep} (hsplit : step.Keeps (s.senders c)) :
    Follows c n ((s.write c step).setSender c step.left) := by
  obtain ⟨bytes, rest, closes⟩ := step
  change bytes ++ rest = s.senders c at hsplit
  have hsender : ((s.write c ⟨bytes, rest, closes⟩).setSender c rest).senders c = rest := by
    simp [setSender]
  refine ⟨h.accepted, h.rounds, fun hrest => ?_, fun hmem => ?_⟩
  · rw [hsender] at hrest
    refine h.answered fun hnil => hrest ?_
    rw [hnil] at hsplit
    exact (List.append_eq_nil_iff.mp hsplit).2
  · have hwire := h.wire hmem
    rw [due, ← hsplit] at hwire
    rw [due, hsender]
    refine Eq.trans ?_ hwire
    rcases eq_or_ne bytes [] with rfl | hbytes
    · simp [setSender, write]
    · -- what is sent before the answer is complete would be in the wrong place
      have hanswered := h.answered fun hnil => hbytes (List.append_eq_nil_iff.mp (hsplit.trans hnil)).1
      simp [setSender, write, hanswered]

/-- A round comes to the subscriber. -/
theorem notified (h : Follows c n s) (hs : s.Sound) {text : List UInt8} {sockets : List ℕ} {i : ℕ}
    {rest : List (ℕ × ℕ)} (hpc : s.notifier = .dispatching text sockets ((i, c) :: rest))
    (hended : s.threads c = .ended true) :
    Follows c n
      ({ s with notifier := .dispatching text (sockets ++ [c]) rest }.setSender c (frame text)) := by
  have hnodup := hs.nodup
  rw [hs.rest _ _ _ hpc, List.map_cons, List.nodup_append] at hnodup
  obtain ⟨-, hrest, hdisjoint⟩ := hnodup
  have hsenders : s.senders c = [] := by
    refine hs.senders_eq_nil ?_
    rw [hpc]
    exact fun hmem => hdisjoint c hmem c List.mem_cons_self rfl
  have hlast : pending c (.dispatching text (sockets ++ [c]) rest) = [] := if_neg (List.nodup_cons.mp hrest).1
  have hnow : pending c (.dispatching text sockets ((i, c) :: rest)) = frame text :=
    if_pos List.mem_cons_self
  refine ⟨h.accepted, h.rounds, fun _ => ?_, fun hmem => ?_⟩
  · change left (s.threads c) = []
    rw [hended]
    rfl
  · have hwire := h.wire hmem
    rw [due, hpc, hsenders, hnow] at hwire
    refine Eq.trans ?_ hwire
    simp [due, setSender, hlast]

theorem step (h : Follows c n s) (hs : s.Sound) (hquiet : Quiet c s e) (hstep : Does lib s e t) :
    Follows c n t := by
  have hother {d : ℕ} (hd : ¬Accepted (s.threads d)) : c ≠ d := by
    rintro rfl
    exact hd h.accepted
  cases hstep with
  | register => exact { h with }
  | receive d received nodeId hpc =>
    obtain ⟨pc, hchecked⟩ := checked_eq s d nodeId
    rw [hchecked]
    have hne : c ≠ d := hother (by simp [hpc, Accepted])
    exact h.unchanged (Function.update_of_ne hne _ _) rfl rfl id rfl rfl
  | insert d nodeId hpc hlock =>
    have hne : c ≠ d := hother (by simp [hpc, Accepted])
    refine h.unchanged (Function.update_of_ne hne _ _) rfl rfl (fun hmem => ?_) rfl rfl
    obtain ⟨p, hp, hpc'⟩ := List.mem_map.mp hmem
    rcases mem_of_mem_mapSet hp with rfl | hp
    · exact absurd hpc'.symm hne
    · exact List.mem_map.mpr ⟨p, hp, hpc'⟩
  | reply d outcome accepted left hpc =>
    rcases eq_or_ne c d with rfl | hne
    · have haccepted := h.accepted
      have hkeeps := hquiet rfl
      rw [hpc] at haccepted hkeeps
      refine h.answer (q := .replying accepted (sendStep (s.closed c) left outcome).left) haccepted ?_
      rw [hpc]
      exact hkeeps
    · exact h.unchanged (Function.update_of_ne hne _ _) rfl (Function.update_of_ne hne _ _) id rfl rfl
  | finish d accepted hpc =>
    rcases eq_or_ne c d with rfl | hne
    · have haccepted : Accepted (.ended accepted) := by
        have haccepted := h.accepted
        rwa [hpc] at haccepted
      have hnothing : SendStep.taken ⟨[], [], false⟩ ++ left (.ended accepted) = left (s.threads c) := by
        rw [hpc]
        rfl
      have hanswer : Follows c n ((s.write c ⟨[], [], false⟩).setThread c (.ended accepted)) :=
        h.answer haccepted hnothing
      have hsame : s.write c ⟨[], [], false⟩ = s := by simp [write]
      rw [hsame] at hanswer
      exact { hanswer with }
    · exact h.unchanged (Function.update_of_ne hne _ _) rfl rfl id rfl rfl
  | round text hidle =>
    refine ⟨h.accepted, h.rounds.trans (by simp), h.answered, fun hmem => ?_⟩
    have hwire := h.wire hmem
    rw [due, hidle] at hwire
    have hpending : pending c (.dispatching text [] s.secondarySocketComms) = frame text := if_pos hmem
    simp only [due, hpending, List.drop_append_of_le_length h.rounds, List.map_append, List.flatten_append,
      ← List.append_assoc, ← hwire]
    simp [pending]
  | create text sockets i d rest hpc =>
    rcases eq_or_ne c d with rfl | hne
    · rw [Quiet, hpc] at hquiet
      exact h.notified hs hpc (hquiet c rfl rfl)
    · have hpending : pending c (.dispatching text (sockets ++ [d]) rest) = pending c s.notifier := by
        rw [hpc, pending, pending, List.map_cons]
        simp only [List.mem_cons, hne, false_or]
      exact h.unchanged rfl (Function.update_of_ne hne _ _) rfl id hpending rfl
  | unlock text sockets hpc => exact h.unchanged rfl rfl rfl id (by rw [hpc]; rfl) rfl
  | send d outcome =>
    rcases eq_or_ne c d with rfl | hne
    · exact h.sent (hquiet rfl)
    · exact h.unchanged rfl (Function.update_of_ne hne _ _) (Function.update_of_ne hne _ _) id rfl rfl
  | join sockets hpc hdone => exact h.unchanged rfl rfl rfl id (by rw [hpc]; rfl) rfl

end Follows

/-- A connection is put among the subscribers. As long as it is one of them, and whenever it has been
answered and no round is going on, it has been sent the answer and behind it the texts of all rounds since
then, each once and in order; provided that every round that came to it found it answered, and that no
call of `send` on it has lost anything. -/
theorem wire_of_subscribed {currentId : ℕ} {s' : Subscribers}
    (h : Runs (fun s e t => s.next lib e = .ok t) (fun _ _ => True) (initial currentId) s)
    (hinsert : s.next lib (.insert c) = .ok s')
    (hrun : Runs (fun s e t => s.next lib e = .ok t) (Quiet c) s' t)
    (hcomms : c ∈ t.secondarySocketComms.map Prod.snd) (hidle : t.notifier = .idle)
    (hended : t.threads c = .ended true) :
    t.wire c = frame (additionText true) ++ ((t.rounds.drop s.rounds.length).map frame).flatten := by
  have hs := sound_of_runs h
  have hs' : s'.Sound := hs.step (does_of_next hinsert)
  have hfollows : Follows c s.rounds.length s' := by
    cases does_of_next hinsert with
    | insert _ nodeId hpc hlock =>
      have hwire : s.wire c = [] := by simpa [hpc, Refused] using hs.refused c
      have hsenders : s.senders c = [] := by
        refine hs.senders_eq_nil fun hmem => ?_
        have haccepted := hs.notified c hmem
        rw [hpc] at haccepted
        exact haccepted
      have hpending : pending c s.notifier = [] := by
        cases hnotifier : s.notifier with
        | idle | joining => rfl
        | dispatching text sockets rest => exact absurd hnotifier (hlock text sockets rest)
      refine ⟨?_, le_rfl, fun hne => absurd hsenders hne, fun _ => ?_⟩
      · simp [setThread, Accepted]
      · simp [setThread, due, left, hwire, hsenders, hpending]
  have hend : Follows c s.rounds.length t ∧ t.Sound := by
    refine Runs.invariant (I := fun t => Follows c s.rounds.length t ∧ t.Sound) ?_ hrun ⟨hfollows, hs'⟩
    intro s e t hs hquiet hstep
    exact ⟨hs.1.step hs.2 hquiet (does_of_next hstep), hs.2.step (does_of_next hstep)⟩
  have hwire := hend.1.wire hcomms
  have hsenders : t.senders c = [] := hend.2.senders_eq_nil (by rw [hidle]; exact List.not_mem_nil)
  rw [due, hended, hsenders, hidle] at hwire
  rw [← hwire]
  exact (List.append_nil _).symm

/-! ### Two connections with the same id -/

/-- What a client sends to be told of changes. -/
def requestOfZero : Option (List UInt8) := some (ascii "\x7b\"node_id\": 0\x7d")

/-- The first one is answered before the second one comes; a third one has an id that is not known. -/
def twoOfZero : List SubscriberEvent :=
  [.register, .receive 0 requestOfZero, .insert 0, .reply 0 (.sent 8), .reply 0 (.sent 99),
    .reply 0 (.sent 1), .finish 0, .receive 2 (some (ascii "\x7b\"node_id\": 7\x7d")), .reply 2 (.sent 99),
    .reply 2 (.sent 1), .finish 2, .receive 1 requestOfZero]

/-- The second one takes the id over. -/
def takenOver : List SubscriberEvent := twoOfZero ++ [.insert 1]

/-- What comes behind it. -/
def oneRound : List SubscriberEvent :=
  [.round [65], .reply 1 (.sent 99), .reply 1 (.sent 1), .finish 1, .create, .unlock, .send 1 (.sent 0),
    .send 1 (.failed .eintr), .send 1 (.sent 1), .join]

-- a call of `send` that returns 0 closes the socket of a subscriber, which stays one
example : ((twoOfZero ++ [SubscriberEvent.round [65], .create, .send 0 (.zero (.other 104))]).foldlM
    (next readerLibrary) (initial 0)).map (fun s => (s.closed 0, s.secondarySocketComms)) =
      .ok (true, [(0, 0)]) := by
  decide +kernel

/-- The second connection takes the id over from the first one. -/
theorem replaced_of_runs_twoOfZero :
    ∃ s, takenOver.foldlM (next readerLibrary) (initial 0) = .ok s ∧
      s.secondarySocketComms = [(0, 1)] ∧
      ∀ t, Runs (fun s e t => s.next readerLibrary e = .ok t) (fun _ _ => True) s t →
        t.wire 0 = frame (additionText true) ∧ t.closed 0 = false := by
  have hruns : (takenOver.foldlM (next readerLibrary) (initial 0)).map
      (fun s => (s.secondarySocketComms, s.threads 0, s.notifier, s.wire 0, s.closed 0)) =
        .ok ([(0, 1)], .ended true, .idle, frame (additionText true), false) := by decide +kernel
  obtain ⟨s, hrun, hview⟩ := Except.map_eq_ok.mp hruns
  obtain ⟨hcomms, hview⟩ := Prod.mk.inj hview
  obtain ⟨hthread, hview⟩ := Prod.mk.inj hview
  obtain ⟨hidle, hview⟩ := Prod.mk.inj hview
  obtain ⟨hwire, hclosed⟩ := Prod.mk.inj hview
  refine ⟨s, hrun, hcomms, fun t ht => ?_⟩
  rw [← hwire, ← hclosed]
  exact replaced_of_runs (Runs.of_foldlM hrun) hthread (by simp [hcomms]) hidle ht

/-- The round begins before the second connection has been answered, and comes to it behind the answer. -/
theorem wire_of_subscribed_oneRound :
    ∃ s s' t, twoOfZero.foldlM (next readerLibrary) (initial 0) = .ok s ∧
      s.next readerLibrary (.insert 1) = .ok s' ∧
      Runs.exec (next readerLibrary) (Quiet 1) .blocked oneRound s' = .ok t ∧
      t.wire 1 = frame (additionText true) ++ frame [65] := by
  have hruns : (twoOfZero.foldlM (next readerLibrary) (initial 0) >>= fun s =>
      s.next readerLibrary (.insert 1) >>= fun s' =>
        (Runs.exec (next readerLibrary) (Quiet 1) .blocked oneRound s').map fun t =>
          (t.secondarySocketComms, t.notifier, t.threads 1, t.rounds.drop s.rounds.length)) =
      .ok ([(0, 1)], .idle, .ended true, [[65]]) := by decide +kernel
  obtain ⟨s, hs, hruns⟩ := Except.bind_eq_ok.mp hruns
  obtain ⟨s', hinsert, hruns⟩ := Except.bind_eq_ok.mp hruns
  obtain ⟨t, ht, hview⟩ := Except.map_eq_ok.mp hruns
  obtain ⟨hcomms, hview⟩ := Prod.mk.inj hview
  obtain ⟨hidle, hview⟩ := Prod.mk.inj hview
  obtain ⟨hended, hrounds⟩ := Prod.mk.inj hview
  refine ⟨s, s', t, hs, hinsert, ht, ?_⟩
  rw [wire_of_subscribed (Runs.of_foldlM hs) hinsert (Runs.of_exec ht) (by simp [hcomms]) hidle hended,
    hrounds]
  simp

-- a round that does not find it answered comes first, and the answer behind it
example : ((takenOver ++ [SubscriberEvent.round [65], .create, .send 1 (.sent 0), .send 1 (.sent 1),
    .reply 1 (.sent 99), .reply 1 (.sent 1)]).foldlM (next readerLibrary) (initial 0)).map
      (fun s => s.wire 1) = .ok (frame [65] ++ frame (additionText true)) := by
  decide +kernel

end Subscribers

end PoQ
