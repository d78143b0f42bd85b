import PoQ.Socket.Descriptors
import PoQ.Socket.ReceiveErrors

/-!
# Connecting, and connecting again

`socket_connect_retry` closes the descriptor of a socket that could not be connected, and opens another
one. The set of the socket still holds the descriptor that it was made with. A new descriptor is the
lowest one that is not open.
-/

namespace PoQ

/-- What `connect` does. -/
inductive ConnectOutcome
  | done
  | isConnected
  | failed
deriving DecidableEq, Repr

/-- A round of the loop of `socket_connect_retry`: what `connect` does, and whether there is another
socket with its options if it fails. -/
structure Attempt where
  connect : ConnectOutcome
  created : Bool
deriving DecidableEq, Repr

/-- The lowest descriptor that is not open, of those that a process may have. -/
def lowestFree (opened : ℕ → Bool) (limit : ℕ) : Option ℕ := (List.range limit).find? fun fd => !opened fd

namespace Process

/-- `create_primitive_socket`. -/
def createPrimitiveSocket (limit : ℕ) (created : Bool) (w : Process) : Option ℕ × Process :=
  if created then
    match lowestFree w.opened limit with
    | some fd => (some fd, w.setOpened fd true)
    | none => (none, w)
  else (none, w)

/-- `socket_connect`: whether it returns 0. -/
def socketConnect (w : Process) (a : ℕ) (outcome : ConnectOutcome) : Except SocketAbort Bool := do
  let soc ← w.socketAt a
  return !soc.isClosed && outcome != .failed

/-- The loop of `socket_connect_retry`. -/
def connectRetryFrom (limit a : ℕ) : ℕ → List Attempt → Process → Except SocketAbort (Bool × Process)
  | _, [], _ => .error .waiting
  | retries, attempt :: attempts, w => do
    let connected ← w.socketConnect a attempt.connect
    if connected then return (true, w)
    let soc ← w.socketAt a
    match (w.setOpened soc.socketDescriptor false).createPrimitiveSocket limit attempt.created with
    | (none, w) => return (false, w)
    | (some fd, w) =>
      let w := w.write a { soc with socketDescriptor := fd }
      if retries + 1 < retriesThreshold then connectRetryFrom limit a (retries + 1) attempts w
      else return (false, w)

/-- `socket_connect_retry`: whether it returns 0. -/
def socketConnectRetry (limit a : ℕ) (w : Process) (attempts : List Attempt) :
    Except SocketAbort (Bool × Process) :=
  connectRetryFrom limit a 0 attempts w

end Process

/-- The sockets that a call of `socket_connect_retry` creates, having tried this often. -/
def recreations (isClosed : Bool) : ℕ → List Attempt → ℕ
  | _, [] => 0
  | retries, attempt :: attempts =>
    if !isClosed && attempt.connect != .failed then 0
    else if attempt.created then
      1 + if retries + 1 < retriesThreshold then recreations isClosed (retries + 1) attempts else 0
    else 0

/-- Whether the descriptor of a socket is open behind a call, having tried this often. -/
def leftOpen (isClosed : Bool) : ℕ → List Attempt → Bool → Bool
  | _, [], b => b
  | retries, attempt :: attempts, b =>
    if !isClosed && attempt.connect != .failed then b
    else if attempt.created then
      if retries + 1 < retriesThreshold then leftOpen isClosed (retries + 1) attempts true else true
    else false

/-! ## The lowest descriptor -/

theorem lowestFree_eq_some {opened : ℕ → Bool} {limit m : ℕ} :
    lowestFree opened limit = some m ↔ m < limit ∧ opened m = false ∧ ∀ x < m, opened x = true := by
  rw [lowestFree, List.find?_range_eq_some]
  simp only [Bool.not_eq_true', List.mem_range, Bool.not_not]
  tauto

/-- The number of a descriptor that is closed is free, and it is the lowest one if nothing below it is. -/
theorem exists_lowestFree (opened : ℕ → Bool) {limit fd : ℕ} (hlimit : fd < limit) :
    ∃ m, lowestFree (Function.update opened fd false) limit = some m ∧ m ≤ fd ∧
      (m = fd ↔ ∀ x < fd, opened x = true) := by
  have hfree : Function.update opened fd false fd = false := Function.update_self _ _ _
  obtain ⟨m, hm⟩ : ∃ m, lowestFree (Function.update opened fd false) limit = some m := by
    rw [← Option.isSome_iff_exists, lowestFree, List.find?_isSome]
    exact ⟨fd, List.mem_range.mpr hlimit, by rw [hfree]; rfl⟩
  obtain ⟨-, hm0, hbelow⟩ := lowestFree_eq_some.mp hm
  have hle : m ≤ fd := by
    by_contra hlt
    rw [hbelow fd (Nat.lt_of_not_le hlt)] at hfree
    cases hfree
  refine ⟨m, hm, hle, fun heq x hx => ?_, fun hall => ?_⟩
  · have htrue := hbelow x (heq ▸ hx)
    rwa [Function.update_of_ne hx.ne] at htrue
  · by_contra hne
    rw [Function.update_of_ne hne, hall m (Nat.lt_of_le_of_ne hle hne)] at hm0
    cases hm0

namespace Process

variable {limit a n retries m : ℕ} {w w₀ w' : Process} {soc : SocketT} {b : Bool} {attempts : List Attempt}

/-- The process behind `n` new descriptors for the socket at `a`, each of which was `m`. The flag says
whether the descriptor that the socket has in the end is open. -/
structure Moved (w₀ : Process) (a : ℕ) (soc : SocketT) (m n : ℕ) (b : Bool) (w : Process) : Prop where
  sockets : w.sockets = Function.update w₀.sockets a
    (some { soc with socketDescriptor := if n = 0 then soc.socketDescriptor else m })
  opened : w.opened = Function.update (Function.update w₀.opened soc.socketDescriptor false)
    (if n = 0 then soc.socketDescriptor else m) b
  next : w.next = w₀.next

theorem Moved.socket (h : Moved w₀ a soc m n b w) :
    w.sockets a = some { soc with socketDescriptor := if n = 0 then soc.socketDescriptor else m } := by
  rw [h.sockets, Function.update_self]

/-- Before the first call. -/
theorem Moved.refl (ha : w.sockets a = some soc) (m : ℕ) :
    Moved w a soc m 0 (w.opened soc.socketDescriptor) w where
  sockets := by
    rw [if_pos rfl, ← ha, Function.update_eq_self]
  opened := by
    rw [if_pos rfl, Function.update_idem, Function.update_eq_self]
  next := rfl

/-- Without its descriptor the process is the same in every round. -/
theorem Moved.closed (h : Moved w₀ a soc m n b w)
    (hm : lowestFree (Function.update w₀.opened soc.socketDescriptor false) limit = some m) :
    Function.update w.opened (if n = 0 then soc.socketDescriptor else m) false =
      Function.update w₀.opened soc.socketDescriptor false := by
  obtain ⟨-, hfree, -⟩ := lowestFree_eq_some.mp hm
  rw [h.opened, Function.update_idem]
  split
  · rw [Function.update_idem]
  · exact Function.update_eq_self_iff.mpr hfree.symm

/-- A round of the loop. -/
theorem connectRetryFrom_cons (ha : w.sockets a = some soc)
    (hm : lowestFree (Function.update w.opened soc.socketDescriptor false) limit = some m) (retries : ℕ)
    (attempt : Attempt) (attempts : List Attempt) :
    connectRetryFrom limit a retries (attempt :: attempts) w =
      let w₁ := w.setOpened soc.socketDescriptor false
      let w₂ := (w₁.setOpened m true).write a { soc with socketDescriptor := m }
      if (!soc.isClosed && attempt.connect != .failed) = true then .ok (true, w)
      else if attempt.created then
        if retries + 1 < retriesThreshold then connectRetryFrom limit a (retries + 1) attempts w₂
        else .ok (false, w₂)
      else .ok (false, w₁) := by
  rw [connectRetryFrom, socketConnect, socketAt_eq_ok.mpr ha]
  simp only [Except.ok_bind, Except.pure_eq_ok]
  have hcreate : (w.setOpened soc.socketDescriptor false).createPrimitiveSocket limit true =
      (some m, (w.setOpened soc.socketDescriptor false).setOpened m true) := by
    rw [createPrimitiveSocket, if_pos rfl]
    rw [show lowestFree (w.setOpened soc.socketDescriptor false).opened limit = some m from hm]
  split
  · rfl
  rcases attempt.created with _ | _
  · rfl
  · rw [hcreate]
    rfl

/-- A call for a socket that may have been given new descriptors before. -/
theorem Moved.connectRetryFrom {r : Bool} (h : Moved w₀ a soc m n b w)
    (hm : lowestFree (Function.update w₀.opened soc.socketDescriptor false) limit = some m)
    (hrun : connectRetryFrom limit a retries attempts w = .ok (r, w')) :
    Moved w₀ a soc m (n + recreations soc.isClosed retries attempts)
      (leftOpen soc.isClosed retries attempts b) w' := by
  induction attempts generalizing w n retries b with
  | nil => cases hrun
  | cons attempt attempts ih =>
    have hclosed := h.closed hm
    have hcons := connectRetryFrom_cons h.socket (by rw [hclosed]; exact hm) retries attempt attempts
    rw [hcons] at hrun
    simp only at hrun
    rw [recreations, leftOpen]
    split at hrun
    · next hconnected =>
      cases hrun
      rw [if_pos hconnected, if_pos hconnected]
      exact h
    next hconnected =>
    rw [if_neg hconnected, if_neg hconnected]
    split at hrun
    · next hcreated =>
      have hmoved : Moved w₀ a soc m (n + 1) true (((w.setOpened (if n = 0 then soc.socketDescriptor else m)
          false).setOpened m true).write a { soc with socketDescriptor := m }) := by
        refine ⟨?_, ?_, h.next⟩
        · change Function.update w.sockets a _ = _
          rw [h.sockets, Function.update_idem]
          rfl
        · rw [if_neg (Nat.succ_ne_zero n)]
          exact congrArg (fun opened => Function.update opened m true) hclosed
      rw [if_pos hcreated, if_pos hcreated]
      split at hrun
      · next hretry =>
        rw [if_pos hretry, if_pos hretry, ← Nat.add_assoc]
        exact ih hmoved hrun
      · next hretry =>
        cases hrun
        rw [if_neg hretry, if_neg hretry]
        exact hmoved
    · next hcreated =>
      cases hrun
      rw [if_neg hcreated, if_neg hcreated]
      refine ⟨h.sockets, ?_, h.next⟩
      rw [← hclosed, Nat.add_zero, Function.update_idem]
      rfl

/-! ## `socket_select` behind `socket_connect_retry` -/

/-- The process behind a call of `socket_connect_retry`. -/
def afterRetry (limit a : ℕ) (w : Process) (attempts : List Attempt) : Except SocketAbort Process :=
  (w.socketConnectRetry limit a attempts).map Prod.snd

/-- The sockets that some calls create. -/
def allRecreations (isClosed : Bool) (calls : List (List Attempt)) : ℕ :=
  (calls.map (recreations isClosed 0)).sum

theorem Moved.calls {calls : List (List Attempt)} (h : Moved w₀ a soc m n b w)
    (hm : lowestFree (Function.update w₀.opened soc.socketDescriptor false) limit = some m)
    (hrun : calls.foldlM (afterRetry limit a) w = .ok w') :
    ∃ b', Moved w₀ a soc m (n + allRecreations soc.isClosed calls) b' w' := by
  induction calls generalizing w n b with
  | nil =>
    cases hrun
    exact ⟨b, h⟩
  | cons attempts calls ih =>
    rw [List.foldlM_cons] at hrun
    obtain ⟨w₁, hafter, hrun⟩ := Except.bind_eq_ok.mp hrun
    obtain ⟨⟨r, w₂⟩, hcall, rfl⟩ := Except.map_eq_ok.mp hafter
    obtain ⟨b', hmoved⟩ := ih (h.connectRetryFrom hm hcall) hrun
    refine ⟨b', ?_⟩
    rwa [Nat.add_assoc] at hmoved

/-- The socket that `socket_constructor` makes. -/
def newSocket (fd : ℕ) : SocketT := ⟨fd, false, none, fun x => decide (x = fd), []⟩

/-- A socket that is not in its own set waits for a call of `select` that fails. -/
theorem selectRetry_of_not_set (hfits : soc.socketDescriptor < fdSetSize)
    (hset : soc.set soc.socketDescriptor = false) {results : List Bool} :
    (∃ status, soc.selectRetry results = .ok status) ↔ false ∈ results := by
  induction results with
  | nil => simp [SocketT.selectRetry]
  | cons ready results ih =>
    rcases ready with _ | _
    · exact iff_of_true ⟨false, rfl⟩ List.mem_cons_self
    · rw [SocketT.selectRetry, ensure_of hfits, Except.ok_bind, hset, if_neg Bool.false_ne_true, ih]
      simp

/-- `socket_select` on a socket without connections. -/
theorem socketSelectParent_of_single (ha : w.sockets a = some soc) (hnone : soc.parent = none)
    (hopen : soc.isClosed = false) (hqueue : soc.closeQueue = []) (hnext : 0 < w.next) (results : List Bool) :
    w.socketSelectParent a results = (soc.selectRetry results).map fun status => (status, w) := by
  have hroot : soc.root a = a := by rw [SocketT.root, hnone, Option.getD_none]
  have hget := getParent_eq ha (by rwa [hroot]) hnone hnext
  have hclear : soc.clearClosed = .ok soc := by
    rw [SocketT.clearClosed, hqueue]
    obtain ⟨fd, isClosed, parent, set, closeQueue⟩ := soc
    cases hqueue
    rfl
  have hsame : w.write a soc = w := by rw [write, ← ha, Function.update_eq_self]
  rw [socketSelectParent, socketAt_eq_ok.mpr ha, Except.ok_bind, hget, hroot, Except.ok_bind, hopen,
    socketAt_eq_ok.mpr ha]
  simp only [Bool.false_eq_true, if_false, Except.ok_bind, hnone, if_true, hclear, hsame]
  rcases soc.selectRetry results with e | status
  · rfl
  · rfl

/-- A new socket is given to `socket_connect_retry` any number of times. With the results that `select` has
one after the other, `socket_select` then comes to an end exactly if there is one, and no descriptor was
created again, or no descriptor below that of the socket was free, or a call of `select` fails: the set of
the socket still holds its first descriptor. -/
theorem select_after_retries_iff {calls : List (List Attempt)} {fd : ℕ}
    (ha : w.sockets a = some (newSocket fd)) (hnext : 0 < w.next) (hlimit : fd < limit)
    (hfits : fd < fdSetSize) (hrun : calls.foldlM (afterRetry limit a) w = .ok w') (results : List Bool) :
    (∃ r, w'.socketSelectParent a results = .ok r) ↔
      results ≠ [] ∧
        (allRecreations false calls = 0 ∨ (∀ x < fd, w.opened x = true) ∨ false ∈ results) := by
  obtain ⟨m, hm, hle, hm_iff⟩ := exists_lowestFree w.opened hlimit
  obtain ⟨b, hmoved⟩ := (Moved.refl ha m).calls hm hrun
  have ha' := hmoved.socket
  have hselect := socketSelectParent_of_single ha' rfl rfl rfl (hmoved.next ▸ hnext)
  rw [Nat.zero_add] at ha' hselect
  have hcond : allRecreations false calls = 0 ∨ m = fd ↔
      (if allRecreations false calls = 0 then fd else m) = fd := by
    split
    · next hzero => exact iff_of_true (.inl hzero) rfl
    · next hpos => exact or_iff_right hpos
  rw [← hm_iff, ← or_assoc, hcond]
  have hsize : (if allRecreations false calls = 0 then fd else m) < fdSetSize := by
    split
    · exact hfits
    · exact lt_of_le_of_lt hle hfits
  have hreturns : (∃ r, w'.socketSelectParent a results = .ok r) ↔ ∃ status,
      SocketT.selectRetry { newSocket fd with
        socketDescriptor := if allRecreations false calls = 0 then fd else m } results = .ok status := by
    rw [hselect]
    simp only [Except.map_eq_ok]
    constructor
    · rintro ⟨_, status, hstatus, -⟩
      exact ⟨status, hstatus⟩
    · rintro ⟨status, hstatus⟩
      exact ⟨_, status, hstatus, rfl⟩
  rw [hreturns]
  by_cases heq : (if allRecreations false calls = 0 then fd else m) = fd
  · rw [selectRetry_eq hsize (decide_eq_true heq), and_iff_left (.inl heq)]
    cases results with
    | nil => simp [firstResult]
    | cons ready results => simp [firstResult]
  · rw [selectRetry_of_not_set hsize (decide_eq_false heq), or_iff_right heq]
    exact (and_iff_right_of_imp List.ne_nil_of_mem).symm

/-- A process whose standard input is closed, with a new socket. -/
def withoutInput : Process where
  sockets := Function.update (fun _ => none) 0 (some (newSocket 3))
  next := 1
  opened := fun fd => decide (fd ∈ [1, 2, 3])

/-- It takes a second attempt to connect. The socket is given the number of the standard input, and
`socket_select` does not come to an end. -/
theorem not_select_withoutInput :
    ∃ w', [[⟨.failed, true⟩, ⟨.done, true⟩]].foldlM (afterRetry 16 0) withoutInput = .ok w' ∧
      ¬∃ k r, w'.socketSelectParent 0 (List.replicate k true) = .ok r := by
  obtain ⟨w', hrun⟩ : ∃ w', [[⟨.failed, true⟩, ⟨.done, true⟩]].foldlM (afterRetry 16 0) withoutInput =
      .ok w' := ⟨_, rfl⟩
  have ha : withoutInput.sockets 0 = some (newSocket 3) := rfl
  refine ⟨w', hrun, ?_⟩
  rintro ⟨k, hreturns⟩
  rw [select_after_retries_iff ha (by decide) (by decide) (by decide) hrun] at hreturns
  rcases hreturns.2 with hzero | hall | hfails
  · exact absurd hzero (by decide)
  · exact absurd (hall 0 (by decide)) (by decide)
  · cases List.eq_of_mem_replicate hfails

end Process

/-! ## `connect_to_server` -/

/-- The sockets of a client, which connects both of them. -/
structure ClientSockets where
  node : ℕ
  subscribe : ℕ

/-- What the attempts of a round of the loop of `connect_to_server` do, for both sockets. -/
structure ConnectRound where
  node : List Attempt
  subscribe : List Attempt

namespace Process

/-- `connected ? true : socket_connect_retry(..) == 0`. -/
def connectUnless (limit a : ℕ) (connected : Bool) (w : Process) (attempts : List Attempt) :
    Except SocketAbort (Bool × Process) :=
  if connected then .ok (true, w) else w.socketConnectRetry limit a attempts

/-- A round of the loop of `connect_to_server`, with `connect1` and `connect2` before and behind it. -/
def connectRound (limit : ℕ) (c : ClientSockets) (w : Process) (connect1 connect2 : Bool)
    (round : ConnectRound) : Except SocketAbort ((Bool × Bool) × Process) := do
  let (connect1, w) ← w.connectUnless limit c.node connect1 round.node
  let (connect2, w) ← w.connectUnless limit c.subscribe connect2 round.subscribe
  return ((connect1, connect2), w)

/-- The loop of `connect_to_server`. -/
def connectToServerFrom (limit : ℕ) (c : ClientSockets) (firstTime : Bool) :
    Bool → Bool → List ConnectRound → Process → Except SocketAbort (Bool × Process)
  | _, _, [], _ => .error .waiting
  | connect1, connect2, round :: rounds, w => do
    let ((connect1, connect2), w) ← w.connectRound limit c connect1 connect2 round
    let connected := connect1 && connect2
    if connected = false ∧ firstTime = true then
      connectToServerFrom limit c firstTime connect1 connect2 rounds w
    else return (connected, w)

/-- `connect_to_server`, with `retry_connection` set as it is. -/
def connectToServer (limit : ℕ) (c : ClientSockets) (firstTime : Bool) (rounds : List ConnectRound)
    (w : Process) : Except SocketAbort (Bool × Process) :=
  connectToServerFrom limit c firstTime false false rounds w

end Process

theorem leftOpen_of_created {isClosed : Bool} {retries : ℕ} {attempts : List Attempt}
    (h : ∀ t ∈ attempts, t.created = true) : leftOpen isClosed retries attempts true = true := by
  induction attempts generalizing retries with
  | nil => rfl
  | cons t attempts ih =>
    obtain ⟨ht, hrest⟩ := List.forall_mem_cons.mp h
    rw [leftOpen, ht, if_pos rfl, ih hrest]
    simp

namespace Process

variable {limit a : ℕ} {w w' : Process} {soc : SocketT}

/-- Where everything below the descriptor of a socket is open, its descriptor stays the same. -/
theorem lowestFree_self {opened : ℕ → Bool} {fd : ℕ} (hbelow : ∀ x < fd, opened x = true)
    (hlimit : fd < limit) : lowestFree (Function.update opened fd false) limit = some fd := by
  obtain ⟨m, hm, -, heq⟩ := exists_lowestFree opened hlimit
  rw [hm, heq.mpr hbelow]

theorem socketConnectRetry_keeps {attempts : List Attempt} {r : Bool} (ha : w.sockets a = some soc)
    (hopened : ∀ x ≤ soc.socketDescriptor, w.opened x = true) (hlimit : soc.socketDescriptor < limit)
    (hcreated : ∀ t ∈ attempts, t.created = true)
    (hrun : w.socketConnectRetry limit a attempts = .ok (r, w')) : w' = w := by
  have hm := lowestFree_self (fun x hx => hopened x hx.le) hlimit
  have hmoved := (Moved.refl ha soc.socketDescriptor).connectRetryFrom hm hrun
  have hopen := hopened _ (Nat.le_refl _)
  have hsockets := hmoved.sockets
  have hopened' := hmoved.opened
  rw [ite_self, ← ha, Function.update_eq_self] at hsockets
  rw [ite_self, Function.update_idem, hopen, leftOpen_of_created hcreated, ← hopen,
    Function.update_eq_self] at hopened'
  obtain ⟨sockets, next, opened⟩ := w'
  cases hsockets
  cases hopened'
  cases hmoved.next
  rfl

/-- What a round needs to leave everything as it is. -/
def RoundCreates (round : ConnectRound) : Prop :=
  (∀ t ∈ round.node, t.created = true) ∧ ∀ t ∈ round.subscribe, t.created = true

/-- Both sockets are open, with descriptors below which everything is open. -/
structure BothOpen (limit : ℕ) (c : ClientSockets) (w : Process) : Prop where
  node : ∃ soc, w.sockets c.node = some soc ∧ soc.isClosed = false ∧ soc.socketDescriptor < limit ∧
    ∀ x ≤ soc.socketDescriptor, w.opened x = true
  subscribe : ∃ soc, w.sockets c.subscribe = some soc ∧ soc.isClosed = false ∧
    soc.socketDescriptor < limit ∧ ∀ x ≤ soc.socketDescriptor, w.opened x = true

theorem connectRound_keeps {c : ClientSockets} {connect1 connect2 : Bool} {round : ConnectRound}
    {r : Bool × Bool} (h : w.BothOpen limit c) (hcreates : RoundCreates round)
    (hrun : w.connectRound limit c connect1 connect2 round = .ok (r, w')) : w' = w := by
  rw [connectRound] at hrun
  obtain ⟨⟨c₁, w₁⟩, hnode, hrest⟩ := Except.bind_eq_ok.mp hrun
  obtain ⟨⟨c₂, w₂⟩, hsubscribe, hreturn⟩ := Except.bind_eq_ok.mp hrest
  cases hreturn
  have hw₁ : w₁ = w := by
    rcases connect1 with _ | _
    · obtain ⟨soc, ha, -, hlimit, hopened⟩ := h.node
      exact socketConnectRetry_keeps ha hopened hlimit hcreates.1 hnode
    · cases hnode
      rfl
  subst hw₁
  rcases connect2 with _ | _
  · obtain ⟨soc, ha, -, hlimit, hopened⟩ := h.subscribe
    exact socketConnectRetry_keeps ha hopened hlimit hcreates.2 hsubscribe
  · cases hsubscribe
    rfl

theorem connectToServerFrom_keeps {c : ClientSockets} {firstTime connect1 connect2 : Bool}
    {rounds : List ConnectRound} {r : Bool} (h : w.BothOpen limit c)
    (hcreates : ∀ round ∈ rounds, RoundCreates round)
    (hrun : connectToServerFrom limit c firstTime connect1 connect2 rounds w = .ok (r, w')) : w' = w := by
  induction rounds generalizing w connect1 connect2 with
  | nil => cases hrun
  | cons round rounds ih =>
    obtain ⟨hround, hrounds⟩ := List.forall_mem_cons.mp hcreates
    rw [connectToServerFrom] at hrun
    obtain ⟨⟨⟨c₁, c₂⟩, w₁⟩, hfirst, hrest⟩ := Except.bind_eq_ok.mp hrun
    obtain rfl := connectRound_keeps h hround hfirst
    simp only at hrest
    split at hrest
    · exact ih h hrounds hrest
    · cases hrest
      rfl

/-- The process behind a call of `connect_to_server`. -/
def afterConnect (limit : ℕ) (c : ClientSockets) (w : Process) (call : Bool × List ConnectRound) :
    Except SocketAbort Process :=
  (w.connectToServer limit c call.1 call.2).map Prod.snd

/-- However often a client connects, and whatever fails: as long as its two sockets are not closed, a new
descriptor can be had every time, and nothing below those of the sockets is free, the sockets keep their
descriptors, and nothing else is opened or closed. -/
theorem connectToServer_keeps {c : ClientSockets} {calls : List (Bool × List ConnectRound)}
    (h : w.BothOpen limit c) (hcreates : ∀ call ∈ calls, ∀ round ∈ call.2, RoundCreates round)
    (hrun : calls.foldlM (afterConnect limit c) w = .ok w') : w' = w := by
  induction calls generalizing w with
  | nil =>
    cases hrun
    rfl
  | cons call calls ih =>
    obtain ⟨hcall, hcalls⟩ := List.forall_mem_cons.mp hcreates
    rw [List.foldlM_cons] at hrun
    obtain ⟨w₁, hafter, hrest⟩ := Except.bind_eq_ok.mp hrun
    obtain ⟨⟨r, w₂⟩, hconnect, rfl⟩ := Except.map_eq_ok.mp hafter
    obtain rfl := connectToServerFrom_keeps h hcall hconnect
    exact ih h hcalls hrest

/-- A client that connects again, where the descriptor of its first socket is the smaller one and all below
that of the second one is open, and the second socket is created again. The two sockets have different descriptors behind it exactly if the last
descriptor that was to be had for the first one could be had: otherwise the second socket is given the
number that the first one still has. -/
theorem connectToServer_distinct_iff {c : ClientSockets} {soc₁ soc₂ : SocketT} {round : ConnectRound}
    {r : Bool} (hne : c.node ≠ c.subscribe) (h₁ : w.sockets c.node = some soc₁)
    (h₂ : w.sockets c.subscribe = some soc₂) (hlt : soc₁.socketDescriptor < soc₂.socketDescriptor)
    (hopened : ∀ x ≤ soc₂.socketDescriptor, w.opened x = true) (hlimit : soc₂.socketDescriptor < limit)
    (hcreated : recreations soc₂.isClosed 0 round.subscribe ≠ 0)
    (hrun : w.connectToServer limit c false [round] = .ok (r, w')) :
    ∃ soc₁' soc₂', w'.sockets c.node = some soc₁' ∧ w'.sockets c.subscribe = some soc₂' ∧
      soc₁'.socketDescriptor = soc₁.socketDescriptor ∧
      (soc₁'.socketDescriptor ≠ soc₂'.socketDescriptor ↔
        leftOpen soc₁.isClosed 0 round.node true = true) := by
  rw [connectToServer, connectToServerFrom] at hrun
  obtain ⟨⟨⟨c₁, c₂⟩, w₃⟩, hround, hreturn⟩ := Except.bind_eq_ok.mp hrun
  rw [connectRound] at hround
  obtain ⟨⟨r₁, w₁⟩, hnode, hrest⟩ := Except.bind_eq_ok.mp hround
  obtain ⟨⟨r₂, w₂⟩, hsubscribe, hpair⟩ := Except.bind_eq_ok.mp hrest
  cases hpair
  simp only [Bool.false_eq_true, and_false, if_false, connectUnless] at hreturn hnode hsubscribe
  cases hreturn
  -- the first socket keeps its number
  have hm₁ := lowestFree_self (fun x hx => hopened x (hx.le.trans hlt.le)) (hlt.trans hlimit)
  have hmoved₁ := (Moved.refl h₁ soc₁.socketDescriptor).connectRetryFrom hm₁ hnode
  have hsockets₁ := hmoved₁.sockets
  have hopened₁ := hmoved₁.opened
  rw [ite_self, ← h₁, Function.update_eq_self] at hsockets₁
  rw [ite_self, Function.update_idem, hopened _ hlt.le] at hopened₁
  -- the lowest number that is free for the second one
  have h₂' : w₁.sockets c.subscribe = some soc₂ := by rw [hsockets₁, h₂]
  have hmain {m : ℕ} (hm : lowestFree (Function.update w₁.opened soc₂.socketDescriptor false) limit = some m) :
      w'.sockets c.node = some soc₁ ∧
        w'.sockets c.subscribe = some { soc₂ with socketDescriptor := m } := by
    have hmoved₂ := (Moved.refl h₂' m).connectRetryFrom hm hsubscribe
    rw [Nat.zero_add] at hmoved₂
    have hsocket := hmoved₂.socket
    rw [if_neg hcreated] at hsocket
    refine ⟨?_, hsocket⟩
    rw [hmoved₂.sockets, Function.update_of_ne hne, hsockets₁, h₁]
  rcases hleft : leftOpen soc₁.isClosed 0 round.node true with _ | _
  · have hm : lowestFree (Function.update w₁.opened soc₂.socketDescriptor false) limit =
        some soc₁.socketDescriptor := by
      rw [lowestFree_eq_some, Function.update_of_ne hlt.ne, hopened₁, hleft]
      refine ⟨hlt.trans hlimit, Function.update_self _ _ _, fun x hx => ?_⟩
      rw [Function.update_of_ne (hx.trans hlt).ne, Function.update_of_ne hx.ne]
      exact hopened x (hx.trans hlt).le
    obtain ⟨hnode', hsubscribe'⟩ := hmain hm
    exact ⟨soc₁, _, hnode', hsubscribe', rfl, iff_of_false (fun h => h rfl) Bool.false_ne_true⟩
  · have hsame : w₁.opened = w.opened := by
      rw [hopened₁, hleft, ← hopened _ hlt.le, Function.update_eq_self]
    have hm := lowestFree_self (fun x hx => hopened x hx.le) hlimit
    rw [← hsame] at hm
    obtain ⟨hnode', hsubscribe'⟩ := hmain hm
    exact ⟨soc₁, _, hnode', hsubscribe', rfl, iff_of_true hlt.ne rfl⟩

/-! ### Sockets that are closed -/

theorem createPrimitiveSocket_sockets (limit : ℕ) (created : Bool) (w : Process) :
    (w.createPrimitiveSocket limit created).2.sockets = w.sockets := by
  unfold createPrimitiveSocket
  split
  · split
    · rfl
    · rfl
  · rfl

/-- A call changes the descriptor of its socket at most, and does not connect one that is closed. -/
theorem connectRetryFrom_sockets {attempts : List Attempt} {retries : ℕ} {r : Bool}
    (ha : w.sockets a = some soc) (hrun : connectRetryFrom limit a retries attempts w = .ok (r, w')) :
    (soc.isClosed = true → r = false) ∧
      ∃ fd, w'.sockets = Function.update w.sockets a (some { soc with socketDescriptor := fd }) := by
  induction attempts generalizing w soc retries with
  | nil => cases hrun
  | cons attempt attempts ih =>
    rw [connectRetryFrom, socketConnect, socketAt_eq_ok.mpr ha] at hrun
    simp only [Except.ok_bind, Except.pure_eq_ok] at hrun
    have hsame : w.sockets = Function.update w.sockets a (some soc) := by
      rw [← ha, Function.update_eq_self]
    split at hrun
    · next hconnected =>
      cases hrun
      refine ⟨fun hclosed => ?_, soc.socketDescriptor, hsame⟩
      rw [hclosed] at hconnected
      cases hconnected
    · have hcreate := createPrimitiveSocket_sockets limit attempt.created
        (w.setOpened soc.socketDescriptor false)
      split at hrun
      · next w₁ heq =>
        cases hrun
        rw [heq] at hcreate
        exact ⟨fun _ => rfl, soc.socketDescriptor, hcreate.trans hsame⟩
      · next fd w₁ heq =>
        rw [heq] at hcreate
        have hsockets : (w₁.write a { soc with socketDescriptor := fd }).sockets =
            Function.update w.sockets a (some { soc with socketDescriptor := fd }) := by
          have hw₁ : w₁.sockets = w.sockets := hcreate
          rw [write, hw₁]
        split at hrun
        · obtain ⟨hclosed, fd', hrest⟩ := ih (Function.update_self _ _ _) hrun
          refine ⟨hclosed, fd', ?_⟩
          rw [hrest, hsockets, Function.update_idem]
        · cases hrun
          exact ⟨fun _ => rfl, fd, hsockets⟩

/-- One of the two sockets is closed, and has not been connected before. -/
def OneClosed (c : ClientSockets) (connect1 connect2 : Bool) (w : Process) : Prop :=
  (connect1 = false ∧ ∃ soc, w.sockets c.node = some soc ∧ soc.isClosed = true) ∨
    connect2 = false ∧ ∃ soc, w.sockets c.subscribe = some soc ∧ soc.isClosed = true

/-- A call for one of the sockets leaves the other one as it is. -/
theorem connectUnless_of_ne {attempts : List Attempt} {connected r : Bool} {b : ℕ} (hb : b ≠ a)
    (hrun : w.connectUnless limit a connected attempts = .ok (r, w')) : w'.sockets b = w.sockets b := by
  rcases connected with _ | _
  · rcases ha : w.sockets a with _ | soc
    · rcases attempts with _ | ⟨attempt, attempts⟩
      · cases hrun
      · rw [connectUnless, if_neg Bool.false_ne_true, socketConnectRetry, connectRetryFrom, socketConnect,
          socketAt, ha] at hrun
        cases hrun
    · obtain ⟨-, fd, hsockets⟩ := connectRetryFrom_sockets ha hrun
      rw [hsockets, Function.update_of_ne hb]
  · cases hrun
    rfl

theorem connectUnless_closed {attempts : List Attempt} {r : Bool} (ha : w.sockets a = some soc)
    (hclosed : soc.isClosed = true) (hrun : w.connectUnless limit a false attempts = .ok (r, w')) :
    r = false ∧ ∃ soc', w'.sockets a = some soc' ∧ soc'.isClosed = true := by
  obtain ⟨hr, fd, hsockets⟩ := connectRetryFrom_sockets ha hrun
  refine ⟨hr hclosed, { soc with socketDescriptor := fd }, ?_, hclosed⟩
  rw [hsockets, Function.update_self]

theorem OneClosed.round {c : ClientSockets} {connect1 connect2 : Bool} {round : ConnectRound}
    {r : Bool × Bool} (hne : c.node ≠ c.subscribe) (h : OneClosed c connect1 connect2 w)
    (hrun : w.connectRound limit c connect1 connect2 round = .ok (r, w')) : OneClosed c r.1 r.2 w' := by
  rw [connectRound] at hrun
  obtain ⟨⟨r₁, w₁⟩, hnode, hrest⟩ := Except.bind_eq_ok.mp hrun
  obtain ⟨⟨r₂, w₂⟩, hsubscribe, hreturn⟩ := Except.bind_eq_ok.mp hrest
  cases hreturn
  rcases h with ⟨rfl, soc, ha, hclosed⟩ | ⟨rfl, soc, ha, hclosed⟩
  · obtain ⟨hr₁, soc', ha', hclosed'⟩ := connectUnless_closed ha hclosed hnode
    exact .inl ⟨hr₁, soc', (connectUnless_of_ne hne hsubscribe).trans ha', hclosed'⟩
  · have ha₁ := (connectUnless_of_ne hne.symm hnode).trans ha
    exact .inr (connectUnless_closed ha₁ hclosed hsubscribe)

theorem connectToServerFrom_closed {c : ClientSockets} {firstTime connect1 connect2 r : Bool}
    {rounds : List ConnectRound} (hne : c.node ≠ c.subscribe) (h : OneClosed c connect1 connect2 w)
    (hrun : connectToServerFrom limit c firstTime connect1 connect2 rounds w = .ok (r, w')) :
    firstTime = false ∧ r = false ∧ OneClosed c false false w' := by
  induction rounds generalizing w connect1 connect2 with
  | nil => cases hrun
  | cons round rounds ih =>
    rw [connectToServerFrom] at hrun
    obtain ⟨⟨⟨c₁, c₂⟩, w₁⟩, hround, hrest⟩ := Except.bind_eq_ok.mp hrun
    have h₁ : OneClosed c c₁ c₂ w₁ := h.round hne hround
    have hnot : (c₁ && c₂) = false := by
      rcases h₁ with ⟨rfl, -⟩ | ⟨rfl, -⟩
      · rfl
      · exact Bool.and_false c₁
    simp only at hrest
    rw [hnot] at hrest
    split at hrest
    · exact ih h₁ hrest
    · next hstop =>
      cases hrest
      refine ⟨by simpa using hstop, rfl, ?_⟩
      rcases h₁ with ⟨-, hclosed⟩ | ⟨-, hclosed⟩
      · exact .inl ⟨rfl, hclosed⟩
      · exact .inr ⟨rfl, hclosed⟩

/-- A client with a socket that is closed does not connect any more: `connect_to_server` comes back only if
it is not called for the first time, and then says that the client is not connected. The socket stays
closed. -/
theorem connectToServer_closed {c : ClientSockets} {firstTime r : Bool} {rounds : List ConnectRound}
    (hne : c.node ≠ c.subscribe) (h : OneClosed c false false w)
    (hrun : w.connectToServer limit c firstTime rounds = .ok (r, w')) :
    firstTime = false ∧ r = false ∧ OneClosed c false false w' :=
  connectToServerFrom_closed hne h hrun

/-! ### A client -/

/-- Its sockets. -/
def clientSockets : ClientSockets := ⟨0, 1⟩

/-- The process of a client that has made its sockets. -/
def client (isClosed : Bool) : Process where
  sockets := Function.update (Function.update (fun _ => none) 0
    (some { newSocket 3 with isClosed := isClosed })) 1 (some (newSocket 4))
  next := 2
  opened := fun fd => decide (fd < 5)

/-- It takes two attempts to connect the first socket, and two rounds to connect the second one. -/
theorem connectToServer_keeps_client :
    ∃ w', [(true, [⟨[⟨.failed, true⟩, ⟨.done, true⟩], List.replicate 10 ⟨.failed, true⟩⟩,
        ⟨[], [⟨.done, true⟩]⟩])].foldlM (afterConnect 16 clientSockets) (client false) = .ok w' ∧
      w' = client false := by
  obtain ⟨w', hrun⟩ : ∃ w', [(true, [(⟨[⟨.failed, true⟩, ⟨.done, true⟩],
      List.replicate 10 ⟨.failed, true⟩⟩ : ConnectRound), ⟨[], [⟨.done, true⟩]⟩])].foldlM
        (afterConnect 16 clientSockets) (client false) = .ok w' := ⟨_, rfl⟩
  refine ⟨w', hrun, connectToServer_keeps
    ⟨⟨newSocket 3, rfl, rfl, by decide, ?_⟩, newSocket 4, rfl, rfl, by decide, ?_⟩ ?_ hrun⟩
  · intro x hx
    exact decide_eq_true (hx.trans_lt (by decide))
  · intro x hx
    exact decide_eq_true (hx.trans_lt (by decide))
  · simp [RoundCreates]

/-- No descriptor is to be had for the first socket, and one is for the second. -/
theorem not_distinct_client :
    ∃ r w', (client false).connectToServer 16 clientSockets false
        [⟨[⟨.failed, false⟩], [⟨.failed, true⟩, ⟨.done, true⟩]⟩] = .ok (r, w') ∧
      ∃ soc₁ soc₂, w'.sockets 0 = some soc₁ ∧ w'.sockets 1 = some soc₂ ∧
        soc₁.socketDescriptor = soc₂.socketDescriptor := by
  obtain ⟨r, w', hrun⟩ : ∃ r w', (client false).connectToServer 16 clientSockets false
      [⟨[⟨.failed, false⟩], [⟨.failed, true⟩, ⟨.done, true⟩]⟩] = .ok (r, w') := ⟨_, _, rfl⟩
  refine ⟨r, w', hrun, ?_⟩
  obtain ⟨soc₁, soc₂, h₁, h₂, -, hiff⟩ := connectToServer_distinct_iff (c := clientSockets)
    (by decide) rfl rfl (by decide) (fun x hx => decide_eq_true (hx.trans_lt (by decide))) (by decide)
    (by decide) hrun
  refine ⟨soc₁, soc₂, h₁, h₂, ?_⟩
  by_contra hne
  exact absurd (hiff.mp hne) (by decide)

/-- The first socket has been closed. -/
theorem connectToServer_closed_client :
    ∃ r w', (client true).connectToServer 16 clientSockets false
        [⟨List.replicate 10 ⟨.done, true⟩, [⟨.isConnected, true⟩]⟩] = .ok (r, w') ∧
      r = false ∧ OneClosed clientSockets false false w' := by
  obtain ⟨r, w', hrun⟩ : ∃ r w', (client true).connectToServer 16 clientSockets false
      [⟨List.replicate 10 ⟨.done, true⟩, [⟨.isConnected, true⟩]⟩] = .ok (r, w') := ⟨_, _, rfl⟩
  exact ⟨r, w', hrun, (connectToServer_closed (by decide) (.inl ⟨rfl, _, rfl, rfl⟩) hrun).2⟩

end Process

end PoQ
