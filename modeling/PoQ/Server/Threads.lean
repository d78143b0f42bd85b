import PoQ.Server.Admissible
import PoQ.Server.Registration
import PoQ.Server.Session
import PoQ.Socket.Receive

/-!
# The threads of the connections

`process_new_node` of `poet_server.cpp`: a thread for every connection, which reads a message, lets
`delegate_message` handle it, and reads the next one. Here the bytes that arrive on a connection are
given, in pieces and mixed with errors of `recv` as it pleases the network, and the threads take turns in
any order.

The handlers that change the table and the queue hold the locks of both while they do, so each of them is
one step. `poet_register` holds `current_id_lock` and `public_keys_lock` for reading only, as any number of
threads can at once: it looks for the key, reads `current_id`, and writes `current_id` and the entry of the
key in three steps.
-/

namespace PoQ

open CString

/-! ## Registration in steps -/

/-- What `poet_register` goes on with when it holds its two locks: the node of the context, and the text of
the key. -/
structure Registering where
  node : Node
  pkStr : List UInt8

/-- `poet_register` up to the point where it holds its two locks, if it gets there. -/
def poetRegisterLocked (env : Surroundings) (json : Json) (g : Global) (context : Context) :
    Except Abort (Option Registering) :=
  match findValue json "public_key", findValue json "signature" with
  | some (.string pk64base), some (.string sign64base) => do
    let (valid, node) ← checkPublicKeyAndSignatureRegistration env.keysLocked g.publicKeys
      (cstr pk64base) (cstr sign64base) (context.node.getD ⟨0, 0, 0, 0, 0⟩)
    return if valid ∧ env.idsLocked then some ⟨node, cstr pk64base⟩ else none
  | _, _ => .ok none

/-- The rest of `poet_register`, when it has read `nodeId` from `current_id`. -/
def Registering.register (a : Registering) (nodeId : ℕ) (g : Global) (context : Context) : Handled where
  g := { g with
    currentId := (nodeId + 1) % uintSize
    publicKeys := insertPublicKey g.publicKeys a.pkStr nodeId }
  context := { context with node := some { a.node with nodeId } }
  reply := some (.registered g.sgxmax g.sgxtLowerbound nodeId g.nTiers g.serverStartingTime)
  returned := true

/-- What becomes of a message that asks for a registration, if it gets to hold the locks. -/
def lockedRegistration {σ : Type} (lib : JsonLibrary σ) (m : Message) (g : Global) (context : Context) :
    Except Abort (Option Registering) :=
  match acceptedMessage lib m.buffer with
  | some (.register, data) => poetRegisterLocked m.env data g context
  | _ => .ok none

section

variable {env : Surroundings} {json : Json} {g : Global} {context : Context}

/-- A registration that gets to hold the locks has found its two strings. -/
theorem poetRegisterLocked_strings {a : Registering}
    (h : poetRegisterLocked env json g context = .ok (some a)) :
    ∃ pk64base sign64base, findValue json "public_key" = some (.string pk64base) ∧
      findValue json "signature" = some (.string sign64base) := by
  unfold poetRegisterLocked at h
  split at h
  · next hpk hsign => exact ⟨_, _, hpk, hsign⟩
  · cases h

/-- `poet_register` without interruption, whatever the keys and `current_id` have become since it has looked
for its key. -/
theorem poetRegister_of_locked {a : Registering}
    (h : poetRegisterLocked env json g context = .ok (some a)) (g' : Global) :
    poetRegister env.keysLocked env.idsLocked json g' context =
      .ok (a.register g'.currentId g' context) := by
  obtain ⟨pk64base, sign64base, hpk, hsign⟩ := poetRegisterLocked_strings h
  unfold poetRegisterLocked at h
  unfold poetRegister
  rw [hpk, hsign] at h ⊢
  obtain ⟨⟨valid, node⟩, hcheck, h⟩ := Except.bind_eq_ok.mp h
  obtain ⟨⟨rfl, hids⟩, ha⟩ := Option.ite_none_right_eq_some.mp (Except.ok.inj h)
  cases ha
  obtain ⟨nodeId, -, heq⟩ := checkPublicKeyAndSignatureRegistration_eq env.keysLocked g.publicKeys
    (cstr pk64base) (cstr sign64base) (context.node.getD ⟨0, 0, 0, 0, 0⟩)
  obtain ⟨nodeId', -, heq'⟩ := checkPublicKeyAndSignatureRegistration_eq env.keysLocked g'.publicKeys
    (cstr pk64base) (cstr sign64base) (context.node.getD ⟨0, 0, 0, 0, 0⟩)
  rw [heq] at hcheck
  obtain ⟨⟨valid, node'⟩, hvalid, hnode⟩ := Except.map_eq_ok.mp hcheck
  obtain ⟨rfl, rfl⟩ := Prod.mk.inj hnode
  rw [hvalid] at heq'
  simp only [heq', Except.map, Except.ok_bind, hids, if_true]
  rfl

/-- A registration that does not get to hold the locks changes nothing that the connections share. -/
theorem poetRegister_of_not_locked (h : poetRegisterLocked env json g context = .ok none) {r : Handled}
    (hr : poetRegister env.keysLocked env.idsLocked json g context = .ok r) : r.g = g := by
  unfold poetRegisterLocked at h
  unfold poetRegister at hr
  split at h
  · next hpk hsign =>
    obtain ⟨⟨valid, node⟩, hcheck, h⟩ := Except.bind_eq_ok.mp h
    have hnot : ¬(valid = true ∧ env.idsLocked = true) := by simpa using Except.ok.inj h
    simp only [hpk, hsign, hcheck, Except.ok_bind] at hr
    split at hr
    · next hvalid =>
      have hids : env.idsLocked = false := by simpa [hvalid] using hnot
      rw [hids] at hr
      cases hr
      rfl
    · cases hr
      rfl
  · next hnot =>
    split at hr
    · next hpk hsign => exact (hnot _ _ hpk hsign).elim
    · cases hr
      rfl

end

section

variable {σ : Type} {lib : JsonLibrary σ} {raw : Json → ℤ} {m : Message} {g : Global} {context : Context}

/-- A registration that holds the locks does the rest of what the whole handler does. -/
theorem delegateMessage_of_locked {a : Registering} (h : lockedRegistration lib m g context = .ok (some a))
    (raw : Json → ℤ) (g' : Global) :
    delegateMessage lib raw m.env m.buffer g' context =
      .ok ((a.register g'.currentId g' context).send m.env.delivery) := by
  unfold lockedRegistration at h
  split at h
  · next data hmsg =>
    rw [delegateMessage_of_accepted hmsg, PoetFunction.function, poetRegister_of_locked h]
    rfl
  · cases h

/-- No other handler writes `current_id`. -/
theorem delegateMessage_currentId (h : lockedRegistration lib m g context = .ok none) {r : Handled}
    (hr : delegateMessage lib raw m.env m.buffer g context = .ok r) : r.g.currentId = g.currentId := by
  cases hmsg : acceptedMessage lib m.buffer with
  | none => rw [delegateMessage_of_not_accepted hmsg hr]
  | some p =>
    obtain ⟨i, data⟩ := p
    rw [delegateMessage_of_accepted hmsg] at hr
    cases i with
    | register =>
      simp only [lockedRegistration, hmsg] at h
      obtain ⟨r', hr', rfl⟩ := Except.map_eq_ok.mp hr
      rw [Handled.send_g, poetRegister_of_not_locked h hr']
    | sgxTimeBroadcast =>
      obtain ⟨r', hr', rfl⟩ := Except.map_eq_ok.mp hr
      rw [Handled.send_g]
      obtain ⟨-, rfl⟩ | ⟨sgxt, node, -, -, hins, -, -⟩ := poetSgxTimeBroadcast_cases hr'
      · rfl
      · obtain ⟨table, pushed, repetitions, -, hg⟩ := insertNodeIntoSgxTableAndQueue_cases hins
        rw [hg]
    | unfinishedNode =>
      obtain ⟨r', hr', rfl⟩ := Except.map_eq_ok.mp hr
      rw [Handled.send_g]
      obtain rfl | ⟨_, _, _, -, -, -, -, -, -, rfl⟩ := poetUnfinishedNode_cases hr' <;> rfl
    | getSgxtableAndQueue =>
      cases hr
      unfold poetGetSgxtableAndQueue
      split <;> rfl
    | remoteAttestation | getSgxtable | getQueue | closeConnection =>
      cases hr
      rfl

end

/-! ## The threads -/

/-- Where a thread of `process_new_node` stands: in `socket_get_message`; with the message that it has
returned; in `poet_register`, when it holds the two locks, and when it has read `current_id`; and behind
the loop. -/
inductive NodePc
  | reading
  | received (buffer : List UInt8)
  | registering (m : Message) (a : Registering)
  | loaded (m : Message) (a : Registering) (nodeId : ℕ)
  | ended

/-- The thread has read `current_id` and is about to write it. -/
def NodePc.isLoaded : NodePc → Bool
  | loaded _ _ _ => true
  | _ => false

/-- The message that the thread is handling. -/
def NodePc.pending : NodePc → List (List UInt8)
  | received buffer => [buffer]
  | registering m _ | loaded m _ _ => [m.buffer]
  | reading | ended => []

/-- The registration that the thread is in the middle of. -/
def NodePc.registers : NodePc → Option (Message × Registering)
  | registering m a | loaded m a _ => some (m, a)
  | _ => none

/-- A thread of `process_new_node`: its socket, its `buffer_size`, and where it stands. -/
structure NodeThread where
  socket : Socket
  bufferSize : ℕ
  pc : NodePc

/-- The thread has left its loop. -/
def NodeThread.ended (thread : NodeThread) : Bool :=
  match thread.pc with
  | .ended => true
  | _ => false

/-- The server and the threads of its connections. -/
structure Threads where
  server : Server
  threads : ℕ → NodeThread

/-- What a thread does next: it calls `socket_get_message`, with the memory behind the blocks that receive
the message; it handles the message, in some surroundings; or it reads or writes `current_id`. -/
inductive NodeEvent
  | receive (beyond : ℕ → List UInt8)
  | handle (env : Surroundings)
  | load
  | store

def Threads.setPc (t : Threads) (c : ℕ) (pc : NodePc) : Threads :=
  ⟨t.server, Function.update t.threads c { t.threads c with pc }⟩

/-- Behind the loop the context is freed and the socket destroyed. -/
def Threads.finish (t : Threads) (c : ℕ) (g : Global) : Threads :=
  ⟨⟨g, Function.update t.server.contexts c ⟨none, true⟩⟩,
    Function.update t.threads c
      { t.threads c with socket := { (t.threads c).socket with isClosed := true }, pc := .ended }⟩

/-- The body of the loop, with a message that has been handled: the loop ends when the handler has failed
or the socket has been closed. -/
def Threads.goOn (t : Threads) (c : ℕ) (h : Handled) : Threads :=
  if h.returned = false ∨ h.context.isClosed = true then t.finish c h.g
  else
    ⟨⟨h.g, Function.update t.server.contexts c h.context⟩,
      Function.update t.threads c { t.threads c with pc := .reading }⟩

/-- A step of the thread `c`. -/
def Threads.iterate {σ : Type} (lib : JsonLibrary σ) (raw : Json → ℤ) (t : Threads) :
    ℕ × NodeEvent → Except Abort Threads
  | (c, e) =>
    match (t.threads c).pc, e with
    | .reading, .receive beyond => do
      let r ← socketGetMessage beyond (t.threads c).socket none (t.threads c).bufferSize
      if 0 < r.returned then
        match r.message with
        | none => .error .nullPointer
        | some buffer =>
          return ⟨t.server, Function.update t.threads c ⟨r.socket, r.buffSize, .received buffer⟩⟩
      else return t.finish c t.server.g
    | .received buffer, .handle env => do
      match ← lockedRegistration lib ⟨env, buffer⟩ t.server.g (t.server.contexts c) with
      | some a => return t.setPc c (.registering ⟨env, buffer⟩ a)
      | none => return t.goOn c (← delegateMessage lib raw env buffer t.server.g (t.server.contexts c))
    | .registering m a, .load => return t.setPc c (.loaded m a t.server.g.currentId)
    | .loaded m a nodeId, .store =>
      return t.goOn c ((a.register nodeId t.server.g (t.server.contexts c)).send m.env.delivery)
    | _, _ => .error .blocked

def Threads.step {σ : Type} (lib : JsonLibrary σ) (raw : Json → ℤ) (t : Threads) (a : ℕ × NodeEvent)
    (t' : Threads) : Prop :=
  t.iterate lib raw a = .ok t'

/-- No thread has read anything yet. -/
def Threads.initial (server : Server) (sockets : ℕ → Socket) : Threads :=
  ⟨server, fun c => ⟨sockets c, 0, .reading⟩⟩

/-- The step reads what a registration writes: the key of a registration is looked for, or `current_id` is
read. -/
def Threads.readsIds {σ : Type} (lib : JsonLibrary σ) (t : Threads) : ℕ × NodeEvent → Bool
  | (c, .handle _) =>
    match (t.threads c).pc with
    | .received buffer => (acceptedMessage lib buffer).map Prod.fst = some .register
    | _ => false
  | (_, .load) => true
  | _ => false

/-- The step does not read what a registration writes while another one is about to write it. -/
def Threads.Alone {σ : Type} (lib : JsonLibrary σ) (t : Threads) (a : ℕ × NodeEvent) : Prop :=
  t.readsIds lib a = true → ∀ c, (t.threads c).pc.isLoaded = false

/-! ## What the threads read -/

/-- Successive calls of `socket_get_message` are successful, and these are the messages they return. -/
inductive Receives (soc : Socket) : List (List UInt8) → Socket → Prop
  | start : Receives soc [] soc
  | next {messages : List (List UInt8)} {m : List UInt8} {left : Socket} {beyond : ℕ → List UInt8}
      {buffSize : ℕ} {r : Received} : Receives soc messages left →
      socketGetMessage beyond left none buffSize = .ok r → 0 < r.returned → r.message = some m →
      Receives soc (messages ++ [m]) r.socket

/-- The texts handled on the connection `c`. -/
def textsOn (c : ℕ) (l : List (ℕ × Message)) : List (List UInt8) :=
  (l.filter fun a => a.1 = c).map fun a => a.2.buffer

theorem textsOn_append (c : ℕ) (l l' : List (ℕ × Message)) :
    textsOn c (l ++ l') = textsOn c l ++ textsOn c l' := by
  simp [textsOn]

theorem textsOn_self (c : ℕ) (m : Message) : textsOn c [(c, m)] = [m.buffer] := by
  simp [textsOn]

theorem textsOn_of_ne {c c' : ℕ} (h : c' ≠ c) (m : Message) : textsOn c [(c', m)] = [] := by
  simp [textsOn, h]

/-- What a step of the thread `c` does. -/
inductive Threads.Moves {σ : Type} (lib : JsonLibrary σ) (raw : Json → ℤ) (t : Threads) (c : ℕ) :
    NodeEvent → Threads → Prop
  | hangUp {beyond : ℕ → List UInt8} : (t.threads c).pc = .reading →
      t.Moves lib raw c (.receive beyond) (t.finish c t.server.g)
  | receive {beyond : ℕ → List UInt8} {r : Received} {buffer : List UInt8} :
      (t.threads c).pc = .reading →
      socketGetMessage beyond (t.threads c).socket none (t.threads c).bufferSize = .ok r →
      0 < r.returned → r.message = some buffer →
      t.Moves lib raw c (.receive beyond)
        ⟨t.server, Function.update t.threads c ⟨r.socket, r.buffSize, .received buffer⟩⟩
  | handle {env : Surroundings} {buffer : List UInt8} {h : Handled} :
      (t.threads c).pc = .received buffer →
      lockedRegistration lib ⟨env, buffer⟩ t.server.g (t.server.contexts c) = .ok none →
      delegateMessage lib raw env buffer t.server.g (t.server.contexts c) = .ok h →
      t.Moves lib raw c (.handle env) (t.goOn c h)
  | register {env : Surroundings} {buffer : List UInt8} {a : Registering} :
      (t.threads c).pc = .received buffer →
      lockedRegistration lib ⟨env, buffer⟩ t.server.g (t.server.contexts c) = .ok (some a) →
      t.Moves lib raw c (.handle env) (t.setPc c (.registering ⟨env, buffer⟩ a))
  | load {m : Message} {a : Registering} : (t.threads c).pc = .registering m a →
      t.Moves lib raw c .load (t.setPc c (.loaded m a t.server.g.currentId))
  | store {m : Message} {a : Registering} {nodeId : ℕ} : (t.threads c).pc = .loaded m a nodeId →
      t.Moves lib raw c .store
        (t.goOn c ((a.register nodeId t.server.g (t.server.contexts c)).send m.env.delivery))

theorem Threads.step_moves {σ : Type} {lib : JsonLibrary σ} {raw : Json → ℤ} {t t' : Threads} {c : ℕ}
    {e : NodeEvent} (h : t.step lib raw (c, e) t') : t.Moves lib raw c e t' := by
  unfold step iterate at h
  dsimp only at h
  split at h
  · next beyond hpc =>
    obtain ⟨r, hr, h⟩ := Except.bind_eq_ok.mp h
    split at h
    · next hpos =>
      split at h
      · cases h
      · next buffer hbuffer =>
        cases h
        exact .receive hpc hr hpos hbuffer
    · cases h
      exact .hangUp hpc
  · next buffer env hpc =>
    obtain ⟨locked, hlocked, h⟩ := Except.bind_eq_ok.mp h
    split at h
    · cases h
      exact .register hpc hlocked
    · obtain ⟨handled, hhandled, h⟩ := Except.bind_eq_ok.mp h
      cases h
      exact .handle hpc hlocked hhandled
  · next m a hpc =>
    cases h
    exact .load hpc
  · next m a nodeId hpc =>
    cases h
    exact .store hpc
  · cases h

/-- What two clients send: the first registers and broadcasts, the second sends something else. -/
def sentByTwo : ℕ → List (List UInt8)
  | 0 => [registerText keyA, broadcastText 6]
  | 1 => [[120]]
  | _ => []

def piecesOfTwo : ℕ → List Piece
  | 0 => [⟨frame (registerText keyA), by decide, by decide +kernel⟩,
      ⟨frame (broadcastText 6), by decide, by decide⟩]
  | 1 => [⟨frame [120], by decide, by decide⟩]
  | _ => []

/-! ## One connection at a time -/

section

variable (t : Threads) {c c' : ℕ} (h : Handled)

@[simp] theorem Threads.finish_ended (g : Global) : ((t.finish c g).threads c).ended = true := by
  simp [finish, NodeThread.ended]

theorem Threads.finish_threads_of_ne (hne : c' ≠ c) (g : Global) :
    (t.finish c g).threads c' = t.threads c' :=
  Function.update_of_ne hne _ _

theorem Threads.finish_contexts_of_ne (hne : c' ≠ c) (g : Global) :
    (t.finish c g).server.contexts c' = t.server.contexts c' :=
  Function.update_of_ne hne _ _

@[simp] theorem Threads.goOn_g : (t.goOn c h).server.g = h.g := by
  unfold goOn
  split <;> rfl

theorem Threads.goOn_threads_of_ne (hne : c' ≠ c) : (t.goOn c h).threads c' = t.threads c' := by
  unfold goOn
  split
  · exact t.finish_threads_of_ne hne _
  · exact Function.update_of_ne hne _ _

theorem Threads.goOn_contexts_of_ne (hne : c' ≠ c) :
    (t.goOn c h).server.contexts c' = t.server.contexts c' := by
  unfold goOn
  split
  · exact t.finish_contexts_of_ne hne _
  · exact Function.update_of_ne hne _ _

/-- A thread that goes on has had its message handled, on a socket that is still open. -/
theorem Threads.goOn_running (hrunning : ((t.goOn c h).threads c).ended = false) :
    h.returned = true ∧ h.context.isClosed = false ∧
      ((t.goOn c h).threads c).socket = (t.threads c).socket ∧
      (t.goOn c h).server.contexts c = h.context := by
  unfold goOn at hrunning ⊢
  split at hrunning
  · simp at hrunning
  · next hopen =>
    rw [not_or, Bool.not_eq_false, Bool.not_eq_true] at hopen
    refine ⟨hopen.1, hopen.2, ?_, ?_⟩
    · simp [hopen]
    · simp [hopen]

/-- A thread that has handled a message reads the next one, or it has ended. -/
theorem Threads.goOn_pc :
    ((t.goOn c h).threads c).pc = .reading ∨ ((t.goOn c h).threads c).pc = .ended := by
  unfold goOn
  split
  · exact .inr (by simp [finish])
  · exact .inl (by simp)

theorem Threads.setPc_threads_of_ne (hne : c' ≠ c) (pc : NodePc) :
    (t.setPc c pc).threads c' = t.threads c' :=
  Function.update_of_ne hne _ _

@[simp] theorem Threads.setPc_threads_self (pc : NodePc) :
    (t.setPc c pc).threads c = { t.threads c with pc } :=
  Function.update_self _ _ _

end

/-- The context of a connection on which a message has been handled and which stays open. -/
theorem Server.after_contexts_self {s : Server} {c : ℕ} {h : Handled} (hreturned : h.returned = true) :
    (s.after c h).contexts c = h.context := by
  simp [after, hreturned]

/-- The steps of a thread leave the others where they are. -/
theorem Threads.Moves.threads_of_ne {σ : Type} {lib : JsonLibrary σ} {raw : Json → ℤ} {t t' : Threads}
    {c c' : ℕ} {e : NodeEvent} (h : t.Moves lib raw c e t') (hne : c' ≠ c) :
    t'.threads c' = t.threads c' := by
  cases h with
  | hangUp => exact t.finish_threads_of_ne hne _
  | receive => exact Function.update_of_ne hne _ _
  | register | load => exact t.setPc_threads_of_ne hne _
  | handle => exact t.goOn_threads_of_ne _ hne
  | store => exact t.goOn_threads_of_ne _ hne

theorem Threads.Moves.contexts_of_ne {σ : Type} {lib : JsonLibrary σ} {raw : Json → ℤ} {t t' : Threads}
    {c c' : ℕ} {e : NodeEvent} (h : t.Moves lib raw c e t') (hne : c' ≠ c) :
    t'.server.contexts c' = t.server.contexts c' := by
  cases h with
  | hangUp => exact t.finish_contexts_of_ne hne _
  | receive | register | load => rfl
  | handle => exact t.goOn_contexts_of_ne _ hne
  | store => exact t.goOn_contexts_of_ne _ hne

/-- `Threads.Alone` for the first `n` threads. -/
def Threads.AloneBelow {σ : Type} (lib : JsonLibrary σ) (n : ℕ) (t : Threads) (a : ℕ × NodeEvent) : Prop :=
  a.1 < n ∧ (t.readsIds lib a = true → ∀ c < n, (t.threads c).pc.isLoaded = false)

instance {σ : Type} (lib : JsonLibrary σ) (n : ℕ) (t : Threads) (a : ℕ × NodeEvent) :
    Decidable (t.AloneBelow lib n a) :=
  inferInstanceAs (Decidable (_ ∧ (_ → ∀ c < n, (t.threads c).pc.isLoaded = false)))

/-- When only the first `n` threads do anything, the condition is about them. -/
theorem Threads.runs_alone {σ : Type} {lib : JsonLibrary σ} {raw : Json → ℤ} {n : ℕ} {t t' : Threads}
    (ht : ∀ c, n ≤ c → (t.threads c).pc.isLoaded = false)
    (h : Runs (Threads.step lib raw) (Threads.AloneBelow lib n) t t') :
    Runs (Threads.step lib raw) (Threads.Alone lib) t t' := by
  refine Runs.strengthen (I := fun t => ∀ c, n ≤ c → (t.threads c).pc.isLoaded = false) ?_ h ht
  intro s a s' hs hcond hstep
  refine ⟨fun hreads c => ?_, fun c hc => ?_⟩
  · rcases Nat.lt_or_ge c n with hc | hc
    · exact hcond.2 hreads c hc
    · exact hs c hc
  · obtain ⟨c', e⟩ := a
    rw [(Threads.step_moves hstep).threads_of_ne (by have := hcond.1; omega)]
    exact hs c hc

/-- The message of the second connection is handled while the first one registers. -/
theorem exists_runs_two :
    ∃ t, Runs (Threads.step readerLibrary fun _ => 0) (Threads.Alone readerLibrary)
        (Threads.initial (oneToTen.server 0) fun c => ⟨false, (piecesOfTwo c).map .data⟩) t ∧
      t.server.g.sgxTable = [⟨0, 7, 6, 0, 6⟩] ∧ (t.threads 1).ended = true := by
  have hrun : (Runs.exec (Threads.iterate readerLibrary fun _ => 0)
      (Threads.AloneBelow readerLibrary 2) .blocked
      [(0, .receive fun _ => []), (1, .receive fun _ => []),
        (0, .handle ⟨true, true, true, 7, .delivered⟩), (0, .load),
        (1, .handle ⟨true, true, true, 7, .delivered⟩), (0, .store), (0, .receive fun _ => []),
        (0, .handle ⟨true, true, true, 7, .delivered⟩)]
      (Threads.initial (oneToTen.server 0) fun c => ⟨false, (piecesOfTwo c).map .data⟩)).map
        (fun t => (t.server.g.sgxTable, (t.threads 1).ended)) = .ok ([⟨0, 7, 6, 0, 6⟩], true) := by
    decide +kernel
  obtain ⟨t, ht, hvalues⟩ := Except.map_eq_ok.mp hrun
  obtain ⟨htable, hended⟩ := Prod.mk.inj hvalues
  exact ⟨t, Threads.runs_alone (fun _ _ => rfl) (Runs.of_exec ht), htable, hended⟩

/-! ## The server of messages -/

/-- A thread has done what the server does with the messages `texts` of its connection, which started on
the socket `start`: what has been handled, and what is being handled, is what its socket has returned; a
registration that has begun ends as if it had not been interrupted. -/
structure NodeThread.Refines {σ : Type} (lib : JsonLibrary σ) (raw : Json → ℤ) (start : Socket)
    (texts : List (List UInt8)) (currentId : ℕ) (context served : Context) (thread : NodeThread) :
    Prop where
  same : thread.ended = false → served = context ∧ served.isClosed = false
  received : ∃ soc, Receives start (texts ++ thread.pc.pending) soc ∧
    (thread.ended = false → soc = thread.socket)
  registering : ∀ m a, thread.pc.registers = some (m, a) → ∀ g,
    delegateMessage lib raw m.env m.buffer g context =
      .ok ((a.register g.currentId g context).send m.env.delivery)
  loaded : ∀ m a nodeId, thread.pc = .loaded m a nodeId → nodeId = currentId

/-- The threads have done what the server does with the messages `l`, and at most one of them is about to
write `current_id`. -/
structure Threads.Refines {σ : Type} (lib : JsonLibrary σ) (raw : Json → ℤ) (sockets : ℕ → Socket)
    (t : Threads) (s : Server) (l : List (ℕ × Message)) : Prop where
  global : s.g = t.server.g
  threads : ∀ c, (t.threads c).Refines lib raw (sockets c) (textsOn c l) t.server.g.currentId
    (t.server.contexts c) (s.contexts c)
  alone : ∀ c c', (t.threads c).pc.isLoaded = true → (t.threads c').pc.isLoaded = true → c = c'

namespace Threads.Refines

variable {σ : Type} {lib : JsonLibrary σ} {raw : Json → ℤ} {sockets : ℕ → Socket} {t t' : Threads}
  {s s' : Server} {l l' : List (ℕ × Message)} {c : ℕ}

/-- Only the thread that moves has to be looked at, when no other one is between reading `current_id` and
writing it, or the step neither reads nor writes it. -/
theorem move (h : t.Refines lib raw sockets s l)
    (hthreads : ∀ c' ≠ c, t'.threads c' = t.threads c')
    (hcontexts : ∀ c' ≠ c, t'.server.contexts c' = t.server.contexts c')
    (hserved : ∀ c' ≠ c, s'.contexts c' = s.contexts c')
    (htexts : ∀ c' ≠ c, textsOn c' l' = textsOn c' l) (hglobal : s'.g = t'.server.g)
    (hself : (t'.threads c).Refines lib raw (sockets c) (textsOn c l') t'.server.g.currentId
      (t'.server.contexts c) (s'.contexts c))
    (halone : (∀ c' ≠ c, (t.threads c').pc.isLoaded = false) ∨
      (t'.threads c).pc.isLoaded = false ∧ t'.server.g.currentId = t.server.g.currentId) :
    t'.Refines lib raw sockets s' l' where
  global := hglobal
  threads c' := by
    rcases eq_or_ne c' c with rfl | hne
    · exact hself
    · obtain ⟨hcontext, hreceived, hregistering, hloaded⟩ := h.threads c'
      rw [hthreads c' hne, hcontexts c' hne, hserved c' hne, htexts c' hne]
      refine ⟨hcontext, hreceived, hregistering, fun m a nodeId hpc => ?_⟩
      obtain hnone | ⟨-, hid⟩ := halone
      · have hnot := hnone c' hne
        rw [hpc] at hnot
        cases hnot
      · rw [hid]
        exact hloaded m a nodeId hpc
  alone c₁ c₂ h₁ h₂ := by
    have hother : ∀ c', (t'.threads c').pc.isLoaded = true → c' ≠ c →
        (t.threads c').pc.isLoaded = true := fun c' hc' hne => hthreads c' hne ▸ hc'
    obtain hnone | ⟨hself, -⟩ := halone
    · have heq : ∀ c', (t'.threads c').pc.isLoaded = true → c' = c := by
        intro c' hc'
        by_contra hne
        exact Bool.false_ne_true ((hnone c' hne).symm.trans (hother c' hc' hne))
      rw [heq c₁ h₁, heq c₂ h₂]
    · have hne : ∀ c', (t'.threads c').pc.isLoaded = true → c' ≠ c := by
        rintro c' hc' rfl
        exact Bool.false_ne_true (hself.symm.trans hc')
      exact h.alone c₁ c₂ (hother c₁ h₁ (hne c₁ h₁)) (hother c₂ h₂ (hne c₂ h₂))

/-- A step of a thread that the server does not see. -/
theorem silent (h : t.Refines lib raw sockets s l) (hthreads : ∀ c' ≠ c, t'.threads c' = t.threads c')
    (hcontexts : ∀ c' ≠ c, t'.server.contexts c' = t.server.contexts c') (hg : t'.server.g = t.server.g)
    (hself : (t'.threads c).Refines lib raw (sockets c) (textsOn c l) t.server.g.currentId
      (t'.server.contexts c) (s.contexts c))
    (halone : (∀ c' ≠ c, (t.threads c').pc.isLoaded = false) ∨ (t'.threads c).pc.isLoaded = false) :
    ∃ l' s', l'.foldlM (Server.deliver lib raw) s = .ok s' ∧
      t'.Refines lib raw sockets s' (l ++ l') := by
  refine ⟨[], s, rfl, ?_⟩
  rw [List.append_nil]
  refine h.move hthreads hcontexts (fun _ _ => rfl) (fun _ _ => rfl) (hg ▸ h.global) ?_ ?_
  · rwa [hg]
  · exact halone.imp_right fun hnot => ⟨hnot, by rw [hg]⟩

/-- A message whose handler returns is one that the server handles. -/
theorem goOn (h : t.Refines lib raw sockets s l) {m : Message} {handled : Handled}
    (hpending : (t.threads c).pc.pending = [m.buffer]) (hrunning : (t.threads c).ended = false)
    (hhandled : delegateMessage lib raw m.env m.buffer t.server.g (t.server.contexts c) = .ok handled)
    (halone : (∀ c' ≠ c, (t.threads c').pc.isLoaded = false) ∨
      handled.g.currentId = t.server.g.currentId) :
    ∃ l' s', l'.foldlM (Server.deliver lib raw) s = .ok s' ∧
      (t.goOn c handled).Refines lib raw sockets s' (l ++ l') := by
  obtain ⟨hcontext, ⟨soc, hsoc, hsame⟩, -, -⟩ := h.threads c
  obtain ⟨hcontext, hopen⟩ := hcontext hrunning
  have hdeliver : s.deliver lib raw (c, m) = .ok (s.after c handled) := by
    rw [← h.global, ← hcontext] at hhandled
    exact Server.deliver_ok hopen hhandled
  refine ⟨[(c, m)], s.after c handled, ?_, ?_⟩
  · rw [List.foldlM_cons, hdeliver]
    rfl
  have hpc := t.goOn_pc (c := c) handled
  have hpendingAfter : ((t.goOn c handled).threads c).pc.pending = [] := by
    rcases hpc with hpc | hpc <;> rw [hpc] <;> rfl
  have hnotLoaded : ((t.goOn c handled).threads c).pc.isLoaded = false := by
    rcases hpc with hpc | hpc <;> rw [hpc] <;> rfl
  refine h.move (c := c) (fun c' hne => t.goOn_threads_of_ne handled hne)
    (fun c' hne => t.goOn_contexts_of_ne handled hne) (fun c' hne => Server.after_contexts_of_ne hne _)
    (fun c' hne => ?_) (t.goOn_g handled).symm ⟨fun hended => ?_, ?_, ?_, ?_⟩ ?_
  · rw [textsOn_append, textsOn_of_ne hne.symm, List.append_nil]
  · obtain ⟨hreturned, hstays, -, hafter⟩ := t.goOn_running handled hended
    rw [Server.after_contexts_self hreturned, hafter]
    exact ⟨rfl, hstays⟩
  · rw [hpendingAfter, List.append_nil, textsOn_append, textsOn_self, ← hpending]
    exact ⟨soc, hsoc, fun hended => (hsame hrunning).trans (t.goOn_running handled hended).2.2.1.symm⟩
  · intro m' a hregisters
    rcases hpc with hpc | hpc <;> rw [hpc] at hregisters <;> cases hregisters
  · intro m' a nodeId hloaded
    rw [hloaded] at hnotLoaded
    cases hnotLoaded
  · rw [t.goOn_g handled]
    exact halone.imp_right fun hid => ⟨hnotLoaded, hid⟩

/-- Every step of a thread is matched by at most one message. -/
theorem step (h : t.Refines lib raw sockets s l) {a : ℕ × NodeEvent} (hcond : t.Alone lib a)
    (ha : t.step lib raw a t') :
    ∃ l' s', l'.foldlM (Server.deliver lib raw) s = .ok s' ∧ t'.Refines lib raw sockets s' (l ++ l') := by
  obtain ⟨c, e⟩ := a
  obtain ⟨hcontext, ⟨soc, hsoc, hsame⟩, hregistering, hloaded⟩ := h.threads c
  cases Threads.step_moves ha with
  | hangUp hpc =>
    refine h.silent (c := c) (fun c' hne => t.finish_threads_of_ne hne _)
      (fun c' hne => t.finish_contexts_of_ne hne _) rfl ⟨?_, ?_, ?_, ?_⟩ (.inr ?_)
    · simp
    · rw [hpc] at hsoc
      exact ⟨soc, by simpa [Threads.finish, NodePc.pending] using hsoc, by simp⟩
    · simp [Threads.finish, NodePc.registers]
    · simp [Threads.finish]
    · simp [Threads.finish, NodePc.isLoaded]
  | receive hpc hr hpos hbuffer =>
    have hrunning : (t.threads c).ended = false := by simp [NodeThread.ended, hpc]
    obtain rfl := hsame hrunning
    rw [hpc] at hsoc
    refine h.silent (c := c) (fun c' hne => Function.update_of_ne hne _ _) (fun _ _ => rfl) rfl
      ⟨fun _ => hcontext hrunning, ?_, ?_, ?_⟩ (.inr ?_)
    · simp only [Function.update_self]
      exact ⟨_, .next (by simpa [NodePc.pending] using hsoc) hr hpos hbuffer, fun _ => rfl⟩
    · simp [NodePc.registers]
    · simp
    · simp [NodePc.isLoaded]
  | @handle env buffer _ hpc hlocked hhandled =>
    exact h.goOn (m := ⟨env, buffer⟩) (by rw [hpc]; rfl) (by simp [NodeThread.ended, hpc]) hhandled
      (.inr (delegateMessage_currentId hlocked hhandled))
  | register hpc hlocked =>
    have hrunning : (t.threads c).ended = false := by simp [NodeThread.ended, hpc]
    rw [hpc] at hsoc
    refine h.silent (c := c) (fun c' hne => t.setPc_threads_of_ne hne _) (fun _ _ => rfl) rfl
      ⟨fun _ => hcontext hrunning, ?_, ?_, ?_⟩ (.inr ?_)
    · rw [t.setPc_threads_self]
      exact ⟨soc, hsoc, fun _ => hsame hrunning⟩
    · intro m a hregisters g
      rw [t.setPc_threads_self] at hregisters
      cases hregisters
      exact delegateMessage_of_locked hlocked raw g
    · simp
    · simp [NodePc.isLoaded]
  | load hpc =>
    have hrunning : (t.threads c).ended = false := by simp [NodeThread.ended, hpc]
    rw [hpc] at hsoc hregistering
    refine h.silent (c := c) (fun c' hne => t.setPc_threads_of_ne hne _) (fun _ _ => rfl) rfl
      ⟨fun _ => hcontext hrunning, ?_, ?_, ?_⟩ (.inl fun c' _ => hcond rfl c')
    · rw [t.setPc_threads_self]
      exact ⟨soc, hsoc, fun _ => hsame hrunning⟩
    · intro m a hregisters
      rw [t.setPc_threads_self] at hregisters
      exact hregistering m a hregisters
    · intro m a nodeId hload
      rw [t.setPc_threads_self] at hload
      cases hload
      rfl
  | @store m a nodeId hpc =>
    have hhandled := hregistering m a (by rw [hpc]; rfl) t.server.g
    rw [← hloaded m a nodeId hpc] at hhandled
    refine h.goOn (by rw [hpc]; rfl) (by simp [NodeThread.ended, hpc]) hhandled (.inl fun c' hne => ?_)
    by_contra hnot
    exact hne (h.alone c' c (by simpa using hnot) (by rw [hpc]; rfl))

theorem runs (h : t.Refines lib raw sockets s l)
    (hrun : Runs (Threads.step lib raw) (Threads.Alone lib) t t') :
    ∃ l' s', l'.foldlM (Server.deliver lib raw) s = .ok s' ∧ t'.Refines lib raw sockets s' (l ++ l') :=
  Runs.exists_foldlM (fun _ _ _ _ _ href hcond hstep => href.step hcond hstep) hrun h

end Threads.Refines

section

variable {σ : Type} {lib : JsonLibrary σ} {raw : Json → ℤ} {server : Server} {sockets : ℕ → Socket}
  {t : Threads}

/-- Every run of the threads is one of the server that handles messages. -/
theorem Threads.exists_refines (hopen : ∀ c, (server.contexts c).isClosed = false)
    (h : Runs (Threads.step lib raw) (Threads.Alone lib) (Threads.initial server sockets) t) :
    ∃ l s, l.foldlM (Server.deliver lib raw) server = .ok s ∧ t.Refines lib raw sockets s l := by
  have hinitial : (Threads.initial server sockets).Refines lib raw sockets server [] :=
    ⟨rfl, fun c => ⟨fun _ => ⟨rfl, hopen c⟩, ⟨sockets c, .start, fun _ => rfl⟩, nofun, nofun⟩, nofun⟩
  exact hinitial.runs h

/-- In every run of the threads, in any order and whatever arrives on the sockets, in which no registration
looks for its key or reads `current_id` while another one is about to write it, the server has handled some
messages one after the other, each as a whole; and those handled on a connection are the ones that its
socket has returned, each once and in order, but for the one that is being handled. -/
theorem Threads.runs_deliver (hopen : ∀ c, (server.contexts c).isClosed = false)
    (h : Runs (Threads.step lib raw) (Threads.Alone lib) (Threads.initial server sockets) t) :
    ∃ l s, l.foldlM (Server.deliver lib raw) server = .ok s ∧ s.g = t.server.g ∧
      (∀ c, (t.threads c).ended = false → s.contexts c = t.server.contexts c) ∧
      ∀ c, ∃ soc, Receives (sockets c) (textsOn c l ++ (t.threads c).pc.pending) soc ∧
        ((t.threads c).ended = false → soc = (t.threads c).socket) := by
  obtain ⟨l, s, hl, hrefines⟩ := Threads.exists_refines hopen h
  exact ⟨l, s, hl, hrefines.global, fun c hc => ((hrefines.threads c).same hc).1,
    fun c => (hrefines.threads c).received⟩

end

theorem Threads.runs_deliver_two :
    ∃ t : Threads, t.server.g.sgxTable = [⟨0, 7, 6, 0, 6⟩] ∧ (t.threads 1).ended = true ∧
      ∃ l s, l.foldlM (Server.deliver readerLibrary fun _ => 0) (oneToTen.server 0) = .ok s ∧
        s.g = t.server.g ∧
        (∀ c, (t.threads c).ended = false → s.contexts c = t.server.contexts c) ∧
        ∀ c, ∃ soc, Receives ⟨false, (piecesOfTwo c).map .data⟩
            (textsOn c l ++ (t.threads c).pc.pending) soc ∧
          ((t.threads c).ended = false → soc = (t.threads c).socket) := by
  obtain ⟨t, ht, htable, hended⟩ := exists_runs_two
  exact ⟨t, htable, hended, Threads.runs_deliver (fun _ => rfl) ht⟩

-- Without the condition two registrations read the same `current_id`, and two connections get the id 0.
example : (Runs.exec (Threads.iterate readerLibrary fun _ => 0) (fun _ _ => True) .blocked
    [(0, .load), (1, .load), (0, .store), (1, .store)]
    ⟨oneToTen.server 0, fun c => ⟨⟨false, []⟩, 0, .registering (message 7 []) ⟨⟨0, 0, 0, 0, 0⟩, [c.toUInt8]⟩⟩⟩).map
      (fun t => ((t.server.contexts 0).node.map Node.nodeId, (t.server.contexts 1).node.map Node.nodeId)) =
    .ok (some 0, some 0) := by
  decide

/-! ### One message in a piece -/

/-- A socket whose pieces are whole messages returns them from the front. -/
theorem Receives.frames {sent : List (List UInt8)} (hsent : ∀ m ∈ sent, m ≠ [] ∧ Plain m)
    {pieces : List Piece} (hcut : pieces.map (·.bytes) = sent.map frame)
    {messages : List (List UInt8)} {left : Socket}
    (h : Receives ⟨false, pieces.map .data⟩ messages left) :
    ∃ k, messages = sent.take k ∧ k ≤ sent.length ∧ left = ⟨false, (pieces.drop k).map .data⟩ := by
  induction h with
  | start => exact ⟨0, rfl, Nat.zero_le _, rfl⟩
  | @next messages m left beyond buffSize r _ hr hpos hm ih =>
    obtain ⟨k, rfl, -, rfl⟩ := ih
    have hdrop : (pieces.drop k).map (·.bytes) = (sent.drop k).map frame := by
      rw [List.map_drop, List.map_drop, hcut]
    cases hrest : pieces.drop k with
    | nil =>
      rw [hrest] at hr
      cases hr
    | cons piece rest =>
      rw [hrest] at hr hdrop
      obtain ⟨m', ms, hms⟩ : ∃ m' ms, sent.drop k = m' :: ms :=
        List.exists_cons_of_ne_nil (by intro hnil; simp [hnil] at hdrop)
      rw [hms] at hdrop
      have hmem : m' ∈ sent := List.mem_of_mem_drop (hms ▸ List.mem_cons_self)
      obtain ⟨hne, hplain⟩ := hsent m' hmem
      obtain ⟨r', hr', -, hm', hsocket⟩ := socketGetMessage_frame beyond hne hplain (t := [])
        (by simpa [frame] using (List.cons.inj hdrop).1) (rest.map .data) none buffSize
      cases hr.symm.trans hr'
      cases hm.symm.trans hm'
      have hlt : k < sent.length := by
        by_contra hge
        rw [List.drop_eq_nil_of_le (Nat.not_lt.mp hge)] at hms
        cases hms
      refine ⟨k + 1, ?_, hlt, ?_⟩
      · rw [List.drop_eq_getElem_cons hlt] at hms
        rw [List.take_succ_eq_append_getElem hlt, (List.cons.inj hms).1]
      · rw [hsocket, ← List.tail_drop, hrest, List.tail_cons]

/-- When every piece is a message that a client has sent, whatever the threads have done is what the server
does with the first messages of every client, in some order of the clients; and the rest of them, behind
the one that is being handled, is still to come. -/
theorem Threads.runs_sent {σ : Type} {lib : JsonLibrary σ} {raw : Json → ℤ} {server : Server}
    (hopen : ∀ c, (server.contexts c).isClosed = false) {sent : ℕ → List (List UInt8)}
    (hsent : ∀ c, ∀ m ∈ sent c, m ≠ [] ∧ Plain m) {pieces : ℕ → List Piece}
    (hcut : ∀ c, (pieces c).map (·.bytes) = (sent c).map frame) {t : Threads}
    (h : Runs (Threads.step lib raw) (Threads.Alone lib)
      (Threads.initial server fun c => ⟨false, (pieces c).map .data⟩) t) :
    ∃ l s, l.foldlM (Server.deliver lib raw) server = .ok s ∧ s.g = t.server.g ∧
      ∀ c, textsOn c l ++ (t.threads c).pc.pending <+: sent c ∧ ((t.threads c).ended = false →
        (t.threads c).socket =
          ⟨false, ((pieces c).drop (textsOn c l ++ (t.threads c).pc.pending).length).map .data⟩) := by
  obtain ⟨l, s, hl, hrefines⟩ := Threads.exists_refines hopen h
  refine ⟨l, s, hl, hrefines.global, fun c => ?_⟩
  obtain ⟨soc, hsoc, hsame⟩ := (hrefines.threads c).received
  obtain ⟨k, htexts, hk, rfl⟩ := hsoc.frames (hsent c) (hcut c)
  have hlength : (textsOn c l ++ (t.threads c).pc.pending).length = k := by
    rw [htexts, List.length_take, Nat.min_eq_left hk]
  refine ⟨htexts ▸ List.take_prefix k (sent c), fun hc => ?_⟩
  rw [hlength]
  exact (hsame hc).symm

theorem sentByTwo_plain (c : ℕ) : ∀ m ∈ sentByTwo c, m ≠ [] ∧ Plain m := by
  rcases c with _ | _ | c
  · decide +kernel
  · decide
  · exact fun _ h => absurd h List.not_mem_nil

theorem piecesOfTwo_bytes (c : ℕ) : (piecesOfTwo c).map (·.bytes) = (sentByTwo c).map frame := by
  rcases c with _ | _ | c <;> rfl

theorem Threads.runs_sent_two :
    ∃ t : Threads, t.server.g.sgxTable = [⟨0, 7, 6, 0, 6⟩] ∧
      ∃ l s, l.foldlM (Server.deliver readerLibrary fun _ => 0) (oneToTen.server 0) = .ok s ∧
        s.g = t.server.g ∧
        ∀ c, textsOn c l ++ (t.threads c).pc.pending <+: sentByTwo c ∧ ((t.threads c).ended = false →
          (t.threads c).socket = ⟨false, ((piecesOfTwo c).drop
            (textsOn c l ++ (t.threads c).pc.pending).length).map .data⟩) := by
  obtain ⟨t, ht, htable, -⟩ := exists_runs_two
  exact ⟨t, htable, Threads.runs_sent (fun _ => rfl) sentByTwo_plain piecesOfTwo_bytes ht⟩

/-! ## Whatever arrives -/

section

variable {σ : Type} {lib : JsonLibrary σ} {raw : Json → ℤ}

/-- A message changes what the connections share as one of the requests does, if at all. -/
theorem Server.deliver_step {s t : Server} {a : ℕ × Message} (h : s.deliver lib raw a = .ok t) :
    t.g = s.g ∨ ∃ request u, s.step raw (a.1, request) u ∧ t.g = u.g := by
  obtain ⟨c, m⟩ := a
  obtain ⟨hopen, r, hr, rfl⟩ := Server.deliver_cases h
  have hstep : ∀ {request : Request} {r' : Handled}, request.handler raw s.g (s.contexts c) = .ok r' →
      s.step raw (c, request) (s.after c r') := by
    intro request r' hr'
    simp only [Server.step, Server.serve, hopen, ensure_of, Except.ok_bind, hr']
    rfl
  cases hmsg : acceptedMessage lib m.buffer with
  | none =>
    cases delegateMessage_of_not_accepted hmsg hr
    exact .inl rfl
  | some p =>
    obtain ⟨i, data⟩ := p
    rw [delegateMessage_of_accepted hmsg] at hr
    cases i with
    | register =>
      obtain ⟨r', hr', rfl⟩ := Except.map_eq_ok.mp hr
      exact .inr ⟨.register m.env.keysLocked m.env.idsLocked data, _, hstep hr', r'.send_g _⟩
    | sgxTimeBroadcast =>
      obtain ⟨r', hr', rfl⟩ := Except.map_eq_ok.mp hr
      exact .inr ⟨.sgxTimeBroadcast m.env.now data, _, hstep hr', r'.send_g _⟩
    | unfinishedNode =>
      obtain ⟨r', hr', rfl⟩ := Except.map_eq_ok.mp hr
      exact .inr ⟨.unfinishedNode data, _, hstep hr', r'.send_g _⟩
    | getSgxtableAndQueue =>
      cases hr
      unfold poetGetSgxtableAndQueue
      split <;> exact .inl rfl
    | remoteAttestation | getSgxtable | getQueue | closeConnection =>
      cases hr
      exact .inl rfl

/-- The connections of the threads that have not ended are open. -/
def Threads.Open (t : Threads) : Prop :=
  ∀ c, (t.threads c).ended = false → (t.server.contexts c).isClosed = false

variable {t t' : Threads}

theorem Threads.Open.step (h : t.Open) {a : ℕ × NodeEvent} (ha : t.step lib raw a t') : t'.Open := by
  obtain ⟨c, e⟩ := a
  have hmoves := Threads.step_moves ha
  intro c' hc'
  rcases eq_or_ne c' c with rfl | hne
  · cases hmoves with
    | hangUp => simp at hc'
    | receive hpc => exact h c' (by simp [NodeThread.ended, hpc])
    | register hpc => exact h c' (by simp [NodeThread.ended, hpc])
    | load hpc => exact h c' (by simp [NodeThread.ended, hpc])
    | handle =>
      obtain ⟨-, hopen, -, hcontext⟩ := t.goOn_running _ hc'
      rwa [hcontext]
    | store =>
      obtain ⟨-, hopen, -, hcontext⟩ := t.goOn_running _ hc'
      rwa [hcontext]
  · rw [hmoves.threads_of_ne hne] at hc'
    rw [hmoves.contexts_of_ne hne]
    exact h c' hc'

/-- A step changes what the connections share as one of the requests does, or it writes `current_id` and
the keys, if it changes anything. -/
theorem Threads.step_shared (h : t.Open) {a : ℕ × NodeEvent} (ha : t.step lib raw a t') :
    t'.server.g = t.server.g ∨
      (∃ request u, t.server.step raw (a.1, request) u ∧ t'.server.g = u.g) ∨
      ∃ currentId publicKeys, t'.server.g = { t.server.g with currentId, publicKeys } := by
  obtain ⟨c, e⟩ := a
  cases Threads.step_moves ha with
  | hangUp => exact .inl rfl
  | receive => exact .inl rfl
  | register => exact .inl rfl
  | load => exact .inl rfl
  | @handle env buffer handled hpc _ hhandled =>
    have hopen := h c (by simp [NodeThread.ended, hpc])
    have hdeliver : t.server.deliver lib raw (c, ⟨env, buffer⟩) = .ok (t.server.after c handled) :=
      Server.deliver_ok hopen hhandled
    rw [t.goOn_g handled]
    exact (Server.deliver_step hdeliver).imp_right .inl
  | @store m a nodeId _ =>
    rw [t.goOn_g, Handled.send_g]
    exact .inr (.inr ⟨_, _, rfl⟩)

/-- What every request keeps, whatever the ids and the keys, every run of the threads keeps. -/
theorem Threads.runs_invariant {I : Global → Prop}
    (hstep : ∀ (s : Server) (b : ℕ × Request) (u : Server), s.step raw b u → I s.g → I u.g)
    (hids : ∀ (g : Global) (currentId : ℕ) (publicKeys : List (List UInt8 × ℕ)),
      I g → I { g with currentId, publicKeys })
    (h : Runs (Threads.step lib raw) (fun _ _ => True) t t') (hopen : t.Open) (ht : I t.server.g) :
    t'.Open ∧ I t'.server.g := by
  refine Runs.invariant (I := fun t : Threads => t.Open ∧ I t.server.g) ?_ h ⟨hopen, ht⟩
  intro t a t' ht _ ha
  refine ⟨ht.1.step ha, ?_⟩
  obtain hsame | ⟨request, u, hu, hg⟩ | ⟨currentId, publicKeys, hg⟩ := Threads.step_shared ht.1 ha
  · rw [hsame]
    exact ht.2
  · rw [hg]
    exact hstep _ _ u hu ht.2
  · rw [hg]
    exact hids _ _ _ ht.2

end

/-- Only the last id of the queue can stand in it twice. -/
theorem Server.step_dropLast_nodup {raw : Json → ℤ} {s t : Server} {a : ℕ × Request}
    (h : s.step raw a t) (hs : s.g.queue.dropLast.Nodup) : t.g.queue.dropLast.Nodup := by
  obtain ⟨c, request⟩ := a
  obtain ⟨r, hr, ht⟩ := Server.step_cases h
  rw [ht]
  cases request with
  | register keysLocked idsLocked json =>
    rw [(poetRegister_frame hr).2]
    exact hs
  | sgxTimeBroadcast now json =>
    obtain ⟨-, rfl⟩ | ⟨sgxt, node, -, -, hins, -, -⟩ := poetSgxTimeBroadcast_cases hr
    · exact hs
    · obtain ⟨table, pushed, repetitions, -, hg⟩ := insertNodeIntoSgxTableAndQueue_cases hins
      rw [hg]
      exact (fillQueue_nodup pushed.tail.nodup_dedup).sublist (List.dropLast_sublist _)
  | unfinishedNode json =>
    obtain rfl | ⟨newNode, dest, repetitions, -, -, -, -, -, -, rfl⟩ := poetUnfinishedNode_cases hr
    · exact hs
    · rw [List.dropLast_concat]
      exact List.nodup_dedup _

theorem prefix_set_nodeId {table : List Node} {k : ℕ} {n n' : Node} (hn : table[k]? = some n)
    (hid : n'.nodeId = n.nodeId) : table.map Node.nodeId <+: (table.set k n').map Node.nodeId := by
  obtain ⟨hk, rfl⟩ := List.getElem?_eq_some_iff.mp hn
  rw [List.map_set, hid, ← List.getElem_map Node.nodeId (h := by simpa using hk), List.set_getElem_self]

/-- No entry of the table goes away or becomes that of another node. -/
theorem Server.step_prefix {raw : Json → ℤ} {s t : Server} {a : ℕ × Request} (h : s.step raw a t) :
    s.g.sgxTable.map Node.nodeId <+: t.g.sgxTable.map Node.nodeId := by
  obtain ⟨c, request⟩ := a
  obtain ⟨r, hr, ht⟩ := Server.step_cases h
  rw [ht]
  cases request with
  | register keysLocked idsLocked json =>
    rw [(poetRegister_frame hr).1]
  | sgxTimeBroadcast now json =>
    obtain ⟨-, rfl⟩ | ⟨sgxt, node, -, -, hins, -, -⟩ := poetSgxTimeBroadcast_cases hr
    · exact List.prefix_rfl
    · obtain ⟨table, pushed, repetitions, hinserted, hg⟩ := insertNodeIntoSgxTableAndQueue_cases hins
      rw [hg]
      obtain ⟨n, hn, -, -, rfl, -⟩ | ⟨-, rfl, -⟩ := hinserted
      · exact prefix_set_nodeId hn rfl
      · rw [List.map_append]
        exact List.prefix_append _ _
  | unfinishedNode json =>
    obtain rfl | ⟨newNode, dest, repetitions, -, hdest, -, -, -, -, rfl⟩ := poetUnfinishedNode_cases hr
    · exact List.prefix_rfl
    · exact prefix_set_nodeId hdest rfl

/-- Whatever bytes arrive on whatever connections, in whatever order the threads handle them, and whatever
the parser makes of them: the times of all entries are admissible, no id but the last one of the queue
stands in it twice, and entries are never removed or given to another node. -/
theorem Threads.safe_of_runs {σ : Type} {lib : JsonLibrary σ} {raw : Json → ℤ} {config : Configuration}
    {serverStartingTime : ℤ} {sockets : ℕ → Socket} {t : Threads}
    (h : Runs (Threads.step lib raw) (fun _ _ => True)
      (Threads.initial (config.server serverStartingTime) sockets) t) :
    (∀ node ∈ t.server.g.sgxTable, config.sgxtLowerbound ≤ node.sgxTime ∧
        node.sgxTime ≤ config.sgxmax ∧ node.timeLeft ≤ node.sgxTime) ∧
      t.server.g.queue.dropLast.Nodup ∧
      ∀ t', Runs (Threads.step lib raw) (fun _ _ => True) t t' →
        t.server.g.sgxTable.map Node.nodeId <+: t'.server.g.sgxTable.map Node.nodeId := by
  have hinitial : (Threads.initial (config.server serverStartingTime) sockets).Open := fun _ _ => rfl
  obtain ⟨hopen, hadmissible, hlower, hupper⟩ :
      t.Open ∧ t.server.g.Admissible ∧ (config.server serverStartingTime).g.SameBounds t.server.g := by
    refine Threads.runs_invariant (I := fun g => g.Admissible ∧
      (config.server serverStartingTime).g.SameBounds g) ?_ (fun _ _ _ hg => hg) h hinitial ⟨nofun, rfl, rfl⟩
    intro s b u hu hs
    obtain ⟨hadm, hbounds⟩ := Server.step_admissible hu hs.1
    exact ⟨hadm, hbounds.1.trans hs.2.1, hbounds.2.trans hs.2.2⟩
  have hnodup : t.server.g.queue.dropLast.Nodup :=
    (Threads.runs_invariant (I := fun g => g.queue.dropLast.Nodup)
      (fun _ _ _ hu hs => Server.step_dropLast_nodup hu hs) (fun _ _ _ hg => hg) h hinitial
      List.nodup_nil).2
  refine ⟨fun node hnode => ?_, hnodup, fun t' hrun => ?_⟩
  · have hnode := hadmissible node hnode
    rw [hlower, hupper] at hnode
    exact ⟨hnode.lower, hnode.upper, hnode.timeLeft⟩
  · exact (Threads.runs_invariant
      (I := fun g => t.server.g.sgxTable.map Node.nodeId <+: g.sgxTable.map Node.nodeId)
      (fun _ _ _ hu hs => hs.trans (Server.step_prefix hu)) (fun _ _ _ hg => hg) hrun hopen
      List.prefix_rfl).2

theorem Threads.safe_of_runs_two :
    ∃ t : Threads, t.server.g.sgxTable = [⟨0, 7, 6, 0, 6⟩] ∧
      (∀ node ∈ t.server.g.sgxTable, 1 ≤ node.sgxTime ∧ node.sgxTime ≤ 10 ∧
        node.timeLeft ≤ node.sgxTime) ∧
      t.server.g.queue.dropLast.Nodup ∧
      ∀ t', Runs (Threads.step readerLibrary fun _ => 0) (fun _ _ => True) t t' →
        t.server.g.sgxTable.map Node.nodeId <+: t'.server.g.sgxTable.map Node.nodeId := by
  obtain ⟨t, ht, htable, -⟩ := exists_runs_two
  exact ⟨t, htable, Threads.safe_of_runs (ht.mono fun _ _ _ => trivial)⟩

end PoQ
