import PoQ.Server.Connections

/-!
# Notifying the subscribers

The thread `sgx_table_and_queue_notification` of `poet_server.cpp` next to the threads that handle
requests. It waits for a change of the queue, takes a snapshot of the queue and the table, and sends it
to every subscriber. The condition variable has no memory: a broadcast that finds nobody waiting is
lost.
-/

namespace PoQ

/-- Where the notifying thread stands: about to call `queue_wait_change`; with `cond_mutex` taken in it;
blocked in `pthread_cond_wait`, which releases `cond_mutex`; woken up and about to take `cond_mutex`
back; with `cond_mutex` taken again; behind `queue_wait_change`, with the snapshot to come; and with
the snapshot on its way to the subscribers. -/
inductive NotifierPc
  | idle
  | locked
  | waiting
  | woken
  | relocked
  | changed
  | sending (queue : List ℕ) (table : List Node)
deriving DecidableEq, Repr

/-- The thread holds `cond_mutex`, without which no handler changes the queue. -/
def NotifierPc.holdsCondMutex : NotifierPc → Bool
  | locked | relocked => true
  | _ => false

/-- The server with its notifying thread, what was sent last, and whether a request has changed the
queue yet. -/
structure Notifying where
  server : Server
  pc : NotifierPc
  lastSent : Option (List ℕ × List Node)
  mutated : Bool

def Notifying.initial (serverStartingTime : ℤ) (sgxtLowerbound sgxmax nTiers : ℕ) : Notifying :=
  ⟨Server.initial serverStartingTime sgxtLowerbound sgxmax nTiers, .idle, none, false⟩

def Notifying.view (s : Notifying) : List ℕ × List Node := (s.server.g.queue, s.server.g.sgxTable)

/-- The steps of the two sides. `pthread_cond_wait` may return without a broadcast. -/
inductive Event
  | trylock (granted : Bool)
  | wait
  | spuriousWakeup
  | relock
  | unlock
  | snapshot
  | send
  | request (a : ℕ × Request)

/-- The request is a broadcast or an unfinished node, and is accepted: it ends in `queue_broadcast`. -/
def Server.mutates (raw : Json → ℤ) (s : Server) : ℕ × Request → Bool
  | (_, .register _ _ _) => false
  | (c, request) =>
    match request.handler raw s.g (s.contexts c) with
    | .ok r => r.returned
    | .error _ => false

/-- One step. A step that is not enabled is blocked. -/
def Notifying.next (raw : Json → ℤ) (s : Notifying) : Event → Except Abort Notifying
  | .trylock granted =>
    match s.pc with
    -- when the lock is not granted the thread sleeps and tries again
    | .idle => .ok { s with pc := if granted then .locked else .idle }
    | _ => .error .blocked
  | .wait =>
    match s.pc with
    | .locked => .ok { s with pc := .waiting }
    | _ => .error .blocked
  | .spuriousWakeup =>
    match s.pc with
    | .waiting => .ok { s with pc := .woken }
    | _ => .error .blocked
  | .relock =>
    match s.pc with
    | .woken => .ok { s with pc := .relocked }
    | _ => .error .blocked
  | .unlock =>
    match s.pc with
    | .relocked => .ok { s with pc := .changed }
    | _ => .error .blocked
  | .snapshot =>
    match s.pc with
    | .changed => .ok { s with pc := .sending s.server.g.queue s.server.g.sgxTable }
    | _ => .error .blocked
  | .send =>
    match s.pc with
    | .sending queue table => .ok { s with pc := .idle, lastSent := some (queue, table) }
    | _ => .error .blocked
  | .request a => do
    let server ← s.server.serve raw a
    if s.server.mutates raw a then
      ensure (s.pc.holdsCondMutex = false) .blocked
      -- `queue_broadcast` wakes the thread if it waits, and does nothing otherwise
      return { s with server, mutated := true, pc := if s.pc = .waiting then .woken else s.pc }
    return { s with server }

def Notifying.step (raw : Json → ℤ) (s : Notifying) (e : Event) (t : Notifying) : Prop :=
  s.next raw e = .ok t

/-- The queue changes only while the thread waits or has not yet taken the snapshot it woke up for. -/
def Noticed (raw : Json → ℤ) (s : Notifying) : Event → Prop
  | .request a => s.server.mutates raw a = true →
      s.pc = .waiting ∨ s.pc = .woken ∨ s.pc = .changed
  | _ => True

instance (raw : Json → ℤ) (s : Notifying) (e : Event) : Decidable (Noticed raw s e) :=
  match e with
  | .request a => inferInstanceAs (Decidable (s.server.mutates raw a = true →
      s.pc = .waiting ∨ s.pc = .woken ∨ s.pc = .changed))
  | .trylock _ | .wait | .spuriousWakeup | .relock | .unlock | .snapshot | .send => .isTrue trivial

/-! ## No update is lost -/

/-- A request that is not accepted leaves the queue and the table alone. -/
theorem Server.serve_frame {raw : Json → ℤ} {s t : Server} {a : ℕ × Request}
    (h : s.serve raw a = .ok t) (hm : s.mutates raw a = false) :
    t.g.queue = s.g.queue ∧ t.g.sgxTable = s.g.sgxTable := by
  obtain ⟨c, request⟩ := a
  obtain ⟨r, hr, ht⟩ := Server.step_cases h
  rw [ht]
  cases request with
  | register keysLocked idsLocked json =>
    obtain ⟨htable, hqueue⟩ := poetRegister_frame hr
    exact ⟨hqueue, htable⟩
  | sgxTimeBroadcast now json =>
    simp only [Server.mutates, hr] at hm
    obtain ⟨-, rfl⟩ | ⟨_, _, _, _, _, hret, _⟩ := poetSgxTimeBroadcast_cases hr
    · exact ⟨rfl, rfl⟩
    · rw [hret] at hm
      cases hm
  | unfinishedNode json =>
    simp only [Server.mutates, hr] at hm
    obtain rfl | ⟨_, _, _, _, _, _, _, _, _, rfl⟩ := poetUnfinishedNode_cases hr
    · exact ⟨rfl, rfl⟩
    · cases hm

/-- What has been sent, or is about to be sent, is the current state, unless a snapshot is still to be
taken. -/
def Notifying.UpToDate (s : Notifying) : Prop :=
  s.mutated = true → match s.pc with
    | .idle | .locked | .waiting => s.lastSent = some s.view
    | .sending queue table => (queue, table) = s.view
    | .woken | .relocked | .changed => True

theorem Notifying.next_upToDate {raw : Json → ℤ} {s t : Notifying} {e : Event} (hs : s.UpToDate)
    (hc : Noticed raw s e) (h : s.next raw e = .ok t) : t.UpToDate := by
  cases e with
  | request a =>
    obtain ⟨server, hserve, h⟩ := Except.bind_eq_ok.mp h
    split at h
    · next hm =>
      obtain ⟨_, -, h⟩ := Except.bind_eq_ok.mp h
      cases h
      intro _
      rcases hc hm with hpc | hpc | hpc <;> simp [hpc]
    · next hm =>
      cases h
      obtain ⟨hqueue, htable⟩ := Server.serve_frame hserve (by simpa using hm)
      intro hmut
      have := hs hmut
      simp only [Notifying.view, hqueue, htable]
      exact this
  | trylock granted =>
    simp only [Notifying.next] at h
    split at h
    · next hpc =>
      cases h
      intro hmut
      have hsent := hs hmut
      rw [hpc] at hsent
      cases granted <;> exact hsent
    · cases h
  | wait =>
    simp only [Notifying.next] at h
    split at h
    · next hpc =>
      cases h
      intro hmut
      have hsent := hs hmut
      rw [hpc] at hsent
      exact hsent
    · cases h
  | spuriousWakeup | relock | unlock =>
    simp only [Notifying.next] at h
    split at h <;> cases h
    exact fun _ => trivial
  | snapshot =>
    simp only [Notifying.next] at h
    split at h <;> cases h
    exact fun _ => rfl
  | send =>
    simp only [Notifying.next] at h
    split at h
    · next queue table hpc =>
      cases h
      intro hmut
      have hview := hs hmut
      rw [hpc] at hview
      exact congrArg some hview
    · cases h

/-- In every run in which the queue changes only while the thread waits or has not yet taken the
snapshot it woke up for, the subscribers have the current state whenever the thread waits. -/
theorem Notifying.lastSent_of_runs {raw : Json → ℤ} {serverStartingTime : ℤ}
    {sgxtLowerbound sgxmax nTiers : ℕ} {s : Notifying}
    (h : Runs (Notifying.step raw) (Noticed raw)
      (Notifying.initial serverStartingTime sgxtLowerbound sgxmax nTiers) s)
    (hmut : s.mutated = true) (hpc : s.pc = .waiting) :
    s.lastSent = some (s.server.g.queue, s.server.g.sgxTable) := by
  have hs : s.UpToDate := by
    refine Runs.invariant (I := Notifying.UpToDate) ?_ h fun hmut => ?_
    · intro s e t hs hc ht
      exact Notifying.next_upToDate hs hc ht
    · cases hmut
  have hsent := hs hmut
  rw [hpc] at hsent
  exact hsent

/-- Two nodes register. The second broadcasts while the snapshot of the first is being sent. -/
def lostUpdate : List Event :=
  [.request (0, .register true true (registerJson keyA)),
    .request (1, .register true true (registerJson keyB)), .trylock true, .wait,
    .request (0, .sgxTimeBroadcast 7 (sgxtJson 6)), .relock, .unlock, .snapshot,
    .request (1, .sgxTimeBroadcast 8 (sgxtJson 9)), .send, .trylock true, .wait]

/-- The thread waits again, and the second node is in the table but not in what was sent. -/
theorem Notifying.lastSent_lostUpdate :
    ∃ s, Runs (Notifying.step fun _ => 0) (fun _ _ => True) (Notifying.initial 0 1 10 2) s ∧
      s.mutated = true ∧ s.pc = .waiting ∧
      s.lastSent ≠ some (s.server.g.queue, s.server.g.sgxTable) := by
  have hrun : (Runs.exec (Notifying.next fun _ => 0) (fun _ _ => True) .blocked lostUpdate
      (Notifying.initial 0 1 10 2)).map (fun s => decide (s.mutated = true ∧ s.pc = .waiting ∧
        s.lastSent ≠ some (s.server.g.queue, s.server.g.sgxTable))) = .ok true := by
    decide +kernel
  obtain ⟨s, hs, h⟩ := Except.map_eq_ok.mp hrun
  exact ⟨s, Runs.of_exec hs, of_decide_eq_true h⟩

/-- The second broadcast comes when the thread waits again: both are sent. -/
theorem Notifying.lastSent_noticed :
    ∃ s : Notifying, s.mutated = true ∧ s.pc = .waiting ∧ s.server.g.sgxTable.length = 2 ∧
      s.lastSent = some (s.server.g.queue, s.server.g.sgxTable) := by
  have hrun : (Runs.exec (Notifying.next fun _ => 0) (Noticed fun _ => 0) .blocked
      [.request (0, .register true true (registerJson keyA)),
        .request (1, .register true true (registerJson keyB)), .trylock true, .wait,
        .request (0, .sgxTimeBroadcast 7 (sgxtJson 6)), .relock, .unlock, .snapshot, .send,
        .trylock true, .wait, .request (1, .sgxTimeBroadcast 8 (sgxtJson 9)), .relock, .unlock,
        .snapshot, .send, .trylock true, .wait]
      (Notifying.initial 0 1 10 2)).map (fun s => decide (s.mutated = true ∧ s.pc = .waiting ∧
        s.server.g.sgxTable.length = 2)) = .ok true := by
    decide +kernel
  obtain ⟨s, hs, h⟩ := Except.map_eq_ok.mp hrun
  obtain ⟨hmut, hpc, hlen⟩ := of_decide_eq_true h
  exact ⟨s, hmut, hpc, hlen, Notifying.lastSent_of_runs (Runs.of_exec hs) hmut hpc⟩

end PoQ
