import Mathlib.Logic.Function.Basic
import PoQ.Basic
import PoQ.Lib.Runs

/-!
# The client's main socket

The main thread, which broadcasts its times in `poet_broadcast_sgxtime`, and the threads that run
`starting_time_calculation`, which report in `notify_readdition_of_node_into_queue`, send their requests
on one socket. Each sends a request and then reads one reply. The replies come in the order of the
requests and do not say which request they answer. A notification from the server makes
`notifications_sentinel` cancel the last of the schedule threads and start another one.

A request is taken to be sent as a whole, and a reply to be read as a whole.
-/

namespace PoQ

/-- The threads that use the socket. The schedule threads are numbered as they are created. -/
inductive Thread
  | main
  | schedule (n : ℕ)
deriving DecidableEq, Repr

/-- Where a thread stands: not created yet; computing its schedule, with cancellation disabled; before
its next request; behind the request `n`, with the reply still to be read; or at its end. -/
inductive ThreadPc
  | absent
  | computing
  | ready
  | waiting (n : ℕ)
  | ended
deriving DecidableEq, Repr

/-- The socket and its threads. Requests are numbered in the order in which they are sent, and a reply
is the number of the request that it answers. -/
structure MainSocket where
  pc : Thread → ThreadPc
  /-- The number of schedule threads that have been created; the last one is the one that the next
  notification cancels. -/
  created : ℕ
  cancelRequested : ℕ → Bool
  sent : ℕ
  requests : List ℕ
  replies : List ℕ
  /-- What has been read: by which thread, what it had sent last, and what the reply answers. -/
  reads : List (Thread × ℕ × ℕ)

namespace MainSocket

/-- The client after its registration. -/
def initial : MainSocket :=
  { pc := fun | .main => .ready | .schedule _ => .absent
    created := 0
    cancelRequested := fun _ => false
    sent := 0
    requests := []
    replies := []
    reads := [] }

/-- The steps: `socket_send_message` and `socket_get_message` of a thread, an answer of the server, a
notification that `notifications_sentinel` handles, and what a schedule thread does apart from its
requests. -/
inductive Event
  | send (t : Thread)
  | read (t : Thread)
  | answer
  | notification (updated : Bool)
  | enable (n : ℕ)
  | cancel (n : ℕ)
  | exit (n : ℕ)
deriving DecidableEq, Repr

/-- One step. A step that is not enabled is blocked. -/
def next (s : MainSocket) : Event → Except Abort MainSocket
  | .send t =>
    match s.pc t with
    | .ready => .ok
      { s with
        pc := Function.update s.pc t (.waiting s.sent)
        requests := s.requests ++ [s.sent]
        sent := s.sent + 1 }
    | _ => .error .blocked
  | .read t =>
    match s.pc t, s.replies with
    | .waiting n, r :: replies => .ok
      { s with
        pc := Function.update s.pc t .ready
        replies
        reads := s.reads ++ [(t, n, r)] }
    | _, _ => .error .blocked
  | .answer =>
    match s.requests with
    | n :: requests => .ok { s with requests, replies := s.replies ++ [n] }
    | [] => .error .blocked
  | .notification updated =>
    -- `pthread_cancel` comes first, also when the text then turns out to be of no use
    let cancelRequested n := s.cancelRequested n || n + 1 == s.created
    if updated then .ok
      { s with
        cancelRequested
        pc := Function.update s.pc (.schedule s.created) .computing
        created := s.created + 1 }
    else .ok { s with cancelRequested }
  | .enable n =>
    match s.pc (.schedule n) with
    | .computing => .ok { s with pc := Function.update s.pc (.schedule n) .ready }
    | _ => .error .blocked
  | .cancel n =>
    -- the thread acts on it in a `send`, a `recv` or a `sleep`
    match s.cancelRequested n, s.pc (.schedule n) with
    | true, .ready | true, .waiting _ =>
      .ok { s with pc := Function.update s.pc (.schedule n) .ended }
    | _, _ => .error .blocked
  | .exit n =>
    match s.pc (.schedule n) with
    | .computing | .ready => .ok { s with pc := Function.update s.pc (.schedule n) .ended }
    | _ => .error .blocked

def step (s : MainSocket) (e : Event) (t : MainSocket) : Prop := s.next e = .ok t

/-- A request is sent only when the replies to all earlier ones have been read. -/
def Settled (s : MainSocket) : Event → Prop
  | .send _ => s.requests = [] ∧ s.replies = []
  | _ => True

instance (s : MainSocket) (e : Event) : Decidable (s.Settled e) :=
  match e with
  | .send _ => inferInstanceAs (Decidable (s.requests = [] ∧ s.replies = []))
  | .read _ | .answer | .notification _ | .enable _ | .cancel _ | .exit _ => .isTrue trivial

/-! ## Who reads which reply -/

/-- The thread has sent a request and not read a reply since. -/
def Waits (s : MainSocket) (t : Thread) (n : ℕ) : Prop := s.pc t = .waiting n

/-- At most one request is without its reply, and at most the thread that has sent it waits. -/
inductive Outstanding (s : MainSocket) : Prop
  | none : s.replies ++ s.requests = [] → (∀ t n, ¬s.Waits t n) → Outstanding s
  | one (t : Thread) (n : ℕ) : s.replies ++ s.requests = [n] → n < s.sent →
      (∀ t' n', s.Waits t' n' → t' = t ∧ n' = n) → Outstanding s

structure Invariant (s : MainSocket) : Prop where
  outstanding : s.Outstanding
  reads : ∀ t n r, (t, n, r) ∈ s.reads → r = n

theorem initial_invariant : initial.Invariant := by
  refine ⟨.none rfl fun t n h => ?_, nofun⟩
  cases t <;> cases h

variable {s s' : MainSocket}

/-- A step in which nothing is sent or read and nobody begins to wait. -/
theorem Outstanding.of_frame (h : s.Outstanding)
    (hmessages : s'.replies ++ s'.requests = s.replies ++ s.requests) (hsent : s'.sent = s.sent)
    (hwaits : ∀ t n, s'.Waits t n → s.Waits t n) : s'.Outstanding := by
  cases h with
  | none hnil hnobody => exact .none (hmessages.trans hnil) fun t n h => hnobody t n (hwaits t n h)
  | one t n hone hlt honly =>
    exact .one t n (hmessages.trans hone) (hsent ▸ hlt) fun t' n' h => honly t' n' (hwaits t' n' h)

/-- Who waits when the thread `t` has gone to another place. -/
theorem update_waits {t t' : Thread} {pc : ThreadPc} {n : ℕ}
    (h : Function.update s.pc t pc t' = .waiting n) :
    t' = t ∧ pc = .waiting n ∨ t' ≠ t ∧ s.Waits t' n := by
  by_cases ht : t' = t
  · rw [ht, Function.update_self] at h
    exact .inl ⟨ht, h⟩
  · rw [Function.update_of_ne ht] at h
    exact .inr ⟨ht, h⟩

theorem waits_of_update {t t' : Thread} {pc : ThreadPc} {n : ℕ} (hpc : ∀ m, pc ≠ .waiting m)
    (h : Function.update s.pc t pc t' = .waiting n) : s.Waits t' n := by
  obtain ⟨-, hn⟩ | ⟨-, hwaits⟩ := update_waits h
  · exact absurd hn (hpc n)
  · exact hwaits

theorem Outstanding.send (h : s.Outstanding) {t : Thread} (hrequests : s.requests = [])
    (hreplies : s.replies = []) (hs : s.next (.send t) = .ok s') : s'.Outstanding := by
  cases h with
  | one _ n hone _ _ =>
    rw [hrequests, hreplies] at hone
    cases hone
  | none _ hnobody =>
    simp only [next] at hs
    split at hs
    · cases hs
      refine .one t s.sent ?_ (Nat.lt_succ_self s.sent) fun t' n' hwaits => ?_
      · simp [hrequests, hreplies]
      · obtain ⟨ht, hn⟩ | ⟨-, hwaits⟩ := update_waits hwaits
        · cases hn
          exact ⟨ht, rfl⟩
        · exact absurd hwaits (hnobody t' n')
    · cases hs

/-- With one request without its reply, the only thread that can read is the one that has sent it. -/
theorem Outstanding.read (h : s.Outstanding) {t : Thread} (hs : s.next (.read t) = .ok s') :
    s'.Outstanding ∧ ∃ n, s'.reads = s.reads ++ [(t, n, n)] := by
  simp only [next] at hs
  split at hs
  · next n r replies hpc hr =>
    cases hs
    cases h with
    | none hnil _ =>
      rw [hr] at hnil
      cases hnil
    | one t₀ n₀ hone _ honly =>
      obtain ⟨rfl, rfl⟩ := honly t n hpc
      rw [hr, List.cons_append] at hone
      obtain ⟨rfl, hrest⟩ := List.cons.inj hone
      refine ⟨.none hrest fun t' n' hwaits => ?_, _, rfl⟩
      obtain ⟨-, hn⟩ | ⟨hne, hwaits⟩ := update_waits hwaits
      · cases hn
      · exact hne (honly t' n' hwaits).1
  · cases hs

theorem Invariant.next (h : s.Invariant) {e : Event} (hc : s.Settled e) (hs : s.next e = .ok s') :
    s'.Invariant := by
  cases e with
  | send t =>
    have houtstanding := h.outstanding.send hc.1 hc.2 hs
    simp only [MainSocket.next] at hs
    split at hs <;> cases hs
    exact ⟨houtstanding, h.reads⟩
  | read t =>
    obtain ⟨houtstanding, n, hreads⟩ := h.outstanding.read hs
    refine ⟨houtstanding, fun t' n' r hmem => ?_⟩
    rw [hreads] at hmem
    rcases List.mem_append.mp hmem with hmem | hmem
    · exact h.reads t' n' r hmem
    · cases List.mem_singleton.mp hmem
      rfl
  | answer =>
    simp only [MainSocket.next] at hs
    split at hs
    · next n requests hrequests =>
      cases hs
      refine ⟨h.outstanding.of_frame ?_ rfl fun _ _ hwaits => hwaits, h.reads⟩
      rw [hrequests, List.append_assoc]
      rfl
    · cases hs
  | notification updated =>
    cases updated with
    | false =>
      cases hs
      exact ⟨h.outstanding.of_frame rfl rfl fun _ _ hwaits => hwaits, h.reads⟩
    | true =>
      cases hs
      exact ⟨h.outstanding.of_frame rfl rfl fun _ _ => waits_of_update nofun, h.reads⟩
  | enable n | exit n =>
    simp only [MainSocket.next] at hs
    split at hs <;> cases hs
    all_goals exact ⟨h.outstanding.of_frame rfl rfl fun _ _ => waits_of_update nofun, h.reads⟩
  | cancel n =>
    simp only [MainSocket.next] at hs
    split at hs <;> cases hs
    all_goals exact ⟨h.outstanding.of_frame rfl rfl fun _ _ => waits_of_update nofun, h.reads⟩

/-! ## A reply too many -/

theorem exists_read {t : Thread} {n r : ℕ} {replies : List ℕ} (hwaits : s.Waits t n)
    (hreplies : s.replies = r :: replies) :
    ∃ s', s.step (.read t) s' ∧ (t, n, r) ∈ s'.reads := by
  unfold Waits at hwaits
  set s' : MainSocket :=
    { s with
      pc := Function.update s.pc t .ready
      replies
      reads := s.reads ++ [(t, n, r)] }
  refine ⟨s', ?_, List.mem_append_right _ (List.mem_singleton_self _)⟩
  simp only [step, next, hwaits, hreplies, s']

/-- A request behind an unread reply can be followed by the thread reading this reply. -/
theorem Outstanding.exists_wrong_reply (h : s.Outstanding) {t : Thread}
    (hs : s.step (.send t) s') (hc : ¬s.Settled (.send t)) :
    ∃ u, Runs step (fun _ _ => True) s' u ∧ ∃ n r, (t, n, r) ∈ u.reads ∧ r ≠ n := by
  simp only [step, next] at hs
  split at hs
  · cases hs
    cases h with
    | none hnil _ =>
      obtain ⟨hreplies, hrequests⟩ := List.append_eq_nil_iff.mp hnil
      exact absurd ⟨hrequests, hreplies⟩ hc
    | one _ n hone hlt _ =>
      rcases List.append_eq_singleton_iff.mp hone with ⟨hreplies, hrequests⟩ | ⟨hreplies, hrequests⟩
      · -- the request before has not even been answered
        set u : MainSocket :=
          { s with
            pc := Function.update s.pc t (.waiting s.sent)
            requests := [s.sent]
            replies := [n]
            sent := s.sent + 1 }
        have hwaits : u.Waits t s.sent := Function.update_self t _ _
        obtain ⟨v, hv, hmem⟩ := exists_read hwaits rfl
        refine ⟨v, .head ⟨.answer, trivial, ?_⟩ (.single ⟨_, trivial, hv⟩), _, _, hmem, hlt.ne⟩
        simp only [step, next, hrequests, hreplies]
        rfl
      · set u : MainSocket :=
          { s with
            pc := Function.update s.pc t (.waiting s.sent)
            requests := s.requests ++ [s.sent]
            sent := s.sent + 1 }
        have hwaits : u.Waits t s.sent := Function.update_self t _ _
        obtain ⟨v, hv, hmem⟩ := exists_read hwaits hreplies
        exact ⟨v, .single ⟨_, trivial, hv⟩, _, _, hmem, hlt.ne⟩
  · cases hs

/-- In every run in which a request is sent only when the replies to all earlier ones have been read,
every thread reads the reply to the request that it has sent last; and a request that is sent earlier
can be followed by a thread reading another reply. -/
theorem reads_of_runs (h : Runs step Settled initial s) :
    (∀ t n r, (t, n, r) ∈ s.reads → r = n) ∧
      ∀ t s', s.step (.send t) s' → ¬s.Settled (.send t) →
        ∃ u, Runs step (fun _ _ => True) s' u ∧ ∃ n r, (t, n, r) ∈ u.reads ∧ r ≠ n := by
  have hs : s.Invariant := by
    refine Runs.invariant (I := Invariant) ?_ h initial_invariant
    intro s e t hs hc ht
    exact hs.next hc ht
  exact ⟨hs.reads, fun t s' ht hc => hs.outstanding.exists_wrong_reply ht hc⟩

/-- The first schedule thread reports, and is cancelled by the notification that its report causes. The
second one reports and reads a reply. -/
def orphanedReply : List Event :=
  [.notification true, .enable 0, .send (.schedule 0), .answer, .notification true, .cancel 0,
    .enable 1, .send (.schedule 1), .answer, .read (.schedule 1)]

/-- It is the reply to the first report. -/
theorem reads_orphanedReply :
    ∃ s, Runs step (fun _ _ => True) initial s ∧ (.schedule 1, 1, 0) ∈ s.reads := by
  have hrun : (Runs.exec next (fun _ _ => True) .blocked orphanedReply initial).map
      (fun s => s.reads) = .ok [(.schedule 1, 1, 0)] := by
    decide
  obtain ⟨s, hs, hreads⟩ := Except.map_eq_ok.mp hrun
  exact ⟨s, Runs.of_exec hs, by simp [hreads]⟩

/-- The first thread reads the reply before it is cancelled. -/
theorem reads_settled :
    ∃ s : MainSocket, s.reads = [(.schedule 0, 0, 0), (.schedule 1, 1, 1)] ∧
      (∀ t n r, (t, n, r) ∈ s.reads → r = n) ∧
      ∀ t s', s.step (.send t) s' → ¬s.Settled (.send t) →
        ∃ u, Runs step (fun _ _ => True) s' u ∧ ∃ n r, (t, n, r) ∈ u.reads ∧ r ≠ n := by
  have hrun : (Runs.exec next Settled .blocked
      [.notification true, .enable 0, .send (.schedule 0), .answer, .read (.schedule 0),
        .notification true, .cancel 0, .enable 1, .send (.schedule 1), .answer, .read (.schedule 1)]
      initial).map (fun s => s.reads) = .ok [(.schedule 0, 0, 0), (.schedule 1, 1, 1)] := by
    decide
  obtain ⟨s, hs, hreads⟩ := Except.map_eq_ok.mp hrun
  exact ⟨s, hreads, reads_of_runs (Runs.of_exec hs)⟩

end MainSocket

end PoQ
