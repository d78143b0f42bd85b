import Mathlib.Data.List.Nodup
import PoQ.Basic
import PoQ.Lib.Runs

/-!
# The pool of thread slots

`poet_server.cpp` keeps the handles of its threads in `MAX_THREADS` slots. The free slots are in
`threads_queue`. Three threads take slots from it and start a thread in each: the main thread for a new
connection, `secondary_socket_sentinel` for a new subscriber, and `sgx_table_and_queue_notification` for
every message that it sends. A thread puts its slot back before it ends.
-/

namespace PoQ

/-- `MAX_THREADS`. -/
def maxThreads : ℕ := 20

/-- The threads that start threads. -/
inductive Dispatcher
  | main
  | secondary
  | notifier
deriving DecidableEq, Repr

/-- Where such a thread stands: elsewhere; behind the loop in which the main thread waits until
`threads_queue` is not empty; or with what it has got from `queue_front_and_pop`, which is no slot when
the queue was empty. -/
inductive DispatcherPc
  | idle
  | tested
  | popped (slot : Option ℕ)
deriving DecidableEq, Repr

/-- Where the notifying thread stands: waiting for a change; with so many messages that have no thread
yet, and when there are none, between the calls of `pthread_join`; or in such a call. -/
inductive RoundPc
  | waiting
  | sending (left : ℕ)
  | joining (thread : ℕ)
deriving DecidableEq, Repr

/-- The pool and the threads. Threads are numbered as they are created, and the number of a thread is its
handle. -/
structure ThreadPool where
  threadsQueue : List ℕ
  dispatcher : Dispatcher → DispatcherPc
  /-- The handle in each slot. -/
  threads : ℕ → Option ℕ
  created : ℕ
  /-- The threads that have not put their slots back, with their slots. -/
  running : List (ℕ × ℕ)
  /-- The threads that have put their slots back and not ended. -/
  returned : List ℕ
  ended : List ℕ
  round : RoundPc
  /-- The slots that the notifying thread has still to call `pthread_join` on. -/
  q : List ℕ
  /-- The threads that have been created in this round. -/
  senders : List ℕ
  /-- The handles that `pthread_join` has been called on in this round. -/
  joined : List ℕ

namespace ThreadPool

/-- `global_variables_initialization`. -/
def initial : ThreadPool :=
  { threadsQueue := List.range maxThreads
    dispatcher := fun _ => .idle
    threads := fun _ => none
    created := 0
    running := []
    returned := []
    ended := []
    round := .waiting
    q := []
    senders := []
    joined := [] }

/-- The steps: the main thread finds the queue not empty; a thread takes a slot, and starts a thread in
it; a round begins with so many subscribers; `pthread_join` is called, and returns; the round is over;
and a thread puts its slot back, and ends. -/
inductive Event
  | test
  | pop (d : Dispatcher)
  | create (d : Dispatcher)
  | begin (subscribers : ℕ)
  | join
  | joinReturn
  | finish
  | giveBack (thread slot : ℕ)
  | exit (thread : ℕ)
deriving DecidableEq, Repr

/-- `queue_front_and_pop`. -/
def pop (s : ThreadPool) (d : Dispatcher) : ThreadPool :=
  { s with
    threadsQueue := s.threadsQueue.tail
    dispatcher := Function.update s.dispatcher d (.popped s.threadsQueue.head?) }

/-- `delegate_thread_to_function`: `pthread_create` writes the handle to the slot. The notifying thread
remembers the slot. -/
def create (s : ThreadPool) (d : Dispatcher) (slot : ℕ) : ThreadPool :=
  let s' : ThreadPool :=
    { s with
      dispatcher := Function.update s.dispatcher d .idle
      threads := Function.update s.threads slot (some s.created)
      created := s.created + 1
      running := s.running ++ [(s.created, slot)] }
  match d with
  | .main | .secondary => s'
  | .notifier =>
    { s' with
      round := match s.round with
        | .sending (left + 1) => .sending left
        | round => round
      q := s.q ++ [slot]
      senders := s.senders ++ [s.created] }

/-- One step. A step that is not enabled is blocked. -/
def next (s : ThreadPool) : Event → Except Abort ThreadPool
  | .test =>
    if s.dispatcher .main = .idle ∧ s.threadsQueue ≠ [] then
      .ok { s with dispatcher := Function.update s.dispatcher .main .tested }
    else .error .blocked
  | .pop d =>
    match d, s.dispatcher d, s.round with
    | .main, .tested, _ => .ok (s.pop .main)
    | .secondary, .idle, _ => .ok (s.pop .secondary)
    | .notifier, .idle, .sending (_ + 1) => .ok (s.pop .notifier)
    | _, _, _ => .error .blocked
  | .create d =>
    match s.dispatcher d with
    | .popped (some slot) => .ok (s.create d slot)
    | .popped none => .error .threadNotNull
    | _ => .error .blocked
  | .begin subscribers =>
    match s.round with
    | .waiting => .ok { s with round := .sending subscribers, q := [], senders := [], joined := [] }
    | _ => .error .blocked
  | .join =>
    match s.round, s.q with
    | .sending 0, slot :: q =>
      match s.threads slot with
      -- `q.pop` comes behind the call, where nobody else can tell the difference
      | some thread => .ok { s with round := .joining thread, q, joined := s.joined ++ [thread] }
      | none => .error .nullPointer
    | _, _ => .error .blocked
  | .joinReturn =>
    match s.round with
    | .joining thread =>
      if thread ∈ s.ended then .ok { s with round := .sending 0 } else .error .blocked
    | _ => .error .blocked
  | .finish =>
    match s.round, s.q with
    | .sending 0, [] => .ok { s with round := .waiting }
    | _, _ => .error .blocked
  | .giveBack thread slot =>
    if (thread, slot) ∈ s.running then
      .ok { s with
        running := s.running.erase (thread, slot)
        returned := s.returned ++ [thread]
        threadsQueue := s.threadsQueue ++ [slot] }
    else .error .blocked
  | .exit thread =>
    if thread ∈ s.returned then
      .ok { s with returned := s.returned.erase thread, ended := s.ended ++ [thread] }
    else .error .blocked

def step (s : ThreadPool) (e : Event) (t : ThreadPool) : Prop := s.next e = .ok t

/-! ## The slots in use -/

/-- The number of slots that a dispatcher has taken and not used yet. -/
def DispatcherPc.slots : DispatcherPc → ℕ
  | .popped (some _) => 1
  | _ => 0

/-- The number of slots that the dispatchers have taken and not used yet. -/
def claimed (f : Dispatcher → DispatcherPc) : ℕ :=
  DispatcherPc.slots (f .main) + DispatcherPc.slots (f .secondary) + DispatcherPc.slots (f .notifier)

/-- The number of slots in use: those of the threads that have not put them back, and those in which a
thread is about to be started. -/
def inUse (s : ThreadPool) : ℕ := s.running.length + claimed s.dispatcher

/-- A slot is taken only when not all slots are in use. -/
def Spare (s : ThreadPool) : Event → Prop
  | .pop _ => s.inUse < maxThreads
  | _ => True

instance (s : ThreadPool) (e : Event) : Decidable (s.Spare e) :=
  match e with
  | .pop _ => inferInstanceAs (Decidable (s.inUse < maxThreads))
  | .test | .create _ | .begin _ | .join | .joinReturn | .finish | .giveBack _ _ | .exit _ =>
    .isTrue trivial

variable {s t : ThreadPool} {d : Dispatcher}

theorem step_pop (h : s.step (.pop d) t) :
    DispatcherPc.slots (s.dispatcher d) = 0 ∧ t = s.pop d := by
  simp only [step, next] at h
  split at h
  · next hd =>
    cases h
    exact ⟨by rw [hd]; rfl, rfl⟩
  · next hd =>
    cases h
    exact ⟨by rw [hd]; rfl, rfl⟩
  · next hd =>
    cases h
    exact ⟨by rw [hd]; rfl, rfl⟩
  · cases h

theorem step_create (h : s.step (.create d) t) :
    ∃ slot, s.dispatcher d = .popped (some slot) ∧ t = s.create d slot := by
  simp only [step, next] at h
  split at h
  · next slot hd =>
    cases h
    exact ⟨slot, hd, rfl⟩
  · cases h
  · cases h

theorem claimed_update (f : Dispatcher → DispatcherPc) (d : Dispatcher) (pc : DispatcherPc) :
    claimed (Function.update f d pc) + DispatcherPc.slots (f d) =
      claimed f + DispatcherPc.slots pc := by
  cases d <;> simp only [claimed, Function.update_self, ne_eq, reduceCtorEq, not_false_eq_true,
    Function.update_of_ne] <;> omega

theorem slots_popped_head? (l : List ℕ) :
    DispatcherPc.slots (.popped l.head?) = l.length - l.tail.length := by
  cases l with
  | nil => rfl
  | cons a l => simp [DispatcherPc.slots]

theorem create_dispatcher (slot : ℕ) :
    (s.create d slot).dispatcher = Function.update s.dispatcher d .idle := by
  cases d <;> rfl

theorem create_running (slot : ℕ) :
    (s.create d slot).running = s.running ++ [(s.created, slot)] := by
  cases d <;> rfl

theorem create_threadsQueue (slot : ℕ) : (s.create d slot).threadsQueue = s.threadsQueue := by
  cases d <;> rfl

/-- No slot is lost: every slot is in the queue or in use. -/
def Counted (s : ThreadPool) : Prop := s.threadsQueue.length + s.inUse = maxThreads

theorem initial_counted : initial.Counted := rfl

theorem Counted.pop (h : s.Counted) (hd : DispatcherPc.slots (s.dispatcher d) = 0) :
    (s.pop d).Counted := by
  have hclaimed := claimed_update s.dispatcher d (.popped s.threadsQueue.head?)
  rw [hd, slots_popped_head?, Nat.add_zero] at hclaimed
  have htail : s.threadsQueue.tail.length ≤ s.threadsQueue.length := by simp
  simp only [Counted, inUse, ThreadPool.pop, hclaimed] at h ⊢
  omega

theorem Counted.create (h : s.Counted) {slot : ℕ} (hd : s.dispatcher d = .popped (some slot)) :
    (s.create d slot).Counted := by
  have hclaimed := claimed_update s.dispatcher d .idle
  rw [hd] at hclaimed
  simp only [DispatcherPc.slots, Nat.add_zero] at hclaimed
  simp only [Counted, inUse, create_dispatcher, create_running, create_threadsQueue,
    List.length_append, List.length_singleton] at h ⊢
  omega

/-- Every step keeps the number of slots, also one that finds the queue empty. -/
theorem Counted.step {e : Event} (h : s.Counted) (ht : s.step e t) : t.Counted := by
  cases e with
  | test =>
    simp only [ThreadPool.step, next] at ht
    split at ht
    · next hc =>
      cases ht
      have hclaimed := claimed_update s.dispatcher .main .tested
      simp only [hc.1, DispatcherPc.slots, Nat.add_zero] at hclaimed
      simp only [Counted, inUse, hclaimed] at h ⊢
      exact h
    · cases ht
  | pop d =>
    obtain ⟨hd, rfl⟩ := step_pop ht
    exact h.pop hd
  | create d =>
    obtain ⟨slot, hd, rfl⟩ := step_create ht
    exact h.create hd
  | giveBack thread slot =>
    simp only [ThreadPool.step, next] at ht
    split at ht
    · next hmem =>
      cases ht
      have hlength := List.length_erase_of_mem hmem
      have hpos := List.length_pos_of_mem hmem
      simp only [Counted, inUse, hlength, List.length_append, List.length_singleton] at h ⊢
      omega
    · cases ht
  | begin _ | join | joinReturn | finish | exit _ =>
    simp only [ThreadPool.step, next] at ht
    repeat' split at ht
    all_goals cases ht
    all_goals exact h

/-- Nobody has got no slot. -/
def Taken (s : ThreadPool) : Prop := ∀ d, s.dispatcher d ≠ .popped none

theorem Taken.update (h : s.Taken) {pc : DispatcherPc}
    (ht : t.dispatcher = Function.update s.dispatcher d pc) (hpc : pc ≠ .popped none) : t.Taken := by
  intro d'
  rw [ht]
  by_cases hd : d' = d
  · rw [hd, Function.update_self]
    exact hpc
  · rw [Function.update_of_ne hd]
    exact h d'

theorem Counted.head?_eq_none (h : s.Counted) :
    s.threadsQueue.head? = none ↔ ¬s.inUse < maxThreads := by
  rw [List.head?_eq_none_iff, ← List.length_eq_zero_iff]
  unfold Counted at h
  omega

theorem Taken.step {e : Event} (h : s.Taken) (hcount : s.Counted) (hc : s.Spare e)
    (ht : s.step e t) : t.Taken := by
  cases e with
  | test =>
    simp only [ThreadPool.step, next] at ht
    split at ht
    · cases ht
      exact h.update rfl nofun
    · cases ht
  | pop d =>
    obtain ⟨-, rfl⟩ := step_pop ht
    refine h.update rfl fun hnone => ?_
    exact hcount.head?_eq_none.mp (DispatcherPc.popped.inj hnone) hc
  | create d =>
    obtain ⟨slot, -, rfl⟩ := step_create ht
    exact h.update (create_dispatcher slot) nofun
  | begin _ | join | joinReturn | finish | giveBack _ _ | exit _ =>
    simp only [ThreadPool.step, next] at ht
    repeat' split at ht
    all_goals cases ht
    all_goals exact h

/-- As long as a slot is taken only when not all slots are in use, `delegate_thread_to_function` is never
called without one. A slot that is taken when all are in use is none, and the assertion in
`delegate_thread_to_function` fails. -/
theorem not_threadNotNull_of_runs (h : Runs step Spare initial s) :
    (∀ d, s.next (.create d) ≠ .error .threadNotNull) ∧
      ∀ d t, s.step (.pop d) t → ¬s.Spare (.pop d) → t.next (.create d) = .error .threadNotNull := by
  obtain ⟨hcount, htaken⟩ : s.Counted ∧ s.Taken := by
    refine Runs.invariant (I := fun s => s.Counted ∧ s.Taken) ?_ h ⟨initial_counted, fun _ => nofun⟩
    intro s e t hs hc ht
    exact ⟨hs.1.step ht, hs.2.step hs.1 hc ht⟩
  constructor
  · intro d hnull
    simp only [next] at hnull
    split at hnull
    · cases hnull
    · next hd => exact htaken d hd
    · cases hnull
  · intro d t ht hfull
    obtain ⟨-, rfl⟩ := step_pop ht
    have hd : (s.pop d).dispatcher d = .popped none := by
      simp only [pop, Function.update_self, hcount.head?_eq_none.mpr hfull]
    simp only [next, hd]

/-- The main thread opens so many connections. -/
def connections (n : ℕ) : List Event :=
  (List.replicate n [.test, .pop .main, .create .main]).flatten

/-- With twenty open connections, the next subscriber has no slot. -/
theorem threadNotNull_twentyConnections :
    ∃ s, Runs step (fun _ _ => True) initial s ∧
      s.next (.create .secondary) = .error .threadNotNull := by
  have hrun : (Runs.exec next (fun _ _ => True) .blocked (connections 20 ++ [.pop .secondary])
      initial).map (fun s => s.dispatcher .secondary) = .ok (.popped none) := by
    decide
  obtain ⟨s, hs, hslot⟩ := Except.map_eq_ok.mp hrun
  exact ⟨s, Runs.of_exec hs, by simp only [next, hslot]⟩

/-- Nineteen connections leave a slot for a subscriber. -/
theorem not_threadNotNull_nineteenConnections :
    ∃ s : ThreadPool, s.dispatcher .secondary = .popped (some 19) ∧ s.inUse = maxThreads ∧
      s.next (.create .secondary) ≠ .error .threadNotNull := by
  have hrun : (Runs.exec next Spare .blocked (connections 19 ++ [.pop .secondary]) initial).map
      (fun s => (s.dispatcher .secondary, s.inUse)) = .ok (.popped (some 19), maxThreads) := by
    decide
  obtain ⟨s, hs, hvalues⟩ := Except.map_eq_ok.mp hrun
  obtain ⟨hslot, hinUse⟩ := Prod.mk.inj hvalues
  exact ⟨s, hslot, hinUse, (not_threadNotNull_of_runs (Runs.of_exec hs)).1 .secondary⟩

/-! ## The handles that a round joins -/

/-- No thread is started in a slot that the round has still to join. -/
def Unjoined (s : ThreadPool) : Event → Prop
  | .create d => ∀ slot ∈ s.q, s.dispatcher d ≠ .popped (some slot)
  | _ => True

instance (s : ThreadPool) (e : Event) : Decidable (s.Unjoined e) :=
  match e with
  | .create d => inferInstanceAs (Decidable (∀ slot ∈ s.q, s.dispatcher d ≠ .popped (some slot)))
  | .test | .pop _ | .begin _ | .join | .joinReturn | .finish | .giveBack _ _ | .exit _ =>
    .isTrue trivial

/-- The round has called `pthread_join` on threads of its own only, and on none of them twice. -/
def JoinsOwn (s : ThreadPool) : Prop := (∀ thread ∈ s.joined, thread ∈ s.senders) ∧ s.joined.Nodup

instance (s : ThreadPool) : Decidable s.JoinsOwn :=
  inferInstanceAs (Decidable (_ ∧ _))

/-- The handles that the round has joined, and those that are in the slots that it has still to join. -/
def handles (s : ThreadPool) : List (Option ℕ) := s.joined.map some ++ s.q.map s.threads

/-- All these handles are of threads of the round, and no two are the same. -/
def HandlesOwn (s : ThreadPool) : Prop :=
  (∀ x ∈ s.handles, ∃ thread ∈ s.senders, x = some thread) ∧ s.handles.Nodup

/-- All these handles and all threads of the round have been created. -/
structure Known (s : ThreadPool) : Prop where
  handles : ∀ x ∈ s.handles, ∃ thread < s.created, x = some thread
  senders : ∀ thread ∈ s.senders, thread < s.created

theorem HandlesOwn.joinsOwn (h : s.HandlesOwn) : s.JoinsOwn := by
  constructor
  · intro thread hthread
    obtain ⟨sender, hsender, heq⟩ :=
      h.1 (some thread) (List.mem_append_left _ (List.mem_map_of_mem hthread))
    cases heq
    exact hsender
  · exact (List.nodup_append.mp h.2).1.of_map

theorem handlesOwn_iff_joinsOwn (hq : s.q = []) : s.HandlesOwn ↔ s.JoinsOwn := by
  refine ⟨HandlesOwn.joinsOwn, fun h => ?_⟩
  have hhandles : s.handles = s.joined.map some := by
    rw [handles, hq, List.map_nil, List.append_nil]
  rw [HandlesOwn, hhandles]
  refine ⟨fun x hx => ?_, h.2.map (Option.some_injective ℕ)⟩
  obtain ⟨thread, hthread, rfl⟩ := List.mem_map.mp hx
  exact ⟨thread, h.1 thread hthread, rfl⟩

/-- The handles when the next thread has been started in a slot by another dispatcher. -/
def overwritten (s : ThreadPool) (slot : ℕ) : List (Option ℕ) :=
  s.joined.map some ++ s.q.map (Function.update s.threads slot (some s.created))

section

variable {slot : ℕ}

theorem overwritten_of_notMem (hslot : slot ∉ s.q) : s.overwritten slot = s.handles := by
  refine congrArg (s.joined.map some ++ ·) (List.map_congr_left fun k hk => ?_)
  refine Function.update_of_ne (fun heq => ?_) ..
  exact hslot (heq ▸ hk)

theorem mem_overwritten (hslot : slot ∈ s.q) : some s.created ∈ s.overwritten slot := by
  refine List.mem_append_right _ (List.mem_map.mpr ⟨slot, hslot, ?_⟩)
  rw [Function.update_self]

theorem create_handles (hd : d ≠ .notifier) : (s.create d slot).handles = s.overwritten slot := by
  cases d with
  | main | secondary => rfl
  | notifier => exact absurd rfl hd

theorem create_senders (hd : d ≠ .notifier) : (s.create d slot).senders = s.senders := by
  cases d with
  | main | secondary => rfl
  | notifier => exact absurd rfl hd

theorem create_created : (s.create d slot).created = s.created + 1 := by
  cases d <;> rfl

theorem create_notifier_handles :
    (s.create .notifier slot).handles = s.overwritten slot ++ [some s.created] := by
  simp [handles, overwritten, create]

theorem Known.created_notMem_handles (h : s.Known) : some s.created ∉ s.handles := by
  intro hmem
  obtain ⟨thread, hlt, heq⟩ := h.handles _ hmem
  cases heq
  exact absurd hlt (lt_irrefl _)

theorem Known.created_notMem_senders (h : s.Known) : s.created ∉ s.senders :=
  fun hmem => absurd (h.senders _ hmem) (lt_irrefl _)

/-- A thread of another dispatcher in a slot of the round is a foreign one. -/
theorem Known.handlesOwn_create (h : s.Known) (hd : d ≠ .notifier) :
    (s.create d slot).HandlesOwn ↔ s.HandlesOwn ∧ slot ∉ s.q := by
  rw [HandlesOwn, create_handles hd, create_senders hd]
  by_cases hslot : slot ∈ s.q
  · refine iff_of_false (fun hown => ?_) fun hown => hown.2 hslot
    obtain ⟨thread, hthread, heq⟩ := hown.1 _ (mem_overwritten hslot)
    cases heq
    exact h.created_notMem_senders hthread
  · rw [overwritten_of_notMem hslot]
    exact (and_iff_left hslot).symm

/-- A thread of the round itself in one of its slots is joined twice. -/
theorem Known.handlesOwn_create_notifier (h : s.Known) :
    (s.create .notifier slot).HandlesOwn ↔ s.HandlesOwn ∧ slot ∉ s.q := by
  rw [HandlesOwn, create_notifier_handles, List.nodup_append]
  by_cases hslot : slot ∈ s.q
  · refine iff_of_false (fun hown => ?_) fun hown => hown.2 hslot
    exact hown.2.2.2 _ (mem_overwritten hslot) _ List.mem_cons_self rfl
  · rw [overwritten_of_notMem hslot]
    constructor
    · intro hown
      refine ⟨⟨fun x hx => ?_, hown.2.1⟩, hslot⟩
      obtain ⟨thread, hthread, rfl⟩ := hown.1 x (List.mem_append_left _ hx)
      rcases List.mem_append.mp hthread with hthread | hthread
      · exact ⟨thread, hthread, rfl⟩
      · cases List.mem_singleton.mp hthread
        exact absurd hx h.created_notMem_handles
    · rintro ⟨hown, -⟩
      refine ⟨fun x hx => ?_, hown.2, List.nodup_singleton _, fun x hx y hy heq => ?_⟩
      · rcases List.mem_append.mp hx with hx | hx
        · obtain ⟨thread, hthread, rfl⟩ := hown.1 x hx
          exact ⟨thread, List.mem_append_left _ hthread, rfl⟩
        · cases List.mem_singleton.mp hx
          exact ⟨s.created, List.mem_append_right _ List.mem_cons_self, rfl⟩
      · cases List.mem_singleton.mp hy
        exact h.created_notMem_handles (heq ▸ hx)

theorem Known.create (h : s.Known) : (s.create d slot).Known := by
  have hcreated : s.created < s.created + 1 := Nat.lt_succ_self _
  have hoverwritten : ∀ x ∈ s.overwritten slot, ∃ thread < s.created + 1, x = some thread := by
    intro x hx
    rcases List.mem_append.mp hx with hx | hx
    · obtain ⟨thread, hthread, rfl⟩ := h.handles x (List.mem_append_left _ hx)
      exact ⟨thread, hthread.trans hcreated, rfl⟩
    · obtain ⟨k, hk, rfl⟩ := List.mem_map.mp hx
      by_cases hkslot : k = slot
      · exact ⟨s.created, hcreated, by rw [hkslot, Function.update_self]⟩
      · obtain ⟨thread, hthread, heq⟩ :=
          h.handles _ (List.mem_append_right _ (List.mem_map_of_mem hk))
        exact ⟨thread, hthread.trans hcreated, by rw [Function.update_of_ne hkslot, heq]⟩
  have hsenders : ∀ thread ∈ s.senders, thread < s.created + 1 :=
    fun thread hthread => (h.senders thread hthread).trans hcreated
  by_cases hd : d = .notifier
  · subst hd
    refine ⟨fun x hx => ?_, fun thread hthread => ?_⟩
    · rw [create_notifier_handles] at hx
      rcases List.mem_append.mp hx with hx | hx
      · exact hoverwritten x hx
      · cases List.mem_singleton.mp hx
        exact ⟨s.created, hcreated, rfl⟩
    · rcases List.mem_append.mp hthread with hthread | hthread
      · exact hsenders thread hthread
      · cases List.mem_singleton.mp hthread
        exact hcreated
  · refine ⟨fun x hx => ?_, fun thread hthread => ?_⟩
    · rw [create_handles hd] at hx
      rw [create_created]
      exact hoverwritten x hx
    · rw [create_senders hd] at hthread
      rw [create_created]
      exact hsenders thread hthread

end

/-- The other steps of a round leave the handles alone: a call of `pthread_join` takes the handle that
is in the slot. -/
theorem step_handles {e : Event} (h : s.step e t) (hcreate : ∀ d, e ≠ .create d)
    (hbegin : ∀ n, e ≠ .begin n) :
    t.handles = s.handles ∧ t.senders = s.senders ∧ t.created = s.created := by
  cases e with
  | create d => exact absurd rfl (hcreate d)
  | begin n => exact absurd rfl (hbegin n)
  | pop d =>
    obtain ⟨-, rfl⟩ := step_pop h
    exact ⟨rfl, rfl, rfl⟩
  | join =>
    simp only [step, next] at h
    split at h
    · next slot q _ hq =>
      split at h
      · next thread hthread =>
        cases h
        exact ⟨by simp [handles, hq, hthread], rfl, rfl⟩
      · cases h
    · cases h
  | test | joinReturn | finish | giveBack _ _ | exit _ =>
    simp only [step, next] at h
    repeat' split at h
    all_goals cases h
    all_goals exact ⟨rfl, rfl, rfl⟩

theorem step_begin {n : ℕ} (h : s.step (.begin n) t) : t.handles = [] ∧ t.senders = [] := by
  simp only [step, next] at h
  split at h
  · cases h
    exact ⟨rfl, rfl⟩
  · cases h

theorem Known.step {e : Event} (h : s.Known) (ht : s.step e t) : t.Known := by
  by_cases hcreate : ∃ d, e = .create d
  · obtain ⟨d, rfl⟩ := hcreate
    obtain ⟨slot, -, rfl⟩ := step_create ht
    exact h.create
  by_cases hbegin : ∃ n, e = .begin n
  · obtain ⟨n, rfl⟩ := hbegin
    obtain ⟨hhandles, hsenders⟩ := step_begin ht
    refine ⟨fun x hx => ?_, fun thread hthread => ?_⟩
    · rw [hhandles] at hx
      cases hx
    · rw [hsenders] at hthread
      cases hthread
  · obtain ⟨hhandles, hsenders, hcreated⟩ :=
      step_handles ht (fun d hd => hcreate ⟨d, hd⟩) fun n hn => hbegin ⟨n, hn⟩
    refine ⟨?_, ?_⟩
    · rw [hhandles, hcreated]
      exact h.handles
    · rw [hsenders, hcreated]
      exact h.senders

/-- A step of a round keeps the handles its own exactly if it does not start a thread in a slot that the
round has still to join. -/
theorem Known.handlesOwn_step {e : Event} (h : s.Known) (ht : s.step e t)
    (hbegin : ∀ n, e ≠ .begin n) : t.HandlesOwn ↔ s.HandlesOwn ∧ s.Unjoined e := by
  by_cases hcreate : ∃ d, e = .create d
  · obtain ⟨d, rfl⟩ := hcreate
    obtain ⟨slot, hslot, rfl⟩ := step_create ht
    have hunjoined : s.Unjoined (.create d) ↔ slot ∉ s.q := by
      simp only [Unjoined, hslot, ne_eq, DispatcherPc.popped.injEq, Option.some.injEq]
      exact ⟨fun hq hmem => hq slot hmem rfl, fun hq k hk heq => hq (heq ▸ hk)⟩
    rw [hunjoined]
    by_cases hd : d = .notifier
    · rw [hd]
      exact h.handlesOwn_create_notifier
    · exact h.handlesOwn_create hd
  · have hd : ∀ d, e ≠ .create d := fun d hd => hcreate ⟨d, hd⟩
    obtain ⟨hhandles, hsenders, -⟩ := step_handles ht hd hbegin
    have hunjoined : s.Unjoined e := by
      cases e with
      | create d => exact absurd rfl (hd d)
      | _ => trivial
    rw [HandlesOwn, hhandles, hsenders]
    exact (and_iff_left hunjoined).symm

/-- A round joins threads of its own only, and none of them twice, as long as no thread is started in a
slot that it has still to join. Once the round has called `pthread_join` for all its slots, this is the
only way for it. -/
theorem joinsOwn_of_round {n : ℕ} {l : List Event} (h : Runs step (fun _ _ => True) initial s)
    (hl : ∀ m, .begin m ∉ l) (ht : (.begin n :: l).foldlM next s = .ok t) :
    (Along next Unjoined s (.begin n :: l) → t.JoinsOwn) ∧
      (t.q = [] → t.JoinsOwn → Along next Unjoined s (.begin n :: l)) := by
  have hs : s.Known := by
    refine Runs.invariant (I := Known) ?_ h ⟨nofun, nofun⟩
    intro s e t hs _ ht
    exact hs.step ht
  rw [List.foldlM_cons] at ht
  obtain ⟨u, hu, ht⟩ := Except.bind_eq_ok.mp ht
  have hround : t.HandlesOwn ↔ u.HandlesOwn ∧ Along next Unjoined u l := by
    refine Along.iff_of_foldlM (I := Known) (fun s e t => Known.step) ?_ (hs.step hu) ht
    intro s e t he hs ht
    exact hs.handlesOwn_step ht fun m hm => hl m (hm ▸ he)
  have hown : u.HandlesOwn := by
    obtain ⟨hhandles, -⟩ := step_begin hu
    rw [HandlesOwn, hhandles]
    exact ⟨nofun, List.nodup_nil⟩
  rw [and_iff_right hown] at hround
  constructor
  · intro hunjoined
    exact (hround.mpr (hunjoined.2 u hu)).joinsOwn
  · intro hq hjoins
    refine ⟨trivial, fun v hv => ?_⟩
    cases hu.symm.trans hv
    exact hround.mp ((handlesOwn_iff_joinsOwn hq).mpr hjoins)

/-- A round with one subscriber. The sender puts its slot back and does not end, and the main thread
starts the thread of a new connection in the slot. -/
def recycled : List Event :=
  [.begin 1, .pop .notifier, .create .notifier, .giveBack 19 19, .test, .pop .main, .create .main, .join]

/-- The slot that the round remembers has the handle of a connection when it is joined. -/
theorem not_joinsOwn_recycled :
    ∃ s t, Runs step (fun _ _ => True) initial s ∧ recycled.foldlM next s = .ok t ∧
      t.senders = [19] ∧ t.joined = [20] ∧ ¬t.JoinsOwn := by
  have hrun : ((Runs.exec next (fun _ _ => True) .blocked (connections 19) initial) >>=
      recycled.foldlM next).map (fun t => (t.senders, t.joined)) = .ok ([19], [20]) := by
    decide
  obtain ⟨t, ht, hvalues⟩ := Except.map_eq_ok.mp hrun
  obtain ⟨s, hs, ht⟩ := Except.bind_eq_ok.mp ht
  obtain ⟨hsenders, hjoined⟩ := Prod.mk.inj hvalues
  refine ⟨s, t, Runs.of_exec hs, ht, hsenders, hjoined, ?_⟩
  rw [JoinsOwn, hsenders, hjoined]
  decide

/-- A round with two subscribers, next to one connection. -/
def twoSubscribers : List Event :=
  [.pop .notifier, .create .notifier, .pop .notifier, .create .notifier, .giveBack 2 2, .exit 2, .join,
    .giveBack 1 1, .test, .pop .main, .create .main, .exit 1, .joinReturn, .join, .joinReturn, .finish]

theorem joinsOwn_twoSubscribers :
    ∃ s t, (.begin 2 :: twoSubscribers).foldlM next s = .ok t ∧ t.joined = [1, 2] ∧
      Along next Unjoined s (.begin 2 :: twoSubscribers) := by
  have hrun : ((Runs.exec next (fun _ _ => True) .blocked (connections 1) initial) >>=
      (.begin 2 :: twoSubscribers).foldlM next).map (fun t => (t.q, t.senders, t.joined)) =
      .ok ([], [1, 2], [1, 2]) := by
    decide
  obtain ⟨t, ht, hvalues⟩ := Except.map_eq_ok.mp hrun
  obtain ⟨s, hs, ht⟩ := Except.bind_eq_ok.mp ht
  simp only [Prod.mk.injEq] at hvalues
  obtain ⟨hq, hsenders, hjoined⟩ := hvalues
  have hown : t.JoinsOwn := by
    rw [JoinsOwn, hsenders, hjoined]
    decide
  have hl : ∀ m, .begin m ∉ twoSubscribers := by simp [twoSubscribers]
  exact ⟨s, t, ht, hjoined, (joinsOwn_of_round (Runs.of_exec hs) hl ht).2 hq hown⟩

end ThreadPool

end PoQ
