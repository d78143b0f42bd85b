import PoQ.Client.Mirror
import PoQ.Lib.Locks
import PoQ.Lib.Runs

/-!
# The locks of the client

`notifications_sentinel` replaces the table and the queue in `update_sgx_table_and_queue_from_txt`, and
the threads that run `starting_time_calculation` read them. Both do so with `sgx_table_lock` and
`queue_lock` taken. A schedule thread cannot be cancelled while it has the locks, but it has an exit of
its own there.

`nmutex_locks` sorts the pointers to the locks by their places in the array, so that the locks are taken
in the order of the arguments; they are released in the opposite order.
-/

namespace PoQ

inductive ClientLock
  | sgxTableLock
  | queueLock
deriving DecidableEq, Repr

/-- The threads that take the locks. The schedule threads are numbered as they are created. -/
inductive ClientThread
  | sentinel
  | schedule (n : ℕ)
deriving DecidableEq, Repr

/-- Where `notifications_sentinel` stands: before `socket_get_message`; with a message, behind
`pthread_cancel`; in `update_sgx_table_and_queue_from_txt` before it takes each lock, between them, and
before it releases each; and behind it. -/
inductive SentinelPc
  | listening
  | received (buffer : Option (List UInt8))
  | lockTable (buffer : List UInt8)
  | lockQueue (buffer : List UInt8)
  | updating (buffer : List UInt8)
  | unlockQueue (updated : Bool)
  | unlockTable (updated : Bool)
  | finished (updated : Bool)
deriving DecidableEq, Repr

/-- Where a thread in `starting_time_calculation` stands: not created yet; before it takes each lock;
before it looks whether its node is in the table; before the calculations; before it releases each
lock; behind that, where it can be cancelled; and at its end. -/
inductive SchedulePc
  | absent
  | lockTable
  | lockQueue
  | check
  | computing
  | unlockQueue
  | unlockTable
  | enabled
  | ended
deriving DecidableEq, Repr

/-- The locks that the sentinel has taken and not released. -/
def SentinelPc.holds : SentinelPc → ClientLock → Bool
  | lockQueue _, .sgxTableLock | unlockTable _, .sgxTableLock => true
  | updating _, _ | unlockQueue _, _ => true
  | _, _ => false

/-- The locks that a schedule thread has taken and not released. -/
def SchedulePc.holds : SchedulePc → ClientLock → Bool
  | lockQueue, .sgxTableLock | unlockTable, .sgxTableLock => true
  | check, _ | computing, _ | unlockQueue, _ => true
  | _, _ => false

/-- The threads of the client, the owners of the locks, and what the locks guard. -/
structure ClientLocks where
  owner : ClientLock → Option ClientThread
  sentinel : SentinelPc
  schedule : ℕ → SchedulePc
  created : ℕ
  cancelRequested : ℕ → Bool
  mirror : Mirror

namespace ClientLocks

/-- Before the first notification. -/
def initial (mirror : Mirror) : ClientLocks :=
  ⟨fun _ => none, .listening, fun _ => .absent, 0, fun _ => false, mirror⟩

/-- The steps: a message for the sentinel, or none; the next step of the sentinel, at a time; the next
step of a schedule thread with its locks; and, behind that, its cancellation or its end. -/
inductive Event
  | receive (buffer : Option (List UInt8))
  | sentinel (now : ℤ)
  | schedule (n : ℕ)
  | cancel (n : ℕ)
  | exit (n : ℕ)
deriving DecidableEq, Repr

/-- `pthread_mutex_lock`. -/
def take (s : ClientLocks) (l : ClientLock) (t : ClientThread) :
    Except Abort (ClientLock → Option ClientThread) := do
  ensure (s.owner l = none) .blocked
  return Function.update s.owner l (some t)

/-- `pthread_mutex_unlock`. -/
def release (s : ClientLocks) (l : ClientLock) : ClientLock → Option ClientThread :=
  Function.update s.owner l none

section

variable {σ : Type} (lib : JsonLibrary σ) (raw : Json → ℤ) (serverStartingTime : ℤ) (nodeId : ℕ)

/-- A step of `notifications_sentinel`. -/
def sentinelNext (now : ℤ) (s : ClientLocks) : Except Abort ClientLocks :=
  match s.sentinel with
  | .listening => .error .blocked
  | .received none => .ok { s with sentinel := .finished false }
  | .received (some buffer) => do
    let compliant ← checkJsonCompliance lib buffer
    return { s with sentinel := if compliant then .lockTable buffer else .finished false }
  | .lockTable buffer => do
    let owner ← s.take .sgxTableLock .sentinel
    return { s with owner, sentinel := .lockQueue buffer }
  | .lockQueue buffer => do
    let owner ← s.take .queueLock .sentinel
    return { s with owner, sentinel := .updating buffer }
  | .updating buffer => do
    let (updated, mirror) ←
      updateSgxTableAndQueueFromTxt lib raw now serverStartingTime buffer s.mirror
    return { s with mirror, sentinel := .unlockQueue updated }
  | .unlockQueue updated =>
    .ok { s with owner := s.release .queueLock, sentinel := .unlockTable updated }
  | .unlockTable updated =>
    .ok { s with owner := s.release .sgxTableLock, sentinel := .finished updated }
  | .finished false => .ok { s with sentinel := .listening }
  | .finished true =>
    .ok { s with
      sentinel := .listening
      schedule := Function.update s.schedule s.created .lockTable
      created := s.created + 1 }

/-- The schedule thread `n` goes on to another place, with these owners of the locks. -/
def go (s : ClientLocks) (n : ℕ) (pc : SchedulePc) (owner : ClientLock → Option ClientThread) :
    ClientLocks :=
  { s with schedule := Function.update s.schedule n pc, owner }

/-- A step of `starting_time_calculation` up to where it can be cancelled. -/
def scheduleNext (n : ℕ) (s : ClientLocks) : Except Abort ClientLocks :=
  match s.schedule n with
  | .lockTable => do
    let owner ← s.take .sgxTableLock (.schedule n)
    return s.go n .lockQueue owner
  | .lockQueue => do
    let owner ← s.take .queueLock (.schedule n)
    return s.go n .check owner
  | .check =>
    -- `pthread_exit` without `mutex_unlocks`
    if s.mirror.sgxTable.length ≤ nodeId then .ok (s.go n .ended s.owner)
    else .ok (s.go n .computing s.owner)
  | .computing => .ok (s.go n .unlockQueue s.owner)
  | .unlockQueue => .ok (s.go n .unlockTable (s.release .queueLock))
  | .unlockTable => .ok (s.go n .enabled (s.release .sgxTableLock))
  | .absent | .enabled | .ended => .error .blocked

/-- One step. A step that is not enabled is blocked. -/
def next (s : ClientLocks) : Event → Except Abort ClientLocks
  | .receive buffer =>
    match s.sentinel with
    | .listening => .ok
      { s with
        sentinel := .received buffer
        cancelRequested := fun n => s.cancelRequested n || n + 1 == s.created }
    | _ => .error .blocked
  | .sentinel now => s.sentinelNext lib raw serverStartingTime now
  | .schedule n => s.scheduleNext nodeId n
  | .cancel n =>
    match s.cancelRequested n, s.schedule n with
    | true, .enabled => .ok (s.go n .ended s.owner)
    | _, _ => .error .blocked
  | .exit n =>
    match s.schedule n with
    | .enabled => .ok (s.go n .ended s.owner)
    | _ => .error .blocked

def step (s : ClientLocks) (e : Event) (t : ClientLocks) : Prop :=
  s.next lib raw serverStartingTime nodeId e = .ok t

/-- A schedule thread takes the locks only when its node is in the table. -/
def Listed (s : ClientLocks) : Event → Prop
  | .schedule n => s.schedule n = .lockTable → nodeId < s.mirror.sgxTable.length
  | _ => True

instance (s : ClientLocks) (e : Event) : Decidable (Listed nodeId s e) :=
  match e with
  | .schedule n =>
    inferInstanceAs (Decidable (s.schedule n = .lockTable → nodeId < s.mirror.sgxTable.length))
  | .receive _ | .sentinel _ | .cancel _ | .exit _ => .isTrue trivial

end

/-! ## Who holds the locks -/

/-- The thread has taken the lock and not released it. -/
def Holds (s : ClientLocks) : ClientThread → ClientLock → Prop
  | .sentinel, l => s.sentinel.holds l = true
  | .schedule n, l => (s.schedule n).holds l = true

/-- The locks are owned by those who hold them, and the node of a thread that is about to look for it is
in the table. -/
structure Invariant (nodeId : ℕ) (s : ClientLocks) : Prop where
  owned : Owned s.owner s.Holds
  absent : ∀ n, s.created ≤ n → s.schedule n = .absent
  listed : ∀ n, s.schedule n = .lockQueue ∨ s.schedule n = .check →
    nodeId < s.mirror.sgxTable.length

theorem initial_invariant (nodeId : ℕ) (mirror : Mirror) : (initial mirror).Invariant nodeId := by
  refine ⟨fun t l => ?_, fun _ _ => rfl, fun n h => ?_⟩
  · cases t <;> exact ⟨nofun, nofun⟩
  · rcases h with h | h <;> cases h

variable {σ : Type} {lib : JsonLibrary σ} {raw : Json → ℤ} {serverStartingTime : ℤ} {nodeId : ℕ}
  {s t : ClientLocks}

theorem take_eq_ok {l : ClientLock} {u : ClientThread} {owner : ClientLock → Option ClientThread} :
    s.take l u = .ok owner ↔ s.owner l = none ∧ owner = Function.update s.owner l (some u) := by
  constructor
  · intro h
    obtain ⟨_, hfree, h⟩ := Except.bind_eq_ok.mp h
    cases h
    exact ⟨ensure_eq_ok.mp hfree, rfl⟩
  · rintro ⟨hfree, rfl⟩
    exact Except.bind_eq_ok.mpr ⟨(), ensure_of hfree _, rfl⟩

/-- Whoever holds `queue_lock` holds `sgx_table_lock`, too. -/
theorem Holds.sgxTableLock {u : ClientThread} (h : s.Holds u .queueLock) :
    s.Holds u .sgxTableLock := by
  cases u with
  | sentinel =>
    simp only [Holds] at h ⊢
    cases hpc : s.sentinel <;> simp_all [SentinelPc.holds]
  | schedule n =>
    simp only [Holds] at h ⊢
    cases hpc : s.schedule n <;> simp_all [SchedulePc.holds]

section

variable {n : ℕ} {pc : SchedulePc} {owner : ClientLock → Option ClientThread}

theorem holds_go_of_ne (u : ClientThread) (hu : u ≠ .schedule n) (l : ClientLock) :
    (s.go n pc owner).Holds u l ↔ s.Holds u l := by
  cases u with
  | sentinel => exact Iff.rfl
  | schedule m =>
    have hm : m ≠ n := fun hm => hu (congrArg _ hm)
    simp only [Holds, go, Function.update_of_ne hm]

theorem holds_go (l : ClientLock) :
    (s.go n pc owner).Holds (.schedule n) l ↔ pc.holds l = true := by
  simp only [Holds, go, Function.update_self]

theorem listed_go (h : s.Invariant nodeId)
    (hpc : pc = .lockQueue ∨ pc = .check → nodeId < s.mirror.sgxTable.length) (m : ℕ)
    (hm : (s.go n pc owner).schedule m = .lockQueue ∨ (s.go n pc owner).schedule m = .check) :
    nodeId < s.mirror.sgxTable.length := by
  by_cases hmn : m = n
  · subst hmn
    simp only [go, Function.update_self] at hm
    exact hpc hm
  · simp only [go, Function.update_of_ne hmn] at hm
    exact h.listed m hm

theorem absent_go (h : s.Invariant nodeId) (hn : s.schedule n ≠ .absent) (m : ℕ)
    (hm : s.created ≤ m) : (s.go n pc owner).schedule m = .absent := by
  have hmn : m ≠ n := fun hmn => hn (h.absent n (hmn ▸ hm))
  simp only [go, Function.update_of_ne hmn]
  exact h.absent m hm

variable {pc₀ : SchedulePc} {l : ClientLock}

/-- A schedule thread goes on with the locks that it has. -/
theorem Invariant.go_keep (h : s.Invariant nodeId) (hpc : s.schedule n = pc₀)
    (hexists : pc₀ ≠ .absent) (hholds : ∀ l, pc.holds l = true ↔ pc₀.holds l = true)
    (hlisted : pc = .lockQueue ∨ pc = .check → nodeId < s.mirror.sgxTable.length) :
    (s.go n pc s.owner).Invariant nodeId := by
  refine ⟨h.owned.keep holds_go_of_ne fun l => ?_, absent_go h (hpc ▸ hexists), listed_go h hlisted⟩
  rw [holds_go, Holds, hpc]
  exact hholds l

/-- A schedule thread takes a lock. -/
theorem Invariant.go_take (h : s.Invariant nodeId) (hpc : s.schedule n = pc₀)
    (hexists : pc₀ ≠ .absent) (hfree : s.owner l = none)
    (hholds : ∀ l', pc.holds l' = true ↔ pc₀.holds l' = true ∨ l' = l)
    (hlisted : pc = .lockQueue ∨ pc = .check → nodeId < s.mirror.sgxTable.length) :
    (s.go n pc (Function.update s.owner l (some (.schedule n)))).Invariant nodeId := by
  refine ⟨h.owned.take hfree holds_go_of_ne fun l => ?_, absent_go h (hpc ▸ hexists),
    listed_go h hlisted⟩
  rw [holds_go, Holds, hpc]
  exact hholds l

/-- A schedule thread releases a lock. -/
theorem Invariant.go_release (h : s.Invariant nodeId) (hpc : s.schedule n = pc₀)
    (hexists : pc₀ ≠ .absent) (hl : pc₀.holds l = true)
    (hholds : ∀ l', pc.holds l' = true ↔ pc₀.holds l' = true ∧ l' ≠ l)
    (hlisted : pc = .lockQueue ∨ pc = .check → nodeId < s.mirror.sgxTable.length) :
    (s.go n pc (s.release l)).Invariant nodeId := by
  have hself : s.Holds (.schedule n) l := by rw [Holds, hpc]; exact hl
  refine ⟨h.owned.release hself holds_go_of_ne fun l => ?_, absent_go h (hpc ▸ hexists),
    listed_go h hlisted⟩
  rw [holds_go, Holds, hpc]
  exact hholds l

end

theorem Invariant.scheduleNext {n : ℕ} (h : s.Invariant nodeId)
    (hc : Listed nodeId s (.schedule n)) (ht : s.scheduleNext nodeId n = .ok t) :
    t.Invariant nodeId := by
  unfold ClientLocks.scheduleNext at ht
  split at ht
  · next hpc =>
    obtain ⟨owner, htake, ht⟩ := Except.bind_eq_ok.mp ht
    obtain ⟨hfree, rfl⟩ := take_eq_ok.mp htake
    cases ht
    exact h.go_take hpc nofun hfree (fun l => by cases l <;> decide) fun _ => hc hpc
  · next hpc =>
    obtain ⟨owner, htake, ht⟩ := Except.bind_eq_ok.mp ht
    obtain ⟨hfree, rfl⟩ := take_eq_ok.mp htake
    cases ht
    exact h.go_take hpc nofun hfree (fun l => by cases l <;> decide) fun _ => h.listed n (.inl hpc)
  · next hpc =>
    rw [if_neg (Nat.not_le.mpr (h.listed n (.inr hpc)))] at ht
    cases ht
    exact h.go_keep hpc nofun (fun l => by cases l <;> decide) nofun
  · next hpc =>
    cases ht
    exact h.go_keep hpc nofun (fun l => by cases l <;> decide) nofun
  · next hpc =>
    cases ht
    exact h.go_release hpc nofun rfl (fun l => by cases l <;> decide) nofun
  · next hpc =>
    cases ht
    exact h.go_release hpc nofun rfl (fun l => by cases l <;> decide) nofun
  · cases ht
  · cases ht
  · cases ht

theorem holds_of_schedule_eq (h : t.schedule = s.schedule) (u : ClientThread) (hu : u ≠ .sentinel)
    (l : ClientLock) : t.Holds u l ↔ s.Holds u l := by
  cases u with
  | sentinel => exact absurd rfl hu
  | schedule n => simp only [Holds, h]

/-- While the sentinel replaces the table, no schedule thread is about to look at it. -/
theorem Invariant.not_listed (h : s.Invariant nodeId) {buffer : List UInt8}
    (hs : s.sentinel = .updating buffer) (n : ℕ) :
    ¬(s.schedule n = .lockQueue ∨ s.schedule n = .check) := by
  intro hn
  have hsentinel : s.Holds .sentinel .sgxTableLock := by rw [Holds, hs]; rfl
  have hschedule : s.Holds (.schedule n) .sgxTableLock := by
    rcases hn with hn | hn <;> rw [Holds, hn] <;> rfl
  cases h.owned.eq_of_holds hsentinel hschedule

section
variable {pc pc₀ : SentinelPc} {l : ClientLock}

/-- The sentinel goes on with the locks that it has. -/
theorem Invariant.sentinel_keep (h : s.Invariant nodeId) (hpc : s.sentinel = pc₀)
    (hholds : ∀ l, pc.holds l = true ↔ pc₀.holds l = true) : Invariant nodeId { s with sentinel := pc } := by
  refine ⟨h.owned.keep (holds_of_schedule_eq rfl) fun l => ?_, h.absent, h.listed⟩
  simp only [Holds, hpc]
  exact hholds l

/-- The sentinel takes a lock. -/
theorem Invariant.sentinel_take (h : s.Invariant nodeId) (hpc : s.sentinel = pc₀) (hfree : s.owner l = none)
    (hholds : ∀ l', pc.holds l' = true ↔ pc₀.holds l' = true ∨ l' = l) :
    Invariant nodeId { s with owner := Function.update s.owner l (some .sentinel), sentinel := pc } := by
  refine ⟨h.owned.take hfree (holds_of_schedule_eq rfl) fun l => ?_, h.absent, h.listed⟩
  simp only [Holds, hpc]
  exact hholds l

/-- The sentinel releases a lock. -/
theorem Invariant.sentinel_release (h : s.Invariant nodeId) (hpc : s.sentinel = pc₀)
    (hl : pc₀.holds l = true) (hholds : ∀ l', pc.holds l' = true ↔ pc₀.holds l' = true ∧ l' ≠ l) :
    Invariant nodeId { s with owner := s.release l, sentinel := pc } := by
  have hself : s.Holds .sentinel l := by rw [Holds, hpc]; exact hl
  refine ⟨h.owned.release hself (holds_of_schedule_eq rfl) fun l => ?_, h.absent, h.listed⟩
  simp only [Holds, hpc]
  exact hholds l

end

theorem Invariant.sentinelNext {now : ℤ} (h : s.Invariant nodeId)
    (ht : s.sentinelNext lib raw serverStartingTime now = .ok t) : t.Invariant nodeId := by
  unfold ClientLocks.sentinelNext at ht
  split at ht
  · cases ht
  · next hpc =>
    cases ht
    exact h.sentinel_keep hpc fun l => by cases l <;> exact Iff.rfl
  · next buffer hpc =>
    obtain ⟨compliant, -, ht⟩ := Except.bind_eq_ok.mp ht
    cases ht
    exact h.sentinel_keep hpc fun l => by cases compliant <;> cases l <;> exact Iff.rfl
  · next buffer hpc =>
    obtain ⟨owner, htake, ht⟩ := Except.bind_eq_ok.mp ht
    obtain ⟨hfree, rfl⟩ := take_eq_ok.mp htake
    cases ht
    exact h.sentinel_take hpc hfree fun l => by cases l <;> simp [SentinelPc.holds]
  · next buffer hpc =>
    obtain ⟨owner, htake, ht⟩ := Except.bind_eq_ok.mp ht
    obtain ⟨hfree, rfl⟩ := take_eq_ok.mp htake
    cases ht
    exact h.sentinel_take hpc hfree fun l => by cases l <;> simp [SentinelPc.holds]
  · next buffer hpc =>
    obtain ⟨⟨updated, mirror⟩, -, ht⟩ := Except.bind_eq_ok.mp ht
    cases ht
    have hkept : Invariant nodeId { s with sentinel := .unlockQueue updated } :=
      h.sentinel_keep hpc fun l => by cases l <;> exact Iff.rfl
    exact ⟨hkept.owned, hkept.absent, fun n hn => absurd hn (h.not_listed hpc n)⟩
  · next updated hpc =>
    cases ht
    exact h.sentinel_release hpc rfl fun l => by cases l <;> simp [SentinelPc.holds]
  · next updated hpc =>
    cases ht
    exact h.sentinel_release hpc rfl fun l => by cases l <;> simp [SentinelPc.holds]
  · next hpc =>
    cases ht
    exact h.sentinel_keep hpc fun l => by cases l <;> exact Iff.rfl
  · next hpc =>
    cases ht
    have hnew := h.absent s.created le_rfl
    have hcreated : Owned s.owner (s.go s.created .lockTable s.owner).Holds := by
      refine h.owned.keep holds_go_of_ne fun l => ?_
      rw [holds_go, Holds, hnew]
      cases l <;> decide
    refine ⟨hcreated.keep (holds_of_schedule_eq rfl) fun l => ?_, fun n hn => ?_, fun n hn => ?_⟩
    · simp only [Holds, go, hpc]
      cases l <;> decide
    · have hne : n ≠ s.created := Nat.ne_of_gt hn
      simp only [Function.update_of_ne hne]
      exact h.absent n (Nat.le_of_succ_le hn)
    · have hgo : (s.go s.created .lockTable s.owner).schedule n = .lockQueue ∨
          (s.go s.created .lockTable s.owner).schedule n = .check := hn
      change nodeId < s.mirror.sgxTable.length
      refine listed_go h ?_ n hgo
      exact nofun

/-- A thread that has released its locks ends. -/
theorem Invariant.ended {n : ℕ} (h : s.Invariant nodeId) (hn : s.schedule n = .enabled) :
    (s.go n .ended s.owner).Invariant nodeId :=
  h.go_keep hn nofun (fun l => by cases l <;> decide) nofun

/-- A step that meets the condition keeps the invariant. -/
theorem Invariant.next {e : Event} (h : s.Invariant nodeId) (hc : Listed nodeId s e)
    (ht : s.next lib raw serverStartingTime nodeId e = .ok t) : t.Invariant nodeId := by
  cases e with
  | receive buffer =>
    simp only [ClientLocks.next] at ht
    split at ht
    · next hpc =>
      cases ht
      refine ⟨h.owned.keep (holds_of_schedule_eq rfl) fun l => ?_, h.absent, h.listed⟩
      simp only [Holds, hpc]
      cases l <;> exact Iff.rfl
    · cases ht
  | sentinel now => exact h.sentinelNext ht
  | schedule n => exact h.scheduleNext hc ht
  | cancel n =>
    simp only [ClientLocks.next] at ht
    split at ht
    · next hpc =>
      cases ht
      exact h.ended hpc
    · cases ht
  | exit n =>
    simp only [ClientLocks.next] at ht
    split at ht
    · next hpc =>
      cases ht
      exact h.ended hpc
    · cases ht

/-! ## The locks come back -/

/-- Next to a holder of `sgx_table_lock` without `queue_lock`, nobody holds this one. -/
theorem Invariant.queueLock_free (h : s.Invariant nodeId) {u : ClientThread}
    (hu : s.Holds u .sgxTableLock) (hnot : ¬s.Holds u .queueLock) : s.owner .queueLock = none := by
  refine h.owned.free fun u' hu' => ?_
  cases h.owned.eq_of_holds hu hu'.sgxTableLock
  exact hnot hu'

section

variable (lib raw serverStartingTime nodeId)

/-- There is a way to go on until `sgx_table_lock` is free, without the sentinel. -/
def Releasable (s : ClientLocks) : Prop :=
  ∃ t, Runs (step lib raw serverStartingTime nodeId) (Listed nodeId) s t ∧ t.Invariant nodeId ∧
    t.sentinel = s.sentinel ∧ t.owner .sgxTableLock = none

end

theorem go_schedule (s : ClientLocks) (n : ℕ) (pc : SchedulePc)
    (owner : ClientLock → Option ClientThread) : (s.go n pc owner).schedule n = pc := by
  simp only [go, Function.update_self]

section

variable {n : ℕ}

/-- A schedule thread that has `sgx_table_lock` already makes a step. -/
theorem Invariant.releasable_of_next {pc : SchedulePc}
    {owner : ClientLock → Option ClientThread} (h : s.Invariant nodeId)
    (hn : s.schedule n ≠ .lockTable) (hs : s.scheduleNext nodeId n = .ok (s.go n pc owner))
    (hnext : (s.go n pc owner).Invariant nodeId →
      Releasable lib raw serverStartingTime nodeId (s.go n pc owner)) :
    Releasable lib raw serverStartingTime nodeId s := by
  have hc : Listed nodeId s (.schedule n) := fun hlock => absurd hlock hn
  obtain ⟨t, hrun, ht⟩ := hnext (h.scheduleNext hc hs)
  exact ⟨t, .head ⟨.schedule n, hc, hs⟩ hrun, ht⟩

-- from the last place of the critical section back to the first

theorem Invariant.releasable_unlockTable (h : s.Invariant nodeId)
    (hpc : s.schedule n = .unlockTable) : Releasable lib raw serverStartingTime nodeId s := by
  have hs : s.scheduleNext nodeId n = .ok (s.go n .enabled (s.release .sgxTableLock)) := by
    simp only [ClientLocks.scheduleNext, hpc]
  refine h.releasable_of_next (by rw [hpc]; exact nofun) hs fun ht => ⟨_, .refl _, ht, rfl, ?_⟩
  simp only [go, release, Function.update_self]

theorem Invariant.releasable_unlockQueue (h : s.Invariant nodeId)
    (hpc : s.schedule n = .unlockQueue) : Releasable lib raw serverStartingTime nodeId s := by
  have hs : s.scheduleNext nodeId n = .ok (s.go n .unlockTable (s.release .queueLock)) := by
    simp only [ClientLocks.scheduleNext, hpc]
  refine h.releasable_of_next (by rw [hpc]; exact nofun) hs fun ht => ?_
  exact ht.releasable_unlockTable (go_schedule ..)

theorem Invariant.releasable_computing (h : s.Invariant nodeId)
    (hpc : s.schedule n = .computing) : Releasable lib raw serverStartingTime nodeId s := by
  have hs : s.scheduleNext nodeId n = .ok (s.go n .unlockQueue s.owner) := by
    simp only [ClientLocks.scheduleNext, hpc]
  refine h.releasable_of_next (by rw [hpc]; exact nofun) hs fun ht => ?_
  exact ht.releasable_unlockQueue (go_schedule ..)

theorem Invariant.releasable_check (h : s.Invariant nodeId) (hpc : s.schedule n = .check) :
    Releasable lib raw serverStartingTime nodeId s := by
  have hs : s.scheduleNext nodeId n = .ok (s.go n .computing s.owner) := by
    simp only [ClientLocks.scheduleNext, hpc, if_neg (Nat.not_le.mpr (h.listed n (.inr hpc)))]
  refine h.releasable_of_next (by rw [hpc]; exact nofun) hs fun ht => ?_
  exact ht.releasable_computing (go_schedule ..)

/-- `queue_lock` is free for the thread that has `sgx_table_lock`. -/
theorem Invariant.scheduleNext_lockQueue (h : s.Invariant nodeId)
    (hpc : s.schedule n = .lockQueue) : s.scheduleNext nodeId n =
      .ok (s.go n .check (Function.update s.owner .queueLock (some (.schedule n)))) := by
  have hholds : s.Holds (.schedule n) .sgxTableLock := by rw [Holds, hpc]; rfl
  have hnot : ¬s.Holds (.schedule n) .queueLock := by rw [Holds, hpc]; exact nofun
  have htake := take_eq_ok.mpr ⟨h.queueLock_free hholds hnot, Eq.refl (Function.update s.owner
    .queueLock (some (ClientThread.schedule n)))⟩
  simp only [ClientLocks.scheduleNext, hpc, htake, Except.ok_bind, Except.pure_eq_ok]

/-- A schedule thread with `sgx_table_lock` is never blocked until it has released it. -/
theorem Invariant.releasable (h : s.Invariant nodeId) (hn : s.Holds (.schedule n) .sgxTableLock) :
    Releasable lib raw serverStartingTime nodeId s := by
  cases hpc : s.schedule n with
  | lockQueue =>
    refine h.releasable_of_next (by rw [hpc]; exact nofun) (h.scheduleNext_lockQueue hpc) fun ht => ?_
    exact ht.releasable_check (go_schedule ..)
  | check => exact h.releasable_check hpc
  | computing => exact h.releasable_computing hpc
  | unlockQueue => exact h.releasable_unlockQueue hpc
  | unlockTable => exact h.releasable_unlockTable hpc
  | absent | lockTable | enabled | ended =>
    rw [Holds, hpc] at hn
    cases hn

/-- When `sgx_table_lock` is free, both locks are. -/
theorem Invariant.owner_eq_none (h : s.Invariant nodeId) (hfree : s.owner .sgxTableLock = none)
    (l : ClientLock) : s.owner l = none := by
  cases l with
  | sgxTableLock => exact hfree
  | queueLock => exact h.owned.free fun u hu => h.owned.not_holds hfree hu.sgxTableLock

/-- The thread has `sgx_table_lock`, and `queue_lock` is free. -/
def tableOnly (u : ClientThread) : ClientLock → Option ClientThread
  | .sgxTableLock => some u
  | .queueLock => none

theorem take_sgxTableLock (hfree : ∀ l, s.owner l = none) (u : ClientThread) :
    s.take .sgxTableLock u = .ok (tableOnly u) := by
  refine take_eq_ok.mpr ⟨hfree _, funext fun l => ?_⟩
  cases l with
  | sgxTableLock => simp [tableOnly]
  | queueLock => simp [tableOnly, hfree]

theorem take_queueLock {u : ClientThread} (h : s.owner = tableOnly u) :
    s.take .queueLock u = .ok fun _ => some u := by
  refine take_eq_ok.mpr ⟨by rw [h]; rfl, funext fun l => ?_⟩
  cases l with
  | sgxTableLock => simp [h, tableOnly]
  | queueLock => simp

/-- An update that finds the locks free takes both. -/
theorem exists_updating_of_free {buffer : List UInt8} (hs : s.sentinel = .lockTable buffer)
    (hfree : ∀ l, s.owner l = none) :
    ∃ t, Runs (step lib raw serverStartingTime nodeId) (Listed nodeId) s t ∧
      t.sentinel = .updating buffer ∧ ∀ l, t.owner l = some .sentinel := by
  set s₁ : ClientLocks := { s with owner := tableOnly .sentinel, sentinel := .lockQueue buffer }
  set s₂ : ClientLocks :=
    { s with owner := fun _ => some .sentinel, sentinel := .updating buffer }
  have hstep₁ : step lib raw serverStartingTime nodeId s (.sentinel 0) s₁ := by
    simp only [step, ClientLocks.next, ClientLocks.sentinelNext, hs, take_sgxTableLock hfree,
      Except.ok_bind, Except.pure_eq_ok, s₁]
  have htake : s₁.take .queueLock .sentinel = .ok fun _ => some .sentinel := take_queueLock rfl
  have hstep₂ : step lib raw serverStartingTime nodeId s₁ (.sentinel 0) s₂ := by
    simp only [step, ClientLocks.next, ClientLocks.sentinelNext, htake, Except.ok_bind,
      Except.pure_eq_ok, s₁, s₂]
  exact ⟨s₂, .head ⟨.sentinel 0, trivial, hstep₁⟩ (.single ⟨.sentinel 0, trivial, hstep₂⟩), rfl,
    fun _ => rfl⟩

/-- An update that is about to take the locks can take both. -/
theorem Invariant.exists_updating (h : s.Invariant nodeId) {buffer : List UInt8}
    (hs : s.sentinel = .lockTable buffer) :
    ∃ t, Runs (step lib raw serverStartingTime nodeId) (Listed nodeId) s t ∧
      t.sentinel = .updating buffer ∧ ∀ l, t.owner l = some .sentinel := by
  have hreleasable : Releasable lib raw serverStartingTime nodeId s := by
    cases howner : s.owner .sgxTableLock with
    | none => exact ⟨s, .refl s, h, rfl, howner⟩
    | some u =>
      have hu := (h.owned u .sgxTableLock).mp howner
      cases u with
      | schedule n => exact h.releasable hu
      | sentinel =>
        rw [Holds, hs] at hu
        cases hu
  obtain ⟨t, hrun, ht, hsentinel, hfree⟩ := hreleasable
  obtain ⟨u, hrun', hu⟩ := exists_updating_of_free (hsentinel.trans hs) (ht.owner_eq_none hfree)
  exact ⟨u, hrun.trans hrun', hu⟩

/-- A schedule thread that takes the locks while its node is not in the table ends with both. -/
theorem Invariant.stranded (h : s.Invariant nodeId)
    (ht : step lib raw serverStartingTime nodeId s (.schedule n) t)
    (hc : ¬Listed nodeId s (.schedule n)) :
    ∃ u, Runs (step lib raw serverStartingTime nodeId) (fun _ _ => True) t u ∧
      u.schedule n = .ended ∧ ∀ l, u.owner l = some (.schedule n) := by
  obtain ⟨hpc, hsize⟩ : s.schedule n = .lockTable ∧ s.mirror.sgxTable.length ≤ nodeId := by
    simpa [Listed] using hc
  simp only [step, ClientLocks.next, ClientLocks.scheduleNext, hpc] at ht
  obtain ⟨owner, htake, ht⟩ := Except.bind_eq_ok.mp ht
  obtain ⟨hfree, -⟩ := take_eq_ok.mp htake
  rw [take_sgxTableLock (h.owner_eq_none hfree)] at htake
  cases htake
  cases ht
  set t₁ := s.go n .lockQueue (tableOnly (.schedule n)) with ht₁
  set t₂ := t₁.go n .check fun _ => some (.schedule n) with ht₂
  have htake : t₁.take .queueLock (.schedule n) = .ok fun _ => some (.schedule n) :=
    take_queueLock rfl
  have hpc₁ : t₁.schedule n = .lockQueue := go_schedule ..
  have hpc₂ : t₂.schedule n = .check := go_schedule ..
  have hstep₁ : step lib raw serverStartingTime nodeId t₁ (.schedule n) t₂ := by
    simp only [step, ClientLocks.next, ClientLocks.scheduleNext, hpc₁, htake, Except.ok_bind,
      Except.pure_eq_ok, ht₂]
  have hstep₂ : step lib raw serverStartingTime nodeId t₂ (.schedule n)
      (t₂.go n .ended t₂.owner) := by
    simp only [step, ClientLocks.next, ClientLocks.scheduleNext, hpc₂]
    exact if_pos hsize
  exact ⟨_, .head ⟨_, trivial, hstep₁⟩ (.single ⟨_, trivial, hstep₂⟩), go_schedule .., fun _ => rfl⟩

end

/-- In every run in which the schedule threads take the locks only when their node is in the table, a
thread that has ended holds no lock, and an update that is about to take the locks can take both; and
a thread that takes them while its node is not in the table can end with both. -/
theorem released_of_runs {mirror : Mirror}
    (h : Runs (step lib raw serverStartingTime nodeId) (Listed nodeId) (initial mirror) s) :
    (∀ n, s.schedule n = .ended → ∀ l, s.owner l ≠ some (.schedule n)) ∧
      (∀ buffer, s.sentinel = .lockTable buffer →
        ∃ t, Runs (step lib raw serverStartingTime nodeId) (Listed nodeId) s t ∧
          t.sentinel = .updating buffer ∧ ∀ l, t.owner l = some .sentinel) ∧
      ∀ n t, step lib raw serverStartingTime nodeId s (.schedule n) t →
        ¬Listed nodeId s (.schedule n) →
        ∃ u, Runs (step lib raw serverStartingTime nodeId) (fun _ _ => True) t u ∧
          u.schedule n = .ended ∧ ∀ l, u.owner l = some (.schedule n) := by
  have hs : s.Invariant nodeId := by
    refine Runs.invariant (I := Invariant nodeId) ?_ h (initial_invariant nodeId mirror)
    intro s e t hs hc ht
    exact hs.next hc ht
  refine ⟨fun n hn l howner => ?_, fun buffer hbuffer => hs.exists_updating hbuffer,
    fun n t ht hc => hs.stranded ht hc⟩
  have hholds := (hs.owned _ l).mp howner
  rw [Holds, hn] at hholds
  cases hholds

/-- The client before it has heard of any node. -/
def noNodes : Mirror := ⟨[], [], 0⟩

/-- A notification of a server that knows node 0 only. -/
def oneNode : List UInt8 := notificationText [0] [⟨0, 7, 6, 0, 6⟩]

/-- The sentinel handles a notification as a whole. -/
def notified (buffer : List UInt8) : List Event :=
  .receive (some buffer) :: List.replicate 7 (.sentinel 8)

/-- Node 1 is notified before its own entry exists. Its schedule thread ends with both locks, and the
next update waits for them. -/
theorem stranded_oneNode :
    ∃ s, Runs (step readerLibrary (fun _ => 0) 0 1) (fun _ _ => True) (initial noNodes) s ∧
      s.schedule 0 = .ended ∧ s.owner .sgxTableLock = some (.schedule 0) ∧
      s.owner .queueLock = some (.schedule 0) ∧ s.sentinel = .lockTable oneNode ∧
      s.next readerLibrary (fun _ => 0) 0 1 (.sentinel 9) = .error .blocked := by
  have hrun : (Runs.exec (next readerLibrary (fun _ => 0) 0 1) (fun _ _ => True) .blocked
      (notified oneNode ++ [.schedule 0, .schedule 0, .schedule 0, .receive (some oneNode),
        .sentinel 9]) (initial noNodes)).map (fun s => (s.schedule 0, s.owner .sgxTableLock,
          s.owner .queueLock, s.sentinel)) =
      .ok (.ended, some (.schedule 0), some (.schedule 0), .lockTable oneNode) := by
    decide +kernel
  obtain ⟨s, hs, hvalues⟩ := Except.map_eq_ok.mp hrun
  simp only [Prod.mk.injEq] at hvalues
  obtain ⟨hended, htable, hqueue, hsentinel⟩ := hvalues
  refine ⟨s, Runs.of_exec hs, hended, htable, hqueue, hsentinel, ?_⟩
  simp [next, sentinelNext, hsentinel, take, htable, ensure]

/-- Node 0 is in the table. Its schedule thread has ended, and the next update is about to take the
locks. -/
theorem released_oneNode :
    ∃ s : ClientLocks, s.schedule 0 = .ended ∧ s.sentinel = .lockTable oneNode ∧
      (∀ l, s.owner l ≠ some (.schedule 0)) ∧
      ∃ t, Runs (step readerLibrary (fun _ => 0) 0 0) (Listed 0) s t ∧
        t.sentinel = .updating oneNode ∧ ∀ l, t.owner l = some .sentinel := by
  have hrun : (Runs.exec (next readerLibrary (fun _ => 0) 0 0) (Listed 0) .blocked
      (notified oneNode ++ List.replicate 6 (.schedule 0) ++ [.exit 0, .receive (some oneNode),
        .sentinel 9]) (initial noNodes)).map (fun s => (s.schedule 0, s.sentinel)) =
      .ok (.ended, .lockTable oneNode) := by
    decide +kernel
  obtain ⟨s, hs, hvalues⟩ := Except.map_eq_ok.mp hrun
  obtain ⟨hended, hsentinel⟩ := Prod.mk.inj hvalues
  obtain ⟨hlocks, hupdating, -⟩ := released_of_runs (Runs.of_exec hs)
  exact ⟨s, hended, hsentinel, hlocks 0 hended, hupdating oneNode hsentinel⟩

end ClientLocks

end PoQ
