import PoQ.Lib.RoundRobin
import PoQ.Quantum

/-!
# The schedule loops

`calc_leadership_time` and `calc_notification_times` of `poet_shared_functions.cpp`. Both walk a copy of
the queue, giving each node in front its slice until the asking node has no time left; they differ in
what they remember. A pass of either loop is `serve`, and a run of it follows the turns of a
round-robin schedule (`leadershipLoop_ok`), for the load the table and its quanta define. Ints are
exact integers.
-/

namespace PoQ

open RoundRobin

/-- The variables that both loops keep. -/
structure Schedule where
  q : List ℕ
  quantumTRepetitions : List ℕ
  accumulatedTime : ℤ
  remainingTime : ℤ
deriving DecidableEq, Repr

/-- `v[i]`. -/
def vectorAt {α : Type} (v : List α) (i : ℕ) : Except Abort α :=
  match v[i]? with
  | some a => .ok a
  | none => .error .outOfRange

/-- One pass of the loops, after `u` was popped from the queue and `q` is left. A slice is counted
with at most the time the asking node still needs. -/
def serve (quantumTimes : List ℕ) (table : List Node) (currentNode : Node) (s : Schedule) (u : ℕ)
    (q : List ℕ) : Except Abort Schedule := do
  ensure (u < table.length) .queueIdInTable
  let node ← vectorAt table u
  let reps ← vectorAt s.quantumTRepetitions u
  let qt ← remainingQuantumTime quantumTimes node reps
  let counted : ℤ := (min qt s.remainingTime.toNat : ℕ)
  let remainingTime := if u = currentNode.nodeId then s.remainingTime - counted else s.remainingTime
  ensure (u = currentNode.nodeId → 0 ≤ remainingTime) .remainingTimeNonneg
  let qt ← remainingQuantumTime quantumTimes node (reps + 1)
  return {
    q := if 0 < qt then q ++ [u] else q
    quantumTRepetitions := s.quantumTRepetitions.set u (reps + 1)
    accumulatedTime := s.accumulatedTime + counted
    remainingTime }

/-- The loop of `calc_leadership_time`. -/
def leadershipLoop (quantumTimes : List ℕ) (table : List Node) (currentNode : Node) :
    ℕ → Schedule → Bool → Except Abort (Schedule × Bool)
  | fuel, s, foundMyself =>
    match s.q with
    | [] => .ok (s, foundMyself)
    | u :: q =>
      if s.remainingTime ≤ 0 then .ok (s, foundMyself) else
        match fuel with
        | 0 => .error .outOfFuel
        | fuel + 1 => do
          let s ← serve quantumTimes table currentNode s u q
          leadershipLoop quantumTimes table currentNode fuel s
            (foundMyself || u == currentNode.nodeId)

/-- The loop of `calc_notification_times`. -/
def notificationLoop (quantumTimes : List ℕ) (table : List Node) (currentNode : Node)
    (commDelay : ℤ) : ℕ → Schedule → List ℤ → Except Abort (List ℤ)
  | fuel, s, notificationTimes =>
    match s.q with
    | [] => .ok notificationTimes
    | u :: q =>
      if s.remainingTime ≤ 0 then .ok notificationTimes else
        match fuel with
        | 0 => .error .outOfFuel
        | fuel + 1 => do
          let s ← serve quantumTimes table currentNode s u q
          notificationLoop quantumTimes table currentNode commDelay fuel s
            (if u = currentNode.nodeId ∧ 0 < s.remainingTime then
              notificationTimes ++ [max (s.accumulatedTime - commDelay) 0]
            else notificationTimes)

/-- The SGX time of the node at index `u`. -/
def sgxTimeAt (table : List Node) (u : ℕ) : ℕ := (table[u]?.map (·.sgxTime)).getD 0

/-- A bound on the passes of the loops: every node in the queue needs at most as many turns as the
time it asks for. -/
def scheduleFuel (queue : List ℕ) (table : List Node) : ℕ :=
  (queue.map fun u => sgxTimeAt table u + 1).sum

/-- The variables before the loops. -/
def initialSchedule (queue : List ℕ) (table : List Node) (currentNode : Node) : Schedule where
  q := queue
  quantumTRepetitions := .replicate table.length 0
  accumulatedTime := 0
  remainingTime := currentNode.timeLeft

/-- `minimum_arrival_time`. -/
def minimumArrivalTime (table : List Node) (currentNode : Node) : ℕ :=
  table.foldl (fun m node => min m node.arrivalTime) currentNode.arrivalTime

/-- `calc_leadership_time`. The server's starting time is not read. -/
def calcLeadershipTime (queue : List ℕ) (table : List Node) (currentNode : Node)
    (tiers sgxMax : ℕ) (nodeCurrentTime : ℤ) : Except Abort ℤ := do
  let quantumTimes ← calcQuantumTimes table tiers sgxMax
  let (s, foundMyself) ← leadershipLoop quantumTimes table currentNode (scheduleFuel queue table)
    (initialSchedule queue table currentNode) false
  ensure (foundMyself → s.remainingTime = 0) .foundAndFinished
  let commDelay := max (nodeCurrentTime - minimumArrivalTime table currentNode) 0
  ensure (0 ≤ commDelay) .commDelayNonneg
  return if foundMyself then max (s.accumulatedTime - commDelay) 0 else -1

/-- `calc_notification_times`. -/
def calcNotificationTimes (queue : List ℕ) (table : List Node) (currentNode : Node)
    (ntiers sgxMax : ℕ) (nodeCurrentTime : ℤ) : Except Abort (List ℤ) := do
  let quantumTimes ← calcQuantumTimes table ntiers sgxMax
  let commDelay := nodeCurrentTime - minimumArrivalTime table currentNode
  ensure (0 ≤ commDelay) .commDelayNonneg
  notificationLoop quantumTimes table currentNode commDelay (scheduleFuel queue table)
    (initialSchedule queue table currentNode) []

/-! ## A pass of the loops is a turn of the schedule -/

/-- What the loops rely on: the table is indexed by id and `calc_quantum_times` has given every node
a positive quantum. -/
structure Quanta (table : List Node) (quantumTimes : List ℕ) : Prop where
  indexed : IndexedById table
  length_eq : quantumTimes.length = table.length
  pos : ∀ qt ∈ quantumTimes, 0 < qt

theorem Quanta.of_calcQuantumTimes {table : List Node} {ntiers sgxMax : ℕ} (ht : 0 < ntiers)
    (hm : 0 < sgxMax) (hid : IndexedById table) (hs : SgxTimesIn table sgxMax) :
    ∃ qts, calcQuantumTimes table ntiers sgxMax = .ok qts ∧ Quanta table qts :=
  let ⟨qts, h, hlen, hpos⟩ := calcQuantumTimes_ok ht hm hid hs
  ⟨qts, h, hid, hlen, hpos⟩

namespace Quanta

variable {table : List Node} {qts : List ℕ} (Q : Quanta table qts)

/-- The load of the schedule: every node asks for its SGX time and is given its quantum. -/
def load : Load ℕ where
  quantum u := qts.getD u 1
  work := sgxTimeAt table
  quantum_pos u := by
    rw [List.getD_eq_getElem?_getD]
    cases h : qts[u]? with
    | none => exact Nat.one_pos
    | some qt => exact Q.pos qt (List.mem_of_getElem? h)

/-- The time `c` still waits for after the turns counted by `done`, if it needs `T` in all. -/
def due (c T : ℕ) (done : ℕ → ℕ) : ℕ := T - done c * Q.load.quantum c

/-- `remaining_quantum_time` is the slice of the schedule. -/
theorem remainingQuantumTime_eq {u : ℕ} {node : Node} (h : table[u]? = some node) (k : ℕ) :
    remainingQuantumTime qts node k = .ok (Q.load.slice u k) := by
  have hu : u < qts.length := by
    rw [Q.length_eq]; exact (List.getElem?_eq_some_iff.mp h).1
  have hqt : qts[u]? = some (qts[u]) := List.getElem?_eq_getElem hu
  simp only [remainingQuantumTime, Q.indexed u node h, hqt, Load.slice, Load.left, load, sgxTimeAt,
    h, List.getD_eq_getElem?_getD, Option.map_some, Option.getD_some, Except.ok.injEq]
  have : ((k * qts[u] : ℕ) : ℤ) = k * qts[u] := by push_cast; rfl
  omega

/-- The time `c` waits for goes down by what is counted of its own slices. -/
theorem due_tick {c T : ℕ} (hT : T ≤ sgxTimeAt table c) (done : ℕ → ℕ) (u : ℕ) :
    Q.due c T (tick done u) =
      Q.due c T done - if u = c then min (Q.load.slice u (done u)) (Q.due c T done) else 0 := by
  by_cases hu : u = c
  · subst hu
    have hw : Q.load.work u = sgxTimeAt table u := rfl
    simp only [due, tick, Function.update_self, Load.slice, Load.left, hw, Nat.succ_mul, if_true]
    omega
  · simp [due, tick, hu, Ne.symm hu]

theorem slice_pos_of_due {c T : ℕ} (hT : T ≤ sgxTimeAt table c) {done : ℕ → ℕ}
    (h : 0 < Q.due c T done) : 0 < Q.load.slice c (done c) := by
  have hw : Q.load.work c = sgxTimeAt table c := rfl
  rw [Load.slice_pos, Load.left_pos, hw]
  unfold due at h
  omega

end Quanta

/-- The variables of the loops agree with turn counters `done` of the schedule, for an asking node `c`
that needs the time `T`. -/
structure Follows {table : List Node} {qts : List ℕ} (Q : Quanta table qts) (c T : ℕ)
    (s : Schedule) (done : ℕ → ℕ) : Prop where
  q_lt : ∀ u ∈ s.q, u < table.length
  reps : ∀ u < table.length, s.quantumTRepetitions[u]? = some (done u)
  remaining : s.remainingTime = Q.due c T done

/-- What a run of the leadership loop from `s` ends with. -/
structure LeadershipRun {table : List Node} {qts : List ℕ} (Q : Quanta table qts) (c T : ℕ)
    (s : Schedule) (done : ℕ → ℕ) (foundMyself : Bool) (s' : Schedule) (foundMyself' : Bool) :
    Prop where
  found : foundMyself' = true ↔ foundMyself = true ∨ c ∈ s.q ∧ 0 < Q.due c T done
  finished : c ∈ s.q ∨ Q.due c T done = 0 → s'.remainingTime = 0
  /-- Every turn adds its slice, but not more than the asking node still needs. -/
  accumulated : s'.accumulatedTime = s.accumulatedTime +
    ((Q.load.turns c T s.q done).map fun t =>
      min (Q.load.slice t.job t.rep) (T - t.own * Q.load.quantum c)).sum
  /-- The asking node's own slices are added as they are taken. -/
  own : s.accumulatedTime + s.remainingTime ≤ s'.accumulatedTime + s'.remainingTime

section
variable {table : List Node} {qts : List ℕ} (Q : Quanta table qts) {c T : ℕ}

theorem LeadershipRun.stop {s : Schedule} {done : ℕ → ℕ} {foundMyself : Bool}
    (F : Follows Q c T s done) (h : s.q = [] ∨ Q.due c T done = 0) :
    LeadershipRun Q c T s done foundMyself s foundMyself where
  found := by
    rcases h with h | h <;> simp [h]
  finished hw := by
    have hdue : Q.due c T done = 0 := by
      rcases h with h | h
      · simpa [h] using hw
      · exact h
    rw [F.remaining, hdue]; rfl
  accumulated := by
    have : Q.load.turns c T s.q done = [] := by
      rcases h with h | h
      · rw [h, Load.turns]
      · exact Load.turns_of_le (Nat.sub_eq_zero_iff_le.mp h)
    simp [this]
  own := le_refl _

/-- Both loops stop at an empty queue, and when the asking node has what it needs. -/
theorem loops_stop {currentNode : Node} {fuel : ℕ} {s : Schedule} {done : ℕ → ℕ} (F : Follows Q c T s done)
    (hfuel : Q.load.weight s.q done ≤ fuel) (h : s.q = [] ∨ Q.due c T done = 0) :
    (∀ foundMyself, leadershipLoop qts table currentNode fuel s foundMyself = .ok (s, foundMyself)) ∧
    ∀ commDelay notificationTimes,
      notificationLoop qts table currentNode commDelay fuel s notificationTimes = .ok notificationTimes := by
  by_cases hnil : s.q = []
  · cases fuel <;> simp [leadershipLoop, notificationLoop, hnil]
  · have hdue := h.resolve_left hnil
    obtain ⟨u, q, hq⟩ := List.exists_cons_of_ne_nil hnil
    cases fuel with
    | zero => exact absurd (Load.eq_nil_of_weight hfuel) hnil
    | succ fuel => simp [leadershipLoop, notificationLoop, hq, F.remaining, hdue]

variable (hT : T ≤ sgxTimeAt table c)
include hT

/-- Whoever has been served or is waiting stays in the queue until he has what he needs. -/
theorem waiting_requeue {done : ℕ → ℕ} {u : ℕ} {q : List ℕ}
    (h : u = c ∨ c ∈ q ∨ Q.due c T done = 0) :
    c ∈ Q.load.requeue u q done ∨ Q.due c T (tick done u) = 0 := by
  rcases h with rfl | h | h
  · refine or_iff_not_imp_right.mpr fun hdue => Load.mem_requeue_self ?_
    have := Load.slice_pos.mp (Q.slice_pos_of_due hT (Nat.pos_of_ne_zero hdue))
    simpa [tick, Nat.pos_iff_ne_zero] using this
  · exact .inl (Load.mem_requeue_of_mem h)
  · exact .inr (by rw [Q.due_tick hT, h, Nat.zero_sub])

theorem LeadershipRun.step {s s₁ s' : Schedule} {done : ℕ → ℕ} {foundMyself foundMyself' : Bool}
    {u : ℕ} {q : List ℕ} (F : Follows Q c T s done) (F₁ : Follows Q c T s₁ (tick done u))
    (hq : s.q = u :: q) (hq₁ : s₁.q = Q.load.requeue u q done) (hdue : 0 < Q.due c T done)
    (hacc : s₁.accumulatedTime =
      s.accumulatedTime + (min (Q.load.slice u (done u)) (Q.due c T done) : ℕ))
    (R : LeadershipRun Q c T s₁ (tick done u) (foundMyself || u == c) s' foundMyself') :
    LeadershipRun Q c T s done foundMyself s' foundMyself' where
  found := by
    rw [R.found, hq, hq₁, List.mem_cons]
    have hother : u ≠ c → Q.due c T (tick done u) = Q.due c T done := fun h => by
      rw [Q.due_tick hT, if_neg h, Nat.sub_zero]
    by_cases hu : u = c
    · simp [hu, hdue]
    · have hmem : c ∈ Q.load.requeue u q done ↔ c ∈ q :=
        ⟨fun h => (Load.mem_requeue h).resolve_left (Ne.symm hu), Load.mem_requeue_of_mem⟩
      simp [hu, Ne.symm hu, hother hu, hmem]
  finished hw := by
    refine R.finished (hq₁ ▸ waiting_requeue Q hT ?_)
    rcases hw with hw | hw
    · rcases List.mem_cons.mp (hq ▸ hw) with rfl | hw
      · exact .inl rfl
      · exact .inr (.inl hw)
    · exact .inr (.inr hw)
  accumulated := by
    have hnot : ¬T ≤ done c * Q.load.quantum c := by
      unfold Quanta.due at hdue; omega
    rw [R.accumulated, hacc, hq, Load.turns, if_neg hnot, hq₁, List.map_cons, List.sum_cons]
    simp only [Quanta.due]
    push_cast
    ring
  own := by
    refine le_trans ?_ R.own
    rw [hacc, F.remaining, F₁.remaining, Q.due_tick hT]
    split <;> omega

variable {currentNode : Node} (hid : currentNode.nodeId = c)
include hid

/-- A pass serves the front of the queue. -/
theorem serve_ok {s : Schedule} {done : ℕ → ℕ} {u : ℕ} {q : List ℕ} (F : Follows Q c T s done)
    (hq : s.q = u :: q) :
    ∃ s', serve qts table currentNode s u q = .ok s' ∧ Follows Q c T s' (tick done u) ∧
      s'.q = Q.load.requeue u q done ∧ s'.accumulatedTime =
        s.accumulatedTime + (min (Q.load.slice u (done u)) (Q.due c T done) : ℕ) := by
  have hu : u < table.length := F.q_lt u (by simp [hq])
  have hnode : table[u]? = some (table[u]) := List.getElem?_eq_getElem hu
  have hreps := F.reps u hu
  have hdue := Q.due_tick hT done u
  let counted := min (Q.load.slice u (done u)) (Q.due c T done)
  let s' : Schedule := {
    q := Q.load.requeue u q done
    quantumTRepetitions := s.quantumTRepetitions.set u (done u + 1)
    accumulatedTime := s.accumulatedTime + counted
    remainingTime := Q.due c T (tick done u) }
  have hrem : (if u = c then (Q.due c T done : ℤ) - counted else Q.due c T done) =
      Q.due c T (tick done u) := by
    rw [hdue]
    split <;> omega
  refine ⟨s', ?_, ⟨fun v hv => ?_, fun v hv => ?_, rfl⟩, rfl, rfl⟩
  · simp only [serve, ensure_of hu, vectorAt, hnode, hreps, Q.remainingQuantumTime_eq hnode,
      Except.ok_bind, F.remaining, Int.toNat_natCast, hid, Except.pure_eq_ok]
    rw [hrem, ensure_of fun _ => Int.natCast_nonneg _, Except.ok_bind]
    rfl
  · rcases Load.mem_requeue hv with rfl | hv
    · exact hu
    · exact F.q_lt v (by simp [hq, hv])
  · by_cases hvu : v = u
    · subst hvu
      have hlen := (List.getElem?_eq_some_iff.mp hreps).1
      simp [s', tick, hlen]
    · simp [s', tick, hvu, Ne.symm hvu, F.reps v hv]

/-- Where they do not stop, both loops go on behind the turn of the front, with less to serve. -/
theorem loops_serve {fuel : ℕ} {s : Schedule} {done : ℕ → ℕ} {u : ℕ} {q : List ℕ} (F : Follows Q c T s done)
    (hfuel : Q.load.weight s.q done ≤ fuel + 1) (hq : s.q = u :: q) (hdue : Q.due c T done ≠ 0) :
    ∃ s₁, Follows Q c T s₁ (tick done u) ∧ Q.load.weight s₁.q (tick done u) ≤ fuel ∧
      s₁.q = Q.load.requeue u q done ∧ s₁.accumulatedTime =
        s.accumulatedTime + (min (Q.load.slice u (done u)) (Q.due c T done) : ℕ) ∧
      (∀ foundMyself, leadershipLoop qts table currentNode (fuel + 1) s foundMyself =
        leadershipLoop qts table currentNode fuel s₁ (foundMyself || u == c)) ∧
      ∀ commDelay notificationTimes,
        notificationLoop qts table currentNode commDelay (fuel + 1) s notificationTimes =
          notificationLoop qts table currentNode commDelay fuel s₁
            (if u = c ∧ 0 < s₁.remainingTime then
              notificationTimes ++ [max (s₁.accumulatedTime - commDelay) 0] else notificationTimes) := by
  obtain ⟨s₁, hserve, F₁, hq₁, hacc⟩ := serve_ok Q hT hid F hq
  have hlt := Load.weight_requeue_lt (L := Q.load) u q done
  have hrem : ¬s.remainingTime ≤ 0 := by rw [F.remaining]; omega
  refine ⟨s₁, F₁, ?_, hq₁, hacc, fun foundMyself => ?_, fun commDelay notificationTimes => ?_⟩
  · rw [hq] at hfuel
    rw [hq₁]
    omega
  · conv_lhs => unfold leadershipLoop
    simp only [hq, hrem, if_false, hserve, Except.ok_bind, hid]
  · conv_lhs => unfold notificationLoop
    simp only [hq, hrem, if_false, hserve, Except.ok_bind, hid]

/-- The leadership loop ends, without a failing assertion. -/
theorem leadershipLoop_ok {fuel : ℕ} {s : Schedule} {done : ℕ → ℕ} (foundMyself : Bool)
    (F : Follows Q c T s done) (hfuel : Q.load.weight s.q done ≤ fuel) :
    ∃ s' foundMyself', leadershipLoop qts table currentNode fuel s foundMyself =
        .ok (s', foundMyself') ∧ LeadershipRun Q c T s done foundMyself s' foundMyself' := by
  -- along the weight of the queue, which every turn makes smaller
  induction fuel generalizing s done foundMyself with
  | zero =>
    have hnil := Load.eq_nil_of_weight hfuel
    exact ⟨s, foundMyself, (loops_stop Q F hfuel (.inl hnil)).1 _, .stop Q F (.inl hnil)⟩
  | succ fuel ih =>
    by_cases hstop : s.q = [] ∨ Q.due c T done = 0
    · exact ⟨s, foundMyself, (loops_stop Q F hfuel hstop).1 _, .stop Q F hstop⟩
    · obtain ⟨hnil, hdue⟩ := not_or.mp hstop
      obtain ⟨u, q, hq⟩ := List.exists_cons_of_ne_nil hnil
      obtain ⟨s₁, F₁, hfuel₁, hq₁, hacc, hlead, -⟩ := loops_serve Q hT hid F hfuel hq hdue
      obtain ⟨s', found', hloop, R⟩ := ih (foundMyself || u == c) F₁ hfuel₁
      refine ⟨s', found', ?_, R.step Q hT F F₁ hq hq₁ (Nat.pos_of_ne_zero hdue) hacc⟩
      rw [hlead, hloop]

/-- While the asking node waits for more, the rest of the run adds at least what it still needs. -/
theorem leadershipLoop_lt {fuel : ℕ} {s s' : Schedule} {done : ℕ → ℕ}
    {foundMyself foundMyself' : Bool} (F : Follows Q c T s done)
    (hfuel : Q.load.weight s.q done ≤ fuel)
    (hlead : leadershipLoop qts table currentNode fuel s foundMyself = .ok (s', foundMyself'))
    (hwaiting : c ∈ s.q ∨ Q.due c T done = 0) (hpos : 0 < s.remainingTime) :
    s.accumulatedTime < s'.accumulatedTime := by
  obtain ⟨s'', found', hrun, R⟩ := leadershipLoop_ok Q hT hid foundMyself F hfuel
  obtain ⟨rfl, -⟩ : s' = s'' ∧ foundMyself' = found' := by simpa using hlead.symm.trans hrun
  have hfin := R.finished hwaiting
  have := R.own
  omega

/-- The notification loop walks the schedule of the leadership loop: the accumulated times it records
grow strictly and stay below the one the leadership loop ends with. -/
theorem notificationLoop_ok {fuel : ℕ} {s s' : Schedule} {done : ℕ → ℕ}
    {foundMyself foundMyself' : Bool} (commDelay : ℤ) (notificationTimes : List ℤ)
    (F : Follows Q c T s done) (hfuel : Q.load.weight s.q done ≤ fuel)
    (hlead : leadershipLoop qts table currentNode fuel s foundMyself = .ok (s', foundMyself')) :
    ∃ marks : List ℤ, notificationLoop qts table currentNode commDelay fuel s notificationTimes =
        .ok (notificationTimes ++ marks.map fun a => max (a - commDelay) 0) ∧
      marks.Pairwise (· < ·) ∧ ∀ a ∈ marks, s.accumulatedTime < a ∧ a < s'.accumulatedTime := by
  induction fuel generalizing s done foundMyself notificationTimes with
  | zero =>
    have hnil := Load.eq_nil_of_weight hfuel
    refine ⟨[], ?_, .nil, fun a ha => by cases ha⟩
    rw [(loops_stop Q F hfuel (.inl hnil)).2, List.map_nil, List.append_nil]
  | succ fuel ih =>
    by_cases hstop : s.q = [] ∨ Q.due c T done = 0
    · refine ⟨[], ?_, .nil, fun a ha => by cases ha⟩
      rw [(loops_stop Q F hfuel hstop).2, List.map_nil, List.append_nil]
    obtain ⟨hnil, hdue⟩ := not_or.mp hstop
    obtain ⟨u, q, hq⟩ := List.exists_cons_of_ne_nil hnil
    obtain ⟨s₁, F₁, hfuel₁, hq₁, hacc, hlead₁, hloop⟩ := loops_serve Q hT hid F hfuel hq hdue
    rw [hlead₁] at hlead
    rw [hloop]
    split
    case isTrue h =>
      obtain ⟨rfl, hpos⟩ := h
      obtain ⟨marks, hmarks, hsorted, hbound⟩ := ih _ F₁ hfuel₁ hlead
      have hend : s₁.accumulatedTime < s'.accumulatedTime :=
        leadershipLoop_lt Q hT hid F₁ hfuel₁ hlead (hq₁ ▸ waiting_requeue Q hT (.inl rfl)) hpos
      have hown : s.accumulatedTime < s₁.accumulatedTime := by
        have := Q.slice_pos_of_due hT (Nat.pos_of_ne_zero hdue)
        omega
      refine ⟨s₁.accumulatedTime :: marks, ?_, ?_, ?_⟩
      · rw [hmarks]; simp
      · exact List.pairwise_cons.mpr ⟨fun a ha => (hbound a ha).1, hsorted⟩
      · rintro a (_ | ⟨_, ha⟩)
        · exact ⟨hown, hend⟩
        · exact ⟨hown.trans (hbound a ha).1, (hbound a ha).2⟩
    case isFalse h =>
      obtain ⟨marks, hmarks, hsorted, hbound⟩ := ih notificationTimes F₁ hfuel₁ hlead
      refine ⟨marks, hmarks, hsorted, fun a ha => ⟨?_, (hbound a ha).2⟩⟩
      have := (hbound a ha).1
      omega

end

/-! ## The two functions -/

/-- `accumulated_time` at the end of the loops: every turn until `c` has been given `T` is counted
with its slice, but with no more than `c` still needs. -/
def Quanta.charge {table : List Node} {qts : List ℕ} (Q : Quanta table qts) (c T : ℕ)
    (queue : List ℕ) : ℕ :=
  ((Q.load.turns c T queue fun _ => 0).map fun t =>
    min (Q.load.slice t.job t.rep) (T - t.own * Q.load.quantum c)).sum

theorem LeadershipRun.accumulated_initial {table : List Node} {qts : List ℕ} {Q : Quanta table qts}
    {c T : ℕ} {queue : List ℕ} {currentNode : Node} {s : Schedule} {foundMyself : Bool}
    (R : LeadershipRun Q c T (initialSchedule queue table currentNode) (fun _ => 0) false s
      foundMyself) : s.accumulatedTime = Q.charge c T queue := by
  simpa [initialSchedule, Quanta.charge] using R.accumulated

section
variable {table : List Node} {qts : List ℕ} (Q : Quanta table qts) {currentNode : Node}
  {queue : List ℕ} (hqueue : ∀ u ∈ queue, u < table.length)
include hqueue

theorem Follows.initial :
    Follows Q currentNode.nodeId currentNode.timeLeft (initialSchedule queue table currentNode)
      fun _ => 0 where
  q_lt := hqueue
  reps u hu := by simp [initialSchedule, hu]
  remaining := by simp [initialSchedule, Quanta.due]

omit hqueue in
theorem weight_eq_scheduleFuel :
    Q.load.weight (initialSchedule queue table currentNode).q (fun _ => 0) =
      scheduleFuel queue table := by
  simp [initialSchedule, Load.weight, scheduleFuel, Load.left, Quanta.load]

variable (hT : currentNode.timeLeft ≤ sgxTimeAt table currentNode.nodeId)
include hT

/-- A node in the queue is charged at least the time it needs itself. -/
theorem Quanta.timeLeft_le_charge (hc : currentNode.nodeId ∈ queue) :
    currentNode.timeLeft ≤ Q.charge currentNode.nodeId currentNode.timeLeft queue := by
  obtain ⟨s, found, -, R⟩ := leadershipLoop_ok Q hT rfl false (Follows.initial Q hqueue)
    (weight_eq_scheduleFuel Q).le
  have hown := R.own
  rw [R.accumulated_initial, R.finished (.inl hc)] at hown
  simpa [initialSchedule] using hown

variable {ntiers sgxMax : ℕ} (hqts : calcQuantumTimes table ntiers sgxMax = .ok qts)
  (nodeCurrentTime : ℤ)
include hqts

/-- `calc_leadership_time` ends without a failing assertion. -/
theorem calcLeadershipTime_eq :
    calcLeadershipTime queue table currentNode ntiers sgxMax nodeCurrentTime =
      .ok (if currentNode.nodeId ∈ queue ∧ 0 < currentNode.timeLeft then
        max (Q.charge currentNode.nodeId currentNode.timeLeft queue -
          max (nodeCurrentTime - minimumArrivalTime table currentNode) 0) 0 else -1) := by
  obtain ⟨s, found, hloop, R⟩ := leadershipLoop_ok Q hT rfl false (Follows.initial Q hqueue)
    (weight_eq_scheduleFuel Q).le
  have hfound : found = true ↔ currentNode.nodeId ∈ queue ∧ 0 < currentNode.timeLeft := by
    simpa [initialSchedule, Quanta.due] using R.found
  have hfin : found = true → s.remainingTime = 0 := fun h => R.finished (.inl (hfound.mp h).1)
  simp only [calcLeadershipTime, hqts, hloop, Except.ok_bind, ensure_of hfin,
    ensure_of (le_max_right _ _), Except.pure_eq_ok]
  simp only [R.accumulated_initial, hfound]

/-- `calc_notification_times` ends without a failing assertion, when it is not called before the
first arrival. -/
theorem calcNotificationTimes_ok
    (hdelay : minimumArrivalTime table currentNode ≤ nodeCurrentTime) :
    ∃ marks : List ℤ,
      calcNotificationTimes queue table currentNode ntiers sgxMax nodeCurrentTime =
        .ok (marks.map fun a =>
          max (a - (nodeCurrentTime - minimumArrivalTime table currentNode)) 0) ∧
      marks.Pairwise (· < ·) ∧ ∀ a ∈ marks, 0 < a ∧
        a < Q.charge currentNode.nodeId currentNode.timeLeft queue := by
  obtain ⟨s, found, hloop, R⟩ := leadershipLoop_ok Q hT rfl false (Follows.initial Q hqueue)
    (weight_eq_scheduleFuel Q).le
  obtain ⟨marks, hmarks, hsorted, hbound⟩ := notificationLoop_ok Q hT rfl
    (nodeCurrentTime - minimumArrivalTime table currentNode) [] (Follows.initial Q hqueue)
    (weight_eq_scheduleFuel Q).le hloop
  refine ⟨marks, ?_, hsorted, fun a ha => R.accumulated_initial ▸ hbound a ha⟩
  have hnonneg : 0 ≤ nodeCurrentTime - minimumArrivalTime table currentNode := by omega
  simp only [calcNotificationTimes, hqts, Except.ok_bind, ensure_of hnonneg, hmarks,
    List.nil_append]

end

/-- `calc_leadership_time` ends and none of its assertions fails, whatever the queue repeats: the asking
node has no time left when it was found, and it is found exactly if it waits and needs time. -/
theorem calcLeadershipTime_returns {table : List Node} {ntiers sgxMax : ℕ} (ht : 1 ≤ ntiers)
    (hid : IndexedById table) (hs : SgxTimesIn table sgxMax)
    (hleft : ∀ node ∈ table, node.timeLeft ≤ node.sgxTime) {queue : List ℕ}
    (hqueue : ∀ u ∈ queue, u < table.length) {currentNode : Node} (hc : currentNode ∈ table)
    (nodeCurrentTime : ℤ) :
    ∃ (qts : List ℕ) (s : Schedule) (foundMyself : Bool) (leadershipTime : ℤ),
      calcQuantumTimes table ntiers sgxMax = .ok qts ∧
      leadershipLoop qts table currentNode (scheduleFuel queue table)
        (initialSchedule queue table currentNode) false = .ok (s, foundMyself) ∧
      (foundMyself = true → s.remainingTime = 0) ∧
      calcLeadershipTime queue table currentNode ntiers sgxMax nodeCurrentTime =
        .ok leadershipTime ∧
      (leadershipTime = -1 ↔ currentNode.nodeId ∉ queue ∨ currentNode.timeLeft = 0) := by
  obtain ⟨h1, h2⟩ := hs currentNode hc
  obtain ⟨qts, hqts, Q⟩ := Quanta.of_calcQuantumTimes ht (h1.trans h2) hid hs
  obtain ⟨i, hi⟩ := List.mem_iff_getElem?.mp hc
  have hT : currentNode.timeLeft ≤ sgxTimeAt table currentNode.nodeId := by
    simpa [sgxTimeAt, hid i currentNode hi, hi] using hleft currentNode hc
  obtain ⟨s, found, hloop, R⟩ := leadershipLoop_ok Q hT rfl false (Follows.initial Q hqueue)
    (weight_eq_scheduleFuel Q).le
  have hfound : found = true ↔ currentNode.nodeId ∈ queue ∧ 0 < currentNode.timeLeft := by
    simpa [initialSchedule, Quanta.due] using R.found
  refine ⟨qts, s, found, _, hqts, hloop, fun h => R.finished (.inl (hfound.mp h).1),
    calcLeadershipTime_eq Q hqueue hT hqts nodeCurrentTime, ?_⟩
  split
  · next h =>
    refine iff_of_false (by omega) fun hnot => ?_
    rcases hnot with hnot | hnot
    · exact hnot h.1
    · exact absurd hnot h.2.ne'
  · next h =>
    refine iff_of_true rfl ?_
    by_cases hq : currentNode.nodeId ∈ queue
    · exact .inr (Nat.eq_zero_of_not_pos fun hpos => h ⟨hq, hpos⟩)
    · exact .inl hq

/-- Two nodes, the second of which has done a part of its time. -/
def startedTable : List Node := [⟨0, 1, 2, 0, 2⟩, ⟨1, 1, 4, 0, 3⟩]

theorem calcLeadershipTime_returns_startedTable :
    ∃ (qts : List ℕ) (s : Schedule) (foundMyself : Bool) (leadershipTime : ℤ),
      calcQuantumTimes startedTable 1 4 = .ok qts ∧
      leadershipLoop qts startedTable ⟨1, 1, 4, 0, 3⟩ (scheduleFuel [0, 1, 0] startedTable)
        (initialSchedule [0, 1, 0] startedTable ⟨1, 1, 4, 0, 3⟩) false = .ok (s, foundMyself) ∧
      (foundMyself = true → s.remainingTime = 0) ∧
      calcLeadershipTime [0, 1, 0] startedTable ⟨1, 1, 4, 0, 3⟩ 1 4 1 = .ok leadershipTime ∧
      (leadershipTime = -1 ↔ 1 ∉ [0, 1, 0] ∨ 3 = 0) := by
  have hid : IndexedById startedTable := by
    intro i node h
    rcases i with _ | _ | i <;> simp [startedTable] at h <;> simp [← h]
  exact calcLeadershipTime_returns (by decide) hid (by simp [SgxTimesIn, startedTable])
    (by simp [startedTable]) (by decide) (by simp [startedTable]) 1

end PoQ
