import Mathlib.Data.List.Chain
import PoQ.Client.StartingTime

/-!
# The time left that a client reports

A node that is not finished after a turn asks the server to add it to the queue again, and reports the
time it still needs. `calc_notification_times` only hands over the times of these turns, and
`starting_time_calculation` works the time left out from them: it subtracts every notification time
from what is left. These times also count the slices of the other nodes, less the communication delay,
and each of them counts the ones before it again.
-/

namespace PoQ

open RoundRobin

/-- A turn of the schedule after which the node is to be added again: the time counted up to this turn
and the sum of the node's own slices. -/
structure Notice where
  time : ℕ
  served : ℕ
deriving DecidableEq, Repr

/-- The own turns of `c` after which it has not been given the time `T` yet. Every slice is counted with
at most the time `c` needs. -/
def notices (L : Load ℕ) (c T : ℕ) : List (Turn ℕ) → ℕ → ℕ → List Notice
  | [], _, _ => []
  | t :: turns, time, served =>
    let counted := min (L.slice t.job t.rep) (T - served)
    if t.job = c then
      if served + counted < T then
        ⟨time + counted, served + counted⟩ ::
          notices L c T turns (time + counted) (served + counted)
      else notices L c T turns (time + counted) (served + counted)
    else notices L c T turns (time + counted) served

/-- The notices of a run for the time `T`, from the beginning. -/
def Quanta.notices {table : List Node} {qts : List ℕ} (Q : Quanta table qts) (c T : ℕ)
    (queue : List ℕ) : List Notice :=
  PoQ.notices Q.load c T (Q.load.turns c T queue fun _ => 0) 0 0

/-- The notices that fall behind the communication delay. -/
def laterThan (delay : ℕ) (l : List Notice) : List Notice := l.filter (delay < ·.time)

/-- The times left that are sent to the server. -/
def ThreadEnd.reportedTimes : ThreadEnd → List ℕ
  | .leader actions => actions.filterMap fun
    | .notify node => some node.timeLeft
    | .sleep _ => none
  | _ => []

/-! ## The notices of a schedule -/

/-- Before the first notice, and from one notice to the next, the node is served one quantum. -/
theorem notices_served {L : Load ℕ} {c T : ℕ} (hT : T ≤ L.work c) (q : List ℕ) (done : ℕ → ℕ)
    (time : ℕ) :
    let l := notices L c T (L.turns c T q done) time (done c * L.quantum c)
    (done c * L.quantum c :: l.map Notice.served).IsChain (fun a b => b = a + L.quantum c) ∧
      ∀ n ∈ l, n.served < T := by
  fun_induction Load.turns L c T q done generalizing time with
  | case1 done => simp [notices]
  | case2 u q done hle => simp [notices]
  | case3 u q done hlt ih =>
    have hlt := Nat.lt_of_not_le hlt
    have hrec := ih (time + min (L.slice u (done u)) (T - done c * L.quantum c))
    by_cases hu : u = c
    · subst hu
      have htick : tick done u u * L.quantum u = done u * L.quantum u + L.quantum u := by
        simp [tick, Nat.succ_mul]
      by_cases hleft : done u * L.quantum u + L.quantum u < T
      · -- a whole quantum is counted
        have hcounted : min (L.slice u (done u)) (T - done u * L.quantum u) = L.quantum u := by
          simp only [Load.slice, Load.left]; omega
        rw [htick, hcounted] at hrec
        simp only [notices, hcounted, if_true, hleft]
        exact ⟨by simpa using hrec.1, by simpa [hleft] using hrec.2⟩
      · have hcounted : min (L.slice u (done u)) (T - done u * L.quantum u) =
            T - done u * L.quantum u := by
          simp only [Load.slice, Load.left]; omega
        have hend : L.turns u T (L.requeue u q done) (tick done u) = [] :=
          Load.turns_of_le (by rw [htick]; omega)
        have hfull : ¬done u * L.quantum u + (T - done u * L.quantum u) < T := by omega
        simp [notices, hcounted, hfull, hend]
    · have htick : tick done u c = done c := by simp [tick, Ne.symm hu]
      rw [htick] at hrec
      simpa only [notices, hu, if_false] using hrec

/-! ## The notices of the schedule loop -/

/-- There are no notices behind the point where the loop stops. -/
theorem notices_of_stop {table : List Node} {qts : List ℕ} (Q : Quanta table qts) {c T : ℕ} {q : List ℕ}
    {done : ℕ → ℕ} {time served : ℕ} (h : q = [] ∨ Q.due c T done = 0) :
    notices Q.load c T (Q.load.turns c T q done) time served = [] := by
  rcases h with hnil | hdue
  · rw [hnil, Load.turns, notices]
  · rw [Load.turns_of_le (Nat.sub_eq_zero_iff_le.mp hdue), notices]

section
variable {table : List Node} {qts : List ℕ} (Q : Quanta table qts) {c T : ℕ}
  (hT : T ≤ sgxTimeAt table c) {currentNode : Node} (hid : currentNode.nodeId = c)
include hT hid

/-- The loop of `calc_notification_times` records the times of the notices. -/
theorem notificationLoop_eq {fuel : ℕ} {s : Schedule} {done : ℕ → ℕ} (commDelay : ℤ)
    (notificationTimes : List ℤ) (F : Follows Q c T s done)
    (hfuel : Q.load.weight s.q done ≤ fuel) (time served : ℕ) (htime : s.accumulatedTime = time)
    (hserved : served + Q.due c T done = T) :
    notificationLoop qts table currentNode commDelay fuel s notificationTimes =
      .ok (notificationTimes ++ (notices Q.load c T (Q.load.turns c T s.q done) time served).map
        fun n => afterDelay commDelay n.time) := by
  induction fuel generalizing s done notificationTimes time served with
  | zero =>
    have hnil := Load.eq_nil_of_weight hfuel
    rw [(loops_stop Q F hfuel (.inl hnil)).2, notices_of_stop Q (.inl hnil), List.map_nil, List.append_nil]
  | succ fuel ih =>
    by_cases hstop : s.q = [] ∨ Q.due c T done = 0
    · rw [(loops_stop Q F hfuel hstop).2, notices_of_stop Q hstop, List.map_nil, List.append_nil]
    obtain ⟨hnil, hdue⟩ := not_or.mp hstop
    obtain ⟨u, q, hq⟩ := List.exists_cons_of_ne_nil hnil
    obtain ⟨s₁, F₁, hfuel₁, hq₁, hacc, -, hloop⟩ := loops_serve Q hT hid F hfuel hq hdue
    have hnot : ¬T ≤ done c * Q.load.quantum c := by
      unfold Quanta.due at hdue; omega
    have hdue' : T - served = Q.due c T done := by omega
    have htick := Q.due_tick hT done u
    rw [hloop, hq, Load.turns, if_neg hnot, notices, ← hq₁, hdue']
    have hacc' : s₁.accumulatedTime =
        ((time + min (Q.load.slice u (done u)) (Q.due c T done) : ℕ) : ℤ) := by
      rw [hacc, htime]; push_cast; rfl
    by_cases hu : u = c
    · subst hu
      have hserved₁ : served + min (Q.load.slice u (done u)) (Q.due u T done) +
          Q.due u T (tick done u) = T := by
        rw [htick, if_pos rfl]; omega
      have hiff : 0 < s₁.remainingTime ↔
          served + min (Q.load.slice u (done u)) (Q.due u T done) < T := by
        rw [F₁.remaining]; omega
      rw [ih _ F₁ hfuel₁ _ _ hacc' hserved₁]
      simp only [true_and, if_true, hiff]
      split
      · simp [hacc', afterDelay]
      · rfl
    · have hserved₁ : served + Q.due c T (tick done u) = T := by
        rw [htick, if_neg hu]; omega
      rw [ih _ F₁ hfuel₁ _ _ hacc' hserved₁]
      simp only [hu, false_and, if_false]

end

theorem Quanta.calcNotificationTimes_notices {table : List Node} {qts : List ℕ}
    (Q : Quanta table qts) {ntiers sgxMax : ℕ} {queue : List ℕ}
    (hqueue : ∀ u ∈ queue, u < table.length) {node : Node}
    (hT : node.timeLeft ≤ sgxTimeAt table node.nodeId)
    (hqts : calcQuantumTimes table ntiers sgxMax = .ok qts) (delay : ℕ) :
    calcNotificationTimes queue table node ntiers sgxMax (minimumArrivalTime table node + delay) =
      .ok ((Q.notices node.nodeId node.timeLeft queue).map fun n => afterDelay delay n.time) := by
  have hdelay : (minimumArrivalTime table node + delay : ℤ) - minimumArrivalTime table node =
      delay := by omega
  simp only [calcNotificationTimes, hqts, Except.ok_bind, hdelay,
    ensure_of (Int.natCast_nonneg delay)]
  rw [notificationLoop_eq Q hT rfl _ _ (Follows.initial Q hqueue) (weight_eq_scheduleFuel Q).le 0 0
    rfl (by simp [Quanta.due])]
  rfl

/-- The times of the notices grow, up to the time at which the node has all it needs. -/
theorem Quanta.notices_times {table : List Node} {qts : List ℕ} (Q : Quanta table qts)
    {ntiers sgxMax : ℕ} {queue : List ℕ} (hqueue : ∀ u ∈ queue, u < table.length) {node : Node}
    (hT : node.timeLeft ≤ sgxTimeAt table node.nodeId)
    (hqts : calcQuantumTimes table ntiers sgxMax = .ok qts) :
    (Q.notices node.nodeId node.timeLeft queue).Pairwise (fun n n' => n.time < n'.time) ∧
      ∀ n ∈ Q.notices node.nodeId node.timeLeft queue,
        n.time < Q.charge node.nodeId node.timeLeft queue := by
  -- without a delay the notification times are the times of the notices
  have htimes := Q.calcNotificationTimes_notices hqueue hT hqts 0
  obtain ⟨marks, hmarks, hsorted, hbound⟩ := calcNotificationTimes_ok Q hqueue hT hqts
    (minimumArrivalTime table node + (0 : ℕ)) (by simp)
  rw [htimes, Except.ok.injEq] at hmarks
  have hmarks' : (Q.notices node.nodeId node.timeLeft queue).map (fun n => (n.time : ℤ)) = marks := by
    have h1 : marks.map (fun a => max (a - (((minimumArrivalTime table node : ℤ) + (0 : ℕ)) -
        minimumArrivalTime table node)) 0) = marks := by
      refine (List.map_congr_left fun a ha => ?_).trans (List.map_id marks)
      have := (hbound a ha).1
      simp only [id]
      omega
    rw [← h1, ← hmarks]
    refine List.map_congr_left fun n _ => ?_
    unfold afterDelay
    omega
  rw [← hmarks'] at hsorted hbound
  refine ⟨(List.pairwise_map.mp hsorted).imp fun h => by exact_mod_cast h, fun n hn => ?_⟩
  exact_mod_cast (hbound n.time (List.mem_map.mpr ⟨n, hn, rfl⟩)).2

theorem Quanta.notices_served {table : List Node} {qts : List ℕ} (Q : Quanta table qts) {c T : ℕ}
    (hT : T ≤ sgxTimeAt table c) (queue : List ℕ) :
    ((Q.notices c T queue).map Notice.served).IsChain (fun a b => b = a + Q.load.quantum c) ∧
      ∀ n ∈ Q.notices c T queue, Q.load.quantum c ≤ n.served ∧ n.served < T := by
  obtain ⟨hchain, hlt⟩ : (0 :: (Q.notices c T queue).map Notice.served).IsChain
      (fun a b => b = a + Q.load.quantum c) ∧ ∀ n ∈ Q.notices c T queue, n.served < T := by
    simpa [Quanta.notices] using PoQ.notices_served (L := Q.load) hT queue (fun _ => 0) 0
  refine ⟨hchain.tail, fun n hn => ⟨?_, hlt n hn⟩⟩
  have : IsTrans ℕ fun a b => a + Q.load.quantum c ≤ b := ⟨fun a b d h1 h2 => by omega⟩
  have hpair := List.isChain_iff_pairwise.mp
    (hchain.imp (S := fun a b => a + Q.load.quantum c ≤ b) fun a b h => h.ge)
  simpa using List.rel_of_pairwise_cons hpair (List.mem_map_of_mem hn)

/-! ## Trimming and reporting -/

theorem mem_laterThan {delay : ℕ} {l : List Notice} {n : Notice} :
    n ∈ laterThan delay l ↔ n ∈ l ∧ delay < n.time := by
  simp [laterThan]

/-- From the first notice behind the delay on, all are. -/
theorem laterThan_cons {n : Notice} {l : List Notice}
    (h : (n :: l).Pairwise fun n n' => n.time < n'.time) (delay : ℕ) :
    laterThan delay (n :: l) = if delay < n.time then n :: l else laterThan delay l := by
  by_cases hd : delay < n.time
  · have hl : ∀ n' ∈ l, delay < n'.time := fun n' hn' => hd.trans (List.rel_of_pairwise_cons h hn')
    simpa [laterThan, hd] using hl
  · simp [laterThan, hd]

theorem laterThan_suffix {l : List Notice} (h : l.Pairwise fun n n' => n.time < n'.time)
    (delay : ℕ) : laterThan delay l <:+ l := by
  induction l with
  | nil => exact List.suffix_refl _
  | cons n l ih =>
    rw [laterThan_cons h]
    split
    · exact List.suffix_refl _
    · exact (ih h.of_cons).trans (List.suffix_cons n l)

/-- What is left of the notification times after trimming are the notices behind the delay. -/
theorem trimNotificationTimes_notices {l : List Notice} {charge delay : ℕ}
    (h : l.Pairwise fun n n' => n.time < n'.time) (hlt : ∀ n ∈ l, n.time < charge) :
    trimNotificationTimes (afterDelay delay charge) (l.map fun n => afterDelay delay n.time) =
      (laterThan delay l).map fun n => (n.time : ℤ) - delay := by
  have hmap : (l.map fun n => afterDelay delay n.time) =
      (l.map fun n => (n.time : ℤ)).map (afterDelay delay) := by simp
  rw [hmap, trimNotificationTimes_eq (by simpa using hlt), ← hmap]
  clear hmap hlt
  induction l with
  | nil => rfl
  | cons n l ih =>
    rw [List.map_cons]
    by_cases hd : delay < n.time
    · have hne : afterDelay delay n.time ≠ 0 := by unfold afterDelay; omega
      have hlater : laterThan delay (n :: l) = n :: l := by rw [laterThan_cons h, if_pos hd]
      rw [List.dropWhile_cons_of_neg (by simpa using hne), ← List.map_cons (f := fun n : Notice =>
        afterDelay delay n.time), hlater]
      refine List.map_congr_left fun n' hn' => ?_
      have := (mem_laterThan.mp (hlater ▸ hn')).2
      unfold afterDelay
      omega
    · have hz : afterDelay delay n.time = 0 := by unfold afterDelay; omega
      rw [List.dropWhile_cons_of_pos (by simpa using hz), ih h.of_cons, laterThan_cons h, if_neg hd]

/-- The times left that the loop reports when it starts with the time left `remainingTime`. -/
def reports : ℤ → List ℤ → List ℕ
  | _, [] => []
  | remainingTime, t :: times =>
    (if 0 < remainingTime - t then [(remainingTime - t).toNat] else []) ++
      reports (remainingTime - t) times

theorem reports_length_le (remainingTime : ℤ) (times : List ℤ) :
    (reports remainingTime times).length ≤ times.length := by
  induction times generalizing remainingTime with
  | nil => simp [reports]
  | cons t times ih =>
    have := ih (remainingTime - t)
    rw [reports, List.length_append, List.length_cons]
    split <;> simp <;> omega

theorem notificationSteps_reports {node : Node} {times : List ℤ} {currTime remainingTime : ℤ}
    {actions : List Action} {currTime' : ℤ}
    (h : notificationSteps node currTime remainingTime times = .ok (actions, currTime')) :
    (ThreadEnd.leader actions).reportedTimes = reports remainingTime times := by
  induction times generalizing currTime remainingTime actions with
  | nil =>
    cases h
    rfl
  | cons t times ih =>
    unfold notificationSteps at h
    obtain ⟨_, -, h⟩ := Except.bind_eq_ok.mp h
    rw [reports]
    dsimp only at h
    split at h
    · next hpos =>
      obtain ⟨sent, hsent, h⟩ := Except.bind_eq_ok.mp h
      obtain ⟨⟨actions', _⟩, hsteps, h⟩ := Except.bind_eq_ok.mp h
      cases h
      obtain ⟨action, haction, hsent⟩ := Except.bind_eq_ok.mp hsent
      obtain ⟨_, -, haction⟩ := Except.bind_eq_ok.mp haction
      obtain ⟨_, -, haction⟩ := Except.bind_eq_ok.mp haction
      cases haction
      cases hsent
      rw [if_pos hpos, ← ih hsteps]
      simp [ThreadEnd.reportedTimes]
    · next hpos =>
      obtain ⟨sent, hsent, h⟩ := Except.bind_eq_ok.mp h
      obtain ⟨⟨actions', _⟩, hsteps, h⟩ := Except.bind_eq_ok.mp h
      cases h
      cases hsent
      rw [if_neg hpos, ← ih hsteps]
      simp [ThreadEnd.reportedTimes]

/-- The reports are right when there is at most one, and its time is the time served: a second report
would have to count the first time again, which is at least the quantum served in between. -/
theorem reports_eq_iff {l : List Notice} {T quantum delay : ℕ}
    (hsorted : l.Pairwise fun n n' => n.time < n'.time)
    (hchain : (l.map Notice.served).IsChain fun a b => b = a + quantum)
    (hmem : ∀ n ∈ l, quantum ≤ n.served ∧ n.served < T ∧ delay < n.time) :
    reports T (l.map fun n => (n.time : ℤ) - delay) = l.map (fun n => T - n.served) ↔
      l.length ≤ 1 ∧ ∀ n ∈ l, n.time = delay + n.served := by
  match l with
  | [] => simp [reports]
  | [n] =>
    obtain ⟨-, hT, hd⟩ := hmem n List.mem_cons_self
    simp only [List.map_cons, List.map_nil, reports, List.append_nil, List.length_singleton,
      le_refl, List.mem_singleton, forall_eq, true_and]
    split
    · simp only [List.cons.injEq, and_true]
      omega
    · simp only [List.nil_eq, reduceCtorEq, false_iff]
      omega
  | n :: n' :: l =>
    obtain ⟨hq, hT, hd⟩ := hmem n List.mem_cons_self
    have hlt := List.rel_of_pairwise_cons hsorted (List.mem_cons_self (a := n') (l := l))
    have hserved : n'.served = n.served + quantum := (List.isChain_cons_cons.mp hchain).1
    refine iff_of_false (fun h => ?_) (by simp)
    have hlen := congrArg List.length h
    have hrest := reports_length_le ((T : ℤ) - (n.time - delay) - (n'.time - delay))
      (l.map fun n => (n.time : ℤ) - delay)
    simp only [List.map_cons, reports, List.length_append, List.length_cons, List.length_map]
      at h hlen hrest
    -- a report that is not sent makes the list too short
    by_cases h1 : 0 < (T : ℤ) - (n.time - delay)
    · by_cases h2 : 0 < (T : ℤ) - (n.time - delay) - (n'.time - delay)
      · simp only [if_pos h1, if_pos h2, List.cons_append, List.nil_append, List.cons.injEq] at h
        omega
      · simp only [if_pos h1, if_neg h2, List.length_cons, List.length_nil] at hlen
        omega
    · rw [if_neg h1, List.length_nil] at hlen
      split at hlen <;> simp at hlen <;> omega

theorem startingTimeCalculation_reports {table : List Node} {queue : List ℕ} {nodeId : ℕ}
    {node : Node} {ntiers sgxMax : ℕ} {nodeCurrentTime leadershipTime : ℤ}
    {notificationTimes : List ℤ} {ended : ThreadEnd} (hnode : table[nodeId]? = some node)
    (hleader : calcLeadershipTime queue table node ntiers sgxMax nodeCurrentTime =
      .ok leadershipTime)
    (htimes : calcNotificationTimes queue table node ntiers sgxMax nodeCurrentTime =
      .ok notificationTimes) (hne : leadershipTime ≠ -1)
    (h : startingTimeCalculation queue table nodeId ntiers sgxMax nodeCurrentTime = .ok ended) :
    ended.reportedTimes =
      reports node.timeLeft (trimNotificationTimes leadershipTime notificationTimes) := by
  simp only [startingTimeCalculation, hnode, htimes, hleader, Except.ok_bind, hne, if_false] at h
  obtain ⟨_, -, h⟩ := Except.bind_eq_ok.mp h
  obtain ⟨⟨actions, currTime⟩, hsteps, h⟩ := Except.bind_eq_ok.mp h
  cases h
  rw [← notificationSteps_reports hsteps]
  simp [ThreadEnd.reportedTimes]

/-- A leader whose notices are in order reports at every notice that is left after trimming. -/
theorem startingTimeCalculation_notices {table : List Node} {queue : List ℕ} {nodeId : ℕ}
    {node : Node} {ntiers sgxMax : ℕ} {nodeCurrentTime : ℤ} {l : List Notice} {charge delay : ℕ}
    (hnode : table[nodeId]? = some node) (hleft : node.timeLeft ≤ node.sgxTime)
    (hleader : calcLeadershipTime queue table node ntiers sgxMax nodeCurrentTime =
      .ok (afterDelay delay charge))
    (htimes : calcNotificationTimes queue table node ntiers sgxMax nodeCurrentTime =
      .ok (l.map fun n => afterDelay delay n.time))
    (hsorted : l.Pairwise fun n n' => n.time < n'.time) (hlt : ∀ n ∈ l, n.time < charge) :
    ∃ ended, startingTimeCalculation queue table nodeId ntiers sgxMax nodeCurrentTime = .ok ended ∧
      ended.reportedTimes =
        reports node.timeLeft ((laterThan delay l).map fun n => (n.time : ℤ) - delay) := by
  have htrim : trimNotificationTimes (afterDelay delay charge)
      (l.map fun n => afterDelay delay n.time) =
      (laterThan delay l).map fun n => (n.time : ℤ) - delay :=
    trimNotificationTimes_notices hsorted hlt
  have hlast : ∀ t ∈ (l.map fun n => afterDelay delay n.time).getLast?,
      t ≤ afterDelay delay charge := by
    intro t ht
    obtain ⟨n, hn, rfl⟩ := List.mem_map.mp (List.mem_of_getLast? ht)
    exact afterDelay_mono delay (by exact_mod_cast (hlt n hn).le)
  have hlater : (laterThan delay l).Pairwise fun n n' => n.time < n'.time := hsorted.filter _
  have hrange : ∀ t ∈ (laterThan delay l).map fun n => (n.time : ℤ) - delay,
      0 < t ∧ t < afterDelay delay charge := by
    intro t ht
    obtain ⟨n, hn, rfl⟩ := List.mem_map.mp ht
    obtain ⟨hn, hd⟩ := mem_laterThan.mp hn
    have := hlt n hn
    unfold afterDelay
    omega
  have hnonneg := afterDelay_nonneg delay charge
  obtain ⟨actions, hrun, -⟩ := startingTimeCalculation_leader hnode hleft hleader htimes hnonneg hlast
    (by rw [htrim]; exact List.pairwise_map.mpr (hlater.imp fun h => by omega))
    (by rw [htrim]; exact hrange)
  have hne : afterDelay delay charge ≠ -1 := by omega
  refine ⟨.leader actions, hrun, ?_⟩
  rw [startingTimeCalculation_reports hnode hleader htimes hne hrun, htrim]

/-- Two nodes of one tier, with a quantum of 2 each. -/
def shareTable : List Node := [⟨0, 1, 2, 0, 2⟩, ⟨1, 1, 6, 0, 6⟩]

theorem shareTable_indexed : IndexedById shareTable := by
  intro i node h
  rcases i with _ | _ | i <;> simp [shareTable] at h <;> simp [← h]

/-- Node 1 has one turn less before it is done. -/
def oneReportTable : List Node := [⟨0, 1, 2, 0, 2⟩, ⟨1, 1, 6, 0, 4⟩]

theorem oneReportTable_indexed : IndexedById oneReportTable := by
  intro i node h
  rcases i with _ | _ | i <;> simp [oneReportTable] at h <;> simp [← h]

example : (startingTimeCalculation [0, 1] oneReportTable 1 1 10 3).map ThreadEnd.reportedTimes = .ok [2] := by
  decide

end PoQ
