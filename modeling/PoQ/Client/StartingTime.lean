import Mathlib.Data.List.DropRight
import PoQ.Schedule

/-!
# The schedule thread of the client

`starting_time_calculation` of `poet_client.cpp`: from the last table and queue it computes when to
tell the server that the node is not finished yet and when the node becomes the leader, and then sleeps
from one of these times to the next.
-/

namespace PoQ

/-- What the thread does once it has its times. -/
inductive Action
  | sleep (seconds : ℤ)
  /-- An `unfinished_node` request with this record. -/
  | notify (node : Node)
deriving DecidableEq, Repr

/-- How the thread ends. -/
inductive ThreadEnd
  /-- The table received does not hold this node. -/
  | notMostRecent
  /-- The leadership time is -1. -/
  | rejoin
  /-- The node becomes the leader after these actions. -/
  | leader (actions : List Action)
deriving DecidableEq, Repr

/-- `notify_readdition_of_node_into_queue`, for the table entry `node`. -/
def notifyReadditionOfNodeIntoQueue (node : Node) (timeLeft : ℤ) : Except Abort Action := do
  ensure (0 < timeLeft) .timeLeftPositive
  ensure (timeLeft < node.sgxTime) .timeLeftBelowSgxTime
  return .notify { node with timeLeft := timeLeft.toNat }

/-- The two trimming loops: notifications at the leadership time and at time 0 are dropped. -/
def trimNotificationTimes (leadershipTime : ℤ) (notificationTimes : List ℤ) : List ℤ :=
  (notificationTimes.rdropWhile (· = leadershipTime)).dropWhile (· = 0)

/-- The loop over the notification times. It ends with the actions and with `curr_time`. -/
def notificationSteps (node : Node) : ℤ → ℤ → List ℤ → Except Abort (List Action × ℤ)
  | currTime, _, [] => .ok ([], currTime)
  | currTime, remainingTime, notificationTime :: notificationTimes => do
    ensure (currTime < notificationTime) .notificationTimePassed
    let remainingTime := remainingTime - notificationTime
    let sent ← if 0 < remainingTime then
        (do return [← notifyReadditionOfNodeIntoQueue node remainingTime])
      else pure []
    let (actions, currTime') ← notificationSteps node notificationTime remainingTime notificationTimes
    return (.sleep (notificationTime - currTime) :: sent ++ actions, currTime')

/-- `starting_time_calculation`. -/
def startingTimeCalculation (queue : List ℕ) (table : List Node) (nodeId ntiers sgxMax : ℕ)
    (nodeCurrentTime : ℤ) : Except Abort ThreadEnd :=
  match table[nodeId]? with
  | none => .ok .notMostRecent
  | some node => do
    let notificationTimes ← calcNotificationTimes queue table node ntiers sgxMax nodeCurrentTime
    let leadershipTime ← calcLeadershipTime queue table node ntiers sgxMax nodeCurrentTime
    if leadershipTime = -1 then return .rejoin
    ensure (∀ t ∈ notificationTimes.getLast?, t ≤ leadershipTime) .notificationNotLater
    let notificationTimes := trimNotificationTimes leadershipTime notificationTimes
    let (actions, currTime) ← notificationSteps node 0 node.timeLeft notificationTimes
    return .leader (actions ++ [.sleep (leadershipTime - currTime)])

/-! ## Trimming -/

/-- Subtracting a delay and clamping at 0, as both functions do with the accumulated time. -/
def afterDelay (delay a : ℤ) : ℤ := max (a - delay) 0

theorem afterDelay_mono (delay : ℤ) {a b : ℤ} (h : a ≤ b) : afterDelay delay a ≤ afterDelay delay b := by
  unfold afterDelay; omega

theorem afterDelay_lt {delay a b : ℤ} (h : a < b) (hb : afterDelay delay b ≠ 0) :
    afterDelay delay a < afterDelay delay b := by
  unfold afterDelay at *; omega

theorem afterDelay_nonneg (delay a : ℤ) : 0 ≤ afterDelay delay a := by
  unfold afterDelay; omega

/-- Without the zeros in front, the delayed times are positive and still grow strictly. -/
theorem dropWhile_afterDelay (delay : ℤ) {marks : List ℤ} (h : marks.Pairwise (· < ·)) :
    ((marks.map (afterDelay delay)).dropWhile (· = 0)).Pairwise (· < ·) ∧
      ∀ t ∈ (marks.map (afterDelay delay)).dropWhile (· = 0), 0 < t := by
  induction marks with
  | nil => simp
  | cons a marks ih =>
    obtain ⟨ha, hmarks⟩ := List.pairwise_cons.mp h
    by_cases hz : afterDelay delay a = 0
    · simpa [hz] using ih hmarks
    have hpos := (afterDelay_nonneg delay a).lt_of_ne' hz
    have hall : ∀ b ∈ marks, afterDelay delay a < afterDelay delay b := by
      intro b hb
      have hle := afterDelay_mono delay (ha b hb).le
      exact afterDelay_lt (ha b hb) (by omega)
    have hsorted : (marks.map (afterDelay delay)).Pairwise (· < ·) := by
      refine List.pairwise_map.mpr (hmarks.imp_of_mem fun {b c} hb _ hbc => ?_)
      have h1 := hall b hb
      have h2 := afterDelay_mono delay hbc.le
      exact afterDelay_lt hbc (by omega)
    simp only [List.map_cons, List.dropWhile_cons, hz, decide_false, Bool.false_eq_true, if_false]
    refine ⟨List.pairwise_cons.mpr ⟨?_, hsorted⟩, ?_⟩
    · simpa using hall
    · rintro t (_ | ⟨_, ht⟩)
      · exact hpos
      · obtain ⟨b, hb, rfl⟩ := List.mem_map.mp ht
        exact hpos.trans (hall b hb)

/-- Of times below `charge` only the zeros in front are dropped. -/
theorem trimNotificationTimes_eq {delay charge : ℤ} {marks : List ℤ} (hlt : ∀ a ∈ marks, a < charge) :
    trimNotificationTimes (afterDelay delay charge) (marks.map (afterDelay delay)) =
      (marks.map (afterDelay delay)).dropWhile (· = 0) := by
  by_cases hz : afterDelay delay charge = 0
  · -- everything is clamped to 0, and dropped from the back
    have hzero : ∀ t ∈ marks.map (afterDelay delay), t = 0 := by
      intro t ht
      obtain ⟨a, ha, rfl⟩ := List.mem_map.mp ht
      have h1 := afterDelay_mono delay (hlt a ha).le
      have h2 := afterDelay_nonneg delay a
      omega
    have hback : (marks.map (afterDelay delay)).rdropWhile (· = 0) = [] := by
      rw [List.rdropWhile_eq_nil_iff]
      simpa using hzero
    have hfront : (marks.map (afterDelay delay)).dropWhile (· = 0) = [] := by
      rw [List.dropWhile_eq_nil_iff]
      simpa using hzero
    rw [trimNotificationTimes, hz, hback, hfront, List.dropWhile_nil]
  · have hself : (marks.map (afterDelay delay)).rdropWhile (· = afterDelay delay charge) =
        marks.map (afterDelay delay) := by
      rw [List.rdropWhile_eq_self_iff]
      intro hl
      obtain ⟨a, ha, hlast⟩ := List.mem_map.mp (List.getLast_mem hl)
      simpa [← hlast] using (afterDelay_lt (hlt a ha) hz).ne
    rw [trimNotificationTimes, hself]

/-- The trimmed list of strictly growing times below `charge`. -/
theorem trimNotificationTimes_afterDelay {delay charge : ℤ} {marks : List ℤ}
    (h : marks.Pairwise (· < ·)) (hlt : ∀ a ∈ marks, a < charge) :
    let trimmed := trimNotificationTimes (afterDelay delay charge) (marks.map (afterDelay delay))
    trimmed.Pairwise (· < ·) ∧ ∀ t ∈ trimmed, 0 < t ∧ t < afterDelay delay charge := by
  intro trimmed
  obtain ⟨hsorted, hpos⟩ := dropWhile_afterDelay delay h
  have htrim : trimmed = (marks.map (afterDelay delay)).dropWhile (· = 0) :=
    trimNotificationTimes_eq hlt
  rw [htrim]
  refine ⟨hsorted, fun t ht => ⟨hpos t ht, ?_⟩⟩
  obtain ⟨a, ha, rfl⟩ := List.mem_map.mp ((List.dropWhile_sublist _).subset ht)
  have hle := afterDelay_mono delay (hlt a ha).le
  exact afterDelay_lt (hlt a ha) (by have := hpos _ ht; omega)

/-! ## The notification loop -/

/-- The loop over strictly growing times never sleeps a negative time and breaks no assertion. -/
theorem notificationSteps_ok {node : Node} {times : List ℤ} {currTime remainingTime limit : ℤ}
    (hsorted : times.Pairwise (· < ·)) (htimes : ∀ t ∈ times, currTime < t ∧ t < limit)
    (hcurr : 0 ≤ currTime) (hlimit : currTime ≤ limit) (hrem : remainingTime ≤ node.sgxTime) :
    ∃ actions currTime', notificationSteps node currTime remainingTime times =
        .ok (actions, currTime') ∧ currTime' ≤ limit ∧ ∀ t, .sleep t ∈ actions → 0 ≤ t := by
  induction times generalizing currTime remainingTime with
  | nil => exact ⟨[], currTime, rfl, hlimit, by simp⟩
  | cons t times ih =>
    obtain ⟨ht, hsorted⟩ := List.pairwise_cons.mp hsorted
    obtain ⟨h1, h2⟩ := htimes t List.mem_cons_self
    have hrem' : remainingTime - t ≤ node.sgxTime := by omega
    obtain ⟨actions, currTime', hsteps, hle, hsleep⟩ := ih hsorted
      (fun t' ht' => ⟨ht t' ht', (htimes t' (List.mem_cons_of_mem _ ht')).2⟩) (by omega) h2.le hrem'
    have hbelow : remainingTime - t < node.sgxTime := by omega
    simp only [notificationSteps, ensure_of h1, Except.ok_bind, notifyReadditionOfNodeIntoQueue,
      hsteps, Except.pure_eq_ok]
    by_cases hpos : 0 < remainingTime - t
    · simp only [hpos, if_true, ensure_of hbelow, ensure_of trivial, Except.ok_bind]
      refine ⟨_, currTime', rfl, hle, fun t' ht' => ?_⟩
      simp only [List.cons_append, List.nil_append, List.mem_cons, Action.sleep.injEq, reduceCtorEq,
        false_or] at ht'
      rcases ht' with rfl | ht'
      · omega
      · exact hsleep t' ht'
    · simp only [hpos, if_false]
      refine ⟨_, currTime', rfl, hle, fun t' ht' => ?_⟩
      simp only [List.cons_append, List.nil_append, List.mem_cons, Action.sleep.injEq] at ht'
      rcases ht' with rfl | ht'
      · omega
      · exact hsleep t' ht'

/-- With trimmed times between 0 and the leadership time the thread runs up to its leadership. -/
theorem startingTimeCalculation_leader {table : List Node} {ntiers sgxMax : ℕ} {queue : List ℕ}
    {nodeId : ℕ} {node : Node} (hnode : table[nodeId]? = some node)
    (hleft : node.timeLeft ≤ node.sgxTime) {nodeCurrentTime leadershipTime : ℤ}
    {notificationTimes : List ℤ}
    (hleader : calcLeadershipTime queue table node ntiers sgxMax nodeCurrentTime =
      .ok leadershipTime)
    (htimes : calcNotificationTimes queue table node ntiers sgxMax nodeCurrentTime =
      .ok notificationTimes)
    (hpos : 0 ≤ leadershipTime) (hlast : ∀ t ∈ notificationTimes.getLast?, t ≤ leadershipTime)
    (hsorted : (trimNotificationTimes leadershipTime notificationTimes).Pairwise (· < ·))
    (hrange : ∀ t ∈ trimNotificationTimes leadershipTime notificationTimes,
      0 < t ∧ t < leadershipTime) :
    ∃ actions, startingTimeCalculation queue table nodeId ntiers sgxMax nodeCurrentTime =
      .ok (.leader actions) ∧ ∀ t, .sleep t ∈ actions → 0 ≤ t := by
  have hne : leadershipTime ≠ -1 := by omega
  obtain ⟨actions, currTime, hsteps, hle, hsleep⟩ :=
    notificationSteps_ok hsorted hrange le_rfl hpos (Int.ofNat_le.mpr hleft)
  refine ⟨actions ++ [.sleep (leadershipTime - currTime)], ?_, fun t ht => ?_⟩
  · simp only [startingTimeCalculation, hnode, htimes, hleader, Except.ok_bind, hne, if_false,
      ensure_of hlast, hsteps, Except.pure_eq_ok]
  · simp only [List.mem_append, List.mem_singleton, Action.sleep.injEq] at ht
    rcases ht with ht | rfl
    · exact hsleep t ht
    · omega

theorem calcLeadershipTime_afterDelay {table : List Node} {qts : List ℕ} (Q : Quanta table qts)
    {ntiers sgxMax : ℕ} {queue : List ℕ} (hqueue : ∀ u ∈ queue, u < table.length) {node : Node}
    (hT : node.timeLeft ≤ sgxTimeAt table node.nodeId)
    (hqts : calcQuantumTimes table ntiers sgxMax = .ok qts) {nodeCurrentTime : ℤ}
    (hdelay : minimumArrivalTime table node ≤ nodeCurrentTime)
    (hlead : calcLeadershipTime queue table node ntiers sgxMax nodeCurrentTime ≠ .ok (-1)) :
    calcLeadershipTime queue table node ntiers sgxMax nodeCurrentTime =
      .ok (afterDelay (nodeCurrentTime - minimumArrivalTime table node)
        (Q.charge node.nodeId node.timeLeft queue)) := by
  rw [calcLeadershipTime_eq Q hqueue hT hqts] at hlead ⊢
  split at hlead
  · next hfound =>
    have hd : max (nodeCurrentTime - minimumArrivalTime table node) 0 =
        nodeCurrentTime - minimumArrivalTime table node := by omega
    simp [hfound, afterDelay, hd]
  · exact absurd rfl hlead

/-- The notification times fit the leadership time: they do not decrease and none is later, what is
left of them after trimming grows strictly between 0 and the leadership time, and the thread runs to
the leadership without a failing assertion or a negative sleep. -/
theorem startingTimeCalculation_ok {table : List Node} {ntiers sgxMax : ℕ} (ht : 1 ≤ ntiers)
    (hid : IndexedById table) (hs : SgxTimesIn table sgxMax)
    (hleft : ∀ node ∈ table, node.timeLeft ≤ node.sgxTime) {queue : List ℕ}
    (hqueue : ∀ u ∈ queue, u < table.length) {nodeId : ℕ} {node : Node}
    (hnode : table[nodeId]? = some node) {nodeCurrentTime : ℤ}
    (hdelay : minimumArrivalTime table node ≤ nodeCurrentTime)
    (hlead : calcLeadershipTime queue table node ntiers sgxMax nodeCurrentTime ≠ .ok (-1)) :
    ∃ leadershipTime notificationTimes,
      calcLeadershipTime queue table node ntiers sgxMax nodeCurrentTime = .ok leadershipTime ∧
      calcNotificationTimes queue table node ntiers sgxMax nodeCurrentTime =
        .ok notificationTimes ∧
      notificationTimes.Pairwise (· ≤ ·) ∧
      (∀ t ∈ notificationTimes.getLast?, t ≤ leadershipTime) ∧
      (trimNotificationTimes leadershipTime notificationTimes).Pairwise (· < ·) ∧
      (∀ t ∈ trimNotificationTimes leadershipTime notificationTimes, 0 < t ∧ t < leadershipTime) ∧
      ∃ actions, startingTimeCalculation queue table nodeId ntiers sgxMax nodeCurrentTime =
        .ok (.leader actions) ∧ ∀ t, .sleep t ∈ actions → 0 ≤ t := by
  have hmem := List.mem_of_getElem? hnode
  obtain ⟨h1, h2⟩ := hs node hmem
  obtain ⟨qts, hqts, Q⟩ := Quanta.of_calcQuantumTimes ht (h1.trans h2) hid hs
  have hT : node.timeLeft ≤ sgxTimeAt table node.nodeId := by
    simpa [sgxTimeAt, hid nodeId node hnode, hnode] using hleft node hmem
  let delay := nodeCurrentTime - minimumArrivalTime table node
  obtain ⟨marks, hmarks, hsorted, hbound⟩ :=
    calcNotificationTimes_ok Q hqueue hT hqts nodeCurrentTime hdelay
  have hleader := calcLeadershipTime_afterDelay Q hqueue hT hqts hdelay hlead
  have hlast : ∀ t ∈ (marks.map (afterDelay delay)).getLast?,
      t ≤ afterDelay delay (Q.charge node.nodeId node.timeLeft queue) := by
    intro t ht
    obtain ⟨a, ha, rfl⟩ := List.mem_map.mp (List.mem_of_getLast? ht)
    exact afterDelay_mono delay (hbound a ha).2.le
  obtain ⟨htrim, hrange⟩ : (trimNotificationTimes
      (afterDelay delay (Q.charge node.nodeId node.timeLeft queue))
      (marks.map (afterDelay delay))).Pairwise (· < ·) ∧ _ :=
    trimNotificationTimes_afterDelay hsorted fun a ha => (hbound a ha).2
  refine ⟨_, _, hleader, hmarks, ?_, hlast, htrim, hrange, ?_⟩
  · exact List.pairwise_map.mpr (hsorted.imp fun h => afterDelay_mono delay h.le)
  · exact startingTimeCalculation_leader hnode (hleft node hmem) hleader hmarks
      (afterDelay_nonneg _ _) hlast htrim hrange

/-- Four nodes, the last of which has been served before. -/
def resumedTable : List Node :=
  [⟨0, 0, 10, 0, 10⟩, ⟨1, 0, 4, 0, 4⟩, ⟨2, 0, 2, 0, 2⟩, ⟨3, 0, 9, 0, 8⟩]

theorem resumedTable_indexed : IndexedById resumedTable := by
  intro i node h
  rcases i with _ | _ | _ | _ | i <;> simp [resumedTable] at h <;> simp [← h]

/-- The last node stands in the queue twice and is told to report once before it leads at 14. -/
theorem startingTimeCalculation_resumedTable :
    ∃ leadershipTime notificationTimes,
      calcLeadershipTime [3, 1, 2, 0, 3] resumedTable ⟨3, 0, 9, 0, 8⟩ 2 10 1 =
        .ok leadershipTime ∧
      calcNotificationTimes [3, 1, 2, 0, 3] resumedTable ⟨3, 0, 9, 0, 8⟩ 2 10 1 =
        .ok notificationTimes ∧
      notificationTimes.Pairwise (· ≤ ·) ∧
      (∀ t ∈ notificationTimes.getLast?, t ≤ leadershipTime) ∧
      (trimNotificationTimes leadershipTime notificationTimes).Pairwise (· < ·) ∧
      (∀ t ∈ trimNotificationTimes leadershipTime notificationTimes, 0 < t ∧ t < leadershipTime) ∧
      ∃ actions, startingTimeCalculation [3, 1, 2, 0, 3] resumedTable 3 2 10 1 =
        .ok (.leader actions) ∧ ∀ t, .sleep t ∈ actions → 0 ≤ t :=
  startingTimeCalculation_ok (by decide) resumedTable_indexed (by simp [SgxTimesIn, resumedTable])
    (by simp [resumedTable]) (by decide) rfl (by decide) (by decide +kernel)

end PoQ
