import PoQ.Client.Mirror
import PoQ.Client.SgxTime
import PoQ.Client.StartingTime

/-!
# From the server's state to the server's state

The server notifies a client of its table and its queue, the client computes its schedule from them, and
on this schedule it reports to the server what is left of its time. The server may have gone through
any requests before it sends the notification, and goes through any requests of others between the reports.
-/

namespace PoQ

/-! ## What the schedule thread does -/

/-- The seconds that an action takes. -/
def Action.seconds : Action → ℤ
  | sleep seconds => seconds
  | notify _ => 0

/-- The record that an action sends to the server. -/
def Action.record : Action → Option Node
  | sleep _ => none
  | notify node => some node

/-- The records are those of the node with less and less time left. -/
def Diminishing (node : Node) : List Node → Prop
  | [] => True
  | n :: records => n = { node with timeLeft := n.timeLeft } ∧ 0 < n.timeLeft ∧
      n.timeLeft < node.timeLeft ∧ Diminishing n records

/-- A pass of the loop over the notification times, with what the passes behind it do. -/
theorem notificationSteps_cons {node : Node} {currTime remainingTime t currTime' : ℤ} {times : List ℤ}
    {actions : List Action}
    (h : notificationSteps node currTime remainingTime (t :: times) = .ok (actions, currTime')) :
    ∃ sent rest, notificationSteps node t (remainingTime - t) times = .ok (rest, currTime') ∧
      actions = .sleep (t - currTime) :: sent ++ rest ∧
      (remainingTime - t ≤ 0 ∧ sent = [] ∨ 0 < remainingTime - t ∧
        sent = [.notify { node with timeLeft := (remainingTime - t).toNat }]) := by
  rw [notificationSteps] at h
  obtain ⟨_, -, h⟩ := Except.bind_eq_ok.mp h
  dsimp only at h
  split at h
  · next hpos =>
    obtain ⟨sent, hsent, h⟩ := Except.bind_eq_ok.mp h
    obtain ⟨action, haction, hsent⟩ := Except.bind_eq_ok.mp hsent
    obtain ⟨_, -, haction⟩ := Except.bind_eq_ok.mp haction
    obtain ⟨_, -, haction⟩ := Except.bind_eq_ok.mp haction
    cases haction
    cases hsent
    obtain ⟨⟨rest, last⟩, hrest, h⟩ := Except.bind_eq_ok.mp h
    cases h
    exact ⟨_, rest, hrest, rfl, .inr ⟨hpos, rfl⟩⟩
  · next hpos =>
    obtain ⟨_, hsent, h⟩ := Except.bind_eq_ok.mp h
    cases hsent
    obtain ⟨⟨rest, last⟩, hrest, h⟩ := Except.bind_eq_ok.mp h
    cases h
    exact ⟨[], rest, hrest, rfl, .inl ⟨Int.not_lt.mp hpos, rfl⟩⟩

/-- The loop sleeps from the time it starts at to the time it ends with. -/
theorem notificationSteps_seconds {node : Node} {times : List ℤ} {currTime remainingTime currTime' : ℤ}
    {actions : List Action}
    (h : notificationSteps node currTime remainingTime times = .ok (actions, currTime')) :
    (actions.map Action.seconds).sum = currTime' - currTime := by
  induction times generalizing currTime remainingTime actions with
  | nil =>
    cases h
    exact (Int.sub_self _).symm
  | cons t times ih =>
    obtain ⟨sent, rest, hrest, rfl, hsent⟩ := notificationSteps_cons h
    have hzero : (sent.map Action.seconds).sum = 0 := by
      obtain ⟨-, rfl⟩ | ⟨-, rfl⟩ := hsent <;> rfl
    rw [List.cons_append, List.map_cons, List.sum_cons, List.map_append, List.sum_append, hzero, ih hrest]
    change t - currTime + (0 + (currTime' - t)) = currTime' - currTime
    omega

/-- What the loop reports gets less with every report, as time goes on between them. -/
theorem notificationSteps_records {node : Node} {times : List ℤ} {currTime remainingTime currTime' : ℤ}
    {actions : List Action} (htimes : ∀ t ∈ times, 0 < t)
    (h : notificationSteps node currTime remainingTime times = .ok (actions, currTime')) {k : ℕ}
    (hk : remainingTime ≤ k) : Diminishing { node with timeLeft := k } (actions.filterMap Action.record) := by
  induction times generalizing currTime remainingTime actions k with
  | nil =>
    cases h
    exact trivial
  | cons t times ih =>
    obtain ⟨ht, htimes⟩ := List.forall_mem_cons.mp htimes
    obtain ⟨sent, rest, hrest, rfl, hsent⟩ := notificationSteps_cons h
    obtain ⟨-, rfl⟩ | ⟨hpos, rfl⟩ := hsent
    · exact ih htimes hrest (by omega)
    · refine ⟨rfl, ?_, ?_, ih htimes hrest (k := (remainingTime - t).toNat) (by omega)⟩
      · change 0 < (remainingTime - t).toNat
        omega
      · change (remainingTime - t).toNat < k
        omega

/-! ## The tables that a client is told of -/

/-- The fields of an entry that are not checked fit in their type. -/
def Node.Stored (node : Node) : Prop := node.arrivalTime < uintSize ∧ node.nLeadership < uintSize

theorem updatedEntry_stored {node : Node} (n : Node) (h : node.Stored) : (updatedEntry n node).Stored :=
  ⟨h.1, Nat.mod_lt _ (by decide)⟩

/-- Every step stores what fits. -/
theorem Server.step_stored {raw : Json → ℤ} {s t : Server} {a : ℕ × Request} (h : s.step raw a t)
    (hs : ∀ node ∈ s.g.sgxTable, node.Stored) : ∀ node ∈ t.g.sgxTable, node.Stored := by
  obtain ⟨c, request⟩ := a
  obtain ⟨r, hr, ht⟩ := Server.step_cases h
  rw [ht]
  cases request with
  | register keysLocked idsLocked json =>
    rw [(poetRegister_frame hr).1]
    exact hs
  | sgxTimeBroadcast now json =>
    obtain ⟨-, rfl⟩ | ⟨sgxt, node, -, -, hins, -, -⟩ := poetSgxTimeBroadcast_cases hr
    · exact hs
    · obtain ⟨table, pushed, repetitions, hinserted, hg⟩ := insertNodeIntoSgxTableAndQueue_cases hins
      rw [hg]
      have hnode : Node.Stored ⟨node.nodeId, toUint (now - s.g.serverStartingTime), sgxt, 0, sgxt⟩ :=
        ⟨toUint_lt _, Nat.two_pow_pos 32⟩
      intro n hn
      obtain ⟨m, -, -, -, rfl, -⟩ | ⟨-, rfl, -⟩ := hinserted
      · rcases List.mem_or_eq_of_mem_set hn with hn | rfl
        · exact hs n hn
        · exact updatedEntry_stored m hnode
      · rcases List.mem_append.mp hn with hn | hn
        · exact hs n hn
        · cases List.mem_singleton.mp hn
          exact hnode
  | unfinishedNode json =>
    obtain rfl | ⟨newNode, dest, repetitions, -, hdest, -, -, -, -, rfl⟩ := poetUnfinishedNode_cases hr
    · exact hs
    · intro n hn
      rcases List.mem_or_eq_of_mem_set hn with hn | rfl
      · exact hs n hn
      · exact hs dest (List.mem_of_getElem? hdest)

/-- What holds of the server's table and queue as long as new nodes broadcast in the order of their ids. -/
structure Global.Ordered (config : Configuration) (g : Global) : Prop where
  indexed : g.Indexed
  admissible : ∀ node ∈ g.sgxTable, node.Admissible config.sgxtLowerbound config.sgxmax
  stored : ∀ node ∈ g.sgxTable, node.Stored

theorem Server.ordered_of_runs {raw : Json → ℤ} {config : Configuration} {serverStartingTime : ℤ}
    {s : Server} (h : Runs (Server.step raw) InOrder (config.server serverStartingTime) s) :
    s.g.Ordered config := by
  let start := config.server serverStartingTime
  have hinv : s.g.Indexed ∧ (s.g.Admissible ∧ start.g.SameBounds s.g) ∧ ∀ node ∈ s.g.sgxTable, node.Stored := by
    refine Runs.invariant (I := fun s : Server => s.g.Indexed ∧ (s.g.Admissible ∧ start.g.SameBounds s.g) ∧
      ∀ node ∈ s.g.sgxTable, node.Stored) ?_ h
      ⟨Global.indexed_initial serverStartingTime _ _ _, ⟨nofun, rfl, rfl⟩, nofun⟩
    rintro s a t ⟨hindexed, ⟨hadmissible, hbounds⟩, hstored⟩ horder hstep
    obtain ⟨ht, hkept⟩ := Server.step_admissible hstep hadmissible
    exact ⟨(Server.step_indexed_iff hindexed hstep).mpr horder,
      ⟨ht, hkept.1.trans hbounds.1, hkept.2.trans hbounds.2⟩, Server.step_stored hstep hstored⟩
  obtain ⟨hindexed, ⟨hadmissible, hlower, hupper⟩, hstored⟩ := hinv
  refine ⟨hindexed, fun node hnode => ?_, hstored⟩
  have := hadmissible node hnode
  rwa [hlower, hupper] at this

namespace Global.Ordered

variable {config : Configuration} {g : Global}

theorem inRange (h : g.Ordered config) (hmax : config.sgxmax < uintSize)
    (hlength : g.sgxTable.length ≤ uintSize) : ∀ node ∈ g.sgxTable, node.InRange := by
  intro node hnode
  obtain ⟨i, hi⟩ := List.mem_iff_getElem?.mp hnode
  have hid := h.indexed.table i node hi
  have hlt := (List.getElem?_eq_some_iff.mp hi).1
  have htimes := h.admissible node hnode
  have hupper := htimes.upper.trans_lt hmax
  obtain ⟨harrival, hleadership⟩ := h.stored node hnode
  exact ⟨by omega, harrival, hupper, hleadership, htimes.timeLeft.trans_lt hupper⟩

/-- A client that is notified of the table and the queue has them. -/
theorem update {σ : Type} {lib : JsonLibrary σ} (hlib : lib.Correct) (h : g.Ordered config)
    (hmax : config.sgxmax < uintSize) (hlength : notificationLength g.queue g.sgxTable < intSize)
    (raw : Json → ℤ) (now serverStartingTime : ℤ) (m : Mirror) :
    updateSgxTableAndQueueFromTxt lib raw now serverStartingTime (notificationText g.queue g.sgxTable) m =
      .ok (true, ⟨g.sgxTable, g.queue, now - serverStartingTime⟩) := by
  have htable := length_le_notificationLength g.queue g.sgxTable
  have hsmall : intSize ≤ uintSize := by decide
  have hids : printedIds g.queue g.sgxTable = g.queue :=
    printedIds_eq h.indexed.table h.indexed.queue fun u hu => by
      have := h.indexed.queue u hu
      omega
  rw [updateSgxTableAndQueueFromTxt_eq hlib raw now serverStartingTime (h.inRange hmax (by omega))
    fun node hnode => (h.admissible node hnode).timeLeft, hids, if_pos hlength]

theorem sgxTimesIn (h : g.Ordered config) : SgxTimesIn g.sgxTable config.sgxmax := by
  intro node hnode
  have htimes := h.admissible node hnode
  exact ⟨config.lowerbound_pos.trans_le htimes.lower, htimes.upper⟩

end Global.Ordered

/-! ## The schedule of a client -/

/-- Before the earliest arrival, as its own clock has it, a client does not get to its schedule. -/
theorem startingTimeCalculation_early {table : List Node} {ntiers sgxMax : ℕ} (ht : 1 ≤ ntiers)
    (hid : IndexedById table) (hs : SgxTimesIn table sgxMax) {queue : List ℕ} {nodeId : ℕ} {node : Node}
    (hnode : table[nodeId]? = some node) {nodeCurrentTime : ℤ}
    (hearly : nodeCurrentTime < minimumArrivalTime table node) :
    startingTimeCalculation queue table nodeId ntiers sgxMax nodeCurrentTime = .error .commDelayNonneg := by
  obtain ⟨h1, h2⟩ := hs node (List.mem_of_getElem? hnode)
  obtain ⟨qts, hqts, -⟩ := Quanta.of_calcQuantumTimes ht (h1.trans h2) hid hs
  have hdelay : ¬0 ≤ nodeCurrentTime - minimumArrivalTime table node := by omega
  simp only [startingTimeCalculation, hnode, calcNotificationTimes, hqts, Except.ok_bind, ensure,
    if_neg hdelay, Except.error_bind]

/-- A node that does not wait, or waits for nothing, has to join again. -/
theorem startingTimeCalculation_rejoin {table : List Node} {ntiers sgxMax : ℕ} (ht : 1 ≤ ntiers)
    (hid : IndexedById table) (hs : SgxTimesIn table sgxMax)
    (hleft : ∀ node ∈ table, node.timeLeft ≤ node.sgxTime) {queue : List ℕ}
    (hqueue : ∀ u ∈ queue, u < table.length) {nodeId : ℕ} {node : Node}
    (hnode : table[nodeId]? = some node) {nodeCurrentTime : ℤ}
    (hdelay : minimumArrivalTime table node ≤ nodeCurrentTime)
    (hrejoin : ¬(nodeId ∈ queue ∧ 0 < node.timeLeft)) :
    startingTimeCalculation queue table nodeId ntiers sgxMax nodeCurrentTime = .ok .rejoin := by
  have hmem := List.mem_of_getElem? hnode
  obtain ⟨h1, h2⟩ := hs node hmem
  obtain ⟨qts, hqts, Q⟩ := Quanta.of_calcQuantumTimes ht (h1.trans h2) hid hs
  have hnodeId := hid nodeId node hnode
  have hT : node.timeLeft ≤ sgxTimeAt table node.nodeId := by
    simpa [sgxTimeAt, hnodeId, hnode] using hleft node hmem
  obtain ⟨marks, hmarks, -, -⟩ := calcNotificationTimes_ok Q hqueue hT hqts nodeCurrentTime hdelay
  have hleader := calcLeadershipTime_eq Q hqueue hT hqts nodeCurrentTime
  rw [hnodeId, if_neg hrejoin] at hleader
  simp only [startingTimeCalculation, hnode, hmarks, hleader, Except.ok_bind, if_true, Except.pure_eq_ok]

/-- What a thread that gets to its leadership has gone through. -/
theorem startingTimeCalculation_eq_leader {table : List Node} {ntiers sgxMax : ℕ} {queue : List ℕ}
    {nodeId : ℕ} {nodeCurrentTime : ℤ} {actions : List Action}
    (h : startingTimeCalculation queue table nodeId ntiers sgxMax nodeCurrentTime = .ok (.leader actions)) :
    ∃ node notificationTimes leadershipTime steps currTime, table[nodeId]? = some node ∧
      calcNotificationTimes queue table node ntiers sgxMax nodeCurrentTime = .ok notificationTimes ∧
      calcLeadershipTime queue table node ntiers sgxMax nodeCurrentTime = .ok leadershipTime ∧
      notificationSteps node 0 node.timeLeft (trimNotificationTimes leadershipTime notificationTimes) =
        .ok (steps, currTime) ∧
      actions = steps ++ [.sleep (leadershipTime - currTime)] := by
  unfold startingTimeCalculation at h
  split at h
  · cases h
  · next node hnode =>
    obtain ⟨notificationTimes, hnotification, h⟩ := Except.bind_eq_ok.mp h
    obtain ⟨leadershipTime, hleadership, h⟩ := Except.bind_eq_ok.mp h
    split at h
    · cases h
    · obtain ⟨_, -, h⟩ := Except.bind_eq_ok.mp h
      obtain ⟨⟨steps, currTime⟩, hsteps, h⟩ := Except.bind_eq_ok.mp h
      cases h
      exact ⟨node, notificationTimes, leadershipTime, steps, currTime, hnode, hnotification, hleadership,
        hsteps, rfl⟩

/-- A node that waits for something sleeps up to its leadership, and its reports get less and less. -/
theorem startingTimeCalculation_actions {table : List Node} {ntiers sgxMax : ℕ} (ht : 1 ≤ ntiers)
    (hid : IndexedById table) (hs : SgxTimesIn table sgxMax)
    (hleft : ∀ node ∈ table, node.timeLeft ≤ node.sgxTime) {queue : List ℕ}
    (hqueue : ∀ u ∈ queue, u < table.length) {nodeId : ℕ} {node : Node}
    (hnode : table[nodeId]? = some node) {nodeCurrentTime : ℤ}
    (hdelay : minimumArrivalTime table node ≤ nodeCurrentTime) (hwaits : nodeId ∈ queue)
    (hpos : 0 < node.timeLeft) :
    ∃ leadershipTime actions,
      calcLeadershipTime queue table node ntiers sgxMax nodeCurrentTime = .ok leadershipTime ∧
      startingTimeCalculation queue table nodeId ntiers sgxMax nodeCurrentTime = .ok (.leader actions) ∧
      (actions.map Action.seconds).sum = leadershipTime ∧ (∀ t, .sleep t ∈ actions → 0 ≤ t) ∧
      Diminishing node (actions.filterMap Action.record) := by
  have hmem := List.mem_of_getElem? hnode
  obtain ⟨h1, h2⟩ := hs node hmem
  obtain ⟨qts, hqts, Q⟩ := Quanta.of_calcQuantumTimes ht (h1.trans h2) hid hs
  have hnodeId := hid nodeId node hnode
  have hT : node.timeLeft ≤ sgxTimeAt table node.nodeId := by
    simpa [sgxTimeAt, hnodeId, hnode] using hleft node hmem
  obtain ⟨marks, hmarks, hsorted, hbound⟩ :=
    calcNotificationTimes_ok Q hqueue hT hqts nodeCurrentTime hdelay
  have hfound := calcLeadershipTime_eq Q hqueue hT hqts nodeCurrentTime
  rw [hnodeId, if_pos ⟨hwaits, hpos⟩] at hfound
  have hleader := calcLeadershipTime_afterDelay Q hqueue hT hqts hdelay (by
    rw [hfound]
    simp only [ne_eq, Except.ok.injEq]
    omega)
  have hlast : ∀ t ∈ (marks.map (afterDelay (nodeCurrentTime - minimumArrivalTime table node))).getLast?,
      t ≤ afterDelay (nodeCurrentTime - minimumArrivalTime table node)
        (Q.charge node.nodeId node.timeLeft queue) := by
    intro t ht
    obtain ⟨a, ha, rfl⟩ := List.mem_map.mp (List.mem_of_getLast? ht)
    exact afterDelay_mono _ (hbound a ha).2.le
  obtain ⟨htrimmed, hrange⟩ := trimNotificationTimes_afterDelay hsorted fun a ha => (hbound a ha).2
  obtain ⟨actions, hactions, hsleeps⟩ := startingTimeCalculation_leader hnode (hleft node hmem) hleader hmarks
    (afterDelay_nonneg _ _) hlast htrimmed hrange
  obtain ⟨node', times, leadershipTime, steps, currTime, hnode', htimes, hleadership, hsteps, rfl⟩ :=
    startingTimeCalculation_eq_leader hactions
  cases hnode.symm.trans hnode'
  cases hmarks.symm.trans htimes
  cases hleader.symm.trans hleadership
  refine ⟨_, _, hleader, hactions, ?_, hsleeps, ?_⟩
  · rw [List.map_append, List.sum_append, notificationSteps_seconds hsteps, List.map_singleton,
      List.sum_singleton, Int.sub_zero]
    exact add_sub_cancel currTime _
  · rw [List.filterMap_append]
    change Diminishing node (steps.filterMap Action.record ++ [])
    rw [List.append_nil]
    exact notificationSteps_records (fun t ht => (hrange t ht).1) hsteps le_rfl

/-- The reports of any schedule that gets to the leadership. -/
theorem startingTimeCalculation_records {table : List Node} {ntiers sgxMax : ℕ} (ht : 1 ≤ ntiers)
    (hid : IndexedById table) (hs : SgxTimesIn table sgxMax)
    (hleft : ∀ node ∈ table, node.timeLeft ≤ node.sgxTime) {queue : List ℕ}
    (hqueue : ∀ u ∈ queue, u < table.length) {nodeId : ℕ} {node : Node}
    (hnode : table[nodeId]? = some node) {nodeCurrentTime : ℤ} {actions : List Action}
    (h : startingTimeCalculation queue table nodeId ntiers sgxMax nodeCurrentTime = .ok (.leader actions)) :
    Diminishing node (actions.filterMap Action.record) := by
  have hdelay : minimumArrivalTime table node ≤ nodeCurrentTime := by
    by_contra hearly
    cases h.symm.trans (startingTimeCalculation_early ht hid hs hnode (Int.not_le.mp hearly))
  have hwaits : nodeId ∈ queue ∧ 0 < node.timeLeft := by
    by_contra hrejoin
    cases h.symm.trans (startingTimeCalculation_rejoin ht hid hs hleft hqueue hnode hdelay hrejoin)
  obtain ⟨_, actions', -, hactions, -, -, hrecords⟩ :=
    startingTimeCalculation_actions ht hid hs hleft hqueue hnode hdelay hwaits.1 hwaits.2
  cases h.symm.trans hactions
  exact hrecords

/-- Two nodes register and broadcast, and the first one broadcasts again. -/
def twoRejoin : List (ℕ × Request) :=
  [(0, .register true true (registerJson keyA)), (1, .register true true (registerJson keyB)),
    (0, .sgxTimeBroadcast 7 (sgxtJson 6)), (1, .sgxTimeBroadcast 8 (sgxtJson 9)),
    (0, .sgxTimeBroadcast 8 (sgxtJson 6))]

/-- The second node reports that 4 of its 9 are left. -/
theorem exists_runs_twoRejoin :
    ∃ s t : Server, Runs (Server.step fun _ => 0) InOrder (oneToTen.server 0) s ∧
      s.step (fun _ => 0) (1, .unfinishedNode (nodeJson ⟨1, 8, 9, 0, 4⟩)) t ∧
      s.g.sgxTable = [⟨0, 8, 6, 1, 6⟩, ⟨1, 8, 9, 0, 9⟩] ∧ s.g.queue = [0, 1] ∧
      t.g.sgxTable = [⟨0, 8, 6, 1, 6⟩, ⟨1, 8, 9, 0, 4⟩] ∧ t.g.queue = [1, 1] := by
  have hrun : (Runs.exec (Server.serve fun _ => 0) InOrder .blocked twoRejoin (oneToTen.server 0)).map
      (fun s => ((s.g.sgxTable, s.g.queue),
        (s.serve (fun _ => 0) (1, .unfinishedNode (nodeJson ⟨1, 8, 9, 0, 4⟩))).map
          fun t => (t.g.sgxTable, t.g.queue))) =
      .ok (([⟨0, 8, 6, 1, 6⟩, ⟨1, 8, 9, 0, 9⟩], [0, 1]),
        .ok ([⟨0, 8, 6, 1, 6⟩, ⟨1, 8, 9, 0, 4⟩], [1, 1])) := by
    decide +kernel
  obtain ⟨s, hs, hvalues⟩ := Except.map_eq_ok.mp hrun
  obtain ⟨hstate, ht⟩ := Prod.mk.inj hvalues
  obtain ⟨t, ht, htstate⟩ := Except.map_eq_ok.mp ht
  obtain ⟨htable, hqueue⟩ := Prod.mk.inj hstate
  obtain ⟨httable, htqueue⟩ := Prod.mk.inj htstate
  exact ⟨s, t, Runs.of_exec hs, ht, htable, hqueue, httable, htqueue⟩

/-- The request is one that can change the `k`-th entry: a broadcast of its node, or a record with its id. -/
def Server.Touches (raw : Json → ℤ) (k : ℕ) (s : Server) : ℕ × Request → Prop
  | (_, .register _ _ _) => False
  | (c, .sgxTimeBroadcast now json) => WritesEntry k s (c, .sgxTimeBroadcast now json)
  | (_, .unfinishedNode json) => ∃ newNode, jsonToNodeT raw json = .ok (some newNode) ∧ newNode.nodeId = k

theorem Server.step_untouched {raw : Json → ℤ} {s t : Server} {a : ℕ × Request} (h : s.step raw a t) {k : ℕ}
    (hk : ¬s.Touches raw k a) {node : Node} (hnode : s.g.sgxTable[k]? = some node) :
    t.g.sgxTable[k]? = some node := by
  obtain ⟨c, request⟩ := a
  obtain ⟨r, hr, ht⟩ := Server.step_cases h
  rw [ht]
  cases request with
  | register keysLocked idsLocked json => rwa [(poetRegister_frame hr).1]
  | sgxTimeBroadcast now json =>
    obtain ⟨-, rfl⟩ | ⟨sgxt, sender, hsome, hsender, hins, -, -⟩ := poetSgxTimeBroadcast_cases hr
    · exact hnode
    · have hne : sender.nodeId ≠ k := fun heq => hk ⟨by rw [hsome]; rfl, sender, hsender, heq⟩
      obtain ⟨table, pushed, repetitions, hinserted, hg⟩ := insertNodeIntoSgxTableAndQueue_cases hins
      rw [hg]
      obtain ⟨m, -, -, -, rfl, -⟩ | ⟨-, rfl, -⟩ := hinserted
      · exact (List.getElem?_set_ne hne).trans hnode
      · exact (List.getElem?_append_left (List.getElem?_eq_some_iff.mp hnode).1).trans hnode
  | unfinishedNode json =>
    obtain rfl | ⟨newNode, dest, repetitions, hjson, -, -, -, -, -, rfl⟩ := poetUnfinishedNode_cases hr
    · exact hnode
    · have hne : newNode.nodeId ≠ k := fun heq => hk ⟨newNode, hjson, heq⟩
      exact (List.getElem?_set_ne hne).trans hnode

/-- The server, and the records that a client has yet to send to it. -/
structure Reporting where
  server : Server
  left : List Node

namespace Reporting

/-- The next record is handled, on the connection `c`, or a request of anybody. -/
def step (raw : Json → ℤ) (c : ℕ) (s : Reporting) : Option (ℕ × Request) → Reporting → Prop
  | none, t => ∃ n, s.left = n :: t.left ∧ s.server.step raw (c, .unfinishedNode (nodeJson n)) t.server
  | some a, t => t.left = s.left ∧ s.server.step raw a t.server

/-- A request between the records leaves the entry alone. -/
def Apart (raw : Json → ℤ) (k : ℕ) (s : Reporting) (e : Option (ℕ × Request)) : Prop :=
  ∀ a ∈ e, ¬s.server.Touches raw k a

/-- The entry is the last record that was handled, if there is one, and those to come are diminishing. -/
structure Reported (k : ℕ) (node : Node) (records : List Node) (s : Reporting) : Prop where
  sent : ∃ sent, records = sent ++ s.left ∧ s.server.g.sgxTable[k]? = some (sent.getLast?.getD node)
  left : ∀ dest, s.server.g.sgxTable[k]? = some dest → dest.nodeId = k ∧ dest.InRange ∧
    dest.timeLeft ≤ dest.sgxTime ∧ Diminishing dest s.left

namespace Reported

variable {k : ℕ} {node n : Node} {records : List Node} {s t : Reporting}

/-- The next record is accepted. -/
theorem accepted (raw : Json → ℤ) (h : s.Reported k node records) (hn : n ∈ s.left.head?) (context : Context) :
    ∃ r, poetUnfinishedNode raw (nodeJson n) s.server.g context = .ok r ∧ r.reply = some .success ∧
      r.returned = true ∧ r.g.sgxTable = s.server.g.sgxTable.set k n ∧
      r.g.queue = s.server.g.queue.tail.dedup ++ [k] := by
  obtain ⟨rest, hrest⟩ := List.head?_eq_some_iff.mp hn
  obtain ⟨sent, -, hdest⟩ := h.sent
  obtain ⟨hid, hrange, hleft, hdiminishing⟩ := h.left _ hdest
  generalize sent.getLast?.getD node = dest at *
  rw [hrest] at hdiminishing
  obtain ⟨hfields, -, hlt, -⟩ := hdiminishing
  have hjson : jsonToNodeT raw (nodeJson n) = .ok (some n) := by
    obtain ⟨h1, h2, h3, h4, h5⟩ := hrange
    rw [hfields]
    exact jsonToNodeT_nodeJson raw ⟨h1, h2, h3, h4, hlt.trans h5⟩ (hlt.le.trans hleft)
  have hnodeId : n.nodeId = k := by rw [hfields]; exact hid
  have hentry : UnfinishedEntry s.server.g n dest :=
    ⟨by rwa [hnodeId], by rw [hid, hnodeId], by rw [hfields], by rw [hfields], hlt.le⟩
  obtain ⟨repetitions, hr⟩ := poetUnfinishedNode_ok hjson hentry context
  rw [← hfields, hnodeId] at hr
  exact ⟨_, hr, rfl, rfl, rfl, rfl⟩

theorem step {raw : Json → ℤ} {c : ℕ} {e : Option (ℕ × Request)} (h : s.Reported k node records)
    (he : s.Apart raw k e) (hstep : Reporting.step raw c s e t) : t.Reported k node records := by
  cases e with
  | none =>
    obtain ⟨n, hn, hserve⟩ := hstep
    obtain ⟨r, hr, ht⟩ := Server.step_cases hserve
    have hhead : n ∈ s.left.head? := by rw [hn]; rfl
    obtain ⟨r', hr', -, -, htable, -⟩ := h.accepted raw hhead (s.server.contexts c)
    cases hr.symm.trans hr'
    obtain ⟨sent, hrecords, hdest⟩ := h.sent
    have hnode : t.server.g.sgxTable[k]? = some n := by
      rw [ht, htable]
      exact List.getElem?_set_self (List.getElem?_eq_some_iff.mp hdest).1
    refine ⟨⟨sent ++ [n], ?_, ?_⟩, fun dest htdest => ?_⟩
    · rw [hrecords, hn, List.append_assoc]
      rfl
    · rw [hnode, List.getLast?_concat]
      rfl
    · cases hnode.symm.trans htdest
      obtain ⟨hid, ⟨h1, h2, h3, h4, h5⟩, hleft, hdiminishing⟩ := h.left _ hdest
      rw [hn] at hdiminishing
      obtain ⟨hfields, -, hlt, hrest⟩ := hdiminishing
      refine ⟨?_, ?_, ?_, hrest⟩
      · rw [hfields]
        exact hid
      · rw [hfields]
        exact ⟨h1, h2, h3, h4, hlt.trans h5⟩
      · rw [hfields]
        exact hlt.le.trans hleft
  | some a =>
    obtain ⟨hleft, hserve⟩ := hstep
    obtain ⟨sent, hrecords, hdest⟩ := h.sent
    have hkept := Server.step_untouched hserve (he a rfl) hdest
    refine ⟨⟨sent, hleft ▸ hrecords, hkept⟩, fun dest htdest => ?_⟩
    rw [hleft]
    exact h.left dest (by rw [hdest, ← hkept, htdest])

end Reported

end Reporting

/-- The way back: a client that was notified of the server's state reports on the schedule that it has made
of it. However the requests of others come in between, as long as they leave the entry of the node alone,
the server accepts every report in its turn: its entry of the node is then the record in the report, and the
node goes to the end of the queue. -/
theorem Server.unfinishedNode_of_runs {σ : Type} {lib : JsonLibrary σ} (hlib : lib.Correct)
    {raw : Json → ℤ} {config : Configuration} (hmax : config.sgxmax < uintSize) {serverStartingTime : ℤ}
    {s : Server} (h : Runs (Server.step raw) InOrder (config.server serverStartingTime) s)
    (hlength : notificationLength s.g.queue s.g.sgxTable < intSize) {now : ℤ} {m m' : Mirror}
    (hm : updateSgxTableAndQueueFromTxt lib raw now serverStartingTime
      (notificationText s.g.queue s.g.sgxTable) m = .ok (true, m')) {nodeId : ℕ} {actions : List Action}
    (hactions : startingTimeCalculation m'.queue m'.sgxTable nodeId config.nTiers config.sgxmax
      m'.nodeCurrentTime = .ok (.leader actions)) {c : ℕ} {t : Reporting}
    (hrun : Runs (Reporting.step raw c) (Reporting.Apart raw nodeId)
      ⟨s, actions.filterMap Action.record⟩ t) :
    (∃ node sent, s.g.sgxTable[nodeId]? = some node ∧
      actions.filterMap Action.record = sent ++ t.left ∧
      t.server.g.sgxTable[nodeId]? = some (sent.getLast?.getD node)) ∧
    ∀ n ∈ t.left.head?, ∃ r,
      poetUnfinishedNode raw (nodeJson n) t.server.g (t.server.contexts c) = .ok r ∧
      r.reply = some .success ∧ r.returned = true ∧
      r.g.sgxTable = t.server.g.sgxTable.set nodeId n ∧
      r.g.queue = t.server.g.queue.tail.dedup ++ [nodeId] := by
  have hs := Server.ordered_of_runs h
  have hleft := fun node hnode => (hs.admissible node hnode).timeLeft
  cases hm.symm.trans (hs.update hlib hmax hlength raw now serverStartingTime m)
  obtain ⟨node, _, _, _, _, hnode, -⟩ := startingTimeCalculation_eq_leader hactions
  have hrecords : Diminishing node (actions.filterMap Action.record) :=
    startingTimeCalculation_records config.nTiers_pos hs.indexed.table hs.sgxTimesIn hleft hs.indexed.queue
      hnode hactions
  have htable := length_le_notificationLength s.g.queue s.g.sgxTable
  have hsmall : intSize ≤ uintSize := by decide
  have hinitial : Reporting.Reported nodeId node (actions.filterMap Action.record)
      ⟨s, actions.filterMap Action.record⟩ := by
    refine ⟨⟨[], rfl, hnode⟩, fun dest hdest => ?_⟩
    cases hnode.symm.trans hdest
    exact ⟨hs.indexed.table nodeId node hnode, hs.inRange hmax (by omega) node (List.mem_of_getElem? hnode),
      hleft node (List.mem_of_getElem? hnode), hrecords⟩
  have ht : t.Reported nodeId node (actions.filterMap Action.record) :=
    Runs.invariant (I := Reporting.Reported nodeId node (actions.filterMap Action.record))
      (fun _ _ _ hs hapart hstep => hs.step hapart hstep) hrun hinitial
  obtain ⟨sent, hsent, hentry⟩ := ht.sent
  exact ⟨⟨node, sent, hnode, hsent, hentry⟩, fun n hn => ht.accepted raw hn _⟩

/-- The first node reports when the second one has reported. -/
theorem Server.unfinishedNode_of_runs_twoRejoin :
    ∃ (t : Server) (r : Handled),
      poetUnfinishedNode (fun _ => 0) (nodeJson ⟨0, 8, 6, 1, 3⟩) t.g (t.contexts 0) = .ok r ∧
      r.reply = some .success ∧ r.g.sgxTable = [⟨0, 8, 6, 1, 3⟩, ⟨1, 8, 9, 0, 4⟩] ∧ r.g.queue = [1, 0] := by
  obtain ⟨s, t, hs, ht, htable, hqueue, httable, htqueue⟩ := exists_runs_twoRejoin
  have hlength : notificationLength s.g.queue s.g.sgxTable < intSize := by
    rw [htable, hqueue]
    decide
  have hmax : oneToTen.sgxmax < uintSize := by decide
  have hm := (Server.ordered_of_runs hs).update readerLibrary_correct hmax hlength (fun _ => 0) 9 0 ⟨[], [], 0⟩
  have hactions : startingTimeCalculation s.g.queue s.g.sgxTable 0 2 10 (9 - 0) =
      .ok (.leader [.sleep 3, .notify ⟨0, 8, 6, 1, 3⟩, .sleep 4]) := by
    rw [htable, hqueue]
    decide
  have hapart : Reporting.Apart (fun _ => 0) 0 ⟨s, [⟨0, 8, 6, 1, 3⟩]⟩
      (some (1, .unfinishedNode (nodeJson ⟨1, 8, 9, 0, 4⟩))) := by
    rintro a ⟨⟩ ⟨newNode, hjson, hid⟩
    cases hjson
    cases hid
  have hrun : Runs (Reporting.step (fun _ => 0) 0) (Reporting.Apart (fun _ => 0) 0)
      ⟨s, [⟨0, 8, 6, 1, 3⟩]⟩ ⟨t, [⟨0, 8, 6, 1, 3⟩]⟩ :=
    .single ⟨_, hapart, rfl, ht⟩
  obtain ⟨-, haccepted⟩ := Server.unfinishedNode_of_runs readerLibrary_correct hmax hs hlength hm hactions hrun
  obtain ⟨r, hr, hreply, -, hrtable, hrqueue⟩ := haccepted ⟨0, 8, 6, 1, 3⟩ rfl
  refine ⟨t, r, hr, hreply, ?_, ?_⟩
  · rw [hrtable]
    change t.g.sgxTable.set 0 _ = _
    rw [httable]
    rfl
  · rw [hrqueue]
    change t.g.queue.tail.dedup ++ [0] = _
    rw [htqueue]
    rfl

end PoQ
