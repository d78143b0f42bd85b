import PoQ.Schedule

/-!
# Leadership times and the round-robin schedule

For fresh tables (every node still needs its whole SGX time) the leadership time is compared with the
completion time of the round-robin schedule. The two differ by the excess of the schedule: a slice of
another node is counted with at most the time the asking node still needs, so that whatever exceeds it
is missing from the result (`charge_add_excess`).
-/

namespace PoQ

open RoundRobin

/-- Every node still needs its whole SGX time. -/
def Fresh (table : List Node) : Prop := ∀ node ∈ table, node.timeLeft = node.sgxTime

theorem sgxTimeAt_eq {table : List Node} {u : ℕ} {node : Node} (h : table[u]? = some node) :
    sgxTimeAt table u = node.sgxTime := by
  simp [sgxTimeAt, h]

private theorem minimumArrivalTime_le_iff (table : List Node) (node : Node) (m : ℕ) :
    m ≤ minimumArrivalTime table node ↔
      m ≤ node.arrivalTime ∧ ∀ other ∈ table, m ≤ other.arrivalTime := by
  have key : ∀ (l : List Node) (a : ℕ), m ≤ l.foldl (fun m node => min m node.arrivalTime) a ↔
      m ≤ a ∧ ∀ other ∈ l, m ≤ other.arrivalTime := by
    intro l
    induction l with
    | nil => simp
    | cons other l ih => intro a; simp [ih, and_assoc]
  exact key table node.arrivalTime

/-- The minimum arrival time is that of the table, whoever asks for it. -/
theorem minimumArrivalTime_congr {table : List Node} {node node' : Node} (h : node ∈ table)
    (h' : node' ∈ table) : minimumArrivalTime table node = minimumArrivalTime table node' := by
  refine eq_of_forall_le_iff fun m => ?_
  rw [minimumArrivalTime_le_iff, minimumArrivalTime_le_iff]
  exact and_congr_left fun hall => iff_of_true (hall node h) (hall node' h')

section
variable {table : List Node} {qts : List ℕ} (Q : Quanta table qts) {sgxMax : ℕ}
  (hs : SgxTimesIn table sgxMax) (hfresh : Fresh table) {queue : List ℕ} (hn : queue.Nodup)
  (hqueue : ∀ u ∈ queue, u < table.length)
include hs hqueue

theorem Quanta.work_pos {u : ℕ} (h : u ∈ queue) : 0 < Q.load.work u := by
  have hu := hqueue u h
  have hnode : table[u]? = some (table[u]) := List.getElem?_eq_getElem hu
  change 0 < sgxTimeAt table u
  rw [sgxTimeAt_eq hnode]
  exact (hs _ (List.getElem_mem hu)).1

include hn

/-- What is counted for a fresh node falls short of its completion time by the excess. -/
theorem Quanta.charge_add_excess {c : ℕ} (hc : c ∈ queue) :
    Q.charge c (sgxTimeAt table c) queue + Q.load.excess c queue =
      Q.load.completionTime c queue (sgxTimeAt table) :=
  Load.charge_add_excess (L := Q.load) hn hc fun _ hu => Q.work_pos hs hqueue hu

include hfresh

/-- The counted time of a fresh node is positive. -/
theorem Quanta.excess_lt {c : ℕ} {node : Node} (hnode : table[c]? = some node) (hc : c ∈ queue) :
    Q.load.excess c queue < Q.load.completionTime c queue (sgxTimeAt table) := by
  have hmem := List.mem_of_getElem? hnode
  have hid := Q.indexed c node hnode
  have hleft : node.timeLeft = sgxTimeAt table node.nodeId := by
    rw [hfresh node hmem, hid, sgxTimeAt_eq hnode]
  have h1 := Q.timeLeft_le_charge hqueue hleft.le (hid ▸ hc)
  have h2 := Q.charge_add_excess hs hn hqueue hc
  have h3 := (hs node hmem).1
  rw [hid, hleft, hid] at h1
  rw [sgxTimeAt_eq hnode] at h1 h2
  omega

/-- The leadership time of a fresh node. -/
theorem calcLeadershipTime_fresh {ntiers : ℕ}
    (hqts : calcQuantumTimes table ntiers sgxMax = .ok qts) {c : ℕ} {node : Node}
    (hnode : table[c]? = some node) (hc : c ∈ queue) (nodeCurrentTime : ℤ) :
    calcLeadershipTime queue table node ntiers sgxMax nodeCurrentTime =
      .ok (max (Q.load.completionTime c queue (sgxTimeAt table) - Q.load.excess c queue -
        max (nodeCurrentTime - minimumArrivalTime table node) 0) 0) := by
  have hmem := List.mem_of_getElem? hnode
  have hid := Q.indexed c node hnode
  have hleft : node.timeLeft = sgxTimeAt table c := by rw [hfresh node hmem, sgxTimeAt_eq hnode]
  have hpos : 0 < node.timeLeft := by rw [hfresh node hmem]; exact (hs node hmem).1
  have hT : node.timeLeft ≤ sgxTimeAt table node.nodeId := by rw [hid, hleft]
  have hsum := Q.charge_add_excess hs hn hqueue hc
  rw [calcLeadershipTime_eq Q hqueue hT hqts, hid, if_pos ⟨hc, hpos⟩, hleft]
  congr 2
  omega

end

/-- The leadership time is the completion time of the round-robin schedule exactly when no slice is
counted short: in no round does a node ahead of the asking one get more than the asking node needs
at that moment, nor a node behind it more than it needs after its own turn of the round. -/
theorem calcLeadershipTime_eq_completionTime_iff {table : List Node} {ntiers sgxMax : ℕ}
    (ht : 1 ≤ ntiers) (hid : IndexedById table) (hs : SgxTimesIn table sgxMax)
    (hfresh : Fresh table) {queue : List ℕ} (hn : queue.Nodup)
    (hqueue : ∀ u ∈ queue, u < table.length) {c : ℕ} {node : Node} (hnode : table[c]? = some node)
    (hc : c ∈ queue) {nodeCurrentTime : ℤ}
    (htime : nodeCurrentTime ≤ minimumArrivalTime table node) :
    ∃ (qts : List ℕ) (Q : Quanta table qts), calcQuantumTimes table ntiers sgxMax = .ok qts ∧
      (calcLeadershipTime queue table node ntiers sgxMax nodeCurrentTime =
          .ok (Q.load.completionTime c queue (sgxTimeAt table)) ↔
        (∀ u ∈ Load.ahead c queue, ∀ k, 0 < Q.load.left c k →
          Q.load.slice u k ≤ Q.load.left c k) ∧
        (∀ u ∈ Load.behind c queue, ∀ k, 0 < Q.load.left c (k + 1) →
          Q.load.slice u k ≤ Q.load.left c (k + 1))) := by
  obtain ⟨h1, h2⟩ := hs node (List.mem_of_getElem? hnode)
  obtain ⟨qts, hqts, Q⟩ := Quanta.of_calcQuantumTimes ht (h1.trans h2) hid hs
  refine ⟨qts, Q, hqts, ?_⟩
  have hsum := Q.charge_add_excess hs hn hqueue hc
  have hdelay : max (nodeCurrentTime - minimumArrivalTime table node) 0 = 0 := by omega
  rw [calcLeadershipTime_fresh Q hs hfresh hn hqueue hqts hnode hc, hdelay, ← Load.excess_eq_zero]
  simp only [Except.ok.injEq]
  omega

/-- The table of `test_leadership_time`. -/
def testTable : List Node :=
  [⟨0, 0, 10, 0, 10⟩, ⟨1, 0, 4, 0, 4⟩, ⟨2, 0, 2, 0, 2⟩, ⟨3, 0, 9, 0, 9⟩]

theorem testTable_indexed : IndexedById testTable := by
  intro i node h
  rcases i with _ | _ | _ | _ | i <;> simp [testTable] at h <;> simp [← h]

/-- On the table of the repository's own test the result is 24. The schedule, and the test, say 25:
when node 3 still needs 4, a slice of 5 is counted with 4. -/
theorem calcLeadershipTime_testTable :
    IndexedById testTable ∧ SgxTimesIn testTable 10 ∧ Fresh testTable ∧
      calcQuantumTimes testTable 2 10 = .ok [5, 2, 2, 5] ∧
      calcLeadershipTime [0, 1, 2, 3] testTable ⟨3, 0, 9, 0, 9⟩ 2 10 0 = .ok 24 ∧
      ∀ Q : Quanta testTable [5, 2, 2, 5],
        Q.load.completionTime 3 [0, 1, 2, 3] (sgxTimeAt testTable) = 25 := by
  refine ⟨testTable_indexed, by simp [SgxTimesIn, testTable], by simp [Fresh, testTable],
    by decide, by decide +kernel, fun Q => ?_⟩
  simp [Load.completionTime, Quanta.load, sgxTimeAt, testTable, Function.update]

theorem calcLeadershipTime_iff_testTable :
    ∃ (qts : List ℕ) (Q : Quanta testTable qts), calcQuantumTimes testTable 2 10 = .ok qts ∧
      (calcLeadershipTime [0, 1, 2, 3] testTable ⟨3, 0, 9, 0, 9⟩ 2 10 0 =
          .ok (Q.load.completionTime 3 [0, 1, 2, 3] (sgxTimeAt testTable)) ↔
        (∀ u ∈ Load.ahead 3 [0, 1, 2, 3], ∀ k, 0 < Q.load.left 3 k →
          Q.load.slice u k ≤ Q.load.left 3 k) ∧
        (∀ u ∈ Load.behind 3 [0, 1, 2, 3], ∀ k, 0 < Q.load.left 3 (k + 1) →
          Q.load.slice u k ≤ Q.load.left 3 (k + 1))) :=
  calcLeadershipTime_eq_completionTime_iff (by decide) testTable_indexed
    (by simp [SgxTimesIn, testTable]) (by simp [Fresh, testTable]) (by decide) (by decide) rfl
    (by decide) (by decide)

/-! ## Collisions -/

/-- Two fresh nodes that ask on the same snapshot are given different leadership times, as far as both
are positive, unless what is counted short for one makes up for the time between their completions.
If nothing is counted short for the node that completes last, they never collide. -/
theorem calcLeadershipTime_ne_iff {table : List Node} {ntiers sgxMax : ℕ} (ht : 1 ≤ ntiers)
    (hid : IndexedById table) (hs : SgxTimesIn table sgxMax) (hfresh : Fresh table)
    {queue : List ℕ} (hn : queue.Nodup) (hqueue : ∀ u ∈ queue, u < table.length) {i j : ℕ}
    {nodeI nodeJ : Node} (hij : i ≠ j) (hi : table[i]? = some nodeI) (hj : table[j]? = some nodeJ)
    (hqi : i ∈ queue) (hqj : j ∈ queue) (nodeCurrentTime : ℤ) :
    ∃ (qts : List ℕ) (Q : Quanta table qts) (timeI timeJ : ℤ),
      calcQuantumTimes table ntiers sgxMax = .ok qts ∧
      calcLeadershipTime queue table nodeI ntiers sgxMax nodeCurrentTime = .ok timeI ∧
      calcLeadershipTime queue table nodeJ ntiers sgxMax nodeCurrentTime = .ok timeJ ∧
      ((0 < timeI → 0 < timeJ → timeI ≠ timeJ) ↔
        (Q.load.completionTime j queue (sgxTimeAt table) : ℤ) -
            Q.load.completionTime i queue (sgxTimeAt table) ≠
          Q.load.excess j queue - Q.load.excess i queue ∨
        (Q.load.completionTime i queue (sgxTimeAt table) : ℤ) - Q.load.excess i queue ≤
          nodeCurrentTime - minimumArrivalTime table nodeI) ∧
      (Q.load.completionTime i queue (sgxTimeAt table) ≤
          Q.load.completionTime j queue (sgxTimeAt table) →
        Q.load.excess j queue = 0 → 0 < timeI → 0 < timeJ → timeI ≠ timeJ) := by
  obtain ⟨h1, h2⟩ := hs nodeI (List.mem_of_getElem? hi)
  obtain ⟨qts, hqts, Q⟩ := Quanta.of_calcQuantumTimes ht (h1.trans h2) hid hs
  refine ⟨qts, Q, _, _, hqts, calcLeadershipTime_fresh Q hs hfresh hn hqueue hqts hi hqi _,
    calcLeadershipTime_fresh Q hs hfresh hn hqueue hqts hj hqj _, ?_⟩
  have hpos : ∀ u ∈ queue, 0 < Q.load.left u 0 := fun u hu => by
    simpa [Load.left] using Q.work_pos hs hqueue hu
  have hne : Q.load.completionTime i queue (sgxTimeAt table) ≠
      Q.load.completionTime j queue (sgxTimeAt table) := by
    have := Load.completionTime_ne hij hn hqi hqj hpos
    simpa [Load.left, Quanta.load] using this
  rw [minimumArrivalTime_congr (List.mem_of_getElem? hi) (List.mem_of_getElem? hj)]
  have hsi := Q.excess_lt hs hfresh hn hqueue hi hqi
  have hsj := Q.excess_lt hs hfresh hn hqueue hj hqj
  constructor
  · omega
  · omega

/-- Two nodes in different tiers, the second with the smaller SGX time. -/
def pairTable : List Node := [⟨0, 1, 2, 0, 2⟩, ⟨1, 1, 1, 0, 1⟩]

theorem pairTable_indexed : IndexedById pairTable := by
  intro i node h
  rcases i with _ | _ | i <;> simp [pairTable] at h <;> simp [← h]

/-- Node 1 waits for a slice of 2 of node 0, which is counted with 1: both are given the time 2. -/
theorem calcLeadershipTime_pairTable :
    IndexedById pairTable ∧ SgxTimesIn pairTable 2 ∧ Fresh pairTable ∧ [0, 1].Nodup ∧
      (∀ u ∈ [0, 1], u < pairTable.length) ∧
      calcLeadershipTime [0, 1] pairTable ⟨0, 1, 2, 0, 2⟩ 2 2 1 = .ok 2 ∧
      calcLeadershipTime [0, 1] pairTable ⟨1, 1, 1, 0, 1⟩ 2 2 1 = .ok 2 :=
  ⟨pairTable_indexed, by simp [SgxTimesIn, pairTable], by simp [Fresh, pairTable], by decide,
    by decide, by decide, by decide⟩

theorem calcLeadershipTime_ne_iff_pairTable :
    ∃ (qts : List ℕ) (Q : Quanta pairTable qts) (timeI timeJ : ℤ),
      calcQuantumTimes pairTable 2 2 = .ok qts ∧
      calcLeadershipTime [0, 1] pairTable ⟨0, 1, 2, 0, 2⟩ 2 2 1 = .ok timeI ∧
      calcLeadershipTime [0, 1] pairTable ⟨1, 1, 1, 0, 1⟩ 2 2 1 = .ok timeJ ∧
      ((0 < timeI → 0 < timeJ → timeI ≠ timeJ) ↔
        (Q.load.completionTime 1 [0, 1] (sgxTimeAt pairTable) : ℤ) -
            Q.load.completionTime 0 [0, 1] (sgxTimeAt pairTable) ≠
          Q.load.excess 1 [0, 1] - Q.load.excess 0 [0, 1] ∨
        (Q.load.completionTime 0 [0, 1] (sgxTimeAt pairTable) : ℤ) - Q.load.excess 0 [0, 1] ≤
          1 - minimumArrivalTime pairTable ⟨0, 1, 2, 0, 2⟩) ∧
      (Q.load.completionTime 0 [0, 1] (sgxTimeAt pairTable) ≤
          Q.load.completionTime 1 [0, 1] (sgxTimeAt pairTable) →
        Q.load.excess 1 [0, 1] = 0 → 0 < timeI → 0 < timeJ → timeI ≠ timeJ) :=
  calcLeadershipTime_ne_iff (by decide) pairTable_indexed (by simp [SgxTimesIn, pairTable])
    (by simp [Fresh, pairTable]) (by decide) (by decide) (by decide) rfl rfl (by decide)
    (by decide) 1

end PoQ
