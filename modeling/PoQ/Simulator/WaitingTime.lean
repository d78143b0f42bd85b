import PoQ.Simulator.Completion

/-!
# Waiting times in the simulator

`waiting_time` of `POET++.cpp` looks for the last slot of every node in `nodes_queue`. The array is 0 at the
start, and `arrange` writes only the slots in which a node runs, so that slots without a node look like slots of
the node 0.
-/

namespace PoQ

namespace Sim

/-- The loop of `waiting_time` that looks for the last slot of a node, below `t`: the time at which it ends. -/
def releaseTime (c : Simulation) (nodesQueue : ℕ → ℕ) (i : ℕ) : ℕ → Except Abort ℕ
  | 0 => .ok 0
  | t + 1 => do
    ensure (t < c.size) .outOfRange
    if nodesQueue t ≠ i then releaseTime c nodesQueue i t else return t + 1

/-- `waiting_time`: what it stores in `wait_times`. -/
def waitingTime (c : Simulation) (s : Sim) : Except Abort (List ℕ) :=
  s.table.zipIdx.mapM fun (node, i) => do
    let releaseTime ← releaseTime c s.nodesQueue i s.currentTime
    return toUint (releaseTime - node.arrivalTime - node.sgxTime)

/-! ## The slots without a node -/

/-- The SGX times of the nodes that arrive up to the time `t`. -/
def arrivedWork (nodes : List (ℕ × ℕ)) (t : ℕ) : ℕ := (nodes.map fun p => if p.1 ≤ t then p.2 else 0).sum

/-- Whenever a node is still to arrive, those that are there have enough to do. -/
def NeverIdle (nodes : List (ℕ × ℕ)) : Prop :=
  ∀ t, (∃ p ∈ nodes, t < p.1) → t < arrivedWork nodes t

/-- No node runs in the slot. -/
def Idle (s : Sim) (t : ℕ) : Prop := ∀ i, (t, i) ∉ s.ran

/-- The slots so far: all have been run in, by nodes that had enough to do; or there is one without a node, because
none was there. -/
def Filled (nodes : List (ℕ × ℕ)) (s : Sim) : Prop :=
  s.ran.length = s.currentTime ∧ (∀ t < s.currentTime, ¬s.Idle t ∧ t < arrivedWork nodes t) ∨
    ∃ t < s.currentTime, s.Idle t ∧ (∃ p ∈ nodes, t < p.1) ∧ arrivedWork nodes t ≤ t

/-- The slots so far: the SGX times are used up or left; `nodes_queue` holds 0 where nobody has run; the slots are
within the array. -/
structure Slotted (c : Simulation) (nodes : List (ℕ × ℕ)) (s : Sim) : Prop where
  work : s.ran.length + work s.table = (nodes.map Prod.snd).sum
  idle : ∀ t, s.Idle t → s.nodesQueue t = 0
  size : ∀ p ∈ s.ran, p.1 < c.size
  filled : s.Filled nodes

variable {c : Simulation} {s s' : Sim} {nodes : List (ℕ × ℕ)} {y k : ℕ} {rest : List ℕ} {node : Node}
  {left : Bool} {q : ℕ → ℕ}

theorem arrivedWork_mono (nodes : List (ℕ × ℕ)) {t u : ℕ} (h : t ≤ u) : arrivedWork nodes t ≤ arrivedWork nodes u := by
  refine List.sum_le_sum fun p _ => ?_
  split_ifs <;> omega

/-- The time that is left to the nodes that have arrived. -/
def arrivedLeft (s : Sim) : ℕ :=
  (s.table.map fun node => if node.arrivalTime ≤ s.currentTime then node.timeLeft else 0).sum

/-- What the nodes that have arrived have brought, they have used up or have left. -/
theorem arrivedWork_eq (h : s.Slotted c nodes) (hqueued : s.Queued c) (hserved : s.Served nodes) :
    arrivedWork nodes s.currentTime = s.ran.length + s.arrivedLeft := by
  have hnode : ∀ node ∈ s.table, (if node.arrivalTime ≤ s.currentTime then node.sgxTime else 0) + node.timeLeft =
      node.sgxTime + if node.arrivalTime ≤ s.currentTime then node.timeLeft else 0 := by
    intro node hmem
    obtain ⟨i, hi⟩ := List.mem_iff_getElem?.mp hmem
    split
    · rfl
    · next hlater => rw [hqueued.fresh i node hi (Nat.not_le.mp hlater), Nat.zero_add, Nat.add_zero]
  have hsum := congrArg List.sum (List.map_congr_left hnode)
  rw [List.sum_map_add, List.sum_map_add] at hsum
  have hwork : s.ran.length + (s.table.map Node.timeLeft).sum = (s.table.map Node.sgxTime).sum := by
    have hwork := h.work
    rw [← hserved.times, List.map_map] at hwork
    exact hwork
  rw [← hserved.times, arrivedWork, List.map_map]
  simp only [Function.comp_def, arrivedLeft]
  omega

/-- When nobody is in the queue, those with time left are still to arrive. -/
theorem Queued.lt_arrivalTime (h : s.Queued c) (hqueue : s.queue = []) {i : ℕ} (hi : s.table[i]? = some node)
    (hleft : 0 < node.timeLeft) : s.currentTime < node.arrivalTime := by
  by_contra harrived
  have hmem := (h.mem i).mpr ⟨node, hi, Nat.not_lt.mp harrived, hleft⟩
  rw [hqueue] at hmem
  cases hmem

theorem arrivedLeft_eq_zero (hqueued : s.Queued c) (hqueue : s.queue = []) : s.arrivedLeft = 0 := by
  refine List.sum_eq_zero fun left hleft => ?_
  obtain ⟨node, hmem, rfl⟩ := List.mem_map.mp hleft
  obtain ⟨i, hi⟩ := List.mem_iff_getElem?.mp hmem
  split
  · next harrived =>
    by_contra hpos
    exact Nat.not_lt.mpr harrived (hqueued.lt_arrivalTime hqueue hi (Nat.pos_of_ne_zero hpos))
  · rfl

theorem le_arrivedLeft (hy : s.table[y]? = some node) (harrived : node.arrivalTime ≤ s.currentTime) :
    node.timeLeft ≤ s.arrivedLeft := by
  refine List.le_sum_of_mem (List.mem_map.mpr ⟨node, List.mem_of_getElem? hy, ?_⟩)
  rw [if_pos harrived]

namespace Slotted

theorem evaluated (h : s.Slotted c nodes) {table : List Node} (draws : ℕ) (hrejoin : c.nodesRejoin = false)
    (htable : List.Forall₂ (Evaluated c s.currentTime) s.table table) :
    Slotted c nodes { s with table, draws } := by
  refine ⟨?_, h.idle, h.size, h.filled⟩
  simp only [work_evaluated htable hrejoin]
  exact h.work

/-- Time passes, because nobody is there. -/
theorem idlePass (h : s.Slotted c nodes) (hqueued : s.Queued c) (hserved : s.Served nodes) (hqueue : s.queue = [])
    (hleft : ∃ node ∈ s.table, 0 < node.timeLeft) (q : ℕ → ℕ) : (s.afterIdle q).Slotted c nodes := by
  refine ⟨h.work, h.idle, h.size, .inr ?_⟩
  obtain ⟨hlength, -⟩ | ⟨t, ht, hgap⟩ := h.filled
  · refine ⟨s.currentTime, Nat.lt_succ_self _, fun i hi => Nat.lt_irrefl _ (hserved.past _ hi), ?_, ?_⟩
    · obtain ⟨node, hmem, hpos⟩ := hleft
      obtain ⟨i, hi⟩ := List.mem_iff_getElem?.mp hmem
      refine ⟨(node.arrivalTime, node.sgxTime), ?_, hqueued.lt_arrivalTime hqueue hi hpos⟩
      rw [← hserved.times]
      exact List.mem_map_of_mem hmem
    · rw [arrivedWork_eq h hqueued hserved, arrivedLeft_eq_zero hqueued hqueue, hlength, Nat.add_zero]
  · exact ⟨t, ht.trans (Nat.lt_succ_self _), hgap⟩

/-- A turn of `y`. -/
theorem turn (h : s.Slotted c nodes) (hqueued : s.Queued c) (hserved : s.Served nodes)
    (hy : s.table[y]? = some node) (hk : k ≤ node.timeLeft) (harrived : node.arrivalTime ≤ s.currentTime)
    (hsize : 0 < k → s.currentTime + k ≤ c.size) : (s.afterTurn y rest k left q).Slotted c nodes := by
  have hran : (s.afterTurn y rest k left q).ran = s.ran ++ slotsOf s.currentTime k y := rfl
  have hmem : ∀ t i, (t, i) ∈ (s.afterTurn y rest k left q).ran ↔
      (t, i) ∈ s.ran ∨ s.currentTime ≤ t ∧ t < s.currentTime + k ∧ i = y := fun t i => by
    rw [hran, List.mem_append, mem_slotsOf]
  refine ⟨?_, fun t ht => ?_, fun p hp => ?_, ?_⟩
  · have hwork := h.work
    have hspend := work_spend hy hk
    rw [hran, List.length_append, slotsOf, List.length_map, List.length_range]
    simp only [afterTurn, afterSlots]
    omega
  · have hout : ¬(s.currentTime ≤ t ∧ t < s.currentTime + k) := fun hin =>
      ht y ((hmem t y).mpr (.inr ⟨hin.1, hin.2, rfl⟩))
    simp only [afterTurn, afterSlots, written, if_neg hout]
    exact h.idle t fun i hi => ht i ((hmem t i).mpr (.inl hi))
  · obtain hp | ⟨hle, hlt, -⟩ := (hmem p.1 p.2).mp hp
    · exact h.size p hp
    · have := hsize (by omega)
      omega
  · obtain ⟨hlength, hslots⟩ | ⟨t, ht, hidle, hgap⟩ := h.filled
    · left
      have hleft := le_arrivedLeft hy harrived
      have hwork := arrivedWork_eq h hqueued hserved
      refine ⟨?_, fun t ht => ?_⟩
      · rw [hran, List.length_append, slotsOf, List.length_map, List.length_range, hlength]
        rfl
      · rcases Nat.lt_or_ge t s.currentTime with hlt | hge
        · obtain ⟨hrun, henough⟩ := hslots t hlt
          exact ⟨fun hidle => hrun fun i hi => hidle i ((hmem t i).mpr (.inl hi)), henough⟩
        · have htk : t < s.currentTime + k := ht
          refine ⟨fun hidle => hidle y ((hmem t y).mpr (.inr ⟨hge, htk, rfl⟩)), ?_⟩
          have := arrivedWork_mono nodes hge
          omega
    · refine .inr ⟨t, ht.trans_le (Nat.le_add_right _ _), fun i hi => ?_, hgap⟩
      obtain hi | ⟨hge, -⟩ := (hmem t i).mp hi
      · exact hidle i hi
      · omega

/-- A pass of the loop. -/
theorem pass (h : s.Slotted c nodes) (hqueued : s.Queued c) (hserved : s.Served nodes)
    (hleft : ∃ node ∈ s.table, 0 < node.timeLeft) (hpass : pass c s = .ok s') : s'.Slotted c nodes := by
  obtain ⟨hqueue, q, rfl, -⟩ | ⟨y, rest, node, q, hqueue, hy, heq, -⟩ := pass_eq_ok hpass
  · exact h.idlePass hqueued hserved hqueue hleft q
  · have harrived := (hqueued.ready (hqueue ▸ List.mem_cons_self) hy).1
    rw [heq]
    refine h.turn hqueued hserved hy (quantum_le c s node) harrived fun hpos => ?_
    have hsize := pass_le_size hpass hqueue
    rw [heq] at hsize
    exact hsize (Nat.lt_add_of_pos_right hpos)

end Slotted

/-! ## Complete runs -/

/-- What every pass of the loop keeps still holds when the loop ends. -/
theorem arrangeLoop_induction {I : Sim → Prop} {fuel : ℕ}
    (hnext : ∀ s s₁ s₂, I s → isTimeLeft c s = .ok (true, s₁) → pass c s₁ = .ok s₂ → I s₂)
    (h : arrangeLoop c fuel s = .ok s') (hs : I s) : ∃ s₁, I s₁ ∧ isTimeLeft c s₁ = .ok (false, s') := by
  induction fuel generalizing s with
  | zero => cases h
  | succ fuel ih =>
    obtain ⟨⟨b, s₁⟩, heval, h⟩ := Except.bind_eq_ok.mp h
    cases b with
    | false =>
      cases h
      exact ⟨s, hs, heval⟩
    | true =>
      obtain ⟨s₂, hpass, h⟩ := Except.bind_eq_ok.mp h
      exact ih h (hnext s s₁ s₂ hs heval hpass)

/-- `check_node_arrive` before the loop. -/
theorem slotted_start (h : checkNodeArrive c (initial nodes) = .ok s) : s.Slotted c nodes := by
  obtain ⟨q, rfl, -⟩ := checkNodeArrive_eq_ok h
  refine ⟨?_, fun _ _ => rfl, fun p hp => ?_, .inl ⟨rfl, fun t ht => ?_⟩⟩
  · simp only [initial, inputTable, work, List.map_map, List.length_nil, Nat.zero_add]
    rfl
  · cases hp
  · cases ht

theorem Queued.pass (h : s.Queued c) (hpass : pass c s = .ok s') : s'.Queued c := by
  obtain ⟨hqueue, q, rfl, hq⟩ | ⟨y, rest, node, q, hqueue, hy, rfl, hq⟩ := pass_eq_ok hpass
  · exact h.idle hqueue hq
  · exact h.turn hqueue hy hq

/-- A complete run in which nobody comes back. -/
theorem arrange_slotted {fuel : ℕ} (hrejoin : c.nodesRejoin = false)
    (h : arrange c fuel (initial nodes) = .ok s) :
    s.Slotted c nodes ∧ s.Served nodes ∧ ∀ node ∈ s.table, node.timeLeft = 0 := by
  obtain ⟨s₀, hstart, hloop⟩ := Except.bind_eq_ok.mp h
  have hnext : ∀ s s₁ s₂ : Sim, s.Slotted c nodes ∧ s.Served nodes ∧ s.Queued c →
      isTimeLeft c s = .ok (true, s₁) → Sim.pass c s₁ = .ok s₂ →
      s₂.Slotted c nodes ∧ s₂.Served nodes ∧ s₂.Queued c := by
    rintro s s₁ s₂ ⟨hslotted, hserved, hqueued⟩ heval hpass
    obtain ⟨table, draws, rfl, htable, hb⟩ := isTimeLeft_eq_ok heval
    rw [← exists_timeLeft_evaluated htable hrejoin] at hb
    have hserved₁ := hserved.evaluated draws hrejoin htable
    have hqueued₁ := hqueued.evaluated draws htable
    have hslotted₁ := (hslotted.evaluated draws hrejoin htable).pass hqueued₁ hserved₁ (hb.mp rfl) hpass
    exact ⟨hslotted₁, hserved₁.pass hqueued₁ hpass, hqueued₁.pass hpass⟩
  obtain ⟨s₁, ⟨hslotted, hserved, -⟩, heval⟩ := arrangeLoop_induction hnext hloop
    ⟨slotted_start hstart, served_start hstart, queued_start hstart⟩
  obtain ⟨table, draws, rfl, htable, hb⟩ := isTimeLeft_eq_ok heval
  refine ⟨hslotted.evaluated draws hrejoin htable, hserved.evaluated draws hrejoin htable, fun node hnode => ?_⟩
  rw [← exists_timeLeft_evaluated htable hrejoin] at hb
  by_contra hleft
  exact Bool.false_ne_true (hb.mpr ⟨node, hnode, Nat.pos_of_ne_zero hleft⟩)

/-! ## The last slots -/

/-- The last slot of the node ends at this time. -/
def EndsAt (s : Sim) (i time : ℕ) : Prop :=
  (∃ t, (t, i) ∈ s.ran ∧ time = t + 1) ∧ ∀ t, (t, i) ∈ s.ran → t < time

/-- The waiting times are those from the arrival to the end of the last slot, without the SGX time; and `nodes_queue`
says for every slot which node has run in it. -/
structure WaitsExact (c : Simulation) (s : Sim) : Prop where
  waits : ∃ waitTimes, waitingTime c s = .ok waitTimes ∧
    ∀ (i : ℕ) (node : Node), s.table[i]? = some node → ∃ wait time, waitTimes[i]? = some wait ∧ s.EndsAt i time ∧
      (wait : ℤ) = time - node.arrivalTime - node.sgxTime
  slots : ∀ t < s.currentTime, ∀ i < s.table.length, s.nodesQueue t = i ↔ (t, i) ∈ s.ran

/-- The loop stops at the last slot of the node. -/
theorem releaseTime_eq {nodesQueue : ℕ → ℕ} {i t n : ℕ} (hn : n ≤ c.size) (ht : t < n) (hi : nodesQueue t = i)
    (hlast : ∀ u, t < u → u < n → nodesQueue u ≠ i) : releaseTime c nodesQueue i n = .ok (t + 1) := by
  induction n with
  | zero => cases ht
  | succ n ih =>
    rw [releaseTime, ensure_of (Nat.lt_of_succ_le hn), Except.ok_bind]
    rcases Nat.lt_or_eq_of_le (Nat.le_of_lt_succ ht) with hlt | rfl
    · rw [if_pos (hlast n hlt (Nat.lt_succ_self n))]
      exact ih (Nat.le_of_succ_le hn) hlt fun u hu hun => hlast u hu (hun.trans (Nat.lt_succ_self n))
    · rw [if_neg (not_not.mpr hi)]
      rfl

/-- When nobody has time left, a node has run for its SGX time. -/
theorem Served.slotCount_eq (hserved : s.Served nodes) (hdone : ∀ node ∈ s.table, node.timeLeft = 0) {i : ℕ}
    {p : ℕ × ℕ} (hi : nodes[i]? = some p) : s.slotCount i = p.2 := by
  rw [← hserved.times, List.getElem?_map, Option.map_eq_some_iff] at hi
  obtain ⟨node, hnode, rfl⟩ := hi
  have hspent := hserved.spent i node hnode
  rwa [hdone node (List.mem_of_getElem? hnode), Nat.add_zero] at hspent

/-- A node that has run has a last slot. -/
theorem Served.exists_endsAt (hserved : s.Served nodes) {i : ℕ} (hpos : 0 < s.slotCount i) :
    ∃ t, (t, i) ∈ s.ran ∧ s.EndsAt i (t + 1) := by
  obtain ⟨p, hp, rfl⟩ := List.mem_map.mp (List.count_pos_iff.mp hpos)
  let P := fun t => (t, p.2) ∈ s.ran
  have hmem : P (Nat.findGreatest P s.currentTime) := Nat.findGreatest_spec (hserved.past p hp).le hp
  refine ⟨_, hmem, ⟨_, hmem, rfl⟩, fun t ht => Nat.lt_succ_of_le ?_⟩
  exact Nat.le_findGreatest (hserved.past _ ht).le ht

/-- The slots of a node are between its arrival and the end of the last one. -/
theorem Served.slotCount_le (hserved : s.Served nodes) {i arrivalTime sgxTime time : ℕ}
    (hi : nodes[i]? = some (arrivalTime, sgxTime)) (htime : ∀ t, (t, i) ∈ s.ran → t < time) :
    s.slotCount i ≤ time - arrivalTime := by
  let slots := (s.ran.filter (·.2 = i)).map Prod.fst
  have hlength : slots.length = s.slotCount i := by
    simp only [slots, slotCount, List.length_map, List.count_eq_length_filter, List.filter_map]
    rfl
  have hnodup : slots.Nodup := (List.filter_sublist.map Prod.fst).nodup hserved.nodup
  have hsubset : slots ⊆ List.range' arrivalTime (time - arrivalTime) := by
    intro t ht
    obtain ⟨⟨_, j⟩, hp, rfl⟩ := List.mem_map.mp ht
    obtain ⟨hran, hj⟩ := List.mem_filter.mp hp
    obtain rfl : j = i := of_decide_eq_true hj
    obtain ⟨p, hp, hle⟩ := hserved.arrived _ hran
    cases hi.symm.trans hp
    have hlt := htime _ hran
    rw [List.mem_range'_1]
    simp only at hle ⊢
    omega
  have hle := (hnodup.subperm hsubset).length_le
  rwa [hlength, List.length_range'] at hle

/-- Without idle slots the waiting times are exact. -/
theorem waitsExact_of_busy (hslotted : s.Slotted c nodes) (hserved : s.Served nodes)
    (hdone : ∀ node ∈ s.table, node.timeLeft = 0) (hsgx : ∀ p ∈ nodes, 1 ≤ p.2) (hsize : c.size ≤ intSize)
    (hbusy : ∀ t < s.currentTime, ¬s.Idle t) : WaitsExact c s := by
  have hslots : ∀ t < s.currentTime, ∀ i, s.nodesQueue t = i ↔ (t, i) ∈ s.ran := by
    intro t ht i
    refine ⟨fun hi => ?_, fun hi => hserved.recorded _ hi⟩
    obtain ⟨j, hj⟩ := not_forall_not.mp (hbusy t ht)
    rw [← hi, hserved.recorded _ hj]
    exact hj
  have htime : s.currentTime ≤ c.size := by
    cases hcurrent : s.currentTime with
    | zero => exact Nat.zero_le _
    | succ t =>
      obtain ⟨j, hj⟩ := not_forall_not.mp (hbusy t (hcurrent ▸ Nat.lt_succ_self t))
      exact hslotted.size _ hj
  -- the slot that the loop finds for each node, and what is stored for it
  have hnode : ∀ (i : ℕ) (node : Node), s.table[i]? = some node → ∃ time, s.EndsAt i time ∧
      releaseTime c s.nodesQueue i s.currentTime = .ok time ∧
      (toUint (time - node.arrivalTime - node.sgxTime) : ℤ) = time - node.arrivalTime - node.sgxTime := by
    intro i node hi
    have hinput : nodes[i]? = some (node.arrivalTime, node.sgxTime) := by
      rw [← hserved.times, List.getElem?_map, hi]
      rfl
    have hcount := hserved.slotCount_eq hdone hinput
    have hpos : 0 < s.slotCount i := hcount ▸ hsgx _ (List.mem_of_getElem? hinput)
    obtain ⟨t, ht, hends⟩ := hserved.exists_endsAt hpos
    have hpast := hserved.past _ ht
    have hle := hserved.slotCount_le hinput hends.2
    refine ⟨t + 1, hends, releaseTime_eq htime hpast ((hslots t hpast i).mpr ht) fun u hu hlt hrun => ?_, ?_⟩
    · exact absurd (hends.2 u ((hslots u hlt i).mp hrun)) (by omega)
    · simp only at hpast
      unfold toUint uintSize
      unfold intSize at hsize
      omega
  choose! time hends hrelease hwait using hnode
  refine ⟨⟨s.table.zipIdx.map fun e => toUint (time e.2 e.1 - e.1.arrivalTime - e.1.sgxTime),
    List.mapM_ok fun e he => ?_, fun i node hi => ?_⟩, fun t ht i _ => hslots t ht i⟩
  · have hi := List.mk_mem_zipIdx_iff_getElem?.mp he
    simp only [hrelease _ _ hi]
    rfl
  · refine ⟨_, time i node, ?_, hends i node hi, hwait i node hi⟩
    rw [List.getElem?_map, List.getElem?_zipIdx, hi]
    simp

/-- A complete run without nodes that come back: the waiting times and `nodes_queue` are right exactly when the
nodes always have enough to do until the next one arrives. -/
theorem waitsExact_iff {fuel : ℕ} (hrejoin : c.nodesRejoin = false) (hsgx : ∀ p ∈ nodes, 1 ≤ p.2)
    (hsize : c.size ≤ intSize) (h : arrange c fuel (initial nodes) = .ok s) : WaitsExact c s ↔ NeverIdle nodes := by
  obtain ⟨hslotted, hserved, hdone⟩ := arrange_slotted hrejoin h
  obtain ⟨-, hbusy⟩ | ⟨t, ht, hidle, ⟨p, hp, hlater⟩, hwork⟩ := hslotted.filled
  · refine iff_of_true (waitsExact_of_busy hslotted hserved hdone hsgx hsize fun t ht => (hbusy t ht).1) ?_
    rintro t ⟨p, hp, hlater⟩
    obtain ⟨i, hi⟩ := List.mem_iff_getElem?.mp hp
    have hpos : 0 < s.slotCount i := hserved.slotCount_eq hdone hi ▸ hsgx p hp
    obtain ⟨u, hu, -⟩ := hserved.exists_endsAt hpos
    obtain ⟨p', hp', hle⟩ := hserved.arrived _ hu
    cases hi.symm.trans hp'
    exact (hbusy t (hlater.trans (hle.trans_lt (hserved.past _ hu)))).2
  · refine iff_of_false (fun hexact => ?_) fun hnever => ?_
    · have hpos : 0 < s.table.length := by
        have hlength := congrArg List.length hserved.times
        rw [List.length_map] at hlength
        rw [hlength]
        exact List.length_pos_of_mem hp
      exact hidle 0 ((hexact.slots t ht 0 hpos).mp (hslotted.idle t hidle))
    · exact absurd (hnever t ⟨p, hp, hlater⟩) (Nat.not_lt.mpr hwork)

/-- A node that arrives while another runs waits for the end of its turn. -/
theorem waitsExact_twoNodes :
    ∃ s, arrange ⟨false, 3, 1, maxSize, fun _ => 0⟩ 10 (initial [(0, 3), (1, 2)]) = .ok s ∧
      WaitsExact ⟨false, 3, 1, maxSize, fun _ => 0⟩ s := by
  have hrun : (arrange ⟨false, 3, 1, maxSize, fun _ => 0⟩ 10 (initial [(0, 3), (1, 2)])).map Sim.ran =
      .ok [(0, 0), (1, 0), (2, 0), (3, 1), (4, 1)] := by
    decide
  obtain ⟨s, hs, -⟩ := Except.map_eq_ok.mp hrun
  refine ⟨s, hs, (waitsExact_iff rfl (by decide) (by decide) hs).mpr ?_⟩
  rintro t ⟨p, hp, hlater⟩
  simp only [List.mem_cons, List.not_mem_nil, or_false] at hp
  obtain rfl | rfl := hp
  · cases hlater
  · obtain rfl : t = 0 := by simp only at hlater; omega
    decide

/-- Two slots are left idle between two nodes: the first one waits for 2 in them, though it has run at once. -/
theorem not_waitsExact_gap :
    ∃ s, arrange ⟨false, 3, 1, maxSize, fun _ => 0⟩ 10 (initial [(0, 1), (3, 1)]) = .ok s ∧
      s.ran = [(0, 0), (3, 1)] ∧ waitingTime ⟨false, 3, 1, maxSize, fun _ => 0⟩ s = .ok [2, 0] ∧
      ¬WaitsExact ⟨false, 3, 1, maxSize, fun _ => 0⟩ s := by
  have hrun : (arrange ⟨false, 3, 1, maxSize, fun _ => 0⟩ 10 (initial [(0, 1), (3, 1)])).map
      (fun s => (s.ran, waitingTime ⟨false, 3, 1, maxSize, fun _ => 0⟩ s, s.nodesQueue 1, s.currentTime,
        s.table.length)) = .ok ([(0, 0), (3, 1)], .ok [2, 0], 0, 4, 2) := by
    decide
  obtain ⟨s, hs, heq⟩ := Except.map_eq_ok.mp hrun
  simp only [Prod.mk.injEq] at heq
  obtain ⟨hran, hwaits, hqueue, htime, hlength⟩ := heq
  refine ⟨s, hs, hran, hwaits, fun hexact => ?_⟩
  have hslot := (hexact.slots 1 (by omega) 0 (by omega)).mp hqueue
  rw [hran] at hslot
  exact absurd hslot (by decide)

end Sim

end PoQ
