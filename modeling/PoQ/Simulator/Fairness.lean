import PoQ.Simulator.Steps

/-!
# Turns in the simulator

Whenever the loop condition of `arrange` has been evaluated, the queue holds the nodes that have arrived
and have time left, once each, and every one of them has a positive quantum. So a pass of the loop takes
time whenever somebody waits, and a node that comes back is in the queue again after the next pass; between
two turns of a node the turns of the others are fair.
-/

theorem List.Forall₂.getElem?_left {α β : Type*} {R : α → β → Prop} {l : List α} {l' : List β}
    (h : List.Forall₂ R l l') {i : ℕ} {a : α} (ha : l[i]? = some a) : ∃ b, l'[i]? = some b ∧ R a b := by
  induction h generalizing i with
  | nil => cases ha
  | cons hab _ ih =>
    cases i with
    | zero =>
      cases ha
      exact ⟨_, rfl, hab⟩
    | succ i => exact ih ha

theorem List.Forall₂.getElem?_right {α β : Type*} {R : α → β → Prop} {l : List α} {l' : List β}
    (h : List.Forall₂ R l l') {i : ℕ} {b : β} (hb : l'[i]? = some b) : ∃ a, l[i]? = some a ∧ R a b :=
  h.flip.getElem?_left hb

namespace PoQ

open Fifo

namespace Sim

/-- The node has arrived and has time left. -/
def Ready (s : Sim) (i : ℕ) : Prop :=
  ∃ node, s.table[i]? = some node ∧ node.arrivalTime ≤ s.currentTime ∧ 0 < node.timeLeft

/-- The queue holds the nodes that are ready, with positive quanta; those that have not arrived have not
run. -/
structure Queued (c : Simulation) (s : Sim) : Prop where
  mem : ∀ i, i ∈ s.queue ↔ s.Ready i
  nodup : s.queue.Nodup
  fresh : ∀ (i : ℕ) (node : Node), s.table[i]? = some node → s.currentTime < node.arrivalTime →
    node.timeLeft = node.sgxTime
  quantum : ∀ i ∈ s.queue, ∀ node : Node, s.table[i]? = some node → 0 < s.tierQuantumTime (tierOf c node)

variable {c : Simulation} {s s' : Sim} {y k : ℕ} {rest : List ℕ} {node : Node} {q : ℕ → ℕ}

namespace Queued

/-- The entry of a node in the queue. -/
theorem ready (h : s.Queued c) {i : ℕ} (hi : i ∈ s.queue) (hnode : s.table[i]? = some node) :
    node.arrivalTime ≤ s.currentTime ∧ 0 < node.timeLeft := by
  obtain ⟨node', hnode', hready⟩ := (h.mem i).mp hi
  cases hnode.symm.trans hnode'
  exact hready

/-- Nobody in the queue arrives any more. -/
theorem notMem_arrivalsIn (h : s.Queued c) {i : ℕ} (hi : i ∈ s.queue) :
    i ∉ arrivalsIn s.table s.currentTime k := by
  intro harrives
  obtain ⟨node, hnode, hlt, -⟩ := mem_arrivalsIn.mp harrives
  exact absurd (h.ready hi hnode).1 (Nat.not_le.mpr hlt)

theorem queue_append_nodup (h : s.Queued c) (k : ℕ) :
    (s.queue ++ arrivalsIn s.table s.currentTime k).Nodup := by
  refine List.nodup_append.mpr ⟨h.nodup, arrivalsIn_nodup _ _ _, ?_⟩
  rintro i hi j hj rfl
  exact h.notMem_arrivalsIn hi hj

/-- A node that arrives has time left. -/
theorem timeLeft_pos (h : s.Queued c) {P : ℕ → Prop} (hq : Arrived c s.table s.tierQuantumTime q P) {i : ℕ}
    (hi : i ∈ arrivalsIn s.table s.currentTime k) (hP : P i) (hnode : s.table[i]? = some node) :
    0 < node.timeLeft ∧ 0 < q (tierOf c node) := by
  obtain ⟨node', hnode', hlt, -⟩ := mem_arrivalsIn.mp hi
  cases hnode.symm.trans hnode'
  obtain ⟨hsgx, hpos⟩ := hq.arrived i hP node hnode
  have hleft : 0 < node.timeLeft := by
    rw [h.fresh i node hnode hlt]
    exact hsgx
  exact ⟨hleft, hpos hleft⟩

/-- Who is in the queue gets a slot. -/
theorem quantum_pos (h : s.Queued c) (hy : y ∈ s.queue) (hnode : s.table[y]? = some node) :
    0 < Sim.quantum c s node :=
  Nat.lt_min.mpr ⟨h.quantum y hy node hnode, (h.ready hy hnode).2⟩

/-- Where the nodes of the queue behind a turn come from. -/
theorem mem_afterTurn {left : Bool} {i : ℕ} :
    i ∈ (s.afterTurn y rest k left q).queue ↔
      i ∈ rest ∨ i ∈ arrivalsIn s.table s.currentTime k ∨ i = y ∧ left = true := by
  simp only [afterTurn, List.mem_append, or_assoc]
  cases left <;> simp

/-- Who waits behind the front is somebody else. -/
theorem mem_rest (h : s.Queued c) (hqueue : s.queue = y :: rest) {i : ℕ} (hi : i ∈ rest) :
    i ∈ s.queue ∧ i ≠ y := by
  obtain ⟨hyrest, -⟩ := List.nodup_cons.mp (hqueue ▸ h.nodup)
  exact ⟨hqueue ▸ List.mem_cons_of_mem _ hi, fun hiy => hyrest (hiy ▸ hi)⟩

/-- And so is who arrives. -/
theorem ne_front (h : s.Queued c) (hqueue : s.queue = y :: rest) {i : ℕ}
    (hi : i ∈ arrivalsIn s.table s.currentTime k) : i ≠ y := by
  rintro rfl
  exact h.notMem_arrivalsIn (hqueue ▸ List.mem_cons_self) hi

theorem nodup_afterTurn (h : s.Queued c) (hqueue : s.queue = y :: rest) (left : Bool) :
    (s.afterTurn y rest k left q).queue.Nodup := by
  have hnodup := h.queue_append_nodup k
  rw [hqueue] at hnodup
  obtain ⟨hynew, hnew⟩ := List.nodup_cons.mp hnodup
  simp only [afterTurn]
  split
  · refine hnew.append (List.nodup_singleton y) ?_
    exact List.disjoint_singleton.mpr hynew
  · rwa [List.append_nil]

/-- The nodes that are ready behind a turn. -/
theorem ready_afterTurn (h : s.Queued c) (hqueue : s.queue = y :: rest) (hy : s.table[y]? = some node)
    (hq : Arrived c s.table s.tierQuantumTime q
      fun i => i ∈ arrivalsIn s.table s.currentTime k ∧ i ≠ y) {i : ℕ} :
    (s.afterTurn y rest k (k < node.timeLeft) q).Ready i ↔
      i ∈ rest ∨ i ∈ arrivalsIn s.table s.currentTime k ∨ i = y ∧ k < node.timeLeft := by
  have hself : (spend s.table y k)[y]? = some { node with timeLeft := node.timeLeft - k } :=
    spend_getElem?_self hy
  constructor
  · rintro ⟨n, hn, hle, hpos⟩
    by_cases hiy : i = y
    · subst hiy
      cases hself.symm.trans hn
      exact .inr (.inr ⟨rfl, Nat.lt_of_sub_pos hpos⟩)
    · have hn' : s.table[i]? = some n := (spend_getElem?_of_ne hiy).symm.trans hn
      by_cases hold : n.arrivalTime ≤ s.currentTime
      · have hi : i ∈ s.queue := (h.mem i).mpr ⟨n, hn', hold, hpos⟩
        rw [hqueue] at hi
        exact .inl (List.mem_of_ne_of_mem hiy hi)
      · exact .inr (.inl (mem_arrivalsIn.mpr ⟨n, hn', Nat.lt_of_not_le hold, hle⟩))
  · rintro (hi | hi | ⟨rfl, hleft⟩)
    · obtain ⟨hi, hne⟩ := h.mem_rest hqueue hi
      obtain ⟨n, hn, hle, hpos⟩ := (h.mem i).mp hi
      exact ⟨n, (spend_getElem?_of_ne hne).trans hn, hle.trans (Nat.le_add_right _ _), hpos⟩
    · have hne := h.ne_front hqueue hi
      obtain ⟨n, hn, -, hle⟩ := mem_arrivalsIn.mp hi
      exact ⟨n, (spend_getElem?_of_ne hne).trans hn, hle, (h.timeLeft_pos hq hi ⟨hi, hne⟩ hn).1⟩
    · have harrived := (h.ready (hqueue ▸ List.mem_cons_self) hy).1
      exact ⟨_, hself, harrived.trans (Nat.le_add_right _ _), Nat.sub_pos_of_lt hleft⟩

/-- A turn of `y`. -/
theorem turn (h : s.Queued c) (hqueue : s.queue = y :: rest) (hy : s.table[y]? = some node)
    (hq : Arrived c s.table s.tierQuantumTime q
      fun i => i ∈ arrivalsIn s.table s.currentTime k ∧ i ≠ y) :
    (s.afterTurn y rest k (k < node.timeLeft) q).Queued c := by
  have hyqueue : y ∈ s.queue := hqueue ▸ List.mem_cons_self
  have hself : (spend s.table y k)[y]? = some { node with timeLeft := node.timeLeft - k } :=
    spend_getElem?_self hy
  refine ⟨fun i => ?_, h.nodup_afterTurn hqueue _, fun i n hn hlater => ?_, fun i hi n hn => ?_⟩
  · rw [mem_afterTurn, h.ready_afterTurn hqueue hy hq, decide_eq_true_eq]
  · have hne : i ≠ y := by
      rintro rfl
      cases hself.symm.trans hn
      exact absurd (hlater.trans_le (h.ready hyqueue hy).1) (Nat.not_lt.mpr (Nat.le_add_right _ _))
    have hn' : s.table[i]? = some n := (spend_getElem?_of_ne hne).symm.trans hn
    exact h.fresh i n hn' (lt_of_le_of_lt (Nat.le_add_right _ _) hlater)
  · obtain hi | hi | ⟨rfl, -⟩ := mem_afterTurn.mp hi
    · obtain ⟨hi, hne⟩ := h.mem_rest hqueue hi
      exact hq.mono _ (h.quantum i hi n ((spend_getElem?_of_ne hne).symm.trans hn))
    · have hne := h.ne_front hqueue hi
      exact (h.timeLeft_pos hq hi ⟨hi, hne⟩ ((spend_getElem?_of_ne hne).symm.trans hn)).2
    · cases hself.symm.trans hn
      exact hq.mono _ (h.quantum i hyqueue node hy)

/-- A pass in which nobody is served. -/
theorem idle (h : s.Queued c) (hqueue : s.queue = [])
    (hq : Arrived c s.table s.tierQuantumTime q (· ∈ arrivals s.table (s.currentTime + 1))) :
    (s.afterIdle q).Queued c := by
  have hone : arrivalsIn s.table s.currentTime 1 = arrivals s.table (s.currentTime + 1) := List.append_nil _
  have hmem : ∀ {i}, i ∈ (s.afterIdle q).queue ↔ i ∈ arrivalsIn s.table s.currentTime 1 := by
    intro i
    rw [hone]
    rfl
  refine ⟨fun i => ?_, arrivals_nodup _ _, fun i n hn hlater => ?_, fun i hi n hn => ?_⟩
  · rw [hmem]
    constructor
    · intro hi
      obtain ⟨n, hn, -, hle⟩ := mem_arrivalsIn.mp hi
      exact ⟨n, hn, hle, (h.timeLeft_pos hq hi (hone ▸ hi) hn).1⟩
    · rintro ⟨n, hn, hle, hpos⟩
      refine mem_arrivalsIn.mpr ⟨n, hn, Nat.lt_of_not_le fun hold => ?_, hle⟩
      have hi : i ∈ s.queue := (h.mem i).mpr ⟨n, hn, hold, hpos⟩
      rw [hqueue] at hi
      cases hi
  · exact h.fresh i n hn ((Nat.lt_succ_self _).trans hlater)
  · exact (h.timeLeft_pos hq (hmem.mp hi) hi hn).2

/-- The loop condition is evaluated. -/
theorem evaluated (h : s.Queued c) {table : List Node} (draws : ℕ)
    (htable : List.Forall₂ (Evaluated c s.currentTime) s.table table) :
    Queued c { s with table, draws } := by
  refine ⟨fun i => (h.mem i).trans ⟨?_, ?_⟩, h.nodup, fun i n hn hlater => ?_, fun i hi n hn => ?_⟩
  · rintro ⟨n, hn, hle, hpos⟩
    obtain ⟨n', hn', heval⟩ := htable.getElem?_left hn
    cases heval with
    | left => exact ⟨n, hn', hle, hpos⟩
    | rejoined _ hzero => omega
    | finished hzero => omega
  · rintro ⟨n', hn', hle, hpos⟩
    obtain ⟨n, hn, heval⟩ := htable.getElem?_right hn'
    cases heval with
    | left hleft => exact ⟨n', hn, hle, hpos⟩
    | rejoined => exact absurd hle (Nat.not_succ_le_self _)
    | finished hzero => exact absurd hzero hpos.ne'
  · obtain ⟨n₀, hn₀, heval⟩ := htable.getElem?_right hn
    cases heval with
    | left => exact h.fresh i n hn₀ hlater
    | rejoined => rfl
    | finished => exact h.fresh i n₀ hn₀ hlater
  · obtain ⟨n₀, hn₀, -, hpos⟩ := (h.mem i).mp hi
    obtain ⟨n', hn', heval⟩ := htable.getElem?_left hn₀
    cases hn'.symm.trans hn
    cases heval with
    | left => exact h.quantum i hi n hn₀
    | rejoined _ hzero => omega
    | finished hzero => omega

end Queued

/-- `check_node_arrive` before the loop. -/
theorem queued_start {nodes : List (ℕ × ℕ)} (h : checkNodeArrive c (initial nodes) = .ok s) :
    s.Queued c := by
  obtain ⟨q, rfl, hq⟩ := checkNodeArrive_eq_ok h
  have hfresh : ∀ (i : ℕ) (node : Node), (inputTable nodes)[i]? = some node → node.timeLeft = node.sgxTime := by
    intro i node hnode
    rw [inputTable, List.getElem?_map] at hnode
    obtain ⟨_, -, rfl⟩ := Option.map_eq_some_iff.mp hnode
    rfl
  have hpos : ∀ i ∈ arrivals (inputTable nodes) 0, ∀ node : Node, (inputTable nodes)[i]? = some node →
      0 < node.timeLeft ∧ 0 < q (tierOf c node) := by
    intro i hi node hnode
    obtain ⟨hsgx, hquantum⟩ := hq.arrived i hi node hnode
    have hleft : 0 < node.timeLeft := by
      rw [hfresh i node hnode]
      exact hsgx
    exact ⟨hleft, hquantum hleft⟩
  refine ⟨fun i => ?_, arrivals_nodup _ _, fun i node hnode _ => hfresh i node hnode,
    fun i hi node hnode => (hpos i hi node hnode).2⟩
  constructor
  · intro hi
    obtain ⟨node, hnode, htime⟩ := mem_arrivals.mp hi
    exact ⟨node, hnode, htime.le, (hpos i hi node hnode).1⟩
  · rintro ⟨node, hnode, hle, -⟩
    exact mem_arrivals.mpr ⟨node, hnode, Nat.le_zero.mp hle⟩

/-! ## Fair turns -/

/-- The node has finished and does not come back. -/
def Gone (c : Simulation) (s : Sim) (i : ℕ) : Prop :=
  c.nodesRejoin = false ∧ ∃ node, s.table[i]? = some node ∧ node.timeLeft = 0

/-- The node arrives in the next slot. -/
def Returning (s : Sim) (i : ℕ) : Prop :=
  ∃ node, s.table[i]? = some node ∧ node.arrivalTime = s.currentTime + 1

/-- The queue is as it should be, the turns so far are fair, and so will be the next. -/
structure Fair (c : Simulation) (s : Sim) : Prop where
  queued : s.Queued c
  turns : FairTurns s.turns
  pending : AllPending (Gone c s) s.Returning s.queue s.turns

theorem Queued.not_gone (h : s.Queued c) (hy : y ∈ s.queue) : ¬Gone c s y := by
  rintro ⟨-, node, hnode, hzero⟩
  exact (h.ready hy hnode).2.ne' hzero

theorem Queued.not_returning (h : s.Queued c) (hy : y ∈ s.queue) : ¬s.Returning y := by
  rintro ⟨node, hnode, htime⟩
  have := (h.ready hy hnode).1
  omega

/-- Whoever arrives in the next slot is among those that arrive in some slots. -/
theorem Returning.mem_arrivalsIn {i : ℕ} (h : s.Returning i) (hk : 0 < k) :
    i ∈ arrivalsIn s.table s.currentTime k := by
  obtain ⟨node, hnode, htime⟩ := h
  exact Sim.mem_arrivalsIn.mpr ⟨node, hnode, by omega, by omega⟩

/-- A node that has finished is gone, or comes back in the next slot, once the loop condition has been
evaluated. -/
theorem gone_or_returning {table : List Node} {draws i : ℕ}
    (htable : List.Forall₂ (Evaluated c s.currentTime) s.table table) (hnode : s.table[i]? = some node)
    (hzero : node.timeLeft = 0) :
    Gone c { s with table, draws } i ∨ Returning { s with table, draws } i := by
  obtain ⟨node', hnode', heval⟩ := htable.getElem?_left hnode
  cases heval with
  | left hpos => omega
  | rejoined => exact .inr ⟨_, hnode', rfl⟩
  | finished _ hrejoin => exact .inl ⟨hrejoin, _, hnode', hzero⟩

/-- Who is gone stays gone. -/
theorem Gone.evaluated {table : List Node} {draws i : ℕ} (h : Gone c s i)
    (htable : List.Forall₂ (Evaluated c s.currentTime) s.table table) :
    Gone c { s with table, draws } i := by
  obtain ⟨hrejoin, node, hnode, hzero⟩ := h
  obtain ⟨node', hnode', heval⟩ := htable.getElem?_left hnode
  cases heval with
  | left hpos => omega
  | rejoined _ _ hyes => cases hyes.symm.trans hrejoin
  | finished => exact ⟨hrejoin, _, hnode', hzero⟩

/-- A pass of the loop, and the next evaluation of its condition. -/
theorem Fair.next {b : Bool} {s₁ : Sim} (h : s.Fair c) (hpass : pass c s = .ok s₁)
    (heval : isTimeLeft c s₁ = .ok (b, s')) : s'.Fair c := by
  obtain ⟨table, draws, rfl, htable, -⟩ := isTimeLeft_eq_ok heval
  obtain ⟨hqueue, q, rfl, hq⟩ | ⟨y, rest, node, q, hqueue, hy, rfl, hq⟩ := pass_eq_ok hpass
  · refine ⟨(h.queued.idle hqueue hq).evaluated draws htable, h.turns, ?_⟩
    refine AllPending.idle (hqueue ▸ h.pending) (arrivals_nodup _ _) (fun i hi => ?_) fun i hi => ?_
    · exact Gone.evaluated (s := s.afterIdle q) hi htable
    · exact mem_arrivals.mpr hi
  · have hyqueue : y ∈ s.queue := hqueue ▸ List.mem_cons_self
    have hk := h.queued.quantum_pos hyqueue hy
    have hnodup := h.queued.queue_append_nodup (Sim.quantum c s node)
    have hpending := h.pending
    rw [hqueue] at hnodup hpending
    refine ⟨(h.queued.turn hqueue hy hq).evaluated draws htable, ?_, ?_⟩
    · exact h.turns.serve hpending (hqueue ▸ h.queued.nodup) (h.queued.not_gone hyqueue)
        (h.queued.not_returning hyqueue) _
    · refine hpending.serve hnodup (fun i hne hi => ?_) (fun i hi => hi.mem_arrivalsIn hk) ?_
      · obtain ⟨hrejoin, n, hn, hzero⟩ := hi
        refine Gone.evaluated (s := s.afterTurn y rest _ _ q) ?_ htable
        exact ⟨hrejoin, n, (spend_getElem?_of_ne hne).trans hn, hzero⟩
      · by_cases hleft : Sim.quantum c s node < node.timeLeft
        · left
          simp [afterTurn, hleft]
        · right
          refine ⟨by simp [afterTurn, hleft], ?_⟩
          refine gone_or_returning (s := s.afterTurn y rest _ _ q) htable (spend_getElem?_self hy) ?_
          exact Nat.sub_eq_zero_of_le (Nat.le_of_not_lt hleft)

/-- The state whenever the loop condition has been evaluated. -/
theorem fair_evaluation {nodes : List (ℕ × ℕ)} {n : ℕ} {b : Bool}
    (h : evaluation c (initial nodes) n = .ok (b, s)) : s.Fair c := by
  induction n generalizing b s with
  | zero =>
    obtain ⟨s₁, hstart, heval⟩ := Except.bind_eq_ok.mp h
    obtain ⟨table, draws, rfl, htable, -⟩ := isTimeLeft_eq_ok heval
    have hturns : s₁.turns = [] := by
      obtain ⟨q, rfl, -⟩ := checkNodeArrive_eq_ok hstart
      rfl
    refine ⟨(queued_start hstart).evaluated draws htable, ?_, ?_⟩
    · exact hturns.symm ▸ fairTurns_nil
    · exact hturns.symm ▸ allPending_nil _ _ _
  | succ n ih =>
    obtain ⟨⟨b', s₀⟩, hprev, h⟩ := Except.bind_eq_ok.mp h
    obtain ⟨_, -, h⟩ := Except.bind_eq_ok.mp h
    obtain ⟨s₁, hpass, heval⟩ := Except.bind_eq_ok.mp h
    exact (ih hprev).next hpass heval

/-- Whenever the loop condition has been evaluated, the queue holds the nodes that have arrived and have
time left, once each, and the turns between any two consecutive turns of a node are fair. -/
theorem evaluation_fairTurns {nodes : List (ℕ × ℕ)} {n : ℕ} {b : Bool}
    (h : evaluation c (initial nodes) n = .ok (b, s)) :
    (∀ i, i ∈ s.queue ↔
      ∃ node, s.table[i]? = some node ∧ node.arrivalTime ≤ s.currentTime ∧ 0 < node.timeLeft) ∧
    s.queue.Nodup ∧ FairTurns s.turns :=
  have hfair := fair_evaluation h
  ⟨hfair.queued.mem, hfair.queued.nodup, hfair.turns⟩

/-- Three nodes that come back when they have finished, after six turns. -/
theorem evaluation_fairTurns_threeNodes :
    ∃ s : Sim, s.turns.map Turn.served = [0, 1, 2, 0, 1, 2] ∧ s.queue = [0, 1, 2] ∧
      (∀ i, i ∈ s.queue ↔
        ∃ node, s.table[i]? = some node ∧ node.arrivalTime ≤ s.currentTime ∧ 0 < node.timeLeft) ∧
      s.queue.Nodup ∧ FairTurns s.turns := by
  have hrun : (evaluation ⟨true, 3, 1, maxSize, fun _ => 1⟩ (initial [(0, 3), (0, 2), (1, 1)]) 6).map
      (fun p => decide (p.2.turns.map Turn.served = [0, 1, 2, 0, 1, 2] ∧ p.2.queue = [0, 1, 2])) =
        .ok true := by
    decide
  obtain ⟨⟨b, s⟩, hs, h⟩ := Except.map_eq_ok.mp hrun
  obtain ⟨hturns, hqueue⟩ := of_decide_eq_true h
  exact ⟨s, hturns, hqueue, evaluation_fairTurns hs⟩

end Sim

end PoQ
