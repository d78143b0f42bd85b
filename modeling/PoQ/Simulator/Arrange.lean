import PoQ.Lib.Fifo
import PoQ.Quantum
import PoQ.Queue

/-!
# The simulator

`arrange` of `POET++.cpp` with the functions it calls. The nodes that have arrived are served in turns, for
a quantum of their tier at a time; a node that has finished may come back with a new SGX time. The float
quotients are read exactly. The table has as many entries as there are nodes; the lengths of the other
arrays are part of the model. Times are not reduced, since a slot beyond the end of `nodes_queue` comes
before the first time that does not fit a `uint`.
-/

namespace PoQ

open Fifo

/-- `MAX_SIZE`, the length of the arrays. -/
def maxSize : ℕ := 20000000

/-- `RAND_MAX`. -/
def randMax : ℕ := 2 ^ 31 - 1

/-- `randint`, when `rand` returns `r`. -/
def randint (start stop : ℤ) (r : ℕ) : Except Abort ℕ := do
  ensure (start ≤ stop) .startNotAfterEnd
  let start := max 0 (min start randMax)
  let stop := max 0 (min stop randMax)
  return if 0 < stop then (start + r % stop).toNat else 0

/-- What the user is asked for, the lengths of the arrays, and the numbers that `rand` returns. -/
structure Simulation where
  nodesRejoin : Bool
  sgxMax : ℕ
  totalTiers : ℕ
  size : ℕ
  rand : ℕ → ℕ

/-- The variables of a simulation. `draws` counts the calls of `rand`; `ran` lists the slots with the nodes
that have run in them, and `turns` the passes of the loop in which a node was served. -/
@[ext]
structure Sim where
  table : List Node
  currentTime : ℕ
  queue : List ℕ
  nodesQueue : ℕ → ℕ
  tierQuantumTime : ℕ → ℕ
  draws : ℕ
  ran : List (ℕ × ℕ)
  turns : List (Turn ℕ)

/-- The table as `get_input_from_user` leaves it, from the arrival times and SGX times that are entered or
drawn. -/
def inputTable (nodes : List (ℕ × ℕ)) : List Node :=
  nodes.map fun (arrivalTime, sgxTime) => ⟨0, arrivalTime, sgxTime, 0, sgxTime⟩

namespace Sim

/-- The variables before `arrange`. -/
def initial (nodes : List (ℕ × ℕ)) : Sim :=
  ⟨inputTable nodes, 0, [], fun _ => 0, fun _ => 0, 0, [], []⟩

section

variable (c : Simulation)

/-- A node in the loop of `is_time_left`: the node, and the number of calls of `rand`. -/
def countLeadership (currentTime draws : ℕ) (node : Node) : Except Abort (Node × ℕ) :=
  let counted := { node with nLeadership :=
    if node.timeLeft = 0 then (node.nLeadership + 1) % uintSize else node.nLeadership }
  if c.nodesRejoin ∧ node.nLeadership ≠ counted.nLeadership then do
    let sgxTime ← randint 1 (toInt c.sgxMax) (c.rand draws)
    return ({ counted with timeLeft := sgxTime, sgxTime, arrivalTime := currentTime + 1 }, draws + 1)
  else return (counted, draws)

/-- The loop of `is_time_left`: whether a node has time left, the nodes, and the calls of `rand`. -/
def isTimeLeftLoop (currentTime : ℕ) : ℕ → List Node → Except Abort (Bool × List Node × ℕ)
  | draws, [] => .ok (false, [], draws)
  | draws, node :: nodes => do
    let (node', draws) ← countLeadership c currentTime draws node
    let (b, nodes, draws) ← isTimeLeftLoop currentTime draws nodes
    return (0 < node.timeLeft || b, node' :: nodes, draws)

/-- `is_time_left`. -/
def isTimeLeft (s : Sim) : Except Abort (Bool × Sim) := do
  let (b, table, draws) ← isTimeLeftLoop c s.currentTime s.draws s.table
  return (b, { s with table, draws })

/-- A node in the loop of `calculate_quantum_time` that fills `sumT` and `tier_active_nodes`. -/
def countNode (currentTime : ℕ) (acc : (ℕ → ℕ) × (ℕ → ℕ)) (node : Node) :
    Except Abort ((ℕ → ℕ) × (ℕ → ℕ)) :=
  if node.arrivalTime ≤ currentTime then do
    ensure (0 < node.sgxTime) .sgxTimePositive
    let tier := (← calcTierNumber node c.totalTiers c.sgxMax).toNat
    return (Function.update acc.1 tier (acc.1 tier + node.timeLeft),
      Function.update acc.2 tier (acc.2 tier + 1))
  else return acc

/-- `calculate_quantum_time`. The first loop sets every entry of `sumT` to 0 that the others use. -/
def calculateQuantumTime (s : Sim) : Except Abort Sim := do
  ensure (c.totalTiers ≤ c.size) .outOfRange
  let (sumT, tierActiveNodes) ← s.table.foldlM (countNode c s.currentTime) (fun _ => 0, fun _ => 0)
  return { s with tierQuantumTime := fun i =>
    if i < c.totalTiers ∧ 0 < sumT i then ceilf (sumT i) (tierActiveNodes i * tierActiveNodes i)
    else s.tierQuantumTime i }

/-- A node in the loop of `check_node_arrive`. -/
def arrive (s : Sim) (i : ℕ) : Except Abort Sim :=
  match s.table[i]? with
  | some node =>
    if node.arrivalTime = s.currentTime then do
      let s ← calculateQuantumTime c s
      return { s with queue := queuePush s.queue i }
    else .ok s
  | none => .error .outOfRange

/-- `check_node_arrive`. -/
def checkNodeArrive (s : Sim) : Except Abort Sim := (List.range s.table.length).foldlM (arrive c) s

/-- A pass of the loop over a quantum. -/
def runSlot (currentNode : ℕ) (s : Sim) : Except Abort Sim := do
  ensure (s.currentTime < c.size) .outOfRange
  checkNodeArrive c { s with
    nodesQueue := Function.update s.nodesQueue s.currentTime currentNode
    table := s.table.modify currentNode fun node => { node with timeLeft := node.timeLeft - 1 }
    currentTime := s.currentTime + 1
    ran := s.ran ++ [(s.currentTime, currentNode)] }

/-- The loop over a quantum. -/
def runSlots (currentNode : ℕ) : ℕ → Sim → Except Abort Sim
  | 0, s => .ok s
  | i + 1, s => do
    let s ← runSlot c currentNode s
    runSlots currentNode i s

/-- An entry of `sgx_table`. -/
def entry (s : Sim) (i : ℕ) : Except Abort Node :=
  match s.table[i]? with
  | some node => .ok node
  | none => .error .outOfRange

/-- The body of the loop of `arrange`. -/
def pass (s : Sim) : Except Abort Sim :=
  match s.queue with
  | [] => checkNodeArrive c { s with currentTime := s.currentTime + 1 }
  | currentNode :: queue => do
    let node ← s.entry currentNode
    let temptier ← calcTierNumber node c.totalTiers c.sgxMax
    let qt := min (s.tierQuantumTime temptier.toNat) node.timeLeft
    let s ← runSlots c currentNode qt { s with queue }
    let turns := s.turns ++ [⟨currentNode, s.queue⟩]
    let node ← s.entry currentNode
    return { s with turns, queue := if 0 < node.timeLeft then queuePush s.queue currentNode else s.queue }

/-- The loop of `arrange`, without a limit on its time and without a signal. -/
def arrangeLoop : ℕ → Sim → Except Abort Sim
  | 0, _ => .error .outOfFuel
  | fuel + 1, s => do
    let (b, s) ← isTimeLeft c s
    if b then
      let s ← pass c s
      arrangeLoop fuel s
    else return s

/-- `arrange`. -/
def arrange (fuel : ℕ) (s : Sim) : Except Abort Sim := do
  let s ← checkNodeArrive c s
  arrangeLoop c fuel s

/-- A beginning of a run of `arrange`: what the loop condition returns when it is evaluated for the
`k + 1`-st time, and the state behind that. -/
def evaluation (s : Sim) : ℕ → Except Abort (Bool × Sim)
  | 0 => do
    let s ← checkNodeArrive c s
    isTimeLeft c s
  | k + 1 => do
    let (b, s) ← evaluation s k
    ensure (b = true) .blocked
    let s ← pass c s
    isTimeLeft c s

end

/-! ## The loop and its evaluations -/

section

variable {c : Simulation} {s s' t : Sim}

theorem evaluation_succ {n : ℕ} {b : Bool} (h : evaluation c s (n + 1) = .ok (b, s')) :
    ∃ t t₁, evaluation c s n = .ok (true, t) ∧ pass c t = .ok t₁ ∧ isTimeLeft c t₁ = .ok (b, s') := by
  obtain ⟨⟨b₀, t⟩, ht, h⟩ := Except.bind_eq_ok.mp h
  obtain ⟨_, hb, h⟩ := Except.bind_eq_ok.mp h
  obtain ⟨t₁, hpass, h⟩ := Except.bind_eq_ok.mp h
  rw [ensure_eq_ok] at hb
  exact ⟨t, t₁, hb ▸ ht, hpass, h⟩

/-- A loop that comes to its condition for the `n + 1`-st time and ends, ends behind one of the next
evaluations. -/
theorem exists_evaluation_of_arrangeLoop {fuel n : ℕ} {u : Sim}
    (hn : evaluation c s n = isTimeLeft c u) (h : arrangeLoop c fuel u = .ok t) :
    ∃ m, evaluation c s m = .ok (false, t) := by
  induction fuel generalizing n u with
  | zero => cases h
  | succ fuel ih =>
    obtain ⟨⟨b, u'⟩, heval, h⟩ := Except.bind_eq_ok.mp h
    rw [heval] at hn
    cases b with
    | false =>
      cases h
      exact ⟨n, hn⟩
    | true =>
      obtain ⟨v, hpass, h⟩ := Except.bind_eq_ok.mp h
      refine ih (n := n + 1) ?_ h
      rw [evaluation, hn, Except.ok_bind]
      change (pass c u' >>= isTimeLeft c) = _
      rw [hpass, Except.ok_bind]

/-- The loop goes on behind an evaluation as it does from the state that is evaluated. -/
theorem exists_arrangeLoop_of_evaluation {n : ℕ} {b : Bool} (h : evaluation c s n = .ok (b, s')) :
    ∃ u, isTimeLeft c u = .ok (b, s') ∧ ∀ fuel, arrangeLoop c fuel u = .ok t →
      ∃ fuel', arrange c fuel' s = .ok t := by
  induction n generalizing b s' with
  | zero =>
    obtain ⟨u, hu, heval⟩ := Except.bind_eq_ok.mp h
    exact ⟨u, heval, fun fuel hloop => ⟨fuel, Except.bind_eq_ok.mpr ⟨u, hu, hloop⟩⟩⟩
  | succ n ih =>
    obtain ⟨t₀, u, hn, hpass, heval⟩ := evaluation_succ h
    obtain ⟨u₀, hu₀, hloop₀⟩ := ih hn
    refine ⟨u, heval, fun fuel hloop => hloop₀ (fuel + 1) ?_⟩
    rw [arrangeLoop, hu₀, Except.ok_bind]
    exact Except.bind_eq_ok.mpr ⟨u, hpass, hloop⟩

/-- `arrange` ends in the state behind the first evaluation of the loop condition that returns false. -/
theorem exists_arrange_iff : (∃ fuel, arrange c fuel s = .ok t) ↔ ∃ n, evaluation c s n = .ok (false, t) := by
  constructor
  · rintro ⟨fuel, h⟩
    obtain ⟨u, hu, hloop⟩ := Except.bind_eq_ok.mp h
    refine exists_evaluation_of_arrangeLoop (n := 0) ?_ hloop
    rw [evaluation, hu, Except.ok_bind]
  · rintro ⟨n, h⟩
    obtain ⟨u, hu, hloop⟩ := exists_arrangeLoop_of_evaluation (t := t) h
    refine hloop 1 ?_
    rw [arrangeLoop, hu]
    rfl

end

/-! ## Arrivals -/

/-- The nodes that arrive at a time, in the order of their numbers. -/
def arrivals (table : List Node) (t : ℕ) : List ℕ :=
  (List.range table.length).filter fun i => (table[i]?).map Node.arrivalTime = some t

/-- The nodes that arrive in the `k` slots behind a time, in their order. -/
def arrivalsIn (table : List Node) : ℕ → ℕ → List ℕ
  | _, 0 => []
  | t, k + 1 => arrivals table (t + 1) ++ arrivalsIn table (t + 1) k

variable {table table' : List Node} {i t k : ℕ}

theorem mem_arrivals : i ∈ arrivals table t ↔ ∃ node, table[i]? = some node ∧ node.arrivalTime = t := by
  rw [arrivals, List.mem_filter, List.mem_range, decide_eq_true_eq, Option.map_eq_some_iff,
    and_iff_right_of_imp]
  rintro ⟨node, hnode, -⟩
  exact (List.getElem?_eq_some_iff.mp hnode).1

theorem arrivals_nodup (table : List Node) (t : ℕ) : (arrivals table t).Nodup :=
  List.nodup_range.filter _

theorem mem_arrivalsIn :
    i ∈ arrivalsIn table t k ↔
      ∃ node, table[i]? = some node ∧ t < node.arrivalTime ∧ node.arrivalTime ≤ t + k := by
  induction k generalizing t with
  | zero =>
    refine iff_of_false List.not_mem_nil ?_
    rintro ⟨node, -, hlt, hle⟩
    omega
  | succ k ih =>
    rw [arrivalsIn, List.mem_append, mem_arrivals, ih]
    constructor
    · rintro (⟨node, hnode, ht⟩ | ⟨node, hnode, hlt, hle⟩)
      · exact ⟨node, hnode, by omega, by omega⟩
      · exact ⟨node, hnode, by omega, by omega⟩
    · rintro ⟨node, hnode, hlt, hle⟩
      by_cases ht : node.arrivalTime = t + 1
      · exact .inl ⟨node, hnode, ht⟩
      · exact .inr ⟨node, hnode, by omega, by omega⟩

theorem arrivalsIn_nodup (table : List Node) (t k : ℕ) : (arrivalsIn table t k).Nodup := by
  induction k generalizing t with
  | zero => exact List.nodup_nil
  | succ k ih =>
    refine List.nodup_append.mpr ⟨arrivals_nodup table _, ih _, ?_⟩
    rintro i hi j hj rfl
    obtain ⟨node, hnode, ht⟩ := mem_arrivals.mp hi
    obtain ⟨node', hnode', hlt, -⟩ := mem_arrivalsIn.mp hj
    cases hnode.symm.trans hnode'
    omega

/-- Only the arrival times matter. -/
theorem arrivals_congr (h : table'.map Node.arrivalTime = table.map Node.arrivalTime) (t : ℕ) :
    arrivals table' t = arrivals table t := by
  have hlen : table'.length = table.length := by simpa using congrArg List.length h
  have hget : ∀ i : ℕ, (table'[i]?).map Node.arrivalTime = (table[i]?).map Node.arrivalTime := by
    intro i
    simpa using congrArg (·[i]?) h
  simp only [arrivals, hlen, hget]

theorem arrivalsIn_congr (h : table'.map Node.arrivalTime = table.map Node.arrivalTime) (t k : ℕ) :
    arrivalsIn table' t k = arrivalsIn table t k := by
  induction k generalizing t with
  | zero => rfl
  | succ k ih => rw [arrivalsIn, arrivalsIn, ih, arrivals_congr h]

end Sim

end PoQ
