import Mathlib.Algebra.Order.BigOperators.Group.List
import Mathlib.Algebra.Order.Floor.Div
import Mathlib.Data.Rat.Floor
import Mathlib.Tactic.Linarith
import Mathlib.Tactic.Positivity
import PoQ.Basic

/-!
# Tiers and quanta

`calc_tier_number`, `calc_quantum_times` and `remaining_quantum_time` of `poet_shared_functions.cpp`.
The float quotients are read exactly. The sums of `calc_quantum_times` are taken with a parameter
`wrap` that is applied to every stored sum: the identity for exact integers, the reduction modulo
`uintSize` for the `uint` variables of the source.
-/

namespace PoQ

/-- `ceilf((float) a / (float) b)`, read exactly. -/
def ceilf (a b : ℕ) : ℕ := a ⌈/⌉ b

theorem ceilf_eq_ceil {a b : ℕ} (hb : 0 < b) : (ceilf a b : ℤ) = ⌈(a / b : ℚ)⌉ := by
  have hb' : (0 : ℚ) < b := by exact_mod_cast hb
  refine eq_of_forall_ge_iff fun c => ?_
  rw [Int.ceil_le, div_le_iff₀ hb']
  rcases Int.lt_or_le c 0 with hc | hc
  · have h1 : (c : ℚ) * b < 0 := mul_neg_of_neg_of_pos (by exact_mod_cast hc) hb'
    have h2 : (0 : ℚ) ≤ a := Nat.cast_nonneg a
    exact iff_of_false (by omega) (by linarith)
  · obtain ⟨n, rfl⟩ := Int.eq_ofNat_of_zero_le hc
    have h := ceilDiv_le_iff_le_mul (b := a) (c := n) hb
    rw [Int.ofNat_le, ceilf, h, mul_comm]
    exact_mod_cast Iff.rfl

theorem ceilf_pos {a b : ℕ} (ha : 0 < a) (hb : 0 < b) : 0 < ceilf a b := by
  have h := ceilDiv_le_iff_le_mul (b := a) (c := 0) hb
  unfold ceilf
  omega

theorem ceilf_le {a b c : ℕ} (hb : 0 < b) : ceilf a b ≤ c ↔ a ≤ b * c := ceilDiv_le_iff_le_mul hb

/-- The tier of a node, an index. -/
def tierNumber (node : Node) (totalTiers sgxMax : ℕ) : ℤ := ceilf (totalTiers * node.sgxTime) sgxMax - 1

/-- `calc_tier_number`. -/
def calcTierNumber (node : Node) (totalTiers sgxMax : ℕ) : Except Abort ℤ := do
  let tier := tierNumber node totalTiers sgxMax
  ensure (0 ≤ tier ∧ tier < totalTiers) .tierInRange
  return tier

/-- `v[i] += x`. -/
def addAt (wrap : ℕ → ℕ) (v : List ℕ) (i x : ℕ) : Except Abort (List ℕ) :=
  match v[i]? with
  | some y => .ok (v.set i (wrap (y + x)))
  | none => .error .outOfRange

/-- The inner loop of `calc_quantum_times`: `node_i` collects what `node_j` adds to its quantum. The
table holds pointers to distinct records, so that `node_i == node_j` compares the positions. -/
def collectPeer (wrap : ℕ → ℕ) (ntiers sgxMax : ℕ) (nodeI : Node) (i : ℕ) (tierI : ℤ)
    (acc : List ℕ × List ℕ) : Node × ℕ → Except Abort (List ℕ × List ℕ)
  | (nodeJ, j) =>
    if i = j then .ok acc else do
      let tierJ ← calcTierNumber nodeJ ntiers sgxMax
      if tierI = tierJ ∧ nodeJ.arrivalTime ≤ nodeI.arrivalTime then
        let quantumTimes ← addAt wrap acc.1 nodeI.nodeId nodeJ.timeLeft
        let tierActiveNodes ← addAt wrap acc.2 nodeI.nodeId 1
        return (quantumTimes, tierActiveNodes)
      else return acc

/-- The outer loop of `calc_quantum_times`. -/
def collectPeers (wrap : ℕ → ℕ) (table : List Node) (ntiers sgxMax : ℕ) (acc : List ℕ × List ℕ) :
    Node × ℕ → Except Abort (List ℕ × List ℕ)
  | (nodeI, i) => do
    let tierI ← calcTierNumber nodeI ntiers sgxMax
    let quantumTimes ← addAt wrap acc.1 nodeI.nodeId nodeI.sgxTime
    table.zipIdx.foldlM (collectPeer wrap ntiers sgxMax nodeI i tierI) (quantumTimes, acc.2)

/-- `calc_quantum_times`, with the sums stored through `wrap`. The two time arguments of the source
are not read there. -/
def calcQuantumTimesWith (wrap : ℕ → ℕ) (table : List Node) (ntiers sgxMax : ℕ) :
    Except Abort (List ℕ) := do
  ensure (0 < ntiers) .ntiersPositive
  ensure (0 < sgxMax) .sgxMaxPositive
  let (quantumTimes, tierActiveNodes) ← table.zipIdx.foldlM (collectPeers wrap table ntiers sgxMax)
    (.replicate table.length 0, .replicate table.length 1)
  return quantumTimes.zipWith (fun qt nn => if 0 < nn then ceilf qt (nn * nn) else 0) tierActiveNodes

/-- `calc_quantum_times` over exact integers. -/
def calcQuantumTimes (table : List Node) (ntiers sgxMax : ℕ) : Except Abort (List ℕ) :=
  calcQuantumTimesWith id table ntiers sgxMax

/-- `remaining_quantum_time`: what a node is given in its turn after `reps` turns. -/
def remainingQuantumTime (quantumTimes : List ℕ) (node : Node) (reps : ℕ) : Except Abort ℕ :=
  match quantumTimes[node.nodeId]? with
  | some quantumTime =>
    let sgxTime : ℤ := node.sgxTime
    .ok (min (quantumTime : ℤ) (max (sgxTime - reps * quantumTime) 0)).toNat
  | none => .error .outOfRange

/-- The SGX times of the table are ones the server accepts. -/
def SgxTimesIn (table : List Node) (sgxMax : ℕ) : Prop :=
  ∀ node ∈ table, 1 ≤ node.sgxTime ∧ node.sgxTime ≤ sgxMax

theorem calcTierNumber_ok {node : Node} {ntiers sgxMax : ℕ} (ht : 0 < ntiers)
    (h1 : 1 ≤ node.sgxTime) (h2 : node.sgxTime ≤ sgxMax) :
    calcTierNumber node ntiers sgxMax = .ok (tierNumber node ntiers sgxMax) := by
  have hpos : 0 < ceilf (ntiers * node.sgxTime) sgxMax := ceilf_pos (Nat.mul_pos ht h1) (by omega)
  have hle : ceilf (ntiers * node.sgxTime) sgxMax ≤ ntiers := by
    rw [ceilf_le (by omega), mul_comm]
    exact Nat.mul_le_mul_right _ h2
  have hr : 0 ≤ tierNumber node ntiers sgxMax ∧ tierNumber node ntiers sgxMax < ntiers := by
    unfold tierNumber
    omega
  simp [calcTierNumber, ensure_of hr]

/-- The nodes whose time left counts for the quantum of `node` at index `i`. -/
def peers (table : List (Node × ℕ)) (ntiers sgxMax : ℕ) (node : Node) (i : ℕ) : List Node :=
  (table.filter fun (nodeJ, j) => i ≠ j ∧
    tierNumber node ntiers sgxMax = tierNumber nodeJ ntiers sgxMax ∧
      nodeJ.arrivalTime ≤ node.arrivalTime).map (·.1)

theorem addAt_ok {wrap : ℕ → ℕ} {v : List ℕ} {i x y : ℕ} (h : v[i]? = some y) :
    addAt wrap v i x = .ok (v.set i (wrap (y + x))) := by
  simp [addAt, h]

private theorem set_self {v : List ℕ} {i y : ℕ} (h : v[i]? = some y) : v.set i y = v := by
  obtain ⟨hi, rfl⟩ := List.getElem?_eq_some_iff.mp h
  exact List.set_getElem_self hi

private theorem getElem?_set_of_some {v : List ℕ} {i y : ℕ} (h : v[i]? = some y) (z : ℕ) :
    (v.set i z)[i]? = some z := by
  obtain ⟨hi, -⟩ := List.getElem?_eq_some_iff.mp h
  simp [hi]

/-- The first `k` slots of a vector over the table are filled in, the others hold `x`. -/
private def filled (table : List Node) (f : Node × ℕ → ℕ) (x k : ℕ) : List ℕ :=
  table.zipIdx.map fun e => if e.2 < k then f e else x

private theorem filled_zero (table : List Node) (f : Node × ℕ → ℕ) (x : ℕ) :
    filled table f x 0 = .replicate table.length x := by
  simp [filled, List.map_const']

private theorem filled_length (table : List Node) (f : Node × ℕ → ℕ) (x : ℕ) :
    filled table f x table.length = table.zipIdx.map f := by
  refine List.map_congr_left fun e he => ?_
  obtain ⟨-, h, -⟩ := List.mem_zipIdx he
  rw [if_pos (by omega)]

private theorem filled_getElem? {table : List Node} {f : Node × ℕ → ℕ} {x k : ℕ} {node : Node}
    (h : table[k]? = some node) : (filled table f x k)[k]? = some x := by
  simp [filled, h]

private theorem filled_set {table : List Node} {f : Node × ℕ → ℕ} {x k : ℕ} {node : Node}
    (h : table[k]? = some node) :
    (filled table f x k).set k (f (node, k)) = filled table f x (k + 1) := by
  refine List.ext_getElem? fun j => ?_
  by_cases hj : j = k
  · subst hj
    rw [getElem?_set_of_some (filled_getElem? h)]
    simp [filled, h]
  · rw [List.getElem?_set_ne (Ne.symm hj)]
    have : j < k ↔ j < k + 1 := by omega
    simp [filled, Function.comp_def, this]

/-- What the loops of `calc_quantum_times` add up for the node at index `i`: its own SGX time and the
time left of its peers. -/
def quantumSum (table : List Node) (ntiers sgxMax : ℕ) (node : Node) (i : ℕ) : ℕ :=
  node.sgxTime + ((peers table.zipIdx ntiers sgxMax node i).map (·.timeLeft)).sum

/-- The number of nodes counted for the quantum of the node at index `i`, itself included. -/
def quantumNodes (table : List Node) (ntiers sgxMax : ℕ) (node : Node) (i : ℕ) : ℕ :=
  1 + (peers table.zipIdx ntiers sgxMax node i).length

section
variable (wrap : ℕ → ℕ) (hw : ∀ a b, wrap (wrap a + b) = wrap (a + b))
  {ntiers sgxMax : ℕ} (ht : 0 < ntiers)
include hw ht

/-- The inner loop adds up the peers of `node_i`. -/
theorem collectPeer_foldlM {nodeI : Node} {i : ℕ} (hid : nodeI.nodeId = i)
    {entries : List (Node × ℕ)} (hs : ∀ e ∈ entries, 1 ≤ e.1.sgxTime ∧ e.1.sgxTime ≤ sgxMax)
    {qts act : List ℕ} {a b : ℕ} (hq : qts[i]? = some (wrap a)) (hb : act[i]? = some (wrap b)) :
    entries.foldlM (collectPeer wrap ntiers sgxMax nodeI i (tierNumber nodeI ntiers sgxMax))
        (qts, act) =
      .ok (qts.set i (wrap (a + ((peers entries ntiers sgxMax nodeI i).map (·.timeLeft)).sum)),
        act.set i (wrap (b + (peers entries ntiers sgxMax nodeI i).length))) := by
  induction entries generalizing qts act a b with
  | nil => simp [peers, set_self hq, set_self hb]
  | cons e entries ih =>
    obtain ⟨nodeJ, j⟩ := e
    have hs' : ∀ e ∈ entries, 1 ≤ e.1.sgxTime ∧ e.1.sgxTime ≤ sgxMax :=
      fun e he => hs e (List.mem_cons_of_mem _ he)
    obtain ⟨hj1, hj2⟩ := hs (nodeJ, j) List.mem_cons_self
    rw [List.foldlM_cons]
    by_cases hij : i = j
    · rw [collectPeer, if_pos hij, Except.ok_bind, ih hs' hq hb]
      simp [peers, hij]
    rw [collectPeer, if_neg hij, calcTierNumber_ok ht hj1 hj2, Except.ok_bind]
    by_cases hp : tierNumber nodeI ntiers sgxMax = tierNumber nodeJ ntiers sgxMax ∧
        nodeJ.arrivalTime ≤ nodeI.arrivalTime
    · rw [if_pos hp, hid, addAt_ok hq, addAt_ok hb]
      simp only [Except.ok_bind, Except.pure_eq_ok, hw]
      rw [ih hs' (getElem?_set_of_some hq _) (getElem?_set_of_some hb _)]
      simp [peers, hij, hp, Nat.add_assoc, Nat.add_comm 1]
    · rw [if_neg hp, Except.pure_eq_ok, Except.ok_bind, ih hs' hq hb]
      simp [peers, hij, hp]

/-- The loops of `calc_quantum_times` end with the sums of every node. -/
theorem collectPeers_foldlM {table : List Node} (hone : wrap 1 = 1) (hid : IndexedById table)
    (hs : SgxTimesIn table sgxMax) :
    table.zipIdx.foldlM (collectPeers wrap table ntiers sgxMax)
        (.replicate table.length 0, .replicate table.length 1) =
      .ok (table.zipIdx.map fun e => wrap (quantumSum table ntiers sgxMax e.1 e.2),
        table.zipIdx.map fun e => wrap (quantumNodes table ntiers sgxMax e.1 e.2)) := by
  let qt := fun e : Node × ℕ => wrap (quantumSum table ntiers sgxMax e.1 e.2)
  let nn := fun e : Node × ℕ => wrap (quantumNodes table ntiers sgxMax e.1 e.2)
  have h := List.foldlM_zipIdx_ok (f := collectPeers wrap table ntiers sgxMax) (l := table)
    (fun k => (filled table qt 0 k, filled table nn 1 k)) ?_
  · simpa only [filled_zero, filled_length] using h
  -- one pass of the outer loop fills in the slot of its node
  intro k node hk
  have hnode : node ∈ table := List.mem_of_getElem? hk
  have hentries : ∀ e ∈ table.zipIdx, 1 ≤ e.1.sgxTime ∧ e.1.sgxTime ≤ sgxMax := fun e he =>
    hs e.1 (List.fst_mem_of_mem_zipIdx he)
  have hqt := filled_getElem? (f := qt) (x := 0) hk
  have hnn : (filled table nn 1 k)[k]? = some (wrap 1) := by rw [hone]; exact filled_getElem? hk
  rw [collectPeers, calcTierNumber_ok ht (hs node hnode).1 (hs node hnode).2, Except.ok_bind,
    hid k node hk, addAt_ok hqt, Except.ok_bind, Nat.zero_add,
    collectPeer_foldlM wrap hw ht (hid k node hk) hentries (getElem?_set_of_some hqt _) hnn,
    List.set_set, ← filled_set (f := qt) hk, ← filled_set (f := nn) hk]
  rfl

end

/-- `calc_quantum_times` on a table of accepted SGX times: every quantum is the sum of the SGX time of
the node and of the time left of its peers, over the square of their number, rounded up. -/
theorem calcQuantumTimes_eq {table : List Node} {ntiers sgxMax : ℕ} (ht : 0 < ntiers)
    (hm : 0 < sgxMax) (hid : IndexedById table) (hs : SgxTimesIn table sgxMax) :
    calcQuantumTimes table ntiers sgxMax = .ok (table.zipIdx.map fun e =>
      ceilf (quantumSum table ntiers sgxMax e.1 e.2)
        (quantumNodes table ntiers sgxMax e.1 e.2 * quantumNodes table ntiers sgxMax e.1 e.2)) := by
  have hloops := collectPeers_foldlM id (fun _ _ => rfl) ht rfl hid hs
  simp only [calcQuantumTimes, calcQuantumTimesWith, ensure_of ht, ensure_of hm, hloops,
    Except.ok_bind, Except.pure_eq_ok, id, List.zipWith_map]
  simp [quantumNodes]

/-- The quanta: one for every node of the table, all positive. -/
theorem calcQuantumTimes_ok {table : List Node} {ntiers sgxMax : ℕ} (ht : 0 < ntiers)
    (hm : 0 < sgxMax) (hid : IndexedById table) (hs : SgxTimesIn table sgxMax) :
    ∃ qts, calcQuantumTimes table ntiers sgxMax = .ok qts ∧ qts.length = table.length ∧
      ∀ qt ∈ qts, 0 < qt := by
  refine ⟨_, calcQuantumTimes_eq ht hm hid hs, by simp, fun qt hqt => ?_⟩
  obtain ⟨e, he, rfl⟩ := List.mem_map.mp hqt
  have h1 := (hs e.1 (List.fst_mem_of_mem_zipIdx he)).1
  refine ceilf_pos ?_ (Nat.mul_pos ?_ ?_)
  · unfold quantumSum; omega
  all_goals unfold quantumNodes; omega

end PoQ
