import PoQ.Quantum
import PoQ.Server.Admissible

/-!
# Quanta in `uint` arithmetic

`calc_quantum_times` adds up SGX times and times left in variables of type `uint`. Nothing bounds the number of
nodes that share a tier, or the bound `sgxmax` itself, which is a `size_t` of the server and a `uint` wherever
quanta are computed.
-/

namespace PoQ

/-- `calc_quantum_times`, with its sums in `uint` variables. -/
def calcQuantumTimesUint (table : List Node) (ntiers sgxMax : ℕ) : Except Abort (List ℕ) :=
  calcQuantumTimesWith (· % uintSize) table ntiers sgxMax

/-- The quanta are at least 1, and those of exact integers. -/
def QuantaExact (table : List Node) (ntiers sgxMax : ℕ) : Prop :=
  ∃ qts, calcQuantumTimesUint table ntiers sgxMax = .ok qts ∧
    calcQuantumTimes table ntiers sgxMax = .ok qts ∧ ∀ qt ∈ qts, 1 ≤ qt

/-- Two numerators have the same quotient, rounded up, exactly when no multiple of the divisor is between
them. -/
theorem ceilf_eq_ceilf_iff {a b n : ℕ} (hn : 0 < n) (hab : a ≤ b) :
    ceilf a n = ceilf b n ↔ ∀ k, n * k < a ∨ b ≤ n * k := by
  constructor
  · intro h k
    rcases Nat.lt_or_ge (n * k) a with hk | hk
    · exact .inl hk
    · right
      rw [← ceilf_le hn, ← h, ceilf_le hn]
      exact hk
  · intro h
    refine eq_of_forall_ge_iff fun k => ?_
    rw [ceilf_le hn, ceilf_le hn]
    refine ⟨fun hk => ?_, hab.trans⟩
    exact (h k).resolve_left (Nat.not_lt.mpr hk)

/-- A tier is in range only if the SGX time is not above the maximum. -/
theorem sgxTime_le_of_calcTierNumber {node : Node} {ntiers sgxMax : ℕ} {tier : ℤ} (ht : 0 < ntiers)
    (hm : 0 < sgxMax) (h : calcTierNumber node ntiers sgxMax = .ok tier) : node.sgxTime ≤ sgxMax := by
  obtain ⟨_, hrange, -⟩ := Except.bind_eq_ok.mp h
  have hlt := (ensure_eq_ok.mp hrange).2
  have hle : ceilf (ntiers * node.sgxTime) sgxMax ≤ ntiers := by
    unfold tierNumber at hlt
    omega
  rw [ceilf_le hm, mul_comm sgxMax] at hle
  exact Nat.le_of_mul_le_mul_left hle ht

/-- The outer loop computes the tier of every node. -/
theorem sgxTime_le_of_collectPeers {wrap : ℕ → ℕ} {table : List Node} {ntiers sgxMax : ℕ} (ht : 0 < ntiers)
    (hm : 0 < sgxMax) {entries : List (Node × ℕ)} {acc acc' : List ℕ × List ℕ}
    (h : entries.foldlM (collectPeers wrap table ntiers sgxMax) acc = .ok acc') :
    ∀ e ∈ entries, e.1.sgxTime ≤ sgxMax := by
  induction entries generalizing acc with
  | nil => exact fun _ he => absurd he List.not_mem_nil
  | cons e entries ih =>
    rw [List.foldlM_cons] at h
    obtain ⟨acc₁, he, h⟩ := Except.bind_eq_ok.mp h
    obtain ⟨tier, htier, -⟩ := Except.bind_eq_ok.mp he
    exact List.forall_mem_cons.mpr ⟨sgxTime_le_of_calcTierNumber ht hm htier, ih h⟩

/-- The sums wrap around. -/
theorem calcQuantumTimesUint_eq {table : List Node} {ntiers sgxMax : ℕ} (ht : 0 < ntiers) (hm : 0 < sgxMax)
    (hid : IndexedById table) (hs : SgxTimesIn table sgxMax) :
    calcQuantumTimesUint table ntiers sgxMax = .ok (table.zipIdx.map fun e =>
      let nn := quantumNodes table ntiers sgxMax e.1 e.2 % uintSize
      if 0 < nn then ceilf (quantumSum table ntiers sgxMax e.1 e.2 % uintSize) (nn * nn) else 0) := by
  have hloops := collectPeers_foldlM (· % uintSize) (fun a b => Nat.mod_add_mod a _ b) ht (by decide) hid hs
  simp only [calcQuantumTimesUint, calcQuantumTimesWith, ensure_of ht, ensure_of hm, hloops,
    Except.ok_bind, Except.pure_eq_ok, List.zipWith_map, List.zipWith_self]

/-- No more nodes are counted than the table has. -/
theorem quantumNodes_le {table : List Node} {ntiers sgxMax i : ℕ} {node : Node} (h : table[i]? = some node) :
    quantumNodes table ntiers sgxMax node i ≤ table.length := by
  have hmem : (node, i) ∈ table.zipIdx := List.mk_mem_zipIdx_iff_getElem?.mpr h
  have hlt : (peers table.zipIdx ntiers sgxMax node i).length < table.zipIdx.length := by
    rw [peers, List.length_map]
    refine List.length_filter_lt_length_iff_exists.mpr ⟨(node, i), hmem, ?_⟩
    simp
  rw [List.length_zipIdx] at hlt
  unfold quantumNodes
  omega

/-- The square of the number of nodes has no multiple from the remainder of their times on up to the sum of the
times. There is none when the sum is below `2 ^ 32`, and for less than `2 ^ 16` nodes only then. -/
def NoMultiple (table : List Node) (ntiers sgxMax : ℕ) (node : Node) (i : ℕ) : Prop :=
  let sum := quantumSum table ntiers sgxMax node i
  let nn := quantumNodes table ntiers sgxMax node i
  ∀ k, nn * nn * k < sum % uintSize ∨ sum ≤ nn * nn * k

theorem noMultiple_of_lt {table : List Node} {ntiers sgxMax i : ℕ} {node : Node}
    (h : quantumSum table ntiers sgxMax node i < uintSize) : NoMultiple table ntiers sgxMax node i := by
  intro k
  rw [Nat.mod_eq_of_lt h]
  exact Nat.lt_or_ge _ _

/-- For less than `2 ^ 16` nodes, every range of `2 ^ 32` numbers has a multiple of the square. -/
theorem noMultiple_iff_lt {table : List Node} {ntiers sgxMax i : ℕ} {node : Node}
    (hnn : quantumNodes table ntiers sgxMax node i < 2 ^ 16) :
    NoMultiple table ntiers sgxMax node i ↔ quantumSum table ntiers sgxMax node i < uintSize := by
  refine ⟨fun h => ?_, noMultiple_of_lt⟩
  let sum := quantumSum table ntiers sgxMax node i
  let nn := quantumNodes table ntiers sgxMax node i
  have hpos : 0 < nn := Nat.add_pos_left Nat.one_pos _
  have hsquare : nn * nn < uintSize := Nat.mul_self_lt_mul_self hnn
  have hle : nn * nn * (sum % uintSize / (nn * nn)) ≤ sum % uintSize := Nat.mul_div_le _ _
  have habove : sum % uintSize < nn * nn * (sum % uintSize / (nn * nn) + 1) :=
    Nat.lt_mul_div_succ _ (Nat.mul_pos hpos hpos)
  have hsum : sum ≤ nn * nn * (sum % uintSize / (nn * nn) + 1) := (h _).resolve_left (Nat.lt_asymm habove)
  rw [Nat.mul_succ] at hsum
  show sum < uintSize
  unfold uintSize at *
  omega

/-- What the two computations give for one node. -/
theorem ceilf_uint_eq_iff {table : List Node} {ntiers sgxMax i : ℕ} {node : Node} (hsgx : 1 ≤ node.sgxTime)
    (hlen : table.length ≤ uintSize) (hi : table[i]? = some node) :
    let sum := quantumSum table ntiers sgxMax node i
    let nn := quantumNodes table ntiers sgxMax node i
    (if 0 < nn % uintSize then ceilf (sum % uintSize) (nn % uintSize * (nn % uintSize)) else 0) =
        ceilf sum (nn * nn) ↔
      nn < uintSize ∧ NoMultiple table ntiers sgxMax node i := by
  intro sum nn
  have hpos : 0 < nn := Nat.add_pos_left Nat.one_pos _
  have hsum : 0 < sum := Nat.add_pos_left hsgx _
  have hnn : 0 < nn * nn := Nat.mul_pos hpos hpos
  have hle : nn ≤ uintSize := (quantumNodes_le hi).trans hlen
  rcases Nat.lt_or_eq_of_le hle with hlt | heq
  · rw [Nat.mod_eq_of_lt hlt, if_pos hpos, and_iff_right hlt]
    exact ceilf_eq_ceilf_iff hnn (Nat.mod_le _ _)
  · rw [heq, Nat.mod_self, if_neg (Nat.lt_irrefl 0)]
    have hquantum := ceilf_pos hsum hnn
    rw [heq] at hquantum
    exact iff_of_false hquantum.ne fun h => Nat.lt_irrefl _ h.1

/-- Two nodes of one tier, with this SGX time. -/
def twoOfOneTier (sgxTime : ℕ) : List Node := [⟨0, 0, sgxTime, 0, sgxTime⟩, ⟨1, 0, sgxTime, 0, sgxTime⟩]

theorem twoOfOneTier_cases {sgxTime i : ℕ} {node : Node} (h : (twoOfOneTier sgxTime)[i]? = some node) :
    i = 0 ∧ node = ⟨0, 0, sgxTime, 0, sgxTime⟩ ∨ i = 1 ∧ node = ⟨1, 0, sgxTime, 0, sgxTime⟩ := by
  have hlt : i < 2 := (List.getElem?_eq_some_iff.mp h).1
  obtain rfl | rfl : i = 0 ∨ i = 1 := by omega
  · exact .inl ⟨rfl, (Option.some.inj h).symm⟩
  · exact .inr ⟨rfl, (Option.some.inj h).symm⟩

theorem twoOfOneTier_indexed (sgxTime : ℕ) : IndexedById (twoOfOneTier sgxTime) := by
  intro i node hi
  obtain ⟨rfl, rfl⟩ | ⟨rfl, rfl⟩ := twoOfOneTier_cases hi
  · rfl
  · rfl

theorem one_lt_uintSize : 1 < uintSize := by decide

/-- SGX times from 1 to `2 ^ 32 - 1`, in one tier. -/
def below32Bits : Configuration :=
  ⟨1, 2 ^ 32 - 1, 1, by decide, one_lt_uintSize, by decide, Nat.one_pos, Nat.one_pos, by decide⟩

end PoQ
