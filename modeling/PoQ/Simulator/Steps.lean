import PoQ.Simulator.Arrange

/-!
# What the parts of the simulator do

One lemma for each function that `arrange` calls: what has become of the variables when it returns. A
quantum is positive once a node with time left has arrived in its tier, and it stays so.
-/

namespace PoQ

namespace Sim

variable {c : Simulation} {s s' : Sim}

/-- The tier of a node, as an index. -/
def tierOf (c : Simulation) (node : Node) : ℕ := (tierNumber node c.totalTiers c.sgxMax).toNat

/-! ## Quanta -/

theorem countNode_eq_ok {t : ℕ} {acc acc' : (ℕ → ℕ) × (ℕ → ℕ)} {node : Node}
    (h : countNode c t acc node = .ok acc') :
    t < node.arrivalTime ∧ acc' = acc ∨
    node.arrivalTime ≤ t ∧ 0 < node.sgxTime ∧ tierOf c node < c.totalTiers ∧
      acc' = (Function.update acc.1 (tierOf c node) (acc.1 (tierOf c node) + node.timeLeft),
        Function.update acc.2 (tierOf c node) (acc.2 (tierOf c node) + 1)) := by
  rw [countNode] at h
  split at h
  · next harrived =>
    obtain ⟨_, hpos, h⟩ := Except.bind_eq_ok.mp h
    obtain ⟨tier, htier, h⟩ := Except.bind_eq_ok.mp h
    obtain ⟨_, hrange, htier⟩ := Except.bind_eq_ok.mp htier
    cases htier
    cases h
    rw [ensure_eq_ok] at hpos hrange
    refine .inr ⟨harrived, hpos, ?_, rfl⟩
    have := hrange.2
    rw [tierOf]
    omega
  · next harrived =>
    cases h
    exact .inl ⟨Nat.not_le.mp harrived, rfl⟩

/-- The sums grow, a tier with a sum has nodes, and every node that has arrived is counted. -/
theorem foldlM_countNode {t : ℕ} {nodes : List Node} {acc acc' : (ℕ → ℕ) × (ℕ → ℕ)}
    (h : nodes.foldlM (countNode c t) acc = .ok acc') (hacc : ∀ i, 0 < acc.1 i → 0 < acc.2 i) :
    (∀ i, acc.1 i ≤ acc'.1 i) ∧ (∀ i, 0 < acc'.1 i → 0 < acc'.2 i) ∧
    ∀ node ∈ nodes, node.arrivalTime ≤ t →
      0 < node.sgxTime ∧ tierOf c node < c.totalTiers ∧ node.timeLeft ≤ acc'.1 (tierOf c node) := by
  induction nodes generalizing acc with
  | nil =>
    cases h
    exact ⟨fun _ => le_rfl, hacc, fun node hnode => by cases hnode⟩
  | cons node nodes ih =>
    rw [List.foldlM_cons] at h
    obtain ⟨acc₁, hnode, hrest⟩ := Except.bind_eq_ok.mp h
    obtain ⟨hlater, rfl⟩ | ⟨harrived, hpos, htier, rfl⟩ := countNode_eq_ok hnode
    · obtain ⟨hle, hactive, hnodes⟩ := ih hrest hacc
      refine ⟨hle, hactive, List.forall_mem_cons.mpr ⟨fun harrived => ?_, hnodes⟩⟩
      omega
    · have hgrow : ∀ i, acc.1 i ≤
          Function.update acc.1 (tierOf c node) (acc.1 (tierOf c node) + node.timeLeft) i := by
        intro i
        rw [Function.update_apply]
        split
        · next hi => exact hi ▸ Nat.le_add_right _ _
        · exact le_rfl
      obtain ⟨hle, hactive, hnodes⟩ := ih hrest fun i hi => by
        simp only [Function.update_apply] at hi ⊢
        split
        · omega
        · next hne => exact hacc i (by rwa [if_neg hne] at hi)
      refine ⟨fun i => (hgrow i).trans (hle i), hactive, List.forall_mem_cons.mpr ⟨fun _ => ?_, hnodes⟩⟩
      refine ⟨hpos, htier, ?_⟩
      have hself := hle (tierOf c node)
      simp only [Function.update_self] at hself
      omega

/-- What new quanta are like: those that were positive still are, and the nodes that have arrived in time
`t` with time left have a positive one. -/
structure Requantified (c : Simulation) (table : List Node) (t : ℕ) (q q' : ℕ → ℕ) : Prop where
  mono : ∀ i, 0 < q i → 0 < q' i
  arrived : ∀ node ∈ table, node.arrivalTime ≤ t →
    0 < node.sgxTime ∧ (0 < node.timeLeft → 0 < q' (tierOf c node))

theorem calculateQuantumTime_eq_ok (h : calculateQuantumTime c s = .ok s') :
    ∃ q, s' = { s with tierQuantumTime := q } ∧
      Requantified c s.table s.currentTime s.tierQuantumTime q := by
  obtain ⟨_, -, h⟩ := Except.bind_eq_ok.mp h
  obtain ⟨⟨sumT, tierActiveNodes⟩, hcount, h⟩ := Except.bind_eq_ok.mp h
  cases h
  obtain ⟨-, hactive, hnodes⟩ := foldlM_countNode hcount fun i hi => by cases hi
  have hpos : ∀ i, 0 < sumT i → 0 < ceilf (sumT i) (tierActiveNodes i * tierActiveNodes i) :=
    fun i hi => ceilf_pos hi (Nat.mul_pos (hactive i hi) (hactive i hi))
  refine ⟨_, rfl, fun i hi => ?_, fun node hnode harrived => ?_⟩
  · split
    · next hsum => exact hpos i hsum.2
    · exact hi
  · obtain ⟨hsgx, htier, hle⟩ := hnodes node hnode harrived
    refine ⟨hsgx, fun hleft => ?_⟩
    have hsum : 0 < sumT (tierOf c node) := lt_of_lt_of_le hleft hle
    rw [if_pos ⟨htier, hsum⟩]
    exact hpos _ hsum

/-! ## Arrivals -/

theorem arrive_eq_ok {i : ℕ} (h : arrive c s i = .ok s') :
    ∃ node, s.table[i]? = some node ∧
      (node.arrivalTime ≠ s.currentTime ∧ s' = s ∨
        node.arrivalTime = s.currentTime ∧ ∃ q, s' = { s with tierQuantumTime := q, queue := s.queue ++ [i] } ∧
          Requantified c s.table s.currentTime s.tierQuantumTime q) := by
  rw [arrive] at h
  split at h
  · next node hnode =>
    refine ⟨node, hnode, ?_⟩
    split at h
    · next harrives =>
      obtain ⟨s₁, h₁, h⟩ := Except.bind_eq_ok.mp h
      cases h
      obtain ⟨q, rfl, hq⟩ := calculateQuantumTime_eq_ok h₁
      exact .inr ⟨harrives, q, rfl, hq⟩
    · next harrives =>
      cases h
      exact .inl ⟨harrives, rfl⟩
  · cases h

/-- Nothing changes but the queue and the quanta, and the quanta only if somebody arrives. -/
theorem foldlM_arrive {l : List ℕ} (h : l.foldlM (arrive c) s = .ok s') :
    ∃ q, s' = { s with
        tierQuantumTime := q
        queue := s.queue ++ l.filter fun i =>
          (s.table[i]?).map Node.arrivalTime = some s.currentTime } ∧
      (∀ i, 0 < s.tierQuantumTime i → 0 < q i) ∧
      ((∃ i ∈ l, (s.table[i]?).map Node.arrivalTime = some s.currentTime) →
        Requantified c s.table s.currentTime s.tierQuantumTime q) := by
  induction l generalizing s with
  | nil =>
    cases h
    refine ⟨_, by simp only [List.filter_nil, List.append_nil], fun _ hi => hi, ?_⟩
    rintro ⟨i, hi, -⟩
    cases hi
  | cons i l ih =>
    rw [List.foldlM_cons] at h
    obtain ⟨s₁, hi, hrest⟩ := Except.bind_eq_ok.mp h
    obtain ⟨node, hnode, ⟨hne, rfl⟩ | ⟨harrives, q₁, rfl, hq₁⟩⟩ := arrive_eq_ok hi
    · have hnot : ¬(s₁.table[i]?).map Node.arrivalTime = some s₁.currentTime := by
        rw [hnode]
        simpa using hne
      obtain ⟨q, rfl, hmono, hq⟩ := ih hrest
      refine ⟨q, by rw [List.filter_cons_of_neg (by simpa using hnot)], hmono, ?_⟩
      rintro ⟨j, hj, harrives⟩
      obtain rfl | hj := List.mem_cons.mp hj
      · exact absurd harrives hnot
      · exact hq ⟨j, hj, harrives⟩
    · have hyes : (s.table[i]?).map Node.arrivalTime = some s.currentTime := by
        rw [hnode]
        simpa using harrives
      obtain ⟨q, rfl, hmono, hq⟩ := ih hrest
      refine ⟨q, ?_, fun j hj => hmono j (hq₁.mono j hj), fun _ => ⟨fun j hj => hmono j (hq₁.mono j hj), ?_⟩⟩
      · rw [List.filter_cons_of_pos (by simpa using hyes)]
        simp
      · intro node hnode harrived
        obtain ⟨hsgx, hpos⟩ := hq₁.arrived node hnode harrived
        exact ⟨hsgx, fun hleft => hmono _ (hpos hleft)⟩

/-- The quanta when the nodes in `P` have arrived: they have SGX times, and positive quanta if they have
time left. -/
structure Arrived (c : Simulation) (table : List Node) (q q' : ℕ → ℕ) (P : ℕ → Prop) : Prop where
  mono : ∀ i, 0 < q i → 0 < q' i
  arrived : ∀ i, P i → ∀ node, table[i]? = some node →
    0 < node.sgxTime ∧ (0 < node.timeLeft → 0 < q' (tierOf c node))

/-- `check_node_arrive`. -/
theorem checkNodeArrive_eq_ok (h : checkNodeArrive c s = .ok s') :
    ∃ q, s' = { s with tierQuantumTime := q, queue := s.queue ++ arrivals s.table s.currentTime } ∧
      Arrived c s.table s.tierQuantumTime q (· ∈ arrivals s.table s.currentTime) := by
  obtain ⟨q, rfl, hmono, hq⟩ := foldlM_arrive h
  refine ⟨q, rfl, hmono, fun i hi node hnode => ?_⟩
  obtain ⟨hrange, harrives⟩ := List.mem_filter.mp hi
  have hrequantified := hq ⟨i, hrange, of_decide_eq_true harrives⟩
  obtain ⟨node', hnode', htime⟩ := mem_arrivals.mp hi
  cases hnode.symm.trans hnode'
  exact hrequantified.arrived node (List.mem_of_getElem? hnode) htime.le

/-! ## Turns -/

/-- A node has run in `k` slots. -/
def spend (table : List Node) (y k : ℕ) : List Node :=
  table.modify y fun node => { node with timeLeft := node.timeLeft - k }

variable {table : List Node} {i y k l : ℕ} {node : Node}

theorem spend_zero (table : List Node) (y : ℕ) : spend table y 0 = table :=
  List.modify_id y table

theorem spend_spend (table : List Node) (y k l : ℕ) :
    spend (spend table y k) y l = spend table y (k + l) := by
  rw [spend, spend, List.modify_modify_eq, spend]
  congr 1
  funext node
  simp only [Function.comp_apply, Nat.sub_sub]

theorem spend_getElem?_self (h : table[y]? = some node) :
    (spend table y k)[y]? = some { node with timeLeft := node.timeLeft - k } := by
  rw [spend, List.getElem?_modify_eq, h]
  rfl

theorem spend_getElem?_of_ne (h : i ≠ y) : (spend table y k)[i]? = table[i]? := by
  rw [spend, List.getElem?_modify_ne _ _ (Ne.symm h)]

/-- Only the time left changes. -/
theorem spend_map {α : Type*} {f : Node → α} (hf : ∀ (node : Node) t, f { node with timeLeft := t } = f node)
    (table : List Node) (y k : ℕ) : (spend table y k).map f = table.map f := by
  refine List.ext_getElem? fun i => ?_
  rw [List.getElem?_map, List.getElem?_map]
  by_cases hi : i = y
  · subst hi
    rw [spend, List.getElem?_modify_eq]
    cases table[i]? with
    | none => rfl
    | some node => exact congrArg some (hf node _)
  · rw [spend_getElem?_of_ne hi]

theorem spend_arrivalTime (table : List Node) (y k : ℕ) :
    (spend table y k).map Node.arrivalTime = table.map Node.arrivalTime :=
  spend_map (fun _ _ => rfl) table y k

/-- The slots of a turn of `y` that begins at `t`. -/
def slotsOf (t k y : ℕ) : List (ℕ × ℕ) := (List.range k).map fun j => (t + j, y)

theorem slotsOf_succ (t k y : ℕ) : slotsOf t (k + 1) y = (t, y) :: slotsOf (t + 1) k y := by
  rw [slotsOf, List.range_succ_eq_map, List.map_cons, List.map_map, slotsOf]
  congr 1
  refine List.map_congr_left fun j _ => ?_
  simp only [Function.comp_apply, Nat.succ_eq_add_one, Prod.mk.injEq, and_true]
  omega

/-- `nodes_queue` with these slots written. -/
def written (nodesQueue : ℕ → ℕ) (t k y : ℕ) : ℕ → ℕ :=
  fun u => if t ≤ u ∧ u < t + k then y else nodesQueue u

theorem written_zero (nodesQueue : ℕ → ℕ) (t y : ℕ) : written nodesQueue t 0 y = nodesQueue := by
  funext u
  rw [written, if_neg (by omega)]

theorem written_succ (nodesQueue : ℕ → ℕ) (t k y : ℕ) :
    written (Function.update nodesQueue t y) (t + 1) k y = written nodesQueue t (k + 1) y := by
  funext u
  simp only [written, Function.update_apply]
  split_ifs <;> first | rfl | omega

/-- The variables behind `k` slots of `y`. -/
def afterSlots (s : Sim) (y k : ℕ) (q : ℕ → ℕ) : Sim :=
  { s with
    table := spend s.table y k
    currentTime := s.currentTime + k
    queue := s.queue ++ arrivalsIn s.table s.currentTime k
    nodesQueue := written s.nodesQueue s.currentTime k y
    tierQuantumTime := q
    ran := s.ran ++ slotsOf s.currentTime k y }

theorem afterSlots_zero (s : Sim) (y : ℕ) : s.afterSlots y 0 s.tierQuantumTime = s := by
  apply Sim.ext
  · exact spend_zero _ _
  · rfl
  · exact List.append_nil _
  · exact written_zero _ _ _
  · rfl
  · rfl
  · exact List.append_nil _
  · rfl

/-- A slot, and then `k` others. -/
theorem afterSlots_succ (s : Sim) (y k : ℕ) (q q₁ : ℕ → ℕ) :
    afterSlots { s with
      nodesQueue := Function.update s.nodesQueue s.currentTime y
      table := spend s.table y 1
      currentTime := s.currentTime + 1
      ran := s.ran ++ [(s.currentTime, y)]
      tierQuantumTime := q₁
      queue := s.queue ++ arrivals (spend s.table y 1) (s.currentTime + 1) } y k q =
      s.afterSlots y (k + 1) q := by
  apply Sim.ext
  · exact (spend_spend s.table y 1 k).trans (by rw [Nat.add_comm]; rfl)
  · exact (Nat.add_right_comm s.currentTime 1 k).trans (Nat.add_assoc s.currentTime k 1)
  · simp only [afterSlots, arrivalsIn, arrivals_congr (spend_arrivalTime s.table y 1),
      arrivalsIn_congr (spend_arrivalTime s.table y 1), List.append_assoc]
  · exact written_succ _ _ _ _
  · rfl
  · rfl
  · simp only [afterSlots, slotsOf_succ, List.append_assoc, List.singleton_append]
  · rfl

/-- The loop over a quantum. -/
theorem runSlots_eq_ok (h : runSlots c y k s = .ok s') :
    ∃ q, s' = s.afterSlots y k q ∧ Arrived c s.table s.tierQuantumTime q
      fun i => i ∈ arrivalsIn s.table s.currentTime k ∧ i ≠ y := by
  induction k generalizing s with
  | zero =>
    cases h
    exact ⟨_, (afterSlots_zero s' y).symm, fun _ hi => hi, fun i hi => by cases hi.1⟩
  | succ k ih =>
    obtain ⟨s₂, hslot, hrest⟩ := Except.bind_eq_ok.mp h
    obtain ⟨_, -, hslot⟩ := Except.bind_eq_ok.mp hslot
    obtain ⟨q₁, rfl, hq₁⟩ := checkNodeArrive_eq_ok hslot
    obtain ⟨q, rfl, hq⟩ := ih hrest
    refine ⟨q, afterSlots_succ s y k q q₁, fun i hi => hq.mono i (hq₁.mono i hi), ?_⟩
    rintro i ⟨hi, hne⟩ node hnode
    have hsame : (spend s.table y 1)[i]? = some node := (spend_getElem?_of_ne hne).trans hnode
    obtain hi | hi := List.mem_append.mp hi
    · rw [← arrivals_congr (spend_arrivalTime s.table y 1)] at hi
      obtain ⟨hsgx, hpos⟩ := hq₁.arrived i hi node hsame
      exact ⟨hsgx, fun hleft => hq.mono _ (hpos hleft)⟩
    · rw [← arrivalsIn_congr (spend_arrivalTime s.table y 1)] at hi
      exact hq.arrived i ⟨hi, hne⟩ node hsame

/-- The slots of a quantum are within the arrays. -/
theorem runSlots_le_size (h : runSlots c y k s = .ok s') (hk : 0 < k) : s.currentTime + k ≤ c.size := by
  induction k generalizing s with
  | zero => cases hk
  | succ k ih =>
    obtain ⟨s₂, hslot, hrest⟩ := Except.bind_eq_ok.mp h
    obtain ⟨_, hsize, hslot⟩ := Except.bind_eq_ok.mp hslot
    obtain ⟨q₁, rfl, -⟩ := checkNodeArrive_eq_ok hslot
    rw [ensure_eq_ok] at hsize
    cases k with
    | zero => exact hsize
    | succ k =>
      have hle := ih hrest (Nat.succ_pos k)
      simp only at hle
      omega

/-- The variables behind a pass in which nobody is served. -/
def afterIdle (s : Sim) (q : ℕ → ℕ) : Sim :=
  { s with
    currentTime := s.currentTime + 1
    queue := arrivals s.table (s.currentTime + 1)
    tierQuantumTime := q }

/-- The variables behind a pass in which `y` is served for `k` slots. -/
def afterTurn (s : Sim) (y : ℕ) (rest : List ℕ) (k : ℕ) (left : Bool) (q : ℕ → ℕ) : Sim :=
  { s.afterSlots y k q with
    queue := rest ++ arrivalsIn s.table s.currentTime k ++ if left then [y] else []
    turns := s.turns ++ [⟨y, rest ++ arrivalsIn s.table s.currentTime k⟩] }

/-- The slots that a node gets in a turn. -/
def quantum (c : Simulation) (s : Sim) (node : Node) : ℕ :=
  min (s.tierQuantumTime (tierOf c node)) node.timeLeft

theorem entry_eq_ok : s.entry i = .ok node ↔ s.table[i]? = some node := by
  rw [entry]
  cases s.table[i]? <;> simp

/-- The body of the loop. -/
theorem pass_eq_ok (h : pass c s = .ok s') :
    (s.queue = [] ∧ ∃ q, s' = s.afterIdle q ∧
      Arrived c s.table s.tierQuantumTime q (· ∈ arrivals s.table (s.currentTime + 1))) ∨
    ∃ y rest node q, s.queue = y :: rest ∧ s.table[y]? = some node ∧
      s' = s.afterTurn y rest (quantum c s node) (quantum c s node < node.timeLeft) q ∧
      Arrived c s.table s.tierQuantumTime q
        fun i => i ∈ arrivalsIn s.table s.currentTime (quantum c s node) ∧ i ≠ y := by
  rw [pass] at h
  split at h
  · next hqueue =>
    obtain ⟨q, rfl, hq⟩ := checkNodeArrive_eq_ok h
    refine .inl ⟨hqueue, q, ?_, hq⟩
    rw [hqueue]
    rfl
  · next y rest hqueue =>
    obtain ⟨node, hnode, h⟩ := Except.bind_eq_ok.mp h
    obtain ⟨tier, htier, h⟩ := Except.bind_eq_ok.mp h
    obtain ⟨_, -, htier⟩ := Except.bind_eq_ok.mp htier
    cases htier
    obtain ⟨s₁, hslots, h⟩ := Except.bind_eq_ok.mp h
    obtain ⟨node', hnode', h⟩ := Except.bind_eq_ok.mp h
    cases h
    obtain ⟨q, rfl, hq⟩ := runSlots_eq_ok hslots
    have hspent : node'.timeLeft = node.timeLeft - quantum c s node := by
      have hget := (entry_eq_ok.mp hnode').symm.trans (spend_getElem?_self (entry_eq_ok.mp hnode))
      exact congrArg Node.timeLeft (Option.some.inj hget)
    refine .inr ⟨y, rest, node, q, hqueue, entry_eq_ok.mp hnode, Sim.ext rfl rfl ?_ rfl rfl rfl rfl rfl, hq⟩
    change (if 0 < node'.timeLeft then _ else _) = _ ++ if _ then _ else _
    rw [hspent]
    by_cases hleft : quantum c s node < node.timeLeft
    · rw [if_pos (Nat.sub_pos_of_lt hleft), if_pos (decide_eq_true hleft)]
      rfl
    · rw [if_neg (by omega), if_neg (by simpa using hleft), List.append_nil]
      rfl

/-- A turn in which time passes ends within the arrays. -/
theorem pass_le_size {rest : List ℕ} (h : pass c s = .ok s') (hqueue : s.queue = y :: rest)
    (hlt : s.currentTime < s'.currentTime) : s'.currentTime ≤ c.size := by
  rw [pass, hqueue] at h
  obtain ⟨node, -, h⟩ := Except.bind_eq_ok.mp h
  obtain ⟨tier, -, h⟩ := Except.bind_eq_ok.mp h
  obtain ⟨s₁, hslots, h⟩ := Except.bind_eq_ok.mp h
  obtain ⟨_, -, h⟩ := Except.bind_eq_ok.mp h
  cases h
  have hle := runSlots_le_size hslots
  obtain ⟨q, rfl, -⟩ := runSlots_eq_ok hslots
  exact hle (Nat.pos_of_lt_add_right hlt)

/-! ## The loop condition -/

theorem toInt_le (m : ℕ) : toInt m ≤ m := by
  have hmod : (m : ℤ) % (2 ^ 32 : ℕ) ≤ m := by exact_mod_cast Nat.mod_le m (2 ^ 32)
  unfold toInt
  rw [Int.bmod_def]
  split
  · exact hmod
  · omega

theorem randint_eq_ok {m r v : ℕ} (h : randint 1 (toInt m) r = .ok v) : 0 < v ∧ v ≤ m := by
  obtain ⟨_, hle, h⟩ := Except.bind_eq_ok.mp h
  rw [ensure_eq_ok] at hle
  have hint := toInt_le m
  have hstart : max 0 (min (1 : ℤ) randMax) = 1 := by decide
  have hstop : 0 < max 0 (min (toInt m) randMax) ∧ max 0 (min (toInt m) randMax) ≤ m := by
    have : (0 : ℤ) < randMax := by decide
    omega
  simp only [hstart, if_pos hstop.1] at h
  cases h
  have hnonneg := Int.emod_nonneg (r : ℤ) hstop.1.ne'
  have hlt := Int.emod_lt_of_pos (r : ℤ) hstop.1
  omega

/-- What becomes of a node in `is_time_left`: it has time left, or comes back, or has finished. -/
inductive Evaluated (c : Simulation) (t : ℕ) (node : Node) : Node → Prop
  | left : 0 < node.timeLeft → Evaluated c t node node
  | rejoined (sgxTime : ℕ) : node.timeLeft = 0 → c.nodesRejoin = true → 0 < sgxTime → sgxTime ≤ c.sgxMax →
    Evaluated c t node { node with
      nLeadership := (node.nLeadership + 1) % uintSize
      timeLeft := sgxTime
      sgxTime
      arrivalTime := t + 1 }
  | finished : node.timeLeft = 0 → c.nodesRejoin = false →
    Evaluated c t node { node with nLeadership := (node.nLeadership + 1) % uintSize }

theorem countLeadership_eq_ok {t draws draws' : ℕ} {node node' : Node}
    (h : countLeadership c t draws node = .ok (node', draws')) : Evaluated c t node node' := by
  rw [countLeadership] at h
  by_cases hleft : node.timeLeft = 0
  · have hcounted : node.nLeadership ≠ (node.nLeadership + 1) % uintSize := by
      rw [uintSize]
      omega
    simp only [hleft, if_true] at h
    split at h
    · next hrejoin =>
      obtain ⟨sgxTime, hrand, h⟩ := Except.bind_eq_ok.mp h
      cases h
      obtain ⟨hpos, hle⟩ := randint_eq_ok hrand
      exact .rejoined sgxTime hleft hrejoin.1 hpos hle
    · next hrejoin =>
      cases h
      refine hleft ▸ .finished hleft ?_
      exact Bool.eq_false_iff.mpr fun h => hrejoin ⟨h, hcounted⟩
  · simp only [if_neg hleft, ne_eq, not_true, and_false, if_false] at h
    cases h
    exact .left (Nat.pos_of_ne_zero hleft)

theorem isTimeLeftLoop_eq_ok {t draws draws' : ℕ} {nodes nodes' : List Node} {b : Bool}
    (h : isTimeLeftLoop c t draws nodes = .ok (b, nodes', draws')) :
    List.Forall₂ (Evaluated c t) nodes nodes' ∧ (b = true ↔ ∃ node ∈ nodes, 0 < node.timeLeft) := by
  induction nodes generalizing draws b nodes' with
  | nil =>
    cases h
    exact ⟨.nil, iff_of_false Bool.false_ne_true (by simp)⟩
  | cons node nodes ih =>
    obtain ⟨⟨node', draws₁⟩, hnode, h⟩ := Except.bind_eq_ok.mp h
    obtain ⟨⟨b', rest, draws₂⟩, hrest, h⟩ := Except.bind_eq_ok.mp h
    cases h
    obtain ⟨hnodes, hb⟩ := ih hrest
    refine ⟨.cons (countLeadership_eq_ok hnode) hnodes, ?_⟩
    rw [Bool.or_eq_true, decide_eq_true_eq, hb]
    simp

/-- `is_time_left`. -/
theorem isTimeLeft_eq_ok {b : Bool} (h : isTimeLeft c s = .ok (b, s')) :
    ∃ table draws, s' = { s with table, draws } ∧
      List.Forall₂ (Evaluated c s.currentTime) s.table table ∧
      (b = true ↔ ∃ node ∈ s.table, 0 < node.timeLeft) := by
  obtain ⟨⟨b', table, draws⟩, hloop, h⟩ := Except.bind_eq_ok.mp h
  cases h
  exact ⟨table, draws, rfl, isTimeLeftLoop_eq_ok hloop⟩

end Sim

end PoQ
