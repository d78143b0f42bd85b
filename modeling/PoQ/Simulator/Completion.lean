import PoQ.Simulator.Fairness

/-!
# The simulator comes to an end

Without nodes that come back, `arrange` ends when every node has run for its SGX time: a pass of the loop
uses up time left, or brings the next arrival nearer. The lengths of the arrays matter only for the slots
that are written and the tiers that are counted.
-/

namespace PoQ

namespace Sim

variable {c : Simulation} {s s' : Sim} {y k : ℕ} {node : Node}

/-! ## Every call returns -/

theorem foldlM_countNode_ok {t : ℕ} {nodes : List Node} (htiers : 0 < c.totalTiers)
    (hsgx : SgxTimesIn nodes c.sgxMax) (acc : (ℕ → ℕ) × (ℕ → ℕ)) :
    ∃ acc', nodes.foldlM (countNode c t) acc = .ok acc' := by
  induction nodes generalizing acc with
  | nil => exact ⟨acc, rfl⟩
  | cons node nodes ih =>
    obtain ⟨hpos, hle⟩ := hsgx node List.mem_cons_self
    have hnode : ∃ acc₁, countNode c t acc node = .ok acc₁ := by
      rw [countNode]
      split
      · rw [ensure_of (show 0 < node.sgxTime from hpos), Except.ok_bind, calcTierNumber_ok htiers hpos hle]
        exact ⟨_, rfl⟩
      · exact ⟨_, rfl⟩
    obtain ⟨acc₁, hnode⟩ := hnode
    rw [List.foldlM_cons, hnode]
    exact ih (fun n hn => hsgx n (List.mem_cons_of_mem _ hn)) acc₁

theorem calculateQuantumTime_ok (htiers : 0 < c.totalTiers) (hsize : c.totalTiers ≤ c.size)
    (hsgx : SgxTimesIn s.table c.sgxMax) : ∃ s', calculateQuantumTime c s = .ok s' := by
  obtain ⟨acc, hacc⟩ := foldlM_countNode_ok (t := s.currentTime) htiers hsgx (fun _ => 0, fun _ => 0)
  rw [calculateQuantumTime, ensure_of hsize, Except.ok_bind, hacc]
  exact ⟨_, rfl⟩

theorem foldlM_arrive_ok {l : List ℕ} (htiers : 0 < c.totalTiers) (hsize : c.totalTiers ≤ c.size)
    (hsgx : SgxTimesIn s.table c.sgxMax) (hl : ∀ i ∈ l, i < s.table.length) :
    ∃ s', l.foldlM (arrive c) s = .ok s' := by
  induction l generalizing s with
  | nil => exact ⟨s, rfl⟩
  | cons i l ih =>
    obtain ⟨hi, hl⟩ := List.forall_mem_cons.mp hl
    have harrive : ∃ s₁, arrive c s i = .ok s₁ := by
      rw [arrive, List.getElem?_eq_getElem hi]
      by_cases htime : s.table[i].arrivalTime = s.currentTime
      · obtain ⟨s₁, hs₁⟩ := calculateQuantumTime_ok htiers hsize hsgx
        simp only [if_pos htime, hs₁]
        exact ⟨_, rfl⟩
      · simp only [if_neg htime]
        exact ⟨_, rfl⟩
    obtain ⟨s₁, harrive⟩ := harrive
    have htable : s₁.table = s.table := by
      obtain ⟨_, -, ⟨-, rfl⟩ | ⟨-, q, rfl, -⟩⟩ := arrive_eq_ok harrive <;> rfl
    rw [List.foldlM_cons, harrive]
    exact ih (htable ▸ hsgx) (htable ▸ hl)

theorem checkNodeArrive_ok (htiers : 0 < c.totalTiers) (hsize : c.totalTiers ≤ c.size)
    (hsgx : SgxTimesIn s.table c.sgxMax) : ∃ s', checkNodeArrive c s = .ok s' :=
  foldlM_arrive_ok htiers hsize hsgx fun _ hi => List.mem_range.mp hi

theorem spend_sgxTimesIn {table : List Node} {sgxMax : ℕ} (h : SgxTimesIn table sgxMax) (y k : ℕ) :
    SgxTimesIn (spend table y k) sgxMax := by
  intro node hnode
  have hmem : node.sgxTime ∈ (spend table y k).map Node.sgxTime := List.mem_map_of_mem hnode
  rw [spend_map fun _ _ => rfl] at hmem
  obtain ⟨node', hnode', hsgx⟩ := List.mem_map.mp hmem
  rw [← hsgx]
  exact h node' hnode'

theorem runSlots_ok (htiers : 0 < c.totalTiers) (hsize : c.totalTiers ≤ c.size)
    (hsgx : SgxTimesIn s.table c.sgxMax) (htime : s.currentTime + k ≤ c.size) :
    ∃ s', runSlots c y k s = .ok s' := by
  induction k generalizing s with
  | zero => exact ⟨s, rfl⟩
  | succ k ih =>
    have hslot : ∃ s₁, runSlot c y s = .ok s₁ := by
      rw [runSlot, ensure_of (by omega), Except.ok_bind]
      exact checkNodeArrive_ok htiers hsize (spend_sgxTimesIn hsgx y 1)
    obtain ⟨s₁, hslot⟩ := hslot
    rw [runSlots, hslot]
    obtain ⟨_, -, hslot⟩ := Except.bind_eq_ok.mp hslot
    obtain ⟨q, rfl, -⟩ := checkNodeArrive_eq_ok hslot
    exact ih (spend_sgxTimesIn hsgx y 1) (by simp only; omega)

theorem quantum_le (c : Simulation) (s : Sim) (node : Node) : quantum c s node ≤ node.timeLeft :=
  Nat.min_le_right _ _

theorem pass_ok (htiers : 0 < c.totalTiers) (hsize : c.totalTiers ≤ c.size)
    (hsgx : SgxTimesIn s.table c.sgxMax) (hqueued : s.Queued c)
    (htime : ∀ node ∈ s.table, s.currentTime + node.timeLeft ≤ c.size) : ∃ s', pass c s = .ok s' := by
  rw [pass]
  split
  · exact checkNodeArrive_ok htiers hsize hsgx
  · next y rest hqueue =>
    obtain ⟨node, hnode, -, -⟩ := (hqueued.mem y).mp (hqueue ▸ List.mem_cons_self)
    have hmem := List.mem_of_getElem? hnode
    obtain ⟨hpos, hle⟩ := hsgx node hmem
    obtain ⟨s₁, hslots⟩ := runSlots_ok (s := { s with queue := rest }) (y := y) (k := quantum c s node)
      htiers hsize hsgx ((Nat.add_le_add_left (quantum_le c s node) _).trans (htime node hmem))
    rw [entry_eq_ok.mpr hnode, Except.ok_bind, calcTierNumber_ok htiers hpos hle, Except.ok_bind]
    change ∃ s', (runSlots c y (quantum c s node) { s with queue := rest } >>= _) = .ok s'
    rw [hslots, Except.ok_bind]
    obtain ⟨q, rfl, -⟩ := runSlots_eq_ok hslots
    have hspent : (afterSlots { s with queue := rest } y (quantum c s node) q).entry y = .ok _ :=
      entry_eq_ok.mpr (spend_getElem?_self hnode)
    rw [hspent]
    exact ⟨_, rfl⟩

theorem isTimeLeftLoop_ok {t : ℕ} (nodes : List Node) (hrejoin : c.nodesRejoin = false) :
    ∃ r, isTimeLeftLoop c t k nodes = .ok r := by
  induction nodes generalizing k with
  | nil => exact ⟨_, rfl⟩
  | cons node nodes ih =>
    have hnode : ∃ r, countLeadership c t k node = .ok r := by
      simp only [countLeadership, hrejoin, Bool.false_eq_true, false_and, if_false]
      exact ⟨_, rfl⟩
    obtain ⟨⟨node', draws'⟩, hnode⟩ := hnode
    obtain ⟨r, hrest⟩ := ih (k := draws')
    exact ⟨_, Except.bind_eq_ok.mpr ⟨_, hnode, Except.bind_eq_ok.mpr ⟨r, hrest, rfl⟩⟩⟩

theorem isTimeLeft_ok (s : Sim) (hrejoin : c.nodesRejoin = false) : ∃ b s', isTimeLeft c s = .ok (b, s') := by
  obtain ⟨r, hloop⟩ := isTimeLeftLoop_ok (t := s.currentTime) (k := s.draws) s.table hrejoin
  rw [isTimeLeft, hloop]
  exact ⟨_, _, rfl⟩

/-! ## The lengths of the arrays -/

variable {n : ℕ}

theorem calculateQuantumTime_resize (hc : c.totalTiers ≤ c.size) (hn : c.totalTiers ≤ n) (s : Sim) :
    calculateQuantumTime { c with size := n } s = calculateQuantumTime c s := by
  rw [calculateQuantumTime, calculateQuantumTime, ensure_of hc, ensure_of (p := _ ≤ n) hn]
  rfl

theorem checkNodeArrive_resize (hc : c.totalTiers ≤ c.size) (hn : c.totalTiers ≤ n) (s : Sim) :
    checkNodeArrive { c with size := n } s = checkNodeArrive c s := by
  have harrive : arrive { c with size := n } = arrive c := by
    funext s i
    simp only [arrive, calculateQuantumTime_resize hc hn]
  rw [checkNodeArrive, checkNodeArrive, harrive]

theorem isTimeLeft_resize (c : Simulation) (n : ℕ) (s : Sim) :
    isTimeLeft { c with size := n } s = isTimeLeft c s := by
  have hloop : ∀ (nodes : List Node) (t draws : ℕ),
      isTimeLeftLoop { c with size := n } t draws nodes = isTimeLeftLoop c t draws nodes := by
    intro nodes
    induction nodes with
    | nil => exact fun t draws => rfl
    | cons node nodes ih =>
      intro t draws
      simp only [isTimeLeftLoop, ih]
      rfl
  rw [isTimeLeft, isTimeLeft, hloop]

/-- Where the slots of a quantum fit, its loop does the same. -/
theorem runSlots_resize (hc : c.totalTiers ≤ c.size) (hn : c.totalTiers ≤ n)
    (h : runSlots c y k s = .ok s') (htime : s'.currentTime ≤ n) :
    runSlots { c with size := n } y k s = .ok s' := by
  induction k generalizing s with
  | zero => exact h
  | succ k ih =>
    have hlast : s'.currentTime = s.currentTime + (k + 1) := by
      obtain ⟨q, rfl, -⟩ := runSlots_eq_ok h
      rfl
    obtain ⟨s₁, hslot, hrest⟩ := Except.bind_eq_ok.mp h
    obtain ⟨_, -, harrive⟩ := Except.bind_eq_ok.mp hslot
    have hslot' : runSlot { c with size := n } y s = .ok s₁ := by
      rw [runSlot, ensure_of (by simp only; omega), Except.ok_bind, checkNodeArrive_resize hc hn, harrive]
    rw [runSlots, hslot']
    exact ih hrest

theorem pass_resize (hc : c.totalTiers ≤ c.size) (hn : c.totalTiers ≤ n) (h : pass c s = .ok s')
    (htime : s'.currentTime ≤ n) : pass { c with size := n } s = .ok s' := by
  rw [pass] at h ⊢
  split at h
  · next hqueue => rwa [checkNodeArrive_resize hc hn]
  · next y rest hqueue =>
    obtain ⟨node, hnode, h⟩ := Except.bind_eq_ok.mp h
    obtain ⟨tier, htier, h⟩ := Except.bind_eq_ok.mp h
    obtain ⟨s₁, hslots, h⟩ := Except.bind_eq_ok.mp h
    have hlast : s₁.currentTime = s'.currentTime := by
      obtain ⟨node', -, h⟩ := Except.bind_eq_ok.mp h
      cases h
      rfl
    refine Except.bind_eq_ok.mpr ⟨node, hnode, Except.bind_eq_ok.mpr ⟨tier, htier, ?_⟩⟩
    exact Except.bind_eq_ok.mpr ⟨s₁, runSlots_resize hc hn hslots (hlast.trans_le htime), h⟩

/-! ## Time left -/

/-- The time that the nodes have left together. -/
def work (table : List Node) : ℕ := (table.map Node.timeLeft).sum

theorem work_spend {table : List Node} (hnode : table[y]? = some node) (hk : k ≤ node.timeLeft) :
    work (spend table y k) + k = work table := by
  induction table generalizing y with
  | nil => cases hnode
  | cons head table ih =>
    cases y with
    | zero =>
      cases hnode
      simp only [work, spend, List.modify_zero_cons, List.map_cons, List.sum_cons]
      omega
    | succ y =>
      have hrest := ih hnode
      simp only [work, spend, List.modify_succ_cons, List.map_cons, List.sum_cons] at hrest ⊢
      omega

/-- Without nodes that come back, the loop condition changes none of the times. -/
theorem Evaluated.times {t : ℕ} {node' : Node} (h : Evaluated c t node node')
    (hrejoin : c.nodesRejoin = false) :
    node'.arrivalTime = node.arrivalTime ∧ node'.sgxTime = node.sgxTime ∧ node'.timeLeft = node.timeLeft := by
  cases h with
  | left => exact ⟨rfl, rfl, rfl⟩
  | rejoined _ _ hyes => cases hyes.symm.trans hrejoin
  | finished => exact ⟨rfl, rfl, rfl⟩

theorem map_evaluated {α : Type*} {f : Node → α} {t : ℕ} {table table' : List Node}
    (hf : ∀ {node node' : Node}, Evaluated c t node node' → f node' = f node)
    (h : List.Forall₂ (Evaluated c t) table table') : table'.map f = table.map f := by
  induction h with
  | nil => rfl
  | cons hnode _ ih => rw [List.map_cons, List.map_cons, hf hnode, ih]

theorem work_evaluated {t : ℕ} {table table' : List Node} (h : List.Forall₂ (Evaluated c t) table table')
    (hrejoin : c.nodesRejoin = false) : work table' = work table :=
  congrArg List.sum (map_evaluated (fun hnode => (hnode.times hrejoin).2.2) h)

theorem exists_timeLeft_evaluated {t : ℕ} {table table' : List Node}
    (h : List.Forall₂ (Evaluated c t) table table') (hrejoin : c.nodesRejoin = false) :
    (∃ node ∈ table', 0 < node.timeLeft) ↔ ∃ node ∈ table, 0 < node.timeLeft := by
  have hmap : ∀ l : List Node, (∃ node ∈ l, 0 < node.timeLeft) ↔ ∃ t ∈ l.map Node.timeLeft, 0 < t := by
    simp
  rw [hmap, hmap, map_evaluated (fun hnode => (hnode.times hrejoin).2.2) h]

/-- What keeps the loop going: the queue is as it should be, no node arrives behind `last`, and the arrays
are long enough for the time that may yet pass. -/
structure Bounded (c : Simulation) (last : ℕ) (s : Sim) : Prop where
  queued : s.Queued c
  sgxTimes : SgxTimesIn s.table c.sgxMax
  arrivals : ∀ node ∈ s.table, node.arrivalTime ≤ last
  room : max s.currentTime last + work s.table ≤ c.size

/-- It falls with every pass. -/
def remaining (last : ℕ) (s : Sim) : ℕ := work s.table + (last - s.currentTime)

namespace Bounded

variable {last : ℕ}

theorem evaluated (h : s.Bounded c last) {table : List Node} (draws : ℕ) (hrejoin : c.nodesRejoin = false)
    (htable : List.Forall₂ (Evaluated c s.currentTime) s.table table) :
    Bounded c last { s with table, draws } := by
  have hold : ∀ node' ∈ table, ∃ node ∈ s.table, Evaluated c s.currentTime node node' := by
    intro node' hnode'
    obtain ⟨i, hi⟩ := List.mem_iff_getElem?.mp hnode'
    obtain ⟨node, hnode, heval⟩ := htable.getElem?_right hi
    exact ⟨node, List.mem_of_getElem? hnode, heval⟩
  refine ⟨h.queued.evaluated draws htable, fun node' hnode' => ?_, fun node' hnode' => ?_, ?_⟩
  · obtain ⟨node, hnode, heval⟩ := hold node' hnode'
    rw [(heval.times hrejoin).2.1]
    exact h.sgxTimes node hnode
  · obtain ⟨node, hnode, heval⟩ := hold node' hnode'
    rw [(heval.times hrejoin).1]
    exact h.arrivals node hnode
  · rw [work_evaluated htable hrejoin]
    exact h.room

/-- A node with time left is there in the queue, or has yet to arrive. -/
theorem lt_last (h : s.Bounded c last) (hqueue : s.queue = []) (hleft : ∃ node ∈ s.table, 0 < node.timeLeft) :
    s.currentTime < last := by
  obtain ⟨node, hmem, hpos⟩ := hleft
  obtain ⟨i, hi⟩ := List.mem_iff_getElem?.mp hmem
  by_contra hlast
  have hqueued := (h.queued.mem i).mpr ⟨node, hi, (h.arrivals node hmem).trans (Nat.not_lt.mp hlast), hpos⟩
  rw [hqueue] at hqueued
  cases hqueued

/-- A pass of the loop. -/
theorem pass (h : s.Bounded c last) (hleft : ∃ node ∈ s.table, 0 < node.timeLeft)
    (hpass : pass c s = .ok s') :
    s'.Bounded c last ∧ remaining last s' < remaining last s := by
  obtain ⟨hqueue, q, rfl, hq⟩ | ⟨y, rest, node, q, hqueue, hy, rfl, hq⟩ := pass_eq_ok hpass
  · have hlt := h.lt_last hqueue hleft
    have hroom := h.room
    refine ⟨⟨h.queued.idle hqueue hq, h.sgxTimes, h.arrivals, ?_⟩, ?_⟩
    · simp only [afterIdle]
      omega
    · simp only [remaining, afterIdle]
      omega
  · have hpos := h.queued.quantum_pos (hqueue ▸ List.mem_cons_self) hy
    have hwork := work_spend hy (quantum_le c s node)
    have hroom := h.room
    refine ⟨⟨h.queued.turn hqueue hy hq, spend_sgxTimesIn h.sgxTimes y _, fun n hn => ?_, ?_⟩, ?_⟩
    · have hmem : n.arrivalTime ∈ (spend s.table y (quantum c s node)).map Node.arrivalTime :=
        List.mem_map_of_mem hn
      rw [spend_arrivalTime] at hmem
      obtain ⟨n', hn', htime⟩ := List.mem_map.mp hmem
      exact htime ▸ h.arrivals n' hn'
    · simp only [afterTurn, afterSlots]
      omega
    · simp only [remaining, afterTurn, afterSlots]
      omega

/-- A pass of the loop returns. -/
theorem pass_ok (h : s.Bounded c last) (htiers : 0 < c.totalTiers) (hsize : c.totalTiers ≤ c.size) :
    ∃ s', Sim.pass c s = .ok s' := by
  refine Sim.pass_ok htiers hsize h.sgxTimes h.queued fun node hnode => ?_
  have hwork : node.timeLeft ≤ work s.table := List.le_sum_of_mem (List.mem_map_of_mem hnode)
  have hroom := h.room
  omega

end Bounded

/-! ## The slots that have been run -/

/-- How many slots a node has run in. -/
def slotCount (s : Sim) (i : ℕ) : ℕ := (s.ran.map Prod.snd).count i

/-- The slots so far, when the nodes are as entered and nobody comes back: a node has run in as many slots
as it has spent of its SGX time, not before it arrived, and in no slot of another; `nodes_queue` says so. -/
structure Served (nodes : List (ℕ × ℕ)) (s : Sim) : Prop where
  times : s.table.map (fun node => (node.arrivalTime, node.sgxTime)) = nodes
  spent : ∀ (i : ℕ) (node : Node), s.table[i]? = some node → s.slotCount i + node.timeLeft = node.sgxTime
  past : ∀ p ∈ s.ran, p.1 < s.currentTime
  arrived : ∀ p ∈ s.ran, ∃ node ∈ nodes[p.2]?, node.1 ≤ p.1
  recorded : ∀ p ∈ s.ran, s.nodesQueue p.1 = p.2
  nodup : (s.ran.map Prod.fst).Nodup

theorem mem_slotsOf {t : ℕ} {p : ℕ × ℕ} : p ∈ slotsOf t k y ↔ t ≤ p.1 ∧ p.1 < t + k ∧ p.2 = y := by
  rw [slotsOf, List.mem_map]
  constructor
  · rintro ⟨j, hj, rfl⟩
    have := List.mem_range.mp hj
    exact ⟨by omega, by omega, rfl⟩
  · rintro ⟨hle, hlt, rfl⟩
    exact ⟨p.1 - t, List.mem_range.mpr (by omega), Prod.ext (by simp only; omega) rfl⟩

theorem slotsOf_fst_nodup (t k y : ℕ) : ((slotsOf t k y).map Prod.fst).Nodup := by
  rw [slotsOf, List.map_map]
  exact List.nodup_range.map fun a b h => Nat.add_left_cancel h

theorem slotsOf_snd (t k y : ℕ) : (slotsOf t k y).map Prod.snd = List.replicate k y := by
  rw [slotsOf, List.map_map]
  exact List.eq_replicate_iff.mpr ⟨by simp, by simp⟩

namespace Served

variable {nodes : List (ℕ × ℕ)} {rest : List ℕ} {left : Bool} {q : ℕ → ℕ}

/-- Time passes, and nobody runs. -/
theorem idle (h : s.Served nodes) (q : ℕ → ℕ) : (s.afterIdle q).Served nodes :=
  ⟨h.times, h.spent, fun p hp => (h.past p hp).trans (Nat.lt_succ_self _), h.arrived, h.recorded, h.nodup⟩

theorem slotCount_afterTurn (i : ℕ) :
    (s.afterTurn y rest k left q).slotCount i = s.slotCount i + if y = i then k else 0 := by
  rw [slotCount, slotCount, afterTurn, afterSlots, List.map_append, List.count_append, slotsOf_snd,
    List.count_replicate]
  simp only [beq_iff_eq]

/-- A turn of `y`. -/
theorem turn (h : s.Served nodes) (hy : s.table[y]? = some node) (hk : k ≤ node.timeLeft)
    (harrived : node.arrivalTime ≤ s.currentTime) : (s.afterTurn y rest k left q).Served nodes := by
  have hran : ∀ p ∈ (s.afterTurn y rest k left q).ran, p ∈ s.ran ∨ p ∈ slotsOf s.currentTime k y :=
    fun p hp => List.mem_append.mp hp
  have hself := spend_getElem?_self (k := k) hy
  refine ⟨?_, fun i n hn => ?_, fun p hp => ?_, fun p hp => ?_, fun p hp => ?_, ?_⟩
  · exact (spend_map (fun _ _ => rfl) s.table y k).trans h.times
  · rw [slotCount_afterTurn]
    by_cases hi : i = y
    · subst hi
      cases hself.symm.trans hn
      have := h.spent i node hy
      simp only [if_true]
      omega
    · rw [if_neg (Ne.symm hi)]
      exact h.spent i n ((spend_getElem?_of_ne hi).symm.trans hn)
  · obtain hp | hp := hran p hp
    · exact (h.past p hp).trans_le (Nat.le_add_right _ _)
    · exact (mem_slotsOf.mp hp).2.1
  · obtain hp | hp := hran p hp
    · exact h.arrived p hp
    · obtain ⟨hle, -, rfl⟩ := mem_slotsOf.mp hp
      refine ⟨(node.arrivalTime, node.sgxTime), ?_, harrived.trans hle⟩
      rw [← h.times, List.getElem?_map, hy]
      rfl
  · obtain hp | hp := hran p hp
    · have hlt := h.past p hp
      simp only [afterTurn, afterSlots, written]
      rw [if_neg (by omega), h.recorded p hp]
    · obtain ⟨hle, hlt, rfl⟩ := mem_slotsOf.mp hp
      simp only [afterTurn, afterSlots, written]
      rw [if_pos ⟨hle, hlt⟩]
  · simp only [afterTurn, afterSlots, List.map_append]
    refine h.nodup.append (slotsOf_fst_nodup _ _ _) ?_
    intro t hold hnew
    obtain ⟨p, hp, rfl⟩ := List.mem_map.mp hold
    obtain ⟨p', hp', heq⟩ := List.mem_map.mp hnew
    have := h.past p hp
    have := (mem_slotsOf.mp hp').1
    omega

theorem evaluated (h : s.Served nodes) {table : List Node} (draws : ℕ) (hrejoin : c.nodesRejoin = false)
    (htable : List.Forall₂ (Evaluated c s.currentTime) s.table table) :
    Served nodes { s with table, draws } := by
  refine ⟨?_, fun i n hn => ?_, h.past, h.arrived, h.recorded, h.nodup⟩
  · refine (map_evaluated (fun hnode => ?_) htable).trans h.times
    obtain ⟨harrival, hsgx, -⟩ := hnode.times hrejoin
    rw [harrival, hsgx]
  · obtain ⟨n₀, hn₀, heval⟩ := htable.getElem?_right hn
    obtain ⟨-, hsgx, hleft⟩ := heval.times hrejoin
    rw [hsgx, hleft]
    exact h.spent i n₀ hn₀

theorem pass (h : s.Served nodes) (hqueued : s.Queued c) (hpass : pass c s = .ok s') : s'.Served nodes := by
  obtain ⟨-, q, rfl, -⟩ | ⟨y, rest, node, q, hqueue, hy, rfl, -⟩ := pass_eq_ok hpass
  · exact h.idle q
  · have harrived := (hqueued.ready (hqueue ▸ List.mem_cons_self) hy).1
    exact h.turn hy (quantum_le c s node) harrived

end Served

/-- `check_node_arrive` before the loop. -/
theorem served_start {nodes : List (ℕ × ℕ)} (h : checkNodeArrive c (initial nodes) = .ok s) :
    s.Served nodes := by
  obtain ⟨q, rfl, -⟩ := checkNodeArrive_eq_ok h
  refine ⟨?_, fun i node hnode => ?_, ?_, ?_, ?_, List.nodup_nil⟩
  · simp only [initial, inputTable, List.map_map]
    exact List.map_id nodes
  · simp only [initial, inputTable, List.getElem?_map] at hnode
    obtain ⟨_, -, rfl⟩ := Option.map_eq_some_iff.mp hnode
    exact Nat.zero_add _
  all_goals
    intro p hp
    cases hp

/-! ## The loop -/

theorem pass_currentTime_le (h : pass c s = .ok s') : s.currentTime ≤ s'.currentTime := by
  obtain ⟨-, q, rfl, -⟩ | ⟨y, rest, node, q, -, -, rfl, -⟩ := pass_eq_ok h
  · exact Nat.le_succ _
  · exact Nat.le_add_right _ _

/-- The loop ends, with arrays of any lengths that are enough for its tiers and its last slot, and nobody
has time left. -/
theorem arrangeLoop_ok {nodes : List (ℕ × ℕ)} {last : ℕ} (hrejoin : c.nodesRejoin = false)
    (htiers : 0 < c.totalTiers) (hsize : c.totalTiers ≤ c.size) (hbounded : s.Bounded c last)
    (hserved : s.Served nodes) :
    ∃ s', (∀ n fuel, c.totalTiers ≤ n → s'.currentTime ≤ n → remaining last s < fuel →
        arrangeLoop { c with size := n } fuel s = .ok s') ∧
      s.currentTime ≤ s'.currentTime ∧ s'.Served nodes ∧ ∀ node ∈ s'.table, node.timeLeft = 0 := by
  induction hm : remaining last s using Nat.strong_induction_on generalizing s with
  | _ m ih =>
    subst hm
    obtain ⟨b, s₁, heval⟩ := isTimeLeft_ok s hrejoin
    obtain ⟨table, draws, rfl, htable, hb⟩ := isTimeLeft_eq_ok heval
    have hbounded₁ := hbounded.evaluated draws hrejoin htable
    have hserved₁ := hserved.evaluated draws hrejoin htable
    rw [← exists_timeLeft_evaluated htable hrejoin] at hb
    cases b with
    | false =>
      refine ⟨{ s with table, draws }, fun n fuel _ _ hfuel => ?_, le_rfl, hserved₁, fun node hnode => ?_⟩
      · obtain ⟨fuel, rfl⟩ := Nat.exists_eq_succ_of_ne_zero (Nat.ne_zero_of_lt hfuel)
        rw [arrangeLoop, isTimeLeft_resize, heval]
        rfl
      · by_contra hleft
        exact Bool.false_ne_true (hb.mpr ⟨node, hnode, Nat.pos_of_ne_zero hleft⟩)
    | true =>
      have hleft := hb.mp rfl
      obtain ⟨s₂, hpass⟩ := hbounded₁.pass_ok htiers hsize
      obtain ⟨hbounded₂, hlt⟩ := hbounded₁.pass hleft hpass
      have hsame : remaining last { s with table, draws } = remaining last s :=
        congrArg (· + (last - s.currentTime)) (work_evaluated htable hrejoin)
      rw [hsame] at hlt
      obtain ⟨s', hrest, hle, hdone⟩ := ih _ hlt hbounded₂ (hserved₁.pass hbounded₁.queued hpass) rfl
      refine ⟨s', fun n fuel hn htime hfuel => ?_, (pass_currentTime_le hpass).trans hle, hdone⟩
      obtain ⟨fuel, rfl⟩ := Nat.exists_eq_succ_of_ne_zero (Nat.ne_zero_of_lt hfuel)
      rw [arrangeLoop, isTimeLeft_resize, heval, Except.ok_bind]
      refine Except.bind_eq_ok.mpr ⟨s₂, pass_resize hsize hn hpass (hle.trans htime), ?_⟩
      exact hrest n fuel hn htime (lt_of_lt_of_le hlt (Nat.le_of_lt_succ hfuel))

/-- Behind `check_node_arrive`, with arrays that are long enough. -/
theorem bounded_start {nodes : List (ℕ × ℕ)} {last : ℕ} (h : checkNodeArrive c (initial nodes) = .ok s)
    (hsgx : SgxTimesIn (inputTable nodes) c.sgxMax)
    (hlast : ∀ node ∈ inputTable nodes, node.arrivalTime ≤ last)
    (hsize : last + work (inputTable nodes) ≤ c.size) : s.Bounded c last := by
  have hqueued := queued_start h
  obtain ⟨q, rfl, -⟩ := checkNodeArrive_eq_ok h
  exact ⟨hqueued, hsgx, hlast, by simpa [initial] using hsize⟩

/-- `arrange` returns, and in the same state for all lengths of the arrays that are enough. -/
theorem arrange_ok {nodes : List (ℕ × ℕ)} (hrejoin : c.nodesRejoin = false) (htiers : 0 < c.totalTiers)
    (hsgx : SgxTimesIn (inputTable nodes) c.sgxMax) :
    ∃ s fuel₀,
      (∀ size fuel, c.totalTiers ≤ size → s.currentTime ≤ size → fuel₀ ≤ fuel →
        arrange { c with size } fuel (initial nodes) = .ok s) ∧
      s.Served nodes ∧ ∀ node ∈ s.table, node.timeLeft = 0 := by
  let last := (nodes.map Prod.fst).sum
  -- No pass of the loop needs longer arrays than these.
  let size := c.totalTiers + last + work (inputTable nodes)
  have hsize : c.totalTiers ≤ size := by omega
  have hlast : ∀ node ∈ inputTable nodes, node.arrivalTime ≤ last := by
    intro node hnode
    obtain ⟨p, hp, rfl⟩ := List.mem_map.mp hnode
    exact List.le_sum_of_mem (List.mem_map_of_mem hp)
  obtain ⟨s₀, hstart⟩ := checkNodeArrive_ok (c := { c with size }) (s := initial nodes) htiers hsize hsgx
  have hbounded := bounded_start hstart hsgx hlast (show last + _ ≤ size by omega)
  obtain ⟨s, hloop, -, hserved, hdone⟩ := arrangeLoop_ok (c := { c with size }) hrejoin htiers hsize hbounded
    (served_start hstart)
  refine ⟨s, remaining last s₀ + 1, fun n fuel hn htime hfuel => ?_, hserved, hdone⟩
  refine Except.bind_eq_ok.mpr ⟨s₀, ?_, hloop n fuel hn htime hfuel⟩
  rw [← hstart]
  exact checkNodeArrive_resize (c := { c with size }) hsize hn _

/-- Whatever the nodes are, if none comes back then `arrange` returns, when the arrays are long enough for
the tiers and for the time it takes: nobody has time left, and every node has run for its SGX time in slots
of its own that do not come before its arrival. -/
theorem arrange_served {nodes : List (ℕ × ℕ)} (hrejoin : c.nodesRejoin = false) (htiers : 1 ≤ c.totalTiers)
    (hsgx : ∀ node ∈ nodes, 1 ≤ node.2 ∧ node.2 ≤ c.sgxMax) :
    ∃ s fuel₀,
      (∀ size fuel, c.totalTiers ≤ size → s.currentTime ≤ size → fuel₀ ≤ fuel →
        arrange { c with size } fuel (initial nodes) = .ok s) ∧
      (∀ node ∈ s.table, node.timeLeft = 0) ∧
      s.table.map (fun node => (node.arrivalTime, node.sgxTime)) = nodes ∧
      (∀ i arrivalTime sgxTime, nodes[i]? = some (arrivalTime, sgxTime) →
        s.slotCount i = sgxTime ∧ ∀ t, (t, i) ∈ s.ran → arrivalTime ≤ t) ∧
      (s.ran.map Prod.fst).Nodup ∧ ∀ t i, (t, i) ∈ s.ran → t < s.currentTime ∧ s.nodesQueue t = i := by
  have hsgx' : SgxTimesIn (inputTable nodes) c.sgxMax := by
    intro node hnode
    obtain ⟨p, hp, rfl⟩ := List.mem_map.mp hnode
    exact hsgx p hp
  obtain ⟨s, fuel₀, hrun, hserved, hdone⟩ := arrange_ok hrejoin htiers hsgx'
  refine ⟨s, fuel₀, hrun, hdone, hserved.times, fun i arrivalTime sgxTime hi => ⟨?_, fun t ht => ?_⟩,
    hserved.nodup, fun t i hi => ⟨hserved.past _ hi, hserved.recorded _ hi⟩⟩
  · rw [← hserved.times, List.getElem?_map] at hi
    obtain ⟨node, hnode, heq⟩ := Option.map_eq_some_iff.mp hi
    cases heq
    rw [← hserved.spent i node hnode, hdone node (List.mem_of_getElem? hnode), Nat.add_zero]
  · obtain ⟨p, hp, hle⟩ := hserved.arrived _ ht
    cases hi.symm.trans hp
    exact hle

/-- A run in which a node arrives while another runs, and one when nobody waits. -/
theorem arrange_served_threeNodes :
    ∃ s size fuel, arrange ⟨false, 3, 2, size, fun _ => 0⟩ fuel (initial [(0, 3), (1, 1), (6, 2)]) = .ok s ∧
      (s.slotCount 0 = 3 ∧ s.slotCount 1 = 1 ∧ s.slotCount 2 = 2) ∧ (s.ran.map Prod.fst).Nodup := by
  obtain ⟨s, fuel, hrun, -, -, hslots, hnodup, -⟩ := @arrange_served ⟨false, 3, 2, 0, fun _ => 0⟩
    [(0, 3), (1, 1), (6, 2)] rfl (by decide) (by decide)
  refine ⟨s, 2 + s.currentTime, fuel, hrun _ _ ?_ ?_ le_rfl, ⟨?_, ?_, ?_⟩, hnodup⟩
  · exact Nat.le_add_right _ _
  · exact Nat.le_add_left _ _
  · exact (hslots 0 _ _ rfl).1
  · exact (hslots 1 _ _ rfl).1
  · exact (hslots 2 _ _ rfl).1

example :
    (arrange ⟨false, 3, 2, maxSize, fun _ => 0⟩ 10 (initial [(0, 3), (1, 1), (6, 2)])).map Sim.ran =
      .ok [(0, 0), (1, 0), (2, 0), (3, 1), (6, 2), (7, 2)] := by
  decide

/-- More tiers than the arrays have entries: the first arrival writes behind them, although a single slot
is all that the node needs. -/
theorem not_arrange_served :
    (∀ fuel, arrange ⟨false, 1, maxSize + 1, maxSize, fun _ => 0⟩ fuel (initial [(0, 1)]) =
      .error .outOfRange) ∧
    (arrange ⟨false, 1, maxSize + 1, maxSize + 1, fun _ => 0⟩ 2 (initial [(0, 1)])).map
      Sim.currentTime = .ok 1 :=
  ⟨fun _ => rfl, by decide⟩

end Sim

end PoQ
