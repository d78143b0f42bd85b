import PoQ.Simulator.Completion

/-!
# Leaderships in the simulator

`is_time_left` counts a leadership for every node without time left, each time it is evaluated. A node that
comes back has time left again before the next evaluation; one that does not is counted again.
-/

namespace PoQ

namespace Sim

section

variable (c : Simulation)

/-- The states behind the slots of a quantum. -/
def slotStates (currentNode : ℕ) : ℕ → Sim → Except Abort (List Sim)
  | 0, _ => .ok []
  | i + 1, s => do
    let s ← runSlot c currentNode s
    let states ← slotStates currentNode i s
    return s :: states

/-- The states behind the slots of the body of the loop. -/
def passStates (s : Sim) : Except Abort (List Sim) :=
  match s.queue with
  | [] => .ok []
  | currentNode :: queue => do
    let node ← s.entry currentNode
    let temptier ← calcTierNumber node c.totalTiers c.sgxMax
    slotStates c currentNode (min (s.tierQuantumTime temptier.toNat) node.timeLeft) { s with queue }

/-- The states of a run up to the evaluation `n + 1` of the loop condition: behind every slot, every body of
the loop and every evaluation. -/
def states (s : Sim) : ℕ → Except Abort (List Sim)
  | 0 => do
    let s ← checkNodeArrive c s
    let (_, s') ← isTimeLeft c s
    return [s, s']
  | n + 1 => do
    let before ← states s n
    let (b, s) ← evaluation c s n
    ensure (b = true) .blocked
    let slots ← passStates c s
    let s ← pass c s
    let (_, s') ← isTimeLeft c s
    return before ++ (slots ++ [s, s'])

end

/-- The time left of a node. -/
def timeLeftOf (s : Sim) (i : ℕ) : ℕ := ((s.table[i]?).map Node.timeLeft).getD 0

/-- How often the time left of a node drops to 0 in the states behind `s`. -/
def drops (i : ℕ) : Sim → List Sim → ℕ
  | _, [] => 0
  | s, s' :: l => (if 0 < s.timeLeftOf i ∧ s'.timeLeftOf i = 0 then 1 else 0) + drops i s' l

/-- The time left of a node gets no more from one state to the next. -/
def Antitone (i : ℕ) (states : List Sim) : Prop :=
  List.IsChain (fun a b => timeLeftOf b i ≤ timeLeftOf a i) states

variable {c : Simulation} {s s' : Sim} {i : ℕ} {l l' : List Sim}

theorem drops_append (i : ℕ) (s : Sim) (l l' : List Sim) :
    drops i s (l ++ l') = drops i s l + drops i (l.getLastD s) l' := by
  induction l generalizing s with
  | nil => exact (Nat.zero_add _).symm
  | cons s' l ih => rw [List.cons_append, drops, ih, List.getLastD_cons, drops, Nat.add_assoc]

/-- Time left that only gets less drops to 0 once, if it does. -/
theorem drops_of_antitone (h : Antitone i (s :: l)) :
    (l.getLastD s).timeLeftOf i ≤ s.timeLeftOf i ∧
      drops i s l = if 0 < s.timeLeftOf i ∧ (l.getLastD s).timeLeftOf i = 0 then 1 else 0 := by
  induction l generalizing s with
  | nil =>
    refine ⟨le_rfl, ?_⟩
    rw [drops, List.getLastD_nil, if_neg]
    omega
  | cons s' l ih =>
    obtain ⟨hle, hl⟩ := List.isChain_cons_cons.mp h
    obtain ⟨hlast, hdrops⟩ := ih hl
    rw [List.getLastD_cons, drops, hdrops]
    refine ⟨hlast.trans hle, ?_⟩
    split_ifs <;> omega

theorem timeLeftOf_spend (s : Sim) (y k : ℕ) (hs : s'.table = spend s.table y k) :
    s'.timeLeftOf i = s.timeLeftOf i - if i = y then k else 0 := by
  rw [timeLeftOf, timeLeftOf, hs]
  by_cases hi : i = y
  · subst hi
    rw [if_pos rfl, spend, List.getElem?_modify_eq]
    cases s.table[i]? with
    | none => exact (Nat.zero_sub k).symm
    | some node => rfl
  · rw [if_neg hi, spend_getElem?_of_ne hi, Nat.sub_zero]

theorem timeLeftOf_congr (h : s'.table = s.table) (i : ℕ) : s'.timeLeftOf i = s.timeLeftOf i := by
  rw [timeLeftOf, timeLeftOf, h]

/-- A slot. -/
theorem runSlot_table {y : ℕ} (h : runSlot c y s = .ok s') : s'.table = spend s.table y 1 := by
  obtain ⟨_, -, h⟩ := Except.bind_eq_ok.mp h
  obtain ⟨q, rfl, -⟩ := checkNodeArrive_eq_ok h
  rfl

/-- The states of a quantum: they end where the quantum ends, and no time left gets more. -/
theorem slotStates_ok {y k : ℕ} (h : runSlots c y k s = .ok s') :
    ∃ l, slotStates c y k s = .ok l ∧ l.getLastD s = s' ∧
      ∀ i, Antitone i (s :: l) := by
  induction k generalizing s with
  | zero =>
    cases h
    exact ⟨[], rfl, rfl, fun i => List.isChain_singleton _⟩
  | succ k ih =>
    obtain ⟨s₁, hslot, hrest⟩ := Except.bind_eq_ok.mp h
    obtain ⟨l, hl, hlast, hchain⟩ := ih hrest
    refine ⟨s₁ :: l, ?_, ?_, fun i => List.isChain_cons_cons.mpr ⟨?_, hchain i⟩⟩
    · rw [slotStates, hslot, Except.ok_bind, hl]
      rfl
    · rw [List.getLastD_cons]
      exact hlast
    · rw [timeLeftOf_spend s y 1 (runSlot_table hslot)]
      exact Nat.sub_le _ _

/-- A pass of the loop: time left gets less only in a slot. -/
theorem pass_timeLeftOf (h : pass c s = .ok s') (i : ℕ) :
    s'.timeLeftOf i ≤ s.timeLeftOf i ∧
      (s'.timeLeftOf i < s.timeLeftOf i → s.currentTime < c.size ∧ s.currentTime < s'.currentTime) := by
  obtain ⟨-, q, rfl, -⟩ | ⟨y, rest, node, q, hqueue, -, heq, -⟩ := pass_eq_ok h
  · exact ⟨le_rfl, fun hlt => absurd hlt (Nat.lt_irrefl _)⟩
  · have hleft := timeLeftOf_spend s y (quantum c s node) (congrArg table heq) (i := i)
    refine ⟨hleft ▸ Nat.sub_le _ _, fun hlt => ?_⟩
    have hpos : 0 < quantum c s node := by
      by_contra hzero
      simp only [hleft, Nat.eq_zero_of_not_pos hzero, ite_self, Nat.sub_zero, Nat.lt_irrefl] at hlt
    have htime : s.currentTime < s'.currentTime := by
      rw [heq]
      exact Nat.lt_add_of_pos_right hpos
    exact ⟨htime.trans_le (pass_le_size h hqueue htime), htime⟩

/-- A pass of the loop counts no leaderships. -/
theorem pass_nLeadership (h : pass c s = .ok s') :
    s'.table.map Node.nLeadership = s.table.map Node.nLeadership := by
  obtain ⟨-, q, rfl, -⟩ | ⟨y, rest, node, q, -, -, rfl, -⟩ := pass_eq_ok h
  · rfl
  · exact spend_map (fun _ _ => rfl) s.table y _

theorem timeLeftOf_eq {node : Node} (h : s.table[i]? = some node) : s.timeLeftOf i = node.timeLeft := by
  rw [timeLeftOf, h]
  rfl

/-- Only the table matters. -/
theorem antitone_concat {first : Sim} (h : Antitone i (first :: l)) (hs : s.table = first.table)
    (hs' : s'.table = (l.getLastD first).table) : Antitone i (s :: (l ++ [s'])) := by
  have hfirst : Antitone i ((first :: l) ++ [s']) := by
    refine List.IsChain.append h (List.isChain_singleton s') fun a ha b hb => ?_
    rw [List.getLast?_cons, ← List.getLastD_eq_getLast?] at ha
    cases ha
    cases hb
    exact (timeLeftOf_congr hs' i).le
  obtain ⟨hhead, htail⟩ := List.isChain_cons.mp hfirst
  refine List.isChain_cons.mpr ⟨fun b hb => ?_, htail⟩
  rw [timeLeftOf_congr hs i]
  exact hhead b hb

theorem passStates_antitone (h : pass c s = .ok s') :
    ∃ l, passStates c s = .ok l ∧ ∀ i, Antitone i (s :: (l ++ [s'])) := by
  rw [passStates]
  rw [pass] at h
  cases hqueue : s.queue with
  | nil =>
    rw [hqueue] at h
    obtain ⟨q, rfl, -⟩ := checkNodeArrive_eq_ok h
    exact ⟨[], rfl, fun i => List.isChain_cons_cons.mpr ⟨le_rfl, List.isChain_singleton _⟩⟩
  | cons y rest =>
    rw [hqueue] at h
    obtain ⟨node, hnode, h⟩ := Except.bind_eq_ok.mp h
    obtain ⟨tier, htier, h⟩ := Except.bind_eq_ok.mp h
    obtain ⟨s₁, hslots, h⟩ := Except.bind_eq_ok.mp h
    obtain ⟨_, -, h⟩ := Except.bind_eq_ok.mp h
    cases h
    obtain ⟨l, hl, hlast, hchain⟩ := slotStates_ok hslots
    simp only [hnode, htier, Except.ok_bind]
    exact ⟨l, hl, fun i => antitone_concat (hchain i) rfl (by rw [hlast])⟩

/-- The states of a pass of the loop: the time left of a node drops to 0 in them if the pass as a whole uses
it up. -/
theorem passStates_ok (h : pass c s = .ok s') :
    ∃ l, passStates c s = .ok l ∧ ∀ i,
      drops i s (l ++ [s']) = if 0 < s.timeLeftOf i ∧ s'.timeLeftOf i = 0 then 1 else 0 := by
  obtain ⟨l, hl, hchain⟩ := passStates_antitone h
  refine ⟨l, hl, fun i => ?_⟩
  have hdrops := (drops_of_antitone (hchain i)).2
  rwa [show (l ++ [s']).getLastD s = s' by simp] at hdrops

/-- No time left drops in the loop condition. -/
theorem drops_evaluated {b : Bool} (h : isTimeLeft c s = .ok (b, s')) (i : ℕ) : drops i s [s'] = 0 := by
  obtain ⟨table, draws, rfl, htable, -⟩ := isTimeLeft_eq_ok h
  rw [drops, drops, if_neg]
  rintro ⟨hpos, hzero⟩
  rw [timeLeftOf] at hpos
  cases hnode : s.table[i]? with
  | none =>
    rw [hnode] at hpos
    cases hpos
  | some node =>
    obtain ⟨node', hnode', heval⟩ := htable.getElem?_left hnode
    have hleft : node'.timeLeft = 0 := (timeLeftOf_eq hnode').symm.trans hzero
    rw [hnode] at hpos
    cases heval with
    | left => exact absurd hleft hpos.ne'
    | rejoined _ hzero => exact absurd hzero hpos.ne'
    | finished hzero => exact absurd hzero hpos.ne'

/-- A pass of the loop, and the next evaluation of its condition. -/
theorem drops_next {b : Bool} {s₁ : Sim} (hpass : pass c s = .ok s₁) (heval : isTimeLeft c s₁ = .ok (b, s')) :
    ∃ l, passStates c s = .ok l ∧ ∀ i,
      drops i s (l ++ [s₁, s']) = if 0 < s.timeLeftOf i ∧ s₁.timeLeftOf i = 0 then 1 else 0 := by
  obtain ⟨l, hl, hdrops⟩ := passStates_ok hpass
  refine ⟨l, hl, fun i => ?_⟩
  rw [← hdrops, List.append_cons, drops_append, show (l ++ [s₁]).getLastD s = s₁ by simp,
    drops_evaluated heval, Nat.add_zero]

/-! ## Runs -/

/-- The counts of the leaderships are those of the times that time left has dropped to 0. -/
def Exact (s₀ : Sim) (l : List Sim) (s : Sim) : Prop :=
  ∀ (i : ℕ) (node : Node), s.table[i]? = some node → node.nLeadership = drops i s₀ l

/-- The states of a run, one pass after the other. -/
theorem states_succ {s₀ s₁ : Sim} {n : ℕ} {b : Bool} (hs : evaluation c s₀ n = .ok (true, s))
    (hpass : pass c s = .ok s₁) (heval : isTimeLeft c s₁ = .ok (b, s')) (hl : states c s₀ n = .ok l)
    (hslots : passStates c s = .ok l') : states c s₀ (n + 1) = .ok (l ++ (l' ++ [s₁, s'])) := by
  refine Except.bind_eq_ok.mpr ⟨l, hl, Except.bind_eq_ok.mpr ⟨(true, s), hs, ?_⟩⟩
  refine Except.bind_eq_ok.mpr ⟨(), ensure_of rfl _, Except.bind_eq_ok.mpr ⟨l', hslots, ?_⟩⟩
  exact Except.bind_eq_ok.mpr ⟨s₁, hpass, Except.bind_eq_ok.mpr ⟨(b, s'), heval, rfl⟩⟩

/-- The states up to the first evaluation: no time left drops in them. -/
theorem states_zero {s₀ s₁ : Sim} {b : Bool} (hstart : checkNodeArrive c s₀ = .ok s₁)
    (heval : isTimeLeft c s₁ = .ok (b, s)) :
    states c s₀ 0 = .ok [s₁, s] ∧ ∀ i, drops i s₀ [s₁, s] = 0 := by
  refine ⟨Except.bind_eq_ok.mpr ⟨s₁, hstart, Except.bind_eq_ok.mpr ⟨(b, s), heval, rfl⟩⟩, fun i => ?_⟩
  obtain ⟨q, rfl, -⟩ := checkNodeArrive_eq_ok hstart
  rw [drops, drops_evaluated heval, if_neg]
  rintro ⟨hpos, hzero⟩
  exact hpos.ne' hzero

/-- The states of a run end where the run is, and time left drops to 0 in different slots. -/
theorem states_ok {s₀ : Sim} {n : ℕ} {b : Bool} (h : evaluation c s₀ n = .ok (b, s)) :
    ∃ l, states c s₀ n = .ok l ∧ l.getLastD s₀ = s ∧ ∀ i, drops i s₀ l ≤ s.currentTime := by
  induction n generalizing b s with
  | zero =>
    obtain ⟨s₁, hstart, heval⟩ := Except.bind_eq_ok.mp h
    obtain ⟨hl, hdrops⟩ := states_zero hstart heval
    refine ⟨_, hl, rfl, fun i => ?_⟩
    rw [hdrops]
    exact Nat.zero_le _
  | succ n ih =>
    obtain ⟨s₁, s₂, hs₁, hpass, heval⟩ := evaluation_succ h
    obtain ⟨l, hl, hlast, hdrops⟩ := ih hs₁
    obtain ⟨l', hl', hnext⟩ := drops_next hpass heval
    refine ⟨_, states_succ hs₁ hpass heval hl hl', by simp, fun i => ?_⟩
    have htime : s.currentTime = s₂.currentTime := by
      obtain ⟨_, _, rfl, -⟩ := isTimeLeft_eq_ok heval
      rfl
    have hle := hdrops i
    rw [drops_append, hlast, hnext, htime]
    split
    · next hdrop =>
      have hlt := (pass_timeLeftOf hpass i).2 (by omega)
      omega
    · exact hle.trans (pass_currentTime_le hpass)

/-- What the loop condition makes of a count. -/
theorem Evaluated.nLeadership {t : ℕ} {node node' : Node} (h : Evaluated c t node node') :
    node'.nLeadership = if node.timeLeft = 0 then (node.nLeadership + 1) % uintSize else node.nLeadership := by
  cases h with
  | left hpos => rw [if_neg hpos.ne']
  | rejoined _ hzero | finished hzero => rw [if_pos hzero]

/-- The count of a node behind the next evaluation. -/
theorem nLeadership_next {b : Bool} {s₁ : Sim} {node' : Node} (hpass : pass c s = .ok s₁)
    (heval : isTimeLeft c s₁ = .ok (b, s')) (hnode' : s'.table[i]? = some node') :
    ∃ node, s.table[i]? = some node ∧ node'.nLeadership =
      if s₁.timeLeftOf i = 0 then (node.nLeadership + 1) % uintSize else node.nLeadership := by
  obtain ⟨table, draws, rfl, htable, -⟩ := isTimeLeft_eq_ok heval
  obtain ⟨node₁, hnode₁, hevaluated⟩ := htable.getElem?_right hnode'
  have hcount : (s.table[i]?).map Node.nLeadership = some node₁.nLeadership := by
    rw [← List.getElem?_map, ← pass_nLeadership hpass, List.getElem?_map, hnode₁]
    rfl
  obtain ⟨node, hnode, hcount⟩ := Option.map_eq_some_iff.mp hcount
  refine ⟨node, hnode, ?_⟩
  rw [hevaluated.nLeadership, timeLeftOf_eq hnode₁, hcount]

/-- Counts stay exact as long as every node has time left when a pass of the loop begins. -/
theorem Exact.next {b : Bool} {s₀ s₁ : Sim} (h : Exact s₀ l s) (hlast : l.getLastD s₀ = s)
    (hdrops : ∀ i, drops i s₀ l ≤ s.currentTime) (hsize : c.size < uintSize)
    (hleft : ∀ node ∈ s.table, 0 < node.timeLeft) (hpass : pass c s = .ok s₁)
    (heval : isTimeLeft c s₁ = .ok (b, s'))
    (hnext : ∀ i, drops i s (l' ++ [s₁, s']) = if 0 < s.timeLeftOf i ∧ s₁.timeLeftOf i = 0 then 1 else 0) :
    Exact s₀ (l ++ (l' ++ [s₁, s'])) s' := by
  intro i node' hnode'
  obtain ⟨node, hnode, hcount⟩ := nLeadership_next hpass heval hnode'
  have hpos : 0 < s.timeLeftOf i := by
    rw [timeLeftOf_eq hnode]
    exact hleft node (List.mem_of_getElem? hnode)
  rw [hcount, h i node hnode, drops_append, hlast, hnext]
  split
  · next hzero =>
    have hlt := ((pass_timeLeftOf hpass i).2 (by omega)).1
    have hle := hdrops i
    rw [if_pos ⟨hpos, hzero⟩, Nat.mod_eq_of_lt (by omega)]
  · next hzero => rw [if_neg fun h => hzero h.2, Nat.add_zero]

/-- A node without time left is counted once more, although it has not run. -/
theorem not_exact_next {b : Bool} {s₀ s₁ : Sim} {node : Node} (h : Exact s₀ l s) (hlast : l.getLastD s₀ = s)
    (hnode : s.table[i]? = some node) (hzero : node.timeLeft = 0) (hpass : pass c s = .ok s₁)
    (heval : isTimeLeft c s₁ = .ok (b, s'))
    (hnext : ∀ i, drops i s (l' ++ [s₁, s']) = if 0 < s.timeLeftOf i ∧ s₁.timeLeftOf i = 0 then 1 else 0) :
    ¬Exact s₀ (l ++ (l' ++ [s₁, s'])) s' := by
  intro hexact
  have hleft : s.timeLeftOf i = 0 := (timeLeftOf_eq hnode).trans hzero
  have hleft₁ : s₁.timeLeftOf i = 0 := Nat.le_zero.mp (hleft ▸ (pass_timeLeftOf hpass i).1)
  have hlt : i < s'.table.length := by
    obtain ⟨_, _, rfl, htable, -⟩ := isTimeLeft_eq_ok heval
    have hlength : s₁.table.length = s.table.length := by
      simpa using congrArg List.length (pass_nLeadership hpass)
    rw [← htable.length_eq, hlength]
    exact (List.getElem?_eq_some_iff.mp hnode).1
  have hnode' := List.getElem?_eq_getElem hlt
  obtain ⟨node₀, hnode₀, hcount⟩ := nLeadership_next hpass heval hnode'
  cases hnode.symm.trans hnode₀
  rw [if_pos hleft₁, h i node hnode, hexact i _ hnode', drops_append, hlast, hnext, if_neg (by omega)] at hcount
  unfold uintSize at hcount
  omega

/-- Behind the first evaluation nobody has been a leader. -/
theorem exact_start {nodes : List (ℕ × ℕ)} {b : Bool} (hsgx : ∀ node ∈ nodes, 1 ≤ node.2)
    (h : evaluation c (initial nodes) 0 = .ok (b, s)) :
    ∃ l, states c (initial nodes) 0 = .ok l ∧ Exact (initial nodes) l s := by
  obtain ⟨s₁, hstart, heval⟩ := Except.bind_eq_ok.mp h
  obtain ⟨hl, hdrops⟩ := states_zero hstart heval
  refine ⟨_, hl, fun i node hnode => ?_⟩
  rw [hdrops]
  obtain ⟨q, rfl, -⟩ := checkNodeArrive_eq_ok hstart
  obtain ⟨_, _, rfl, htable, -⟩ := isTimeLeft_eq_ok heval
  obtain ⟨node₀, hnode₀, hevaluated⟩ := htable.getElem?_right hnode
  simp only [initial, inputTable, List.getElem?_map, Option.map_eq_some_iff] at hnode₀
  obtain ⟨p, hp, rfl⟩ := hnode₀
  have hpos := hsgx p (List.mem_of_getElem? hp)
  rw [hevaluated.nLeadership, if_neg (Nat.ne_of_gt hpos)]

/-- Nodes that come back have time left behind every evaluation. -/
theorem timeLeft_pos_of_rejoin {s₀ : Sim} {n : ℕ} {b : Bool} (hrejoin : c.nodesRejoin = true)
    (h : evaluation c s₀ n = .ok (b, s)) : ∀ node ∈ s.table, 0 < node.timeLeft := by
  obtain ⟨s₁, heval⟩ : ∃ s₁, isTimeLeft c s₁ = .ok (b, s) := by
    cases n with
    | zero =>
      obtain ⟨s₁, -, heval⟩ := Except.bind_eq_ok.mp h
      exact ⟨s₁, heval⟩
    | succ n =>
      obtain ⟨_, s₁, -, -, heval⟩ := evaluation_succ h
      exact ⟨s₁, heval⟩
  obtain ⟨_, _, rfl, htable, -⟩ := isTimeLeft_eq_ok heval
  intro node hnode
  obtain ⟨i, hi⟩ := List.mem_iff_getElem?.mp hnode
  obtain ⟨_, -, hevaluated⟩ := htable.getElem?_right hi
  cases hevaluated with
  | left hpos => exact hpos
  | rejoined _ _ _ hpos => exact hpos
  | finished _ hnot => exact absurd (hrejoin.symm.trans hnot) Bool.true_eq_false.mp

/-- The counts are exact behind the evaluation `n + 1` of the loop condition. -/
def CountsLeadership (c : Simulation) (s₀ : Sim) (n : ℕ) : Prop :=
  ∃ b s l, evaluation c s₀ n = .ok (b, s) ∧ states c s₀ n = .ok l ∧ Exact s₀ l s

/-- In every run the counts of the leaderships are exact behind every evaluation of the loop condition, exactly
when finished nodes come back, or no node was finished at an evaluation before the last one. -/
theorem countsLeadership_iff {nodes : List (ℕ × ℕ)} {n : ℕ} {b : Bool} (hsgx : ∀ node ∈ nodes, 1 ≤ node.2)
    (hsize : c.size < uintSize) (hrun : evaluation c (initial nodes) n = .ok (b, s)) :
    (∀ m ≤ n, CountsLeadership c (initial nodes) m) ↔
      c.nodesRejoin = true ∨ ∀ m < n, ∀ b s, evaluation c (initial nodes) m = .ok (b, s) →
        ∀ node ∈ s.table, 0 < node.timeLeft := by
  constructor
  · intro hcounts
    right
    intro m hm b₀ s₀ hs₀ node hnode
    obtain ⟨i, hi⟩ := List.mem_iff_getElem?.mp hnode
    obtain ⟨_, s₂, l₂, heval, hl₂, hexact₂⟩ := hcounts (m + 1) hm
    obtain ⟨_, _, l, hs, hl, hexact⟩ := hcounts m hm.le
    obtain ⟨s₁, s', hs₁, hpass, heval⟩ := evaluation_succ heval
    cases hs₀.symm.trans hs
    cases hs₀.symm.trans hs₁
    obtain ⟨_, hl', hlast, -⟩ := states_ok hs₀
    cases hl.symm.trans hl'
    obtain ⟨l', hslots, hnext⟩ := drops_next hpass heval
    cases hl₂.symm.trans (states_succ hs₀ hpass heval hl hslots)
    by_contra hzero
    exact not_exact_next hexact hlast hi (Nat.eq_zero_of_not_pos hzero) hpass heval hnext hexact₂
  · intro hcond
    have hleft : ∀ m < n, ∀ b s, evaluation c (initial nodes) m = .ok (b, s) →
        ∀ node ∈ s.table, 0 < node.timeLeft := by
      rcases hcond with hrejoin | hleft
      · exact fun m _ b s hs => timeLeft_pos_of_rejoin hrejoin hs
      · exact hleft
    clear hcond
    -- one pass after the other, each of which begins with time left for everybody
    induction n generalizing b s with
    | zero =>
      intro m hm
      obtain rfl := Nat.le_zero.mp hm
      obtain ⟨l, hl, hexact⟩ := exact_start hsgx hrun
      exact ⟨b, s, l, hrun, hl, hexact⟩
    | succ n ih =>
      obtain ⟨s₁, s₂, hs₁, hpass, heval⟩ := evaluation_succ hrun
      have hbefore := ih hs₁ fun m hm => hleft m (hm.trans (Nat.lt_succ_self n))
      intro m hm
      rcases Nat.lt_or_eq_of_le hm with hlt | rfl
      · exact hbefore m (Nat.le_of_lt_succ hlt)
      · obtain ⟨_, _, l, hs, hl, hexact⟩ := hbefore n le_rfl
        cases hs₁.symm.trans hs
        obtain ⟨_, hl', hlast, hdrops⟩ := states_ok hs₁
        cases hl.symm.trans hl'
        obtain ⟨l', hslots, hnext⟩ := drops_next hpass heval
        refine ⟨b, s, _, hrun, states_succ hs₁ hpass heval hl hslots, ?_⟩
        exact hexact.next hlast hdrops hsize (hleft n (Nat.lt_succ_self n) _ _ hs₁) hpass heval hnext

/-- A run of three nodes that come back. -/
theorem countsLeadership_threeNodes :
    (evaluation ⟨true, 3, 1, maxSize, fun _ => 1⟩ (initial [(0, 3), (0, 2), (1, 1)]) 6).map
        (fun r => r.2.table.map Node.nLeadership) = .ok [1, 1, 1] ∧
      ∀ m ≤ 6, CountsLeadership ⟨true, 3, 1, maxSize, fun _ => 1⟩ (initial [(0, 3), (0, 2), (1, 1)]) m := by
  have hrun : (evaluation ⟨true, 3, 1, maxSize, fun _ => 1⟩ (initial [(0, 3), (0, 2), (1, 1)]) 6).map
      (fun r => r.2.table.map Node.nLeadership) = .ok [1, 1, 1] := by
    decide
  obtain ⟨⟨b, s⟩, hs, -⟩ := Except.map_eq_ok.mp hrun
  exact ⟨hrun, (countsLeadership_iff (by decide) (by decide) hs).mpr (.inl rfl)⟩

/-- The first of two nodes finishes, and is counted again when the second one has finished. -/
theorem not_countsLeadership_twoNodes :
    (evaluation ⟨false, 3, 1, maxSize, fun _ => 0⟩ (initial [(0, 1), (0, 1)]) 2).map
        (fun r => r.2.table.map Node.nLeadership) = .ok [2, 1] ∧
      (states ⟨false, 3, 1, maxSize, fun _ => 0⟩ (initial [(0, 1), (0, 1)]) 2).map
        (drops 0 (initial [(0, 1), (0, 1)])) = .ok 1 ∧
      ¬CountsLeadership ⟨false, 3, 1, maxSize, fun _ => 0⟩ (initial [(0, 1), (0, 1)]) 2 := by
  have hrun : (evaluation ⟨false, 3, 1, maxSize, fun _ => 0⟩ (initial [(0, 1), (0, 1)]) 2).map
      (fun r => r.2.table.map Node.nLeadership) = .ok [2, 1] := by
    decide
  have hstates : (states ⟨false, 3, 1, maxSize, fun _ => 0⟩ (initial [(0, 1), (0, 1)]) 2).map
      (drops 0 (initial [(0, 1), (0, 1)])) = .ok 1 := by
    decide
  refine ⟨hrun, hstates, ?_⟩
  rintro ⟨b, s, l, hs, hl, hexact⟩
  rw [hs] at hrun
  rw [hl] at hstates
  have hcounts : s.table.map Node.nLeadership = [2, 1] := Except.ok.inj hrun
  have hdrops : drops 0 (initial [(0, 1), (0, 1)]) l = 1 := Except.ok.inj hstates
  have hcount : (s.table[0]?).map Node.nLeadership = some 2 := by
    rw [← List.getElem?_map, hcounts]
    rfl
  obtain ⟨node, hnode, hcount⟩ := Option.map_eq_some_iff.mp hcount
  have := hexact 0 node hnode
  omega

end Sim

end PoQ
