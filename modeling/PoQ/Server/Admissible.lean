import PoQ.Server.Connections

/-!
# The entries of the table

`set_global_constants` of `poet_server.cpp` lets the server start only with bounds for the SGX times in
order. A broadcast is checked against them, an unfinished node against the entry of the node; all users
of the table divide by its times and use them as indices.
-/

namespace PoQ

/-- The range of `size_t`. -/
def sizeTSize : ℕ := 2 ^ 64

/-- The constants that the server runs with. -/
structure Configuration where
  sgxtLowerbound : ℕ
  sgxmax : ℕ
  nTiers : ℕ
  sgxmax_lt : sgxmax < sizeTSize
  nTiers_lt : nTiers < uintSize
  lowerbound_lt : sgxtLowerbound < sgxmax
  lowerbound_pos : 0 < sgxtLowerbound
  nTiers_pos : 0 < nTiers
  nTiers_le : nTiers ≤ sgxmax - sgxtLowerbound

/-- `set_global_constants`, with what `scanf` has read. The server does not start when there is no
configuration. -/
def setGlobalConstants (sgxtLowerbound sgxmax : Fin sizeTSize) (nTiers : Fin uintSize) :
    Option Configuration :=
  if h : sgxmax.val ≤ sgxtLowerbound ∨ sgxtLowerbound.val = 0 ∨ sgxmax.val = 0 then none
  else if h' : nTiers.val = 0 ∨ sgxmax - sgxtLowerbound < nTiers.val then none
  else some
    { sgxtLowerbound, sgxmax, nTiers
      sgxmax_lt := sgxmax.isLt
      nTiers_lt := nTiers.isLt
      lowerbound_lt := by omega
      lowerbound_pos := by omega
      nTiers_pos := by omega
      nTiers_le := by omega }

/-- Every configuration is one that `set_global_constants` accepts. -/
theorem setGlobalConstants_eq_some (config : Configuration) :
    setGlobalConstants ⟨config.sgxtLowerbound, config.lowerbound_lt.trans config.sgxmax_lt⟩
      ⟨config.sgxmax, config.sgxmax_lt⟩ ⟨config.nTiers, config.nTiers_lt⟩ = some config := by
  obtain ⟨sgxtLowerbound, sgxmax, nTiers, _, _, hlt, hpos, htiers, hle⟩ := config
  have hbounds : ¬(sgxmax ≤ sgxtLowerbound ∨ sgxtLowerbound = 0 ∨ sgxmax = 0) := by omega
  have hnTiers : ¬(nTiers = 0 ∨ sgxmax - sgxtLowerbound < nTiers) := by omega
  simp only [setGlobalConstants, hbounds, hnTiers, dite_false]

/-- The server before the first request. -/
def Configuration.server (config : Configuration) (serverStartingTime : ℤ) : Server :=
  Server.initial serverStartingTime config.sgxtLowerbound config.sgxmax config.nTiers

/-! ## The times of an entry -/

/-- The SGX time is in range, and the node has not more time left. -/
structure Node.Admissible (sgxtLowerbound sgxmax : ℕ) (node : Node) : Prop where
  lower : sgxtLowerbound ≤ node.sgxTime
  upper : node.sgxTime ≤ sgxmax
  timeLeft : node.timeLeft ≤ node.sgxTime

/-- All entries are admissible for the bounds of the server. -/
def Global.Admissible (g : Global) : Prop :=
  ∀ node ∈ g.sgxTable, node.Admissible g.sgxtLowerbound g.sgxmax

/-- The bounds stay the same. -/
def Global.SameBounds (g g' : Global) : Prop :=
  g'.sgxtLowerbound = g.sgxtLowerbound ∧ g'.sgxmax = g.sgxmax

theorem announcedTime_eq_some {g : Global} {json : Json} {sgxt : ℕ}
    (h : announcedTime g json = some sgxt) : g.sgxtLowerbound ≤ sgxt ∧ sgxt ≤ g.sgxmax := by
  unfold announcedTime at h
  split at h
  · dsimp only at h
    split at h
    · next hrange =>
      cases h
      exact hrange
    · cases h
  · cases h

theorem updatedEntry_admissible {sgxtLowerbound sgxmax : ℕ} {node : Node} (n : Node)
    (h : node.Admissible sgxtLowerbound sgxmax) :
    (updatedEntry n node).Admissible sgxtLowerbound sgxmax :=
  ⟨h.lower, h.upper, h.timeLeft⟩

/-- The entries after a broadcast are those before it and one with the times of the node. -/
theorem insertNodeIntoSgxTableAndQueue_admissible {node : Node} {g g' : Global}
    (h : insertNodeIntoSgxTableAndQueue node g = .ok g') (hg : g.Admissible)
    (hnode : node.Admissible g.sgxtLowerbound g.sgxmax) : g'.Admissible ∧ g.SameBounds g' := by
  obtain ⟨table, pushed, repetitions, hins, rfl⟩ := insertNodeIntoSgxTableAndQueue_cases h
  refine ⟨fun n hn => ?_, rfl, rfl⟩
  obtain ⟨m, -, -, -, rfl, -⟩ | ⟨-, rfl, -⟩ := hins
  · rcases List.mem_or_eq_of_mem_set hn with hn | rfl
    · exact hg n hn
    · exact updatedEntry_admissible m hnode
  · rcases List.mem_append.mp hn with hn | hn
    · exact hg n hn
    · cases List.mem_singleton.mp hn
      exact hnode

theorem poetRegister_bounds {keysLocked idsLocked : Bool} {json : Json} {g : Global}
    {context : Context} {r : Handled} (h : poetRegister keysLocked idsLocked json g context = .ok r) :
    g.SameBounds r.g := by
  unfold poetRegister at h
  split at h
  · obtain ⟨⟨valid, node⟩, -, h⟩ := Except.bind_eq_ok.mp h
    simp only at h
    split at h
    · cases idsLocked <;> cases h <;> exact ⟨rfl, rfl⟩
    · cases h
      exact ⟨rfl, rfl⟩
  · cases h
    exact ⟨rfl, rfl⟩

/-- Every step keeps the bounds, and admissible entries admissible. -/
theorem Server.step_admissible {raw : Json → ℤ} {s t : Server} {a : ℕ × Request}
    (h : s.step raw a t) (hs : s.g.Admissible) : t.g.Admissible ∧ s.g.SameBounds t.g := by
  obtain ⟨c, request⟩ := a
  obtain ⟨r, hr, ht⟩ := Server.step_cases h
  rw [ht]
  cases request with
  | register keysLocked idsLocked json =>
    have hbounds := poetRegister_bounds hr
    refine ⟨?_, hbounds⟩
    rw [Global.Admissible, (poetRegister_frame hr).1, hbounds.1, hbounds.2]
    exact hs
  | sgxTimeBroadcast now json =>
    obtain ⟨-, rfl⟩ | ⟨sgxt, node, hsome, -, hins, -, -⟩ := poetSgxTimeBroadcast_cases hr
    · exact ⟨hs, rfl, rfl⟩
    · obtain ⟨hlower, hupper⟩ := announcedTime_eq_some hsome
      exact insertNodeIntoSgxTableAndQueue_admissible hins hs ⟨hlower, hupper, le_rfl⟩
  | unfinishedNode json =>
    obtain rfl | ⟨newNode, dest, repetitions, -, hdest, -, -, -, hleft, rfl⟩ :=
      poetUnfinishedNode_cases hr
    · exact ⟨hs, rfl, rfl⟩
    · refine ⟨fun n hn => ?_, rfl, rfl⟩
      rcases List.mem_or_eq_of_mem_set hn with hn | rfl
      · exact hs n hn
      · have hadmissible := hs dest (List.mem_of_getElem? hdest)
        exact ⟨hadmissible.lower, hadmissible.upper, hleft.trans hadmissible.timeLeft⟩

/-! ## An entry between two broadcasts -/

/-- The request is a broadcast with a valid time from the node whose entry is the `k`-th one. -/
def WritesEntry (k : ℕ) (s : Server) : ℕ × Request → Prop
  | (c, .sgxTimeBroadcast _ json) => (announcedTime s.g json).isSome ∧
      ∃ node, (s.contexts c).node = some node ∧ node.nodeId = k
  | _ => False

/-- What becomes of an entry when time passes for its node. -/
structure Node.Proceeds (node node' : Node) : Prop where
  timeLeft : node'.timeLeft ≤ node.timeLeft
  sgxTime : node'.sgxTime = node.sgxTime
  arrivalTime : node'.arrivalTime = node.arrivalTime

theorem Node.Proceeds.refl (node : Node) : node.Proceeds node := ⟨le_rfl, rfl, rfl⟩

/-- A step that is no broadcast for the entry lets it proceed. -/
theorem Server.step_proceeds {raw : Json → ℤ} {s t : Server} {a : ℕ × Request}
    (h : s.step raw a t) {k : ℕ} (hk : ¬WritesEntry k s a) {node : Node}
    (hnode : s.g.sgxTable[k]? = some node) :
    ∃ node', t.g.sgxTable[k]? = some node' ∧ node.Proceeds node' := by
  obtain ⟨c, request⟩ := a
  obtain ⟨r, hr, ht⟩ := Server.step_cases h
  rw [ht]
  cases request with
  | register keysLocked idsLocked json =>
    rw [(poetRegister_frame hr).1]
    exact ⟨node, hnode, .refl node⟩
  | sgxTimeBroadcast now json =>
    obtain ⟨-, rfl⟩ | ⟨sgxt, sender, hsome, hsender, hins, -, -⟩ := poetSgxTimeBroadcast_cases hr
    · exact ⟨node, hnode, .refl node⟩
    · have hne : sender.nodeId ≠ k :=
        fun heq => hk ⟨by rw [hsome]; rfl, sender, hsender, heq⟩
      refine ⟨node, ?_, .refl node⟩
      obtain ⟨table, pushed, repetitions, hinserted, hg⟩ := insertNodeIntoSgxTableAndQueue_cases hins
      rw [hg]
      obtain ⟨m, -, -, -, rfl, -⟩ | ⟨-, rfl, -⟩ := hinserted
      · exact (List.getElem?_set_ne hne).trans hnode
      · exact (List.getElem?_append_left (List.getElem?_eq_some_iff.mp hnode).1).trans hnode
  | unfinishedNode json =>
    obtain rfl | ⟨newNode, dest, repetitions, -, hdest, -, -, -, hleft, rfl⟩ :=
      poetUnfinishedNode_cases hr
    · exact ⟨node, hnode, .refl node⟩
    · by_cases heq : newNode.nodeId = k
      · rw [heq, hnode] at hdest
        cases hdest
        refine ⟨{ node with timeLeft := newNode.timeLeft }, ?_, hleft, rfl, rfl⟩
        rw [heq]
        exact List.getElem?_set_self (List.getElem?_eq_some_iff.mp hnode).1
      · exact ⟨node, (List.getElem?_set_ne heq).trans hnode, .refl node⟩

/-- In every run of requests that return: all entries are admissible, and as long as no broadcast writes
an entry, its time left does not grow and its other times stay. -/
theorem Server.admissible_of_runs {raw : Json → ℤ} {config : Configuration} {serverStartingTime : ℤ}
    {s : Server}
    (h : Runs (Server.step raw) (fun _ _ => True) (config.server serverStartingTime) s) :
    (∀ node ∈ s.g.sgxTable, config.sgxtLowerbound ≤ node.sgxTime ∧ node.sgxTime ≤ config.sgxmax ∧
        node.timeLeft ≤ node.sgxTime) ∧
      ∀ (k : ℕ) (node : Node) (t : Server), s.g.sgxTable[k]? = some node →
        Runs (Server.step raw) (fun s a => ¬WritesEntry k s a) s t →
        ∃ node', t.g.sgxTable[k]? = some node' ∧ node'.timeLeft ≤ node.timeLeft ∧
          node'.sgxTime = node.sgxTime ∧ node'.arrivalTime = node.arrivalTime := by
  let start := config.server serverStartingTime
  obtain ⟨hs, hlower, hupper⟩ : s.g.Admissible ∧ start.g.SameBounds s.g := by
    refine Runs.invariant (I := fun s => s.g.Admissible ∧ start.g.SameBounds s.g) ?_ h
      ⟨nofun, rfl, rfl⟩
    rintro s a t ⟨hs, hbounds⟩ - hstep
    obtain ⟨ht, hkept⟩ := Server.step_admissible hstep hs
    exact ⟨ht, hkept.1.trans hbounds.1, hkept.2.trans hbounds.2⟩
  refine ⟨fun node hnode => ?_, fun k node t hnode hrun => ?_⟩
  · obtain ⟨hl, hu, hleft⟩ := hs node hnode
    rw [hlower] at hl
    rw [hupper] at hu
    exact ⟨hl, hu, hleft⟩
  · obtain ⟨node', hnode', hproceeds⟩ :
        ∃ node', t.g.sgxTable[k]? = some node' ∧ node.Proceeds node' := by
      refine Runs.invariant
        (I := fun t : Server => ∃ node', t.g.sgxTable[k]? = some node' ∧ node.Proceeds node') ?_ hrun
        ⟨node, hnode, .refl node⟩
      rintro u a v ⟨n, hn, hproceeds⟩ hwrites hstep
      obtain ⟨n', hn', hnext⟩ := Server.step_proceeds hstep hwrites hn
      exact ⟨n', hn', hnext.timeLeft.trans hproceeds.timeLeft, hnext.sgxTime.trans hproceeds.sgxTime,
        hnext.arrivalTime.trans hproceeds.arrivalTime⟩
    exact ⟨node', hnode', hproceeds.timeLeft, hproceeds.sgxTime, hproceeds.arrivalTime⟩

/-- SGX times from 1 to 10, in two tiers. -/
def oneToTen : Configuration :=
  ⟨1, 10, 2, by decide, by decide, by decide, by decide, by decide, by decide⟩

/-- A node broadcasts the time 6, and reports that 2 of it is left. -/
theorem Server.admissible_of_runs_oneToTen :
    ∃ s t : Server, s.g.sgxTable = [⟨0, 7, 6, 0, 6⟩] ∧ t.g.sgxTable = [⟨0, 7, 6, 0, 2⟩] ∧
      (∀ node ∈ s.g.sgxTable, 1 ≤ node.sgxTime ∧ node.sgxTime ≤ 10 ∧ node.timeLeft ≤ node.sgxTime) ∧
      ∃ node', t.g.sgxTable[0]? = some node' ∧ node'.timeLeft ≤ 6 ∧ node'.sgxTime = 6 ∧
        node'.arrivalTime = 7 := by
  have hrun : (Runs.exec (Server.serve fun _ => 0) (fun _ _ => True) .blocked
      [(0, .register true true (registerJson keyA)), (0, .sgxTimeBroadcast 7 (sgxtJson 6))]
      (oneToTen.server 0)).map (fun s => (s.g.sgxTable,
        (s.serve (fun _ => 0) (0, .unfinishedNode (nodeJson ⟨0, 7, 6, 0, 2⟩))).map
          fun t => t.g.sgxTable)) =
      .ok ([⟨0, 7, 6, 0, 6⟩], .ok [⟨0, 7, 6, 0, 2⟩]) := by
    decide +kernel
  obtain ⟨s, hs, hvalues⟩ := Except.map_eq_ok.mp hrun
  obtain ⟨hstable, ht⟩ := Prod.mk.inj hvalues
  obtain ⟨t, ht, httable⟩ := Except.map_eq_ok.mp ht
  obtain ⟨hadmissible, hproceeds⟩ := Server.admissible_of_runs (Runs.of_exec hs)
  refine ⟨s, t, hstable, httable, hadmissible, ?_⟩
  exact hproceeds 0 ⟨0, 7, 6, 0, 6⟩ t (by rw [hstable]; rfl) (.single ⟨_, id, ht⟩)

end PoQ
