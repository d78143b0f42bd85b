import PoQ.Lib.Runs
import PoQ.Server.QueueOrder

/-!
# Connections and the requests on them

The server with any number of connections, each with its context. A step handles one request on one
connection as a whole. Every user of the table looks a node up under its id, so the table must list the
nodes in the order of their ids; it lists them in the order of their first broadcasts.
-/

namespace PoQ

/-- The server and the contexts of its connections. -/
structure Server where
  g : Global
  contexts : ℕ → Context

/-- A server that nobody has connected to. -/
def Server.initial (serverStartingTime : ℤ) (sgxtLowerbound sgxmax nTiers : ℕ) : Server :=
  ⟨Global.initial serverStartingTime sgxtLowerbound sgxmax nTiers, fun _ => .fresh⟩

/-- The requests that can change the server's state, with what decides their outcome. -/
inductive Request
  | register (keysLocked idsLocked : Bool) (json : Json)
  | sgxTimeBroadcast (now : ℤ) (json : Json)
  | unfinishedNode (json : Json)

/-- The handler of a request, as `delegate_message` finds it in `poet_functions`. -/
def Request.handler (raw : Json → ℤ) : Request → Global → Context → Except Abort Handled
  | register keysLocked idsLocked json => poetRegister keysLocked idsLocked json
  | sgxTimeBroadcast now json => poetSgxTimeBroadcast now json
  | unfinishedNode json => poetUnfinishedNode raw json

/-- The server when a request on the connection `c` has been handled. -/
def Server.after (s : Server) (c : ℕ) (r : Handled) : Server :=
  ⟨r.g, Function.update s.contexts c
    { r.context with isClosed := r.context.isClosed || !r.returned }⟩

/-- A request on the connection `c` is handled. `process_new_node` reads no more from a connection
whose socket is closed or whose last request has failed. -/
def Server.serve (raw : Json → ℤ) (s : Server) : ℕ × Request → Except Abort Server
  | (c, request) => do
    ensure ((s.contexts c).isClosed = false) .blocked
    let r ← request.handler raw s.g (s.contexts c)
    return s.after c r

theorem Server.after_contexts_of_ne {s : Server} {c c' : ℕ} (hc : c' ≠ c) (r : Handled) :
    (s.after c r).contexts c' = s.contexts c' :=
  Function.update_of_ne hc _ _

/-- The steps of the server. -/
def Server.step (raw : Json → ℤ) (s : Server) (a : ℕ × Request) (t : Server) : Prop :=
  s.serve raw a = .ok t

theorem Server.step_cases {raw : Json → ℤ} {s t : Server} {c : ℕ} {request : Request}
    (h : s.step raw (c, request) t) :
    ∃ r, request.handler raw s.g (s.contexts c) = .ok r ∧ t.g = r.g := by
  obtain ⟨_, -, h⟩ := Except.bind_eq_ok.mp h
  obtain ⟨r, hr, h⟩ := Except.bind_eq_ok.mp h
  cases h
  exact ⟨r, hr, rfl⟩

/-- Every entry of the table stands at its id, and the queue holds only ids of the table. -/
structure Global.Indexed (g : Global) : Prop where
  table : IndexedById g.sgxTable
  queue : ∀ u ∈ g.queue, u < g.sgxTable.length

theorem Global.indexed_initial (serverStartingTime : ℤ) (sgxtLowerbound sgxmax nTiers : ℕ) :
    (Global.initial serverStartingTime sgxtLowerbound sgxmax nTiers).Indexed :=
  ⟨fun _ _ h => by simp [Global.initial] at h, fun _ h => by simp [Global.initial] at h⟩

/-- A broadcast that is accepted comes from a node that is in the table or is the next one. -/
def InOrder (s : Server) : ℕ × Request → Prop
  | (c, .sgxTimeBroadcast _ json) => (announcedTime s.g json).isSome →
      ∀ node ∈ (s.contexts c).node, node.nodeId ≤ s.g.sgxTable.length
  | _ => True

instance (s : Server) (a : ℕ × Request) : Decidable (InOrder s a) :=
  match a with
  | (c, .sgxTimeBroadcast _ json) =>
    inferInstanceAs (Decidable ((announcedTime s.g json).isSome →
      ∀ node ∈ (s.contexts c).node, node.nodeId ≤ s.g.sgxTable.length))
  | (_, .register _ _ _) => .isTrue trivial
  | (_, .unfinishedNode _) => .isTrue trivial

/-! ## What a step does to the table -/

theorem IndexedById.set {table : List Node} (h : IndexedById table) (node : Node) :
    IndexedById (table.set node.nodeId node) := by
  intro i n hi
  by_cases hx : node.nodeId = i
  · rw [← hx, List.getElem?_set_self'] at hi
    obtain ⟨_, -, rfl⟩ := Option.map_eq_some_iff.mp hi
    exact hx
  · rw [List.getElem?_set_ne hx] at hi
    exact h i n hi

theorem IndexedById.concat_iff {table : List Node} (h : IndexedById table) {node : Node} :
    IndexedById (table ++ [node]) ↔ node.nodeId = table.length := by
  constructor
  · intro h'
    exact h' table.length node (by simp)
  · intro hnode i n hi
    rw [List.getElem?_append] at hi
    split at hi
    · exact h i n hi
    · rw [List.getElem?_singleton] at hi
      split at hi
      · cases hi
        omega
      · cases hi

/-- An inserted node keeps the table in order exactly when its id is at most the next one. -/
theorem insertNodeIntoSgxTableAndQueue_indexed_iff {node : Node} {g g' : Global} (hg : g.Indexed)
    (h : insertNodeIntoSgxTableAndQueue node g = .ok g') :
    g'.Indexed ↔ node.nodeId ≤ g.sgxTable.length := by
  obtain ⟨table, pushed, repetitions, hins, rfl⟩ := insertNodeIntoSgxTableAndQueue_cases h
  have hqueue := fun hle => fillQueue_lt (dedup_tail_lt (hins.pushed_lt hg.queue hle))
  rcases hins with ⟨n, hn, hid, -, rfl, rfl⟩ | ⟨hge, rfl, rfl⟩
  · have hlt := (List.getElem?_eq_some_iff.mp hn).1
    have hentry : (updatedEntry n node).nodeId = node.nodeId := hid
    refine iff_of_true ⟨?_, hqueue hlt.le⟩ hlt.le
    simpa only [hentry] using hg.table.set (updatedEntry n node)
  · constructor
    · intro h'
      exact (hg.table.concat_iff.mp h'.table).le
    · intro hle
      exact ⟨hg.table.concat_iff.mpr (by omega), hqueue hle⟩

theorem poetUnfinishedNode_indexed {raw : Json → ℤ} {json : Json} {g : Global} {context : Context}
    {r : Handled} (hg : g.Indexed) (h : poetUnfinishedNode raw json g context = .ok r) :
    r.g.Indexed := by
  obtain rfl | ⟨newNode, dest, repetitions, -, hdest, hid, -, -, -, rfl⟩ :=
    poetUnfinishedNode_cases h
  · exact hg
  · have hlt := (List.getElem?_eq_some_iff.mp hdest).1
    constructor
    · simpa only [hid] using hg.table.set { dest with timeLeft := newNode.timeLeft }
    · intro u hu
      rw [List.length_set]
      rcases List.mem_append.mp hu with hu | hu
      · exact dedup_tail_lt hg.queue u hu
      · rwa [List.mem_singleton.mp hu]

/-- A step keeps the table and the queue in order exactly when it is not a broadcast out of order. -/
theorem Server.step_indexed_iff {raw : Json → ℤ} {s t : Server} {a : ℕ × Request}
    (hs : s.g.Indexed) (h : s.step raw a t) : t.g.Indexed ↔ InOrder s a := by
  obtain ⟨c, request⟩ := a
  obtain ⟨r, hr, ht⟩ := Server.step_cases h
  rw [ht]
  cases request with
  | register keysLocked idsLocked json =>
    obtain ⟨htable, hqueue⟩ := poetRegister_frame hr
    exact iff_of_true ⟨by rw [htable]; exact hs.table, by rw [htable, hqueue]; exact hs.queue⟩ trivial
  | sgxTimeBroadcast now json =>
    obtain ⟨hnone, rfl⟩ | ⟨sgxt, node, hsome, hnode, hins, -, -⟩ := poetSgxTimeBroadcast_cases hr
    · exact iff_of_true hs fun hsome => by simp [hnone] at hsome
    · refine (insertNodeIntoSgxTableAndQueue_indexed_iff hs hins).trans
        ⟨fun hle _ n hn => ?_, fun h => ?_⟩
      · rw [hnode] at hn
        cases hn
        exact hle
      · exact h (by simp [hsome]) node hnode
  | unfinishedNode json => exact iff_of_true (poetUnfinishedNode_indexed hs hr) trivial

/-- In every run in which new nodes broadcast in the order of their ids, the table is indexed by id and
the queue holds ids of the table only; and the first broadcast out of order ends this. -/
theorem Server.indexed_of_runs {raw : Json → ℤ} {serverStartingTime : ℤ}
    {sgxtLowerbound sgxmax nTiers : ℕ} {s : Server}
    (h : Runs (Server.step raw) InOrder
      (Server.initial serverStartingTime sgxtLowerbound sgxmax nTiers) s) :
    (IndexedById s.g.sgxTable ∧ ∀ u ∈ s.g.queue, u < s.g.sgxTable.length) ∧
      ∀ a t, s.step raw a t →
        (IndexedById t.g.sgxTable ∧ (∀ u ∈ t.g.queue, u < t.g.sgxTable.length) ↔ InOrder s a) := by
  have hs : s.g.Indexed := by
    refine Runs.invariant (I := fun s : Server => s.g.Indexed) ?_ h
      (Global.indexed_initial serverStartingTime sgxtLowerbound sgxmax nTiers)
    intro s a t hs hc ha
    exact (Server.step_indexed_iff hs ha).mpr hc
  refine ⟨⟨hs.table, hs.queue⟩, fun a t ha => ?_⟩
  rw [← Server.step_indexed_iff hs ha]
  exact ⟨fun h => ⟨h.1, h.2⟩, fun h => ⟨h.table, h.queue⟩⟩

/-- The data of a registration with a key of 32 bytes. -/
def registerJson (key : String) : Json :=
  .object [(ascii "public_key", .string (ascii key)), (ascii "signature", .string (ascii key))]

def keyA : String := "QUFBQUFBQUFBQUFBQUFBQUFBQUFBQUFBQUFBQUFBQUE="

def keyB : String := "QkJCQkJCQkJCQkJCQkJCQkJCQkJCQkJCQkJCQkJCQkI="

/-- Two nodes register, and the second one broadcasts first. -/
def secondFirst : List (ℕ × Request) :=
  [(0, .register true true (registerJson keyA)), (1, .register true true (registerJson keyB)),
    (1, .sgxTimeBroadcast 7 (sgxtJson 6))]

/-- The entry at 0 is node 1. -/
theorem Server.indexed_secondFirst :
    ∃ s, Runs.exec (Server.serve fun _ => 0) (fun _ _ => True) .blocked secondFirst
        (Server.initial 0 1 10 2) = .ok s ∧
      Runs (Server.step fun _ => 0) (fun _ _ => True) (Server.initial 0 1 10 2) s ∧
      s.g.sgxTable.map Node.nodeId = [1] := by
  have hrun : (Runs.exec (Server.serve fun _ => 0) (fun _ _ => True) .blocked secondFirst
      (Server.initial 0 1 10 2)).map (fun s => s.g.sgxTable.map Node.nodeId) = .ok [1] := by
    decide +kernel
  obtain ⟨s, hs, hids⟩ := Except.map_eq_ok.mp hrun
  exact ⟨s, hs, Runs.of_exec hs, hids⟩

/-- In the order of their ids: the table is that of both nodes. -/
theorem Server.indexed_of_runs_inOrder :
    ∃ s, s.g.sgxTable.map Node.nodeId = [0, 1] ∧
      (IndexedById s.g.sgxTable ∧ ∀ u ∈ s.g.queue, u < s.g.sgxTable.length) ∧
      ∀ a t, s.step (fun _ => 0) a t →
        (IndexedById t.g.sgxTable ∧ (∀ u ∈ t.g.queue, u < t.g.sgxTable.length) ↔ InOrder s a) := by
  have hrun : (Runs.exec (Server.serve fun _ => 0) InOrder .blocked
      [(0, .register true true (registerJson keyA)), (1, .register true true (registerJson keyB)),
        (0, .sgxTimeBroadcast 7 (sgxtJson 6)), (1, .sgxTimeBroadcast 8 (sgxtJson 9))]
        (Server.initial 0 1 10 2)).map (fun s => s.g.sgxTable.map Node.nodeId) = .ok [0, 1] := by
    decide
  obtain ⟨s, hs, hids⟩ := Except.map_eq_ok.mp hrun
  exact ⟨s, hids, Server.indexed_of_runs (Runs.of_exec hs)⟩

end PoQ
