import Mathlib.Data.List.Perm.Subperm
import Mathlib.Data.List.Range
import PoQ.Server.Functions

/-!
# The order of turns

What a broadcast and an unfinished node do to the queue: which ids it holds afterwards, and in which
order.
-/

namespace PoQ

/-! ## Filling the queue -/

theorem mem_fillQueue_of_mem {table : List Node} {queue : List ℕ} {u : ℕ} (h : u ∈ queue) :
    u ∈ fillQueue table queue := by
  unfold fillQueue
  split
  · exact List.mem_append_left _ h
  · exact h

theorem fillQueue_lt {table : List Node} {queue : List ℕ} (h : ∀ u ∈ queue, u < table.length) :
    ∀ u ∈ fillQueue table queue, u < table.length := by
  intro u hu
  unfold fillQueue at hu
  split at hu
  · rcases List.mem_append.mp hu with hu | hu
    · exact h u hu
    · exact List.mem_range.mp (List.mem_filter.mp hu).1
  · exact h u hu

theorem fillQueue_nodup {table : List Node} {queue : List ℕ} (h : queue.Nodup) :
    (fillQueue table queue).Nodup := by
  unfold fillQueue
  split
  · refine h.append (List.nodup_range.filter _) fun u hu hu' => ?_
    have := (List.mem_filter.mp hu').2
    simp [hu] at this
  · exact h

/-- A queue without repetitions that is as long as the table holds every id. -/
theorem mem_of_nodup_of_le {n : ℕ} {queue : List ℕ} (hn : queue.Nodup) (hlt : ∀ u ∈ queue, u < n)
    (hle : n ≤ queue.length) {i : ℕ} (hi : i < n) : i ∈ queue := by
  have hsub : queue.Subperm (List.range n) :=
    hn.subperm fun u hu => List.mem_range.mpr (hlt u hu)
  have hperm := hsub.perm_of_length_le (by simpa using hle)
  exact hperm.mem_iff.mpr (List.mem_range.mpr hi)

theorem mem_fillQueue {table : List Node} {queue : List ℕ} (hn : queue.Nodup)
    (hlt : ∀ u ∈ queue, u < table.length) {i : ℕ} {node : Node} (hi : table[i]? = some node)
    (ha : node.arrivalTime ≠ 0) : i ∈ fillQueue table queue := by
  have hlen : i < table.length := (List.getElem?_eq_some_iff.mp hi).1
  by_cases hmem : i ∈ queue
  · exact mem_fillQueue_of_mem hmem
  · unfold fillQueue
    split
    · refine List.mem_append_right _ (List.mem_filter.mpr ⟨List.mem_range.mpr hlen, ?_⟩)
      simpa [hmem, hi] using ha
    · next hshort => exact absurd (mem_of_nodup_of_le hn hlt (by omega) hlen) hmem

/-- When somebody else is missing from the queue, nobody who is in it ends up last. -/
theorem fillQueue_ne_append {table : List Node} {queue : List ℕ} (hn : queue.Nodup)
    (hlt : ∀ u ∈ queue, u < table.length) {x y : ℕ} (hx : x ∈ queue) (hy : y ∉ queue) {node : Node}
    (hnode : table[y]? = some node) (ha : node.arrivalTime ≠ 0) (front : List ℕ) :
    fillQueue table queue ≠ front ++ [x] := by
  intro h
  have hmem := mem_fillQueue hn hlt hnode ha
  unfold fillQueue at h hmem
  split at h
  · next hshort =>
    rw [if_pos hshort] at hmem
    have hfill := (List.mem_append.mp hmem).resolve_left hy
    have hlast := congrArg List.getLast? h
    rw [List.getLast?_append_of_ne_nil _ (List.ne_nil_of_mem hfill),
      List.getLast?_concat] at hlast
    have := (List.mem_filter.mp (List.mem_of_getLast? hlast)).2
    simp [hx] at this
  · next hshort =>
    rw [if_neg hshort] at hmem
    exact hy hmem

/-! ## Broadcasts -/

theorem Inserted.length_le {node : Node} {g : Global} {table : List Node} {pushed : List ℕ}
    (h : Inserted node g table pushed) : g.sgxTable.length ≤ table.length := by
  rcases h with ⟨n, -, -, -, rfl, -⟩ | ⟨-, rfl, -⟩ <;> simp

/-- With an id that is at most the next one, everything in the queue is in the table. -/
theorem Inserted.pushed_lt {node : Node} {g : Global} {table : List Node} {pushed : List ℕ}
    (h : Inserted node g table pushed) (hqueue : ∀ u ∈ g.queue, u < g.sgxTable.length)
    (hle : node.nodeId ≤ g.sgxTable.length) : ∀ u ∈ pushed, u < table.length := by
  have hlen := h.length_le
  rcases h with ⟨n, hn, -, -, rfl, rfl⟩ | ⟨-, rfl, rfl⟩
  · have hlt := (List.getElem?_eq_some_iff.mp hn).1
    intro u hu
    rcases List.mem_append.mp hu with hu | hu
    · have hmem : u ∈ g.queue := by
        split at hu
        · exact List.mem_of_mem_tail hu
        · exact hu
      exact (hqueue u hmem).trans_le hlen
    · rw [List.mem_singleton.mp hu]
      exact hlt.trans_le hlen
  · intro u hu
    rcases List.mem_append.mp hu with hu | hu
    · exact (hqueue u hu).trans_le hlen
    · rw [List.mem_singleton.mp hu]
      simpa using Nat.lt_succ_of_le hle

theorem dedup_tail_lt {pushed : List ℕ} {n : ℕ} (h : ∀ u ∈ pushed, u < n) :
    ∀ u ∈ pushed.tail.dedup, u < n :=
  fun u hu => h u (List.mem_of_mem_tail (List.mem_dedup.mp hu))

/-- After a broadcast the queue holds no id twice, only ids of the table, and the id of every node that
has arrived. The broadcast of a node in the table returns if its time left is its SGX time, that of a
new node always. -/
theorem insertNodeIntoSgxTableAndQueue_complete {g : Global} (hid : IndexedById g.sgxTable)
    (hqueue : ∀ u ∈ g.queue, u < g.sgxTable.length) {node : Node}
    (hle : node.nodeId ≤ g.sgxTable.length) :
    ((∃ g', insertNodeIntoSgxTableAndQueue node g = .ok g') ↔
        (node.nodeId < g.sgxTable.length → node.sgxTime = node.timeLeft)) ∧
      ∀ g', insertNodeIntoSgxTableAndQueue node g = .ok g' →
        g'.queue.Nodup ∧ (∀ u ∈ g'.queue, u < g'.sgxTable.length) ∧
          ∀ i n, g'.sgxTable[i]? = some n → n.arrivalTime ≠ 0 → g'.queue.count i = 1 := by
  refine ⟨⟨?_, fun hleft => ?_⟩, fun g' h => ?_⟩
  · rintro ⟨g', h⟩ hlt
    obtain ⟨_, _, _, hins, -⟩ := insertNodeIntoSgxTableAndQueue_cases h
    rcases hins with ⟨_, _, _, hleft, _⟩ | ⟨hge, _⟩
    · exact hleft
    · omega
  · by_cases hlt : node.nodeId < g.sgxTable.length
    · have hn := List.getElem?_eq_getElem hlt
      obtain ⟨_, hok⟩ := insertNodeIntoSgxTableAndQueue_ok
        (.inl ⟨_, hn, hid _ _ hn, hleft hlt, rfl, rfl⟩)
      exact ⟨_, hok⟩
    · have hge : g.sgxTable.length ≤ node.nodeId := by omega
      obtain ⟨_, hok⟩ := insertNodeIntoSgxTableAndQueue_ok (.inr ⟨hge, rfl, rfl⟩)
      exact ⟨_, hok⟩
  · obtain ⟨table, pushed, repetitions, hins, rfl⟩ := insertNodeIntoSgxTableAndQueue_cases h
    have hlt := dedup_tail_lt (hins.pushed_lt hqueue hle)
    have hnodup := pushed.tail.nodup_dedup
    refine ⟨fillQueue_nodup hnodup, fillQueue_lt hlt, fun i n hi ha => ?_⟩
    exact List.count_eq_one_of_mem (fillQueue_nodup hnodup) (mem_fillQueue hnodup hlt hi ha)

/-- A server with three nodes that have all arrived. -/
def threeNodes (queue : List ℕ) : Global :=
  { Global.initial 0 1 10 2 with
    sgxTable := [⟨0, 1, 5, 0, 5⟩, ⟨1, 1, 5, 0, 3⟩, ⟨2, 4, 8, 0, 8⟩], queue }

theorem threeNodes_indexed (queue : List ℕ) : IndexedById (threeNodes queue).sgxTable := by
  intro i node h
  rcases i with _ | _ | _ | i <;> simp [threeNodes] at h <;> simp [← h]

theorem insertNodeIntoSgxTableAndQueue_complete_threeNodes :
    ((∃ g', insertNodeIntoSgxTableAndQueue ⟨1, 6, 9, 0, 9⟩ (threeNodes [0, 0, 2, 0]) = .ok g') ↔
        (1 < 3 → 9 = 9)) ∧
      ∀ g', insertNodeIntoSgxTableAndQueue ⟨1, 6, 9, 0, 9⟩ (threeNodes [0, 0, 2, 0]) = .ok g' →
        g'.queue.Nodup ∧ (∀ u ∈ g'.queue, u < g'.sgxTable.length) ∧
          ∀ i n, g'.sgxTable[i]? = some n → n.arrivalTime ≠ 0 → g'.queue.count i = 1 :=
  insertNodeIntoSgxTableAndQueue_complete (threeNodes_indexed _) (by decide) (by decide)

/-- The queue lists every id of the table once. -/
def ListsEveryId (g : Global) : Prop := g.queue.Perm (List.range g.sgxTable.length)

namespace ListsEveryId

variable {g : Global} (h : ListsEveryId g)
include h

theorem nodup : g.queue.Nodup := h.nodup_iff.mpr List.nodup_range

theorem mem_iff {u : ℕ} : u ∈ g.queue ↔ u < g.sgxTable.length := by
  rw [List.Perm.mem_iff h, List.mem_range]

theorem length : g.queue.length = g.sgxTable.length := by simpa using h.length_eq

end ListsEveryId

/-- A node other than `x` that stood in front of the queue has lost its turn: `x` is not the last. -/
theorem Inserted.turn_lost {node : Node} {g : Global} {table : List Node} {pushed : List ℕ}
    (hins : Inserted node g table pushed) (hqueue : ∀ u ∈ g.queue, u < g.sgxTable.length)
    (hle : node.nodeId ≤ g.sgxTable.length) (harrived : ∀ n ∈ g.sgxTable, n.arrivalTime ≠ 0)
    (hx : node.nodeId ∈ pushed.tail) {y : ℕ} (hy : y ∉ pushed.tail) (hlt : y < g.sgxTable.length)
    (hne : y ≠ node.nodeId) (front : List ℕ) :
    fillQueue table pushed.tail.dedup ≠ front ++ [node.nodeId] := by
  have hentry : table[y]? = some g.sgxTable[y] := by
    rcases hins with ⟨n, -, -, -, rfl, -⟩ | ⟨-, rfl, -⟩
    · rw [List.getElem?_set_ne hne.symm, List.getElem?_eq_getElem hlt]
    · rw [List.getElem?_append_left hlt, List.getElem?_eq_getElem hlt]
  exact fillQueue_ne_append pushed.tail.nodup_dedup (dedup_tail_lt (hins.pushed_lt hqueue hle))
    (List.mem_dedup.mpr hx) (fun h => hy (List.mem_dedup.mp h)) hentry
    (harrived _ (List.getElem_mem hlt)) front

/-- With another node in the table, the front of the queue is popped once too often. -/
theorem Inserted.exists_lost {node : Node} {g : Global} {table : List Node} {pushed : List ℕ}
    (hins : Inserted node g table pushed) (hlists : ListsEveryId g) {i : ℕ}
    (hi : i < g.sgxTable.length) (hne : i ≠ node.nodeId) :
    node.nodeId ∈ pushed.tail ∧ ∃ y ∉ pushed.tail, y < g.sgxTable.length ∧ y ≠ node.nodeId := by
  have hlt : ∀ u ∈ g.queue, u < g.sgxTable.length := fun u hu => hlists.mem_iff.mp hu
  have hnodup := hlists.nodup
  have hmem := hlists.mem_iff.mpr hi
  obtain ⟨f, rest, hq⟩ := List.exists_cons_of_ne_nil (List.ne_nil_of_mem hmem)
  rw [hq] at hlt hnodup hmem
  rcases hins with ⟨n, hn, -, -, -, rfl⟩ | ⟨hge, -, rfl⟩
  · rw [if_pos hlists.length.ge, hq, List.tail_cons]
    have hx := hlists.mem_iff.mpr (List.getElem?_eq_some_iff.mp hn).1
    rw [hq] at hx
    cases rest with
    | nil =>
      rw [List.mem_singleton] at hmem hx
      exact absurd (hmem.trans hx.symm) hne
    | cons f' rest =>
      simp only [List.nodup_cons, List.mem_cons, not_or] at hnodup
      refine ⟨by simp, ?_⟩
      by_cases hf : f = node.nodeId
      · -- `x` is popped for its own turn, and the next node is popped by the cleanup
        have hf' : f' ≠ node.nodeId := fun h => hnodup.1.1 (hf.trans h.symm)
        exact ⟨f', by simp [hf', hnodup.2.1], hlt f' (by simp), hf'⟩
      · exact ⟨f, by simp [hf, hnodup.1.2], hlt f (by simp), hf⟩
  · rw [hq, List.cons_append, List.tail_cons]
    have hflt := hlt f (by simp)
    have hf : f ≠ node.nodeId := by omega
    exact ⟨by simp, f, by simpa [hf] using (List.nodup_cons.mp hnodup).1, hflt, hf⟩

/-- Without another node the queue is empty after the cleanup. -/
theorem Inserted.alone {node : Node} {g : Global} {table : List Node} {pushed : List ℕ}
    (hins : Inserted node g table pushed) (hlists : ListsEveryId g)
    (hle : node.nodeId ≤ g.sgxTable.length) (hall : ∀ i < g.sgxTable.length, i = node.nodeId) :
    node.nodeId = 0 ∧ g.queue.erase node.nodeId = [] ∧ pushed.tail = [] ∧
      ∃ n, table = [n] ∧ n.arrivalTime = node.arrivalTime := by
  rcases hins with ⟨n, hn, -, -, rfl, rfl⟩ | ⟨hge, rfl, rfl⟩
  · have hlt := (List.getElem?_eq_some_iff.mp hn).1
    have hx : node.nodeId = 0 := (hall 0 (by omega)).symm
    have hone : g.sgxTable.length = 1 := by
      have := hall (g.sgxTable.length - 1) (by omega)
      omega
    have hq : g.queue = [0] := by
      have := hlists
      rwa [ListsEveryId, hone, List.range_one, List.perm_singleton] at this
    obtain ⟨m, htable⟩ := List.length_eq_one_iff.mp hone
    exact ⟨hx, by simp [hq, hx], by simp [hone, hq], updatedEntry n node, by simp [htable, hx], rfl⟩
  · have hzero : g.sgxTable.length = 0 := by
      by_contra hpos
      have := hall 0 (by omega)
      omega
    have hq : g.queue = [] := by rw [← List.length_eq_zero_iff, hlists.length, hzero]
    have htable : g.sgxTable = [] := List.length_eq_zero_iff.mp hzero
    exact ⟨by omega, by simp [hq], by simp [hq], node, by simp [htable], rfl⟩

theorem fillQueue_alone (n : Node) : fillQueue [n] [] = [0] ↔ n.arrivalTime ≠ 0 := by
  by_cases h : n.arrivalTime = 0 <;> simp [fillQueue, h]

/-- An inserted node goes to the end and the others keep their order exactly when there are no others
and the arrival time is not 0. -/
theorem insertNodeIntoSgxTableAndQueue_order_iff {node : Node} {g g' : Global}
    (harrived : ∀ n ∈ g.sgxTable, n.arrivalTime ≠ 0) (hlists : ListsEveryId g)
    (h : insertNodeIntoSgxTableAndQueue node g = .ok g') (hle : node.nodeId ≤ g.sgxTable.length) :
    g'.queue = g.queue.erase node.nodeId ++ [node.nodeId] ↔
      (∀ i < g.sgxTable.length, i = node.nodeId) ∧ node.arrivalTime ≠ 0 := by
  have hqueue : ∀ u ∈ g.queue, u < g.sgxTable.length := fun u hu => hlists.mem_iff.mp hu
  obtain ⟨table, pushed, repetitions, hins, rfl⟩ := insertNodeIntoSgxTableAndQueue_cases h
  change fillQueue table pushed.tail.dedup = _ ↔ _
  by_cases hall : ∀ i < g.sgxTable.length, i = node.nodeId
  · obtain ⟨hx, herase, htail, n, rfl, harrival⟩ := hins.alone hlists hle hall
    rw [htail, List.dedup_nil, herase, hx, List.nil_append, fillQueue_alone, harrival, ← hx]
    exact (and_iff_right hall).symm
  · obtain ⟨i, hi, hne⟩ : ∃ i < g.sgxTable.length, i ≠ node.nodeId := by
      simpa using hall
    obtain ⟨hx, y, hy, hlt, hyne⟩ := hins.exists_lost hlists hi hne
    exact iff_of_false (hins.turn_lost hqueue hle harrived hx hy hlt hyne _) fun h => hall h.1

/-- A broadcast moves the node to the end of the queue and keeps the order of the others exactly when
there are no others, and the node does not arrive at the time 0. -/
theorem poetSgxTimeBroadcast_order_iff {now : ℤ} {json : Json} {g : Global} {context : Context}
    {r : Handled} (h : poetSgxTimeBroadcast now json g context = .ok r) (hret : r.returned = true)
    {node : Node} (hnode : context.node = some node) (hle : node.nodeId ≤ g.sgxTable.length)
    (harrived : ∀ n ∈ g.sgxTable, n.arrivalTime ≠ 0) (hlists : ListsEveryId g) :
    r.g.queue = g.queue.erase node.nodeId ++ [node.nodeId] ↔
      (∀ i < g.sgxTable.length, i = node.nodeId) ∧ toUint (now - g.serverStartingTime) ≠ 0 := by
  obtain ⟨-, rfl⟩ | ⟨sgxt, node', -, hnode', hins, -, -⟩ := poetSgxTimeBroadcast_cases h
  · simp at hret
  obtain rfl : node = node' := Option.some.inj (hnode ▸ hnode')
  exact insertNodeIntoSgxTableAndQueue_order_iff harrived hlists hins hle

/-- The data of a broadcast. -/
def sgxtJson (n : ℤ) : Json := .object [(ascii "sgxt", .integer n)]

/-- Node 0 is first and broadcasts again: node 1, which is next, is moved to the end behind it. -/
theorem poetSgxTimeBroadcast_threeNodes :
    IndexedById (threeNodes [0, 1, 2]).sgxTable ∧
      (∀ n ∈ (threeNodes [0, 1, 2]).sgxTable, n.arrivalTime ≠ 0) ∧
      ListsEveryId (threeNodes [0, 1, 2]) ∧
      (poetSgxTimeBroadcast 7 (sgxtJson 6) (threeNodes [0, 1, 2])
          ⟨some ⟨0, 1, 5, 0, 5⟩, false⟩).map (fun r => (r.returned, r.g.queue)) =
        .ok (true, [2, 0, 1]) :=
  ⟨threeNodes_indexed _, by decide, List.Perm.refl _, by decide⟩

/-- A server with a node that has arrived. -/
def oneNode : Global := { Global.initial 0 1 10 2 with sgxTable := [⟨0, 1, 5, 0, 5⟩], queue := [0] }

/-- Node 0 is alone in the table, broadcasts again and keeps its place. -/
theorem poetSgxTimeBroadcast_order_alone :
    ∃ r, poetSgxTimeBroadcast 7 (sgxtJson 6) oneNode ⟨some ⟨0, 1, 5, 0, 5⟩, false⟩ = .ok r ∧
      r.returned = true ∧
      (r.g.queue = oneNode.queue.erase 0 ++ [0] ↔
        (∀ i < oneNode.sgxTable.length, i = 0) ∧ toUint (7 - 0) ≠ 0) := by
  obtain ⟨r, h, hret⟩ : ∃ r, poetSgxTimeBroadcast 7 (sgxtJson 6) oneNode
      ⟨some ⟨0, 1, 5, 0, 5⟩, false⟩ = .ok r ∧ r.returned = true := ⟨_, rfl, rfl⟩
  exact ⟨r, h, hret, poetSgxTimeBroadcast_order_iff h hret rfl (by decide) (by decide)
    (List.Perm.refl [0])⟩

/-! ## Unfinished nodes -/

/-- After an unfinished node has been accepted, the queue still lists every id once and ends with that
node, exactly when the node stood in front. -/
theorem poetUnfinishedNode_lists_iff {raw : Json → ℤ} {json : Json} {g : Global} {context : Context}
    {r : Handled} (h : poetUnfinishedNode raw json g context = .ok r) (hret : r.returned = true)
    {newNode : Node} (hjson : jsonToNodeT raw json = .ok (some newNode)) (hlists : ListsEveryId g) :
    ListsEveryId r.g ∧ r.g.queue.getLast? = some newNode.nodeId ↔
      g.queue.head? = some newNode.nodeId := by
  obtain rfl | ⟨node, dest, repetitions, hjson', hdest, -, -, -, -, rfl⟩ :=
    poetUnfinishedNode_cases h
  · simp at hret
  obtain rfl : newNode = node := by
    rw [hjson] at hjson'
    exact Option.some.inj (Except.ok.inj hjson')
  have hlt := (List.getElem?_eq_some_iff.mp hdest).1
  have hnodup := hlists.nodup
  have hlen := hlists.length
  simp only [ListsEveryId, List.length_set, List.getLast?_concat, and_true]
  cases hq : g.queue with
  | nil =>
    rw [hq, List.length_nil] at hlen
    omega
  | cons f rest =>
    rw [hq] at hnodup
    have hdedup : rest.dedup = rest := (List.nodup_cons.mp hnodup).2.dedup
    have hperm : (f :: rest).Perm (List.range g.sgxTable.length) := hq ▸ hlists
    simp only [List.tail_cons, hdedup, List.head?_cons, Option.some.injEq]
    constructor
    · intro h
      -- both queues are the ids of the table, and they agree but for one element
      have hcons : (newNode.nodeId :: rest).Perm (f :: rest) :=
        (List.perm_append_singleton _ _).symm.trans (h.trans hperm.symm)
      have hmem : f ∈ newNode.nodeId :: rest := hcons.mem_iff.mpr List.mem_cons_self
      rcases List.mem_cons.mp hmem with hf | hf
      · exact hf
      · exact absurd hf (List.nodup_cons.mp hnodup).1
    · rintro rfl
      exact (List.perm_append_singleton _ _).trans hperm

/-- Node 1 is not in front when it reports: node 0 is lost, and node 1 is there twice. -/
theorem poetUnfinishedNode_threeNodes :
    IndexedById (threeNodes [0, 1, 2]).sgxTable ∧ ListsEveryId (threeNodes [0, 1, 2]) ∧
      (poetUnfinishedNode (fun _ => 0) (nodeJson ⟨1, 1, 5, 0, 2⟩) (threeNodes [0, 1, 2])
          ⟨some ⟨1, 1, 5, 0, 5⟩, false⟩).map (fun r => (r.returned, r.g.queue)) =
        .ok (true, [1, 2, 1]) :=
  ⟨threeNodes_indexed _, List.Perm.refl _, by decide⟩

/-- In front, node 1 goes to the end and nobody is lost. -/
theorem poetUnfinishedNode_lists_front :
    ∃ r, poetUnfinishedNode (fun _ => 0) (nodeJson ⟨1, 1, 5, 0, 2⟩) (threeNodes [1, 0, 2])
        ⟨some ⟨1, 1, 5, 0, 5⟩, false⟩ = .ok r ∧ r.returned = true ∧
      (ListsEveryId r.g ∧ r.g.queue.getLast? = some 1 ↔
        (threeNodes [1, 0, 2]).queue.head? = some 1) := by
  obtain ⟨r, h, hret⟩ : ∃ r, poetUnfinishedNode (fun _ => 0) (nodeJson ⟨1, 1, 5, 0, 2⟩)
      (threeNodes [1, 0, 2]) ⟨some ⟨1, 1, 5, 0, 5⟩, false⟩ = .ok r ∧ r.returned = true :=
    ⟨_, rfl, rfl⟩
  have hjson : jsonToNodeT (fun _ => 0) (nodeJson ⟨1, 1, 5, 0, 2⟩) =
      .ok (some ⟨1, 1, 5, 0, 2⟩) := rfl
  exact ⟨r, h, hret, poetUnfinishedNode_lists_iff h hret hjson (List.Perm.swap 0 1 [2])⟩

end PoQ
