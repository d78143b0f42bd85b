import PoQ.Lib.Runs
import PoQ.Queue.SelectiveRemove

/-!
# Calls on a queue

The operations of `queue_t.c` as calls, and what they do to a list. From the spec of every operation it
follows what a sequence of calls does: which answers are those of the list, and when the lock is left as
it was.
-/

namespace PoQ.QueueT

open LinkedHeap

variable {σ δ : Type} {q : QueueT} {l : List ℕ} {lock : Bool}

/-- An operation with its arguments. What `malloc` and `calloc` return is part of the call. -/
inductive Call (σ δ : Type)
  | isEmpty
  | front
  | back
  | pop
  | frontAndPop
  | push (malloc : Option ℕ) (d : ℕ)
  | printFuncDump (printFunc : ℕ → δ → δ) (dest : δ)
  | selectiveRemove (shouldDelete : Bool → ℕ → σ → Bool × σ) (deallocate toDelete toPreserve : Bool) (s : σ)
  | size

/-- What an operation returns. -/
inductive Answer (σ δ : Type)
  | nothing
  | flag (b : Bool)
  | value (d : ℕ)
  | dest (dest : δ)
  | removed (deletions : ℕ) (s : σ)
  | size (n : ℕ)

namespace Call

/-- A call of the operation of `queue_t.c`, with the argument `lock`. -/
def run (lock : Bool) (q : QueueT) : Call σ δ → Except QueueAbort (Answer σ δ × QueueT)
  | isEmpty => (queueIsEmptyCustom lock q).map (Prod.map .flag id)
  | front => (queueFrontCustom lock q).map (Prod.map .value id)
  | back => (queueBackCustom lock q).map (Prod.map .value id)
  | pop => (queuePopCustom lock q).map (Prod.map (fun _ => .nothing) id)
  | frontAndPop => (queueFrontAndPopCustom lock q).map (Prod.map .value id)
  | push malloc d => (queuePushCustom malloc d lock q).map (Prod.map (fun _ => .nothing) id)
  | printFuncDump printFunc dest => (queuePrintFuncDumpCustom printFunc dest lock q).map (Prod.map .dest id)
  | selectiveRemove shouldDelete deallocate toDelete toPreserve s =>
    (queueSelectiveRemove (returning shouldDelete) deallocate toDelete toPreserve lock s q).map
      (Prod.map (fun r => .removed r.deletions r.state) id)
  | size => (queueSizeCustom lock q).map (Prod.map .size id)

/-- The same operation on a list. -/
def onList : Call σ δ → List ℕ → Answer σ δ × List ℕ
  | isEmpty, l => (.flag l.isEmpty, l)
  | front, l => (.value (l.headD 0), l)
  | back, l => (.value (l.getLastD 0), l)
  | pop, l => (.nothing, l.tail)
  | frontAndPop, l => (.value (l.headD 0), l.tail)
  | push malloc d, l => (.nothing, if malloc = none then l else l ++ [d])
  | printFuncDump printFunc dest, l => (.dest (l.foldl (fun dest d => printFunc d dest) dest), l)
  | selectiveRemove shouldDelete _ _ toPreserve s, l =>
    if toPreserve then
      let (kept, deletions, s) := selectiveFilter shouldDelete true l s
      (.removed deletions s, kept)
    else (.removed 0 s, l)
  | size, l => (.size l.length, l)

/-- An address that `malloc` returns is a new one. -/
def Fresh (q : QueueT) : Call σ δ → Prop
  | push (some a) _ => q.Fresh a
  | _ => True

/-- When the call returns. -/
def Returns (keeps : Bool) (l : List ℕ) : Call σ δ → Prop
  | selectiveRemove shouldDelete deallocate toDelete toPreserve s =>
    (deallocate = true → toDelete = true) ∧
      (toPreserve = true → RemovalFits keeps l (selectiveFilter shouldDelete true l s).2.1)
  | _ => True

/-- When the lock is left as it was. -/
def KeepsLock (lock : Bool) (l : List ℕ) : Call σ δ → Prop
  | front | back => lock = true ∨ l = []
  | _ => True

/-- When the answer is that of the list. -/
def SizeFits (l : List ℕ) : Call σ δ → Prop
  | size => l.length < intSize
  | _ => True

/-- What a call does that returns. -/
structure Does (c : Call σ δ) (lock : Bool) (q : QueueT) (l : List ℕ) (a : Answer σ δ) (q' : QueueT) :
    Prop where
  run : c.run lock q = .ok (a, q')
  holds : q'.Holds (c.onList l).2
  keeps : q'.heap.keeps = q.heap.keeps
  lock : q'.lock = q.lock ↔ c.KeepsLock lock l
  answer : a = (c.onList l).1 ↔ c.SizeFits l

theorem does_of_leaves {β : Type} {c : Call σ δ} {x : Except QueueAbort (β × QueueT)} {r : β}
    {f : β → Answer σ δ} (hx : ∃ q', x = .ok (r, q') ∧ q.Leaves (c.onList l).2 q')
    (hrun : c.run lock q = x.map (Prod.map f id)) (hlock : c.KeepsLock lock l)
    (hanswer : f r = (c.onList l).1 ↔ c.SizeFits l) : ∃ a q', c.Does lock q l a q' := by
  obtain ⟨q', rfl, hleaves⟩ := hx
  exact ⟨f r, q', hrun, hleaves.holds, hleaves.keeps, iff_of_true hleaves.lock hlock, hanswer⟩

/-- What `queue_front_custom` and `queue_back_custom` do. -/
theorem does_of_unlocks {c : Call σ δ} {x : Except QueueAbort (ℕ × QueueT)} {d : ℕ} (h : q.Holds l)
    (hx : x = .ok (d, if l = [] then q else { q with lock := none }))
    (hrun : c.run lock q = x.map (Prod.map .value id)) (hlist : c.onList l = (.value d, l))
    (hlock : lock = q.lock.isNone) (hkeeps : c.KeepsLock lock l ↔ lock = true ∨ l = [])
    (hsize : c.SizeFits l) : ∃ a q', c.Does lock q l a q' := by
  subst hx
  have hanswer : (.value d : Answer σ δ) = (c.onList l).1 ↔ c.SizeFits l := by
    rw [hlist]
    exact iff_of_true rfl hsize
  have hholds : q.Holds (c.onList l).2 := by rwa [hlist]
  rcases eq_or_ne l [] with hl | hl
  · rw [if_pos hl] at hrun
    exact ⟨.value d, q, hrun, hholds, rfl, iff_of_true rfl (hkeeps.mpr (.inr hl)), hanswer⟩
  · rw [if_neg hl] at hrun
    refine ⟨.value d, { q with lock := none }, hrun, hholds, rfl, ?_, hanswer⟩
    rw [hkeeps, or_iff_left hl, hlock, Option.isNone_iff_eq_none]
    exact eq_comm

/-- The spec of every call. -/
theorem does_of_returns {c : Call σ δ} (h : q.Holds l) (hfresh : c.Fresh q) (hlock : lock = q.lock.isNone)
    (hreturns : c.Returns q.heap.keeps l) : ∃ a q', c.Does lock q l a q' := by
  have hfree : lock = true → q.lock = none :=
    fun htrue => Option.isNone_iff_eq_none.mp (hlock.symm.trans htrue)
  cases c with
  | isEmpty => exact does_of_leaves (queueIsEmptyCustom_ok h hfree) rfl trivial (iff_of_true rfl trivial)
  | front => exact does_of_unlocks h (queueFrontCustom_ok h hlock) rfl rfl hlock Iff.rfl trivial
  | back => exact does_of_unlocks h (queueBackCustom_ok h hlock) rfl rfl hlock Iff.rfl trivial
  | pop => exact does_of_leaves (queuePopCustom_ok h hfree) rfl trivial (iff_of_true rfl trivial)
  | frontAndPop =>
    exact does_of_leaves (queueFrontAndPopCustom_ok h hfree) rfl trivial (iff_of_true rfl trivial)
  | push malloc d =>
    have hnew : ∀ a, malloc = some a → q.Fresh a := by
      intro a ha
      subst ha
      exact hfresh
    exact does_of_leaves (queuePushCustom_ok h hnew d hfree) rfl trivial (iff_of_true rfl trivial)
  | printFuncDump printFunc dest =>
    exact does_of_leaves (queuePrintFuncDumpCustom_ok h printFunc dest hfree) rfl trivial
      (iff_of_true rfl trivial)
  | selectiveRemove shouldDelete deallocate toDelete toPreserve s =>
    obtain ⟨htoDelete, hfits⟩ := hreturns
    rcases toPreserve with _ | _
    · exact does_of_leaves (queueSelectiveRemove_failed h htoDelete hfree) rfl trivial
        (iff_of_true rfl trivial)
    · obtain ⟨freed, q', hrun, hleaves, -⟩ := queueSelectiveRemove_ok h
        (queueSelectiveRemove_returning shouldDelete true l s) (hfits rfl) htoDelete hfree
      exact does_of_leaves ⟨q', hrun, hleaves⟩ rfl trivial (iff_of_true rfl trivial)
  | size =>
    refine does_of_leaves (queueSizeCustom_ok h hfree) rfl trivial ?_
    rw [onList, Answer.size.injEq]
    exact toSizeT_toInt_eq_iff h.length_le

/-- It returns only then. -/
theorem returns_of_run_ok {c : Call σ δ} {x : Answer σ δ × QueueT} (h : q.Holds l)
    (hx : c.run lock q = .ok x) : c.Returns q.heap.keeps l := by
  cases c with
  | selectiveRemove shouldDelete deallocate toDelete toPreserve s =>
    obtain ⟨y, hy, -⟩ := Except.map_eq_ok.mp hx
    refine ⟨toDelete_of_queueSelectiveRemove_ok hy, fun htoPreserve => ?_⟩
    subst htoPreserve
    exact (of_queueSelectiveRemove_ok h (queueSelectiveRemove_returning shouldDelete true l s) hy).2
  | isEmpty | front | back | pop | frontAndPop | push | printFuncDump | size => trivial

/-- The operations that are to be those of a list, with an item that `malloc` has memory for. -/
def Fifo : Call σ δ → Prop
  | selectiveRemove .. | push none _ => False
  | _ => True

theorem Fifo.returns {c : Call σ δ} (h : c.Fifo) (keeps : Bool) (l : List ℕ) : c.Returns keeps l := by
  cases c with
  | selectiveRemove => exact h.elim
  | isEmpty | front | back | pop | frontAndPop | push | printFuncDump | size => trivial

theorem keepsLock_true (c : Call σ δ) (l : List ℕ) : c.KeepsLock true l := by
  cases c with
  | front | back => exact .inl rfl
  | isEmpty | pop | frontAndPop | push | printFuncDump | selectiveRemove | size => trivial

end Call

/-! ## The queue as a list -/

/-- The cells, the pointers and the size are those of a list. -/
structure WellFormed (q : QueueT) (l : List ℕ) : Prop where
  /-- The cells from the head on are as many as the size says, all different, and end at the tail. -/
  holds : q.Holds l
  head : q.head = none ↔ q.size = 0
  tail : q.tail = none ↔ q.size = 0
  last : ∀ t, q.tail = some t → ∃ d, q.heap.live t = some ⟨d, none⟩

theorem Holds.wellFormed (h : q.Holds l) : q.WellFormed l where
  holds := h
  head := by rw [h.head_eq_none_iff, h.size_eq, List.length_eq_zero_iff]
  tail := by rw [h.tail_eq_none_iff, h.size_eq, List.length_eq_zero_iff]
  last := by
    intro t ht
    rcases List.eq_nil_or_concat' l with rfl | ⟨l, d, rfl⟩
    · rw [h.tail_eq_none_iff.mpr rfl] at ht
      cases ht
    · obtain ⟨a, ha, hlive⟩ := h.of_concat
      cases ha.symm.trans ht
      exact ⟨d, hlive⟩

/-- Every call with `lock` set returns what it returns on the list, and leaves a queue that holds what
the list does. -/
def Refines : List (Call σ δ) → QueueT → List ℕ → Prop
  | [], _, _ => True
  | c :: calls, q, l =>
    ∃ q', c.run true q = .ok ((c.onList l).1, q') ∧ q'.WellFormed (c.onList l).2 ∧
      Refines calls q' (c.onList l).2

/-- The size is asked for only where it is in the range of an `int`. -/
def SizesFit : List (Call σ δ) → List ℕ → Prop
  | [], _ => True
  | c :: calls, l => c.SizeFits l ∧ SizesFit calls (c.onList l).2

/-- The queue behind a call with `lock` set. -/
def afterCall (q : QueueT) (c : Call σ δ) : Except QueueAbort QueueT := (c.run true q).map Prod.snd

theorem refines_iff_of_holds {calls : List (Call σ δ)} (h : q.Holds l) (hlock : q.lock = none)
    (hfifo : ∀ c ∈ calls, c.Fifo) (hfresh : Along afterCall (fun q c => c.Fresh q) q calls) :
    Refines calls q l ↔ SizesFit calls l := by
  induction calls generalizing q l with
  | nil => exact Iff.rfl
  | cons c calls ih =>
    obtain ⟨hc, hcalls⟩ := List.forall_mem_cons.mp hfifo
    have hfree : true = q.lock.isNone := by rw [hlock, Option.isNone_none]
    obtain ⟨a, q', hdoes⟩ := Call.does_of_returns h hfresh.1 hfree (hc.returns _ _)
    have hlock' : q'.lock = none := (hdoes.lock.mpr (c.keepsLock_true l)).trans hlock
    have hnext : afterCall q c = .ok q' := Except.map_eq_ok.mpr ⟨(a, q'), hdoes.run, rfl⟩
    have hrest := ih hdoes.holds hlock' hcalls (hfresh.2 q' hnext)
    constructor
    · intro hrefines
      obtain ⟨q'', hrun, -, hrefines⟩ := hrefines
      cases hdoes.run.symm.trans hrun
      exact ⟨hdoes.answer.mp rfl, hrest.mp hrefines⟩
    · intro hsizes
      obtain ⟨hsize, hsizes⟩ := hsizes
      have hanswer := hdoes.answer.mpr hsize
      exact ⟨q', hanswer ▸ hdoes.run, hdoes.holds.wellFormed, hrest.mpr hsizes⟩

/-- New items at `n` addresses from `a` on. -/
def pushes (a n : ℕ) : List (Call σ δ) := (List.range' a n).map fun a => .push (some a) a

theorem sizesFit_pushes_iff (a n : ℕ) (l : List ℕ) :
    SizesFit (pushes a n ++ [Call.size] : List (Call σ δ)) l ↔ l.length + n < intSize := by
  induction n generalizing a l with
  | zero => exact and_iff_left trivial
  | succ n ih =>
    have hpush := ih (a + 1) (l ++ [a])
    rw [List.length_append, List.length_singleton, Nat.add_assoc, Nat.add_comm 1 n] at hpush
    exact (and_iff_right trivial).trans hpush

theorem fifo_pushes (a n : ℕ) : ∀ c ∈ (pushes a n ++ [.size] : List (Call σ δ)), c.Fifo := by
  intro c hc
  rcases List.mem_append.mp hc with hc | hc
  · obtain ⟨x, -, rfl⟩ := List.mem_map.mp hc
    trivial
  · cases List.mem_singleton.mp hc
    trivial

/-- There is no item yet at the addresses that follow. -/
theorem along_pushes {a n : ℕ} (h : q.Holds l) (hlock : q.lock = none)
    (hfree : ∀ x, a ≤ x → q.heap.live x = none)
    (hbound : a + n ≤ addresses) :
    Along afterCall (fun q c => c.Fresh q) q (pushes a n ++ [.size] : List (Call σ δ)) := by
  induction n generalizing q l a with
  | zero => exact ⟨trivial, fun _ _ => trivial⟩
  | succ n ih =>
    have hfresh : q.Fresh a := ⟨hfree a (Nat.le_refl a), by omega⟩
    have hlock' : true = q.lock.isNone := by rw [hlock, Option.isNone_none]
    obtain ⟨r, q', hdoes⟩ :=
      Call.does_of_returns (c := (.push (some a) a : Call σ δ)) h hfresh hlock' trivial
    have hnext : afterCall q (.push (some a) a : Call σ δ) = .ok q' :=
      Except.map_eq_ok.mpr ⟨(r, q'), hdoes.run, rfl⟩
    refine .cons hfresh hnext (ih hdoes.holds ((hdoes.lock.mpr trivial).trans hlock) ?_ (by omega))
    intro x hx
    obtain ⟨⟨u, q₁⟩, hpush, hq⟩ := Except.map_eq_ok.mp hdoes.run
    cases hq
    obtain ⟨held, q₂, hbody, hheap⟩ := of_withLock_ok hpush
    obtain ⟨q₃, hitem, hq₃⟩ := Except.bind_eq_ok.mp hbody
    cases hq₃
    have hne : x ≠ a := by omega
    rw [id, hheap]
    exact pushItem_live hitem hne (hfree x (by omega))

/-- A queue that is used from `queue_constructor` on, in whatever memory, is the list exactly as long as
its size is asked for only where it is in the range of an `int`. -/
theorem refines_queueConstructor_iff (calls : List (Call σ δ)) (heap : Heap ℕ) (hfifo : ∀ c ∈ calls, c.Fifo)
    (hfresh : Along afterCall (fun q c => c.Fresh q) (queueConstructor heap) calls) :
    Refines calls (queueConstructor heap) [] ↔ SizesFit calls [] :=
  refines_iff_of_holds (holds_queueConstructor heap) rfl hfifo hfresh

/-- Memory without an item, where a freed cell cannot be read. -/
def emptyHeap : Heap ℕ := ⟨fun _ => none, fun _ => none, false⟩

/-- Every operation, on up to two items. -/
theorem refines_twoItems :
    Refines [.push (some 1) 5, .push (some 2) 7, .front, .back, .size,
      .printFuncDump (fun d dest => d :: dest) [], .frontAndPop, .pop, .pop, (.isEmpty : Call Unit (List ℕ))] (queueConstructor emptyHeap) [] := by
  refine (refines_queueConstructor_iff _ _ ?_ ?_).mpr ?_
  · simp [Call.Fifo]
  · refine .cons ⟨rfl, by decide⟩ rfl (.cons ⟨rfl, by decide⟩ rfl ?_)
    refine .cons trivial rfl (.cons trivial rfl (.cons trivial rfl (.cons trivial rfl ?_)))
    exact .cons trivial rfl (.cons trivial rfl (.cons trivial rfl (.cons trivial rfl trivial)))
  · simp [SizesFit, Call.SizeFits, Call.onList, intSize]

/-- With 2147483648 elements `queue_size` does not return their number. -/
theorem not_refines_pushes :
    (∀ c ∈ (pushes 1 intSize ++ [.size] : List (Call Unit Unit)), c.Fifo) ∧
      Along afterCall (fun q c => c.Fresh q) (queueConstructor emptyHeap)
        (pushes 1 intSize ++ [.size] : List (Call Unit Unit)) ∧
      ¬Refines (pushes 1 intSize ++ [.size] : List (Call Unit Unit)) (queueConstructor emptyHeap) [] := by
  have hbound : 1 + intSize ≤ addresses := by decide
  have hfresh : Along afterCall (fun q c => c.Fresh q) (queueConstructor emptyHeap)
      (pushes 1 intSize ++ [.size] : List (Call Unit Unit)) :=
    along_pushes (holds_queueConstructor emptyHeap) rfl (fun _ _ => rfl) hbound
  refine ⟨fifo_pushes 1 intSize, hfresh, ?_⟩
  rw [refines_iff_of_holds (holds_queueConstructor emptyHeap) rfl (fifo_pushes 1 intSize) hfresh,
    sizesFit_pushes_iff, List.length_nil, Nat.zero_add]
  exact Nat.lt_irrefl intSize

/-! ## The lock -/

/-- A call by a caller that holds the lock in this way, or does not hold it and sets `lock`. Between two
calls the caller may take the lock or give it back. -/
structure Step (σ δ : Type) where
  hold : Option LockMode
  call : Call σ δ

def Step.run (q : QueueT) (s : Step σ δ) : Except QueueAbort (Answer σ δ × QueueT) :=
  s.call.run s.hold.isNone { q with lock := s.hold }

/-- The queue behind a step. -/
def afterStep (q : QueueT) (s : Step σ δ) : Except QueueAbort QueueT := (s.run q).map Prod.snd

/-- Every call returns, with the lock held as it was when the call was made. -/
def Balanced : List (Step σ δ) → QueueT → Prop
  | [], _ => True
  | s :: steps, q => ∃ a q', s.run q = .ok (a, q') ∧ q'.lock = s.hold ∧ Balanced steps q'

/-- No step is a call of `queue_front_custom` or `queue_back_custom` without `lock` on a queue that is
not empty, or a call of `queue_selective_remove` that does not return. -/
def Guarded (keeps : Bool) : List (Step σ δ) → List ℕ → Prop
  | [], _ => True
  | s :: steps, l =>
    (s.call.Returns keeps l ∧ s.call.KeepsLock s.hold.isNone l) ∧ Guarded keeps steps (s.call.onList l).2

/-- For every sequence of calls, on whatever contents: the lock is held behind every call as it was
before exactly if every step is guarded. -/
theorem balanced_iff_guarded {steps : List (Step σ δ)} (h : q.Holds l)
    (hfresh : Along afterStep (fun q s => s.call.Fresh q) q steps) :
    Balanced steps q ↔ Guarded q.heap.keeps steps l := by
  induction steps generalizing q l with
  | nil => exact Iff.rfl
  | cons s steps ih =>
    have hheld : ({ q with lock := s.hold } : QueueT).Holds l := h
    constructor
    · intro hbalanced
      obtain ⟨a, q', hrun, hlock, hbalanced⟩ := hbalanced
      have hreturns := Call.returns_of_run_ok hheld hrun
      obtain ⟨a', q'', hdoes⟩ := Call.does_of_returns hheld hfresh.1 rfl hreturns
      cases hdoes.run.symm.trans hrun
      have hrest := ih hdoes.holds (hfresh.2 q' (Except.map_eq_ok.mpr ⟨(a, q'), hrun, rfl⟩))
      rw [hdoes.keeps] at hrest
      exact ⟨⟨hreturns, hdoes.lock.mp hlock⟩, hrest.mp hbalanced⟩
    · intro hguarded
      obtain ⟨⟨hreturns, hkeepsLock⟩, hguarded⟩ := hguarded
      obtain ⟨a, q', hdoes⟩ := Call.does_of_returns hheld hfresh.1 rfl hreturns
      have hrest := ih hdoes.holds (hfresh.2 q' (Except.map_eq_ok.mpr ⟨(a, q'), hdoes.run, rfl⟩))
      rw [hdoes.keeps] at hrest
      exact ⟨a, q', hdoes.run, hdoes.lock.mpr hkeepsLock, hrest.mpr hguarded⟩

/-- The queue is read with `lock` set and changed by a caller that holds the lock. -/
theorem balanced_twoItems :
    Balanced [⟨none, .front⟩, ⟨some .write, .pop⟩, ⟨some .write, .push none 3⟩, ⟨some .read, .size⟩,
      (⟨none, .back⟩ : Step Unit Unit)] twoItems := by
  refine (balanced_iff_guarded holds_twoItems ?_).mpr ?_
  · exact .cons trivial rfl
      (.cons trivial rfl (.cons trivial rfl (.cons trivial rfl (.cons trivial rfl trivial))))
  · simp [Guarded, Call.Returns, Call.KeepsLock]

/-- The caller holds the lock, asks for the first item, and does not hold the lock any more. -/
theorem not_balanced_twoItems :
    twoItems.Holds [5, 7] ∧
      Step.run twoItems (⟨some .write, .front⟩ : Step Unit Unit) =
        .ok (.value 5, { twoItems with lock := none }) ∧
      ¬Balanced [(⟨some .write, .front⟩ : Step Unit Unit)] twoItems := by
  have hrun : Step.run twoItems (⟨some .write, .front⟩ : Step Unit Unit) =
      .ok (.value 5, { twoItems with lock := none }) := rfl
  refine ⟨holds_twoItems, hrun, ?_⟩
  intro hbalanced
  obtain ⟨a, q', hrun', hlock, -⟩ := hbalanced
  cases hrun.symm.trans hrun'
  cases hlock

end PoQ.QueueT
