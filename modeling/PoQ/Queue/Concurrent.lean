import PoQ.Lib.Critical
import PoQ.Queue.Calls

/-!
# A queue that is used by several threads

The operations of `queue_t.c` with `lock` set, called by any number of threads. What an operation does
between its locking and unlocking is cut into steps, one for each access to the queue or to a cell; only
`queue_selective_remove`, which has the lock for writing, is left in one piece.
-/

namespace PoQ.QueueT

open LinkedHeap

variable {σ δ : Type}

/-- Where an operation is between its locking and unlocking. -/
inductive Place (σ δ : Type)
  | begin (c : Call σ δ)
  /-- `queue_front` and `queue_back`: the data of a cell are to be read. -/
  | item (a : ℕ)
  /-- `queue_pop` and `queue_front_and_pop`, for the second of which `value` is set: the cell `t` is to be
  taken out, then to be taken for the last one, its data to be read, and the cell to be freed. -/
  | unlink (value : Bool) (t : ℕ)
  | last (value : Bool) (t : ℕ)
  | data (t : ℕ)
  | free (value : Bool) (t d : ℕ)
  /-- `q->size--` is left. -/
  | shrink (a : Answer σ δ)
  /-- `queue_push`: the new cell is to be put behind the last one, and to become the last one. -/
  | link (newItem : ℕ)
  | relink (newItem : ℕ)
  /-- `q->size++` is left. -/
  | grow
  /-- `queue_print_func_dump`: the items from `i` on are left. -/
  | print (printFunc : ℕ → δ → δ) (i : Option ℕ) (dest : δ)

namespace Place

/-- How the lock is held. -/
def mode : Place σ δ → LockMode
  | begin .isEmpty | begin .front | begin .back | begin (.printFuncDump _ _) | begin .size | item _ | print _ _ _ => .read
  | _ => .write

/-- What a popping operation returns. -/
def popped (value : Bool) (d : ℕ) : Answer σ δ := if value then .value d else .nothing

/-- The first step of `queue_front` and `queue_back`, for the pointer they read. -/
def readEnd (pointer : Option ℕ) (q : QueueT) : QueueT × (Place σ δ ⊕ Answer σ δ) :=
  (q, pointer.elim (.inr (.value 0)) fun a => .inl (.item a))

/-- The first step of `queue_pop` and `queue_front_and_pop`. -/
def takeHead (value : Bool) (q : QueueT) : Except QueueAbort (QueueT × (Place σ δ ⊕ Answer σ δ)) :=
  match q.head with
  | some t => .ok (q, .inl (.unlink value t))
  | none => do
    ensure (q.tail = none) .tailNull
    return (q, .inr (popped value 0))

/-- A step of an operation. -/
def step : Place σ δ → QueueT → Except QueueAbort (QueueT × (Place σ δ ⊕ Answer σ δ))
  | begin .isEmpty, q => do
    ensure (q.head ≠ none ∨ q.head = q.tail) .headOrTail
    return (q, .inr (.flag q.head.isNone))
  | begin .front, q => .ok (readEnd q.head q)
  | begin .back, q => .ok (readEnd q.tail q)
  | item a, q => do
    let item ← accessed (q.heap.read a)
    return (q, .inr (.value item.value))
  | begin .pop, q => takeHead false q
  | begin .frontAndPop, q => takeHead true q
  | unlink value t, q => do
    let item ← accessed (q.heap.read t)
    return ({ q with head := item.next }, .inl (.last value t))
  | last value t, q => do
    ensure (q.tail = some t → q.head = none) .lastOne
    return ({ q with tail := if q.tail = some t then none else q.tail },
      .inl (if value then .data t else .free false t 0))
  | data t, q => do
    let item ← accessed (q.heap.read t)
    return (q, .inl (.free true t item.value))
  | free value t d, q => do
    let heap ← accessed (q.heap.free t)
    return ({ q with heap }, .inl (.shrink (popped value d)))
  | shrink a, q => .ok ({ q with size := (q.size + (2 ^ 64 - 1)) % 2 ^ 64 }, .inr a)
  | begin (.push none _), q => .ok (q, .inr .nothing)
  | begin (.push (some newItem) d), q =>
    .ok ({ q with heap := q.heap.alloc newItem ⟨d, none⟩ }, .inl (.link newItem))
  | link newItem, q =>
    match q.tail with
    | none => do
      ensure (q.head = none) .headNull
      return ({ q with head := some newItem, tail := some newItem }, .inl .grow)
    | some t => do
      let heap ← accessed (q.heap.setNext t (some newItem))
      return ({ q with heap }, .inl (.relink newItem))
  | relink newItem, q => .ok ({ q with tail := some newItem }, .inl .grow)
  | grow, q => .ok ({ q with size := (q.size + 1) % 2 ^ 64 }, .inr .nothing)
  | begin (.printFuncDump printFunc dest), q => .ok (q, .inl (.print printFunc q.head dest))
  | print _ none dest, q => .ok (q, .inr (.dest dest))
  | print printFunc (some i) dest, q => do
    let item ← accessed (q.heap.read i)
    return (q, .inl (.print printFunc item.next (printFunc item.value dest)))
  | begin (.selectiveRemove shouldDelete deallocate toDelete toPreserve s), q => do
    let (r, q) ← removeSelected (returning shouldDelete) deallocate toDelete toPreserve s q
    return (q, .inr (.removed r.deletions r.state))
  | begin .size, q => .ok (q, .inr (.size (toSizeT (toInt q.size))))

end Place

/-- The operations with their steps. -/
def operations (σ δ : Type) : Sections QueueT (Call σ δ) (Answer σ δ) (Place σ δ) QueueAbort where
  start := .begin
  mode := Place.mode
  step := Place.step

open Sections

variable {q q' : QueueT} {l : List ℕ}

/-! ## What the steps come to -/

/-- The end of popping. -/
theorem computes_free {t : ℕ} {heap : Heap ℕ} (h : accessed (q.heap.free t) = .ok heap) (value : Bool)
    (d : ℕ) :
    (operations σ δ).Computes (.free value t d) q (Place.popped value d)
      { q with heap, size := (q.size + (2 ^ 64 - 1)) % 2 ^ 64 } := by
  have hfree : Place.step (.free value t d) q =
      .ok ({ q with heap }, .inl (.shrink (Place.popped value d) : Place σ δ)) := by
    rw [Place.step, h]
    rfl
  exact .step hfree (.answer rfl)

/-- The steps of popping come to what is done in one piece. -/
theorem computes_popHead {d : ℕ} (h : q.popHead = .ok (d, q')) {b : Bool} {c : Call σ δ}
    (hc : ∀ q, Place.step (.begin c) q = Place.takeHead b q) :
    (operations σ δ).Computes (.begin c) q (Place.popped b d) q' := by
  rw [popHead] at h
  split at h
  · next t hhead =>
    obtain ⟨item, hitem, h⟩ := Except.bind_eq_ok.mp h
    obtain ⟨_, hlast, h⟩ := Except.bind_eq_ok.mp h
    obtain ⟨heap, hheap, h⟩ := Except.bind_eq_ok.mp h
    cases h
    have htake : Place.step (.begin c) q = .ok (q, .inl (.unlink b t)) := by
      rw [hc, Place.takeHead, hhead]
    have hunlink : Place.step (.unlink b t) q =
        .ok ({ q with head := item.next }, .inl (.last b t : Place σ δ)) := by
      rw [Place.step, hitem]
      rfl
    have htail : Place.step (.last b t) { q with head := item.next } =
        .ok ({ q with head := item.next, tail := if q.tail = some t then none else q.tail },
          .inl (if b then .data t else .free false t 0 : Place σ δ)) := by
      rw [Place.step, hlast]
      rfl
    refine .step htake (.step hunlink (.step htail ?_))
    have hfree (d : ℕ) := computes_free (σ := σ) (δ := δ)
      (q := { q with head := item.next, tail := if q.tail = some t then none else q.tail }) hheap b d
    rcases b with _ | _
    · exact hfree 0
    · have hdata : Place.step (.data t)
          { q with head := item.next, tail := if q.tail = some t then none else q.tail } =
            .ok ({ q with head := item.next, tail := if q.tail = some t then none else q.tail },
              .inl (.free true t item.value : Place σ δ)) := by
        rw [Place.step, hitem]
        rfl
      exact .step hdata (hfree item.value)
  · next hhead =>
    obtain ⟨_, htail, h⟩ := Except.bind_eq_ok.mp h
    cases h
    refine .answer ((hc q).trans ?_)
    rw [Place.takeHead, hhead, htail]
    rfl

/-- And so it is for pushing. -/
theorem computes_pushItem {malloc : Option ℕ} {d : ℕ} (h : q.pushItem malloc d = .ok q') :
    (operations σ δ).Computes (.begin (.push malloc d)) q .nothing q' := by
  rcases malloc with _ | newItem
  · cases h
    exact .answer rfl
  refine .step (p := Place.begin (.push (some newItem) d)) rfl ?_
  rw [pushItem] at h
  split at h
  · next htail =>
    obtain ⟨_, hhead, h⟩ := Except.bind_eq_ok.mp h
    cases h
    have hlink : Place.step (.link newItem) { q with heap := q.heap.alloc newItem ⟨d, none⟩ } =
        .ok ({ q with
          heap := q.heap.alloc newItem ⟨d, none⟩, head := some newItem, tail := some newItem },
          .inl (.grow : Place σ δ)) := by
      simp only [Place.step, htail, hhead]
      rfl
    exact .step hlink (.answer rfl)
  · next t htail =>
    obtain ⟨heap, hheap, h⟩ := Except.bind_eq_ok.mp h
    cases h
    have hlink : Place.step (.link newItem) { q with heap := q.heap.alloc newItem ⟨d, none⟩ } =
        .ok ({ q with heap }, .inl (.relink newItem : Place σ δ)) := by
      simp only [Place.step, htail, hheap]
      rfl
    exact .step hlink (.step (p := Place.relink newItem) rfl (.answer rfl))

theorem computes_printItems {printFunc : ℕ → δ → δ} {fuel : ℕ} {i : Option ℕ} {dest d : δ}
    (h : printItems printFunc q.heap fuel i dest = .ok d) :
    (operations σ δ).Computes (.print printFunc i dest) q (.dest d) q := by
  induction fuel generalizing i dest with
  | zero =>
    rcases i with _ | i
    · cases h
      exact .answer rfl
    · cases h
  | succ fuel ih =>
    rcases i with _ | i
    · cases h
      exact .answer rfl
    · rw [printItems] at h
      obtain ⟨item, hitem, h⟩ := Except.bind_eq_ok.mp h
      have hstep : Place.step (.print printFunc (some i) dest) q =
          .ok (q, .inl (.print printFunc item.next (printFunc item.value dest) : Place σ δ)) := by
        rw [Place.step, hitem]
        rfl
      exact .step hstep (ih h)

/-- The call is one that returns: `malloc` gives it a new address, and a selective removal has its memory. -/
def MayCall (q : QueueT) (c : Call σ δ) : Prop :=
  c.Fresh q ∧ ∀ l, q.Holds l → c.Returns q.heap.keeps l

/-- The answer is that of the list, if a size is one that `queue_size` can return. -/
def AnswersList (c : Call σ δ) (l : List ℕ) (a : Answer σ δ) : Prop := a = (c.onList l).1 ↔ c.SizeFits l

theorem computes_readEnd {f : QueueT → Option ℕ} {c : Call σ δ}
    (hc : ∀ q, Place.step (.begin c) q = .ok (Place.readEnd (f q) q)) {d : ℕ}
    (hd : f q = none ∧ d = 0 ∨ ∃ a next, f q = some a ∧ q.heap.live a = some ⟨d, next⟩) :
    (operations σ δ).Computes (.begin c) q (.value d) q := by
  rcases hd with ⟨hnone, rfl⟩ | ⟨a, next, hsome, ha⟩
  · refine .answer ((hc q).trans ?_)
    rw [hnone]
    rfl
  · have hread : Place.step (.begin c) q = .ok (q, .inl (.item a)) := by
      rw [hc, hsome]
      rfl
    have hitem : Place.step (.item a) q = .ok (q, .inr (.value d : Answer σ δ)) := by
      rw [Place.step, Heap.read_of_live ha]
      rfl
    exact .step hread (.answer hitem)

/-- Every operation, when it is left alone, does to the list what it should. -/
theorem computes_operations {c : Call σ δ} (h : q.Holds l) (hc : MayCall q c) :
    ∃ a q', (operations σ δ).Computes (.begin c) q a q' ∧ q'.Holds (c.onList l).2 ∧ AnswersList c l a := by
  obtain ⟨hfresh, hreturns⟩ := hc
  cases c with
  | isEmpty =>
    have hassert : q.head ≠ none ∨ q.head = q.tail := by
      rcases l with _ | ⟨d, l⟩
      · exact .inr ((h.head_eq_none_iff.mpr rfl).trans (h.tail_eq_none_iff.mpr rfl).symm)
      · exact .inl fun hnone => List.cons_ne_nil d l (h.head_eq_none_iff.mp hnone)
    have hempty : q.head.isNone = l.isEmpty := by
      rw [Bool.eq_iff_iff, Option.isNone_iff_eq_none, h.head_eq_none_iff, List.isEmpty_iff]
    refine ⟨.flag l.isEmpty, q, .answer ?_, h, iff_of_true rfl trivial⟩
    change (ensure _ _ >>= _) = _
    rw [ensure_of hassert, ← hempty]
    rfl
  | front =>
    refine ⟨.value (l.headD 0), q, computes_readEnd (f := QueueT.head) (fun _ => rfl) ?_, h,
      iff_of_true rfl trivial⟩
    rcases l with _ | ⟨d, l⟩
    · exact .inl ⟨h.head_eq_none_iff.mpr rfl, rfl⟩
    · obtain ⟨a, next, hhead, ha, -⟩ := h.of_cons
      exact .inr ⟨a, next, hhead, ha⟩
  | back =>
    refine ⟨.value (l.getLastD 0), q, computes_readEnd (f := QueueT.tail) (fun _ => rfl) ?_, h,
      iff_of_true rfl trivial⟩
    rcases List.eq_nil_or_concat' l with rfl | ⟨l, d, rfl⟩
    · exact .inl ⟨h.tail_eq_none_iff.mpr rfl, rfl⟩
    · obtain ⟨a, htail, ha⟩ := h.of_concat
      rw [List.getLastD_concat]
      exact .inr ⟨a, none, htail, ha⟩
  | pop =>
    obtain ⟨q', hpop, hleaves⟩ := popHead_ok h
    exact ⟨.nothing, q', computes_popHead hpop (b := false) fun _ => rfl, hleaves.holds,
      iff_of_true rfl trivial⟩
  | frontAndPop =>
    obtain ⟨q', hpop, hleaves⟩ := popHead_ok h
    exact ⟨.value (l.headD 0), q', computes_popHead hpop (b := true) fun _ => rfl, hleaves.holds,
      iff_of_true rfl trivial⟩
  | push malloc d =>
    rcases malloc with _ | newItem
    · exact ⟨.nothing, q, .answer rfl, h, iff_of_true rfl trivial⟩
    · obtain ⟨q', hpush, hleaves⟩ := pushItem_ok h hfresh d
      exact ⟨.nothing, q', computes_pushItem hpush, hleaves.holds, iff_of_true rfl trivial⟩
  | printFuncDump printFunc dest =>
    obtain ⟨cells, hq, rfl, hsize, hbound⟩ := h
    have hprint := printItems_ok hq.chain printFunc dest
    refine ⟨_, q, .step (p := Place.begin (.printFuncDump printFunc dest)) rfl (computes_printItems hprint),
      ⟨cells, hq, rfl, hsize, hbound⟩, iff_of_true rfl trivial⟩
  | selectiveRemove shouldDelete deallocate toDelete toPreserve s =>
    obtain ⟨htoDelete, hfits⟩ := hreturns l h
    rcases toPreserve with _ | _
    · have hindeterminate : ¬(deallocate = true ∧ toDelete = false) := by simpa using htoDelete
      refine ⟨.removed 0 s, q, .answer ?_, h, iff_of_true rfl trivial⟩
      change (removeSelected _ deallocate toDelete false s q >>= _) = _
      rw [removeSelected, if_neg hindeterminate, if_pos rfl]
      rfl
    · obtain ⟨freed, q', hrun, hleaves, -⟩ := removeSelected_ok h
        (queueSelectiveRemove_returning shouldDelete true l s) (hfits rfl) htoDelete
      refine ⟨_, q', .answer ?_, hleaves.holds, iff_of_true rfl trivial⟩
      change (removeSelected _ deallocate toDelete true s q >>= _) = _
      rw [hrun]
      rfl
  | size =>
    refine ⟨_, q, .answer rfl, h, ?_⟩
    rw [AnswersList, Call.onList, Answer.size.injEq, h.size_eq]
    exact toSizeT_toInt_eq_iff h.length_le

theorem mode_readEnd {pointer : Option ℕ} {p : Place σ δ} (h : (Place.readEnd pointer q).2 = .inl p) :
    p.mode = .read := by
  rcases pointer with _ | a
  · cases h
  · cases h
    rfl

/-- An operation that has the lock for reading does not write. -/
theorem reads_operations {p : Place σ δ} {r : Place σ δ ⊕ Answer σ δ} (hmode : p.mode = .read)
    (h : p.step q = .ok (q', r)) : q' = q ∧ ∀ p', r = .inl p' → p'.mode = .read := by
  cases p with
  | begin c =>
    cases c with
    | isEmpty =>
      obtain ⟨_, -, h⟩ := Except.bind_eq_ok.mp h
      cases h
      exact ⟨rfl, fun _ heq => nomatch heq⟩
    | front | back =>
      cases h
      exact ⟨rfl, fun p' heq => mode_readEnd (q := q) heq⟩
    | printFuncDump printFunc dest =>
      cases h
      refine ⟨rfl, fun p' heq => ?_⟩
      cases heq
      rfl
    | size =>
      cases h
      exact ⟨rfl, fun _ heq => nomatch heq⟩
    | pop | frontAndPop | push | selectiveRemove => cases hmode
  | item a =>
    obtain ⟨item, -, h⟩ := Except.bind_eq_ok.mp h
    cases h
    exact ⟨rfl, fun _ heq => nomatch heq⟩
  | print printFunc i dest =>
    rcases i with _ | i
    · cases h
      exact ⟨rfl, fun _ heq => nomatch heq⟩
    · obtain ⟨item, -, h⟩ := Except.bind_eq_ok.mp h
      cases h
      refine ⟨rfl, fun p' heq => ?_⟩
      cases heq
      rfl
  | unlink | last | data | free | shrink | link | relink | grow => cases hmode

theorem correct_operations (σ δ : Type) :
    (operations σ δ).Correct Holds MayCall AnswersList fun c l => (c.onList l).2 where
  computes _ _ _ h hc := computes_operations h hc
  reads _ _ _ _ hmode h := reads_operations hmode h
  effect c l hmode := by
    cases c with
    | isEmpty | front | back | printFuncDump | size => rfl
    | pop | frontAndPop | push | selectiveRemove => cases hmode

/-- Any number of threads use a queue from `queue_constructor` on, in any order of their steps. There is an
order of the calls that have come to an answer, the order in which they did so, in which the answers are
those of the same calls on a list; the queue holds this list whenever no thread is writing; and no step of a
thread that has the lock fails. -/
theorem linearizable {U : Type} [DecidableEq U] (heap : Heap ℕ)
    {s : State U QueueT (Call σ δ) (Answer σ δ) (Place σ δ)}
    (h : Runs (fun s e t => (operations σ δ).next .lockMisused s e = .ok t) (Enters MayCall)
      (State.initial (queueConstructor heap)) s) :
    ∃ l, Answers AnswersList (fun c l => (c.onList l).2) [] s.history l ∧
      ((∀ u c p, s.stage u = .inside c p → (Place.begin c).mode = .read) → s.shared.Holds l) ∧
      (∀ u c a, s.stage u = .leaving c a → (u, c, a) ∈ s.history) ∧
      ∀ u c p, s.stage u = .inside c p → ∃ r, p.step s.shared = .ok r := by
  obtain ⟨base, l, hs⟩ := atomic_of_runs (correct_operations σ δ) (holds_queueConstructor heap) h
  refine ⟨l, hs.answers, fun hread => ?_, hs.leaving, fun u c p hu => ?_⟩
  · rw [hs.shared hread]
    exact hs.refines
  · obtain ⟨-, a, b, hcomputes, -⟩ := hs.inside u c p hu
    exact hcomputes.exists_step

/-- One thread pushes, and another one asks for the first element; when it is about to read this, the first
thread calls again, and has to wait. -/
theorem runs_pushAndFront :
    ∃ s, Runs (fun s e t => (operations Unit Unit).next .lockMisused s e = .ok t) (Enters MayCall)
        (State.initial (queueConstructor emptyHeap)) s ∧
      s.history = [(0, .push (some 1) 5, .nothing), (1, .front, .value 5)] ∧ s.stage 0 = .waiting .pop ∧
      s.stage 1 = .leaving .front (.value 5) := by
  refine ⟨_, .head ⟨.call 0 (.push (some 1) 5), trivial, rfl⟩ (.head ⟨.call 1 .front, trivial, rfl⟩
    (.head ⟨.enter 0, ?_, rfl⟩ (.head ⟨.go 0, trivial, rfl⟩ (.head ⟨.go 0, trivial, rfl⟩
    (.head ⟨.go 0, trivial, rfl⟩ (.head ⟨.leave 0, trivial, rfl⟩ (.head ⟨.enter 1, ?_, rfl⟩
    (.head ⟨.go 1, trivial, rfl⟩ (.head ⟨.call 0 .pop, trivial, rfl⟩
    (.single ⟨.go 1, trivial, rfl⟩)))))))))), rfl, rfl, rfl⟩
  · intro c hc
    cases hc
    exact ⟨⟨rfl, by decide⟩, fun _ _ => trivial⟩
  · intro c hc
    cases hc
    exact ⟨trivial, fun _ _ => trivial⟩

theorem linearizable_pushAndFront :
    ∃ s : State ℕ QueueT (Call Unit Unit) (Answer Unit Unit) (Place Unit Unit),
      s.history = [(0, .push (some 1) 5, .nothing), (1, .front, .value 5)] ∧
      s.stage 1 = .leaving .front (.value 5) ∧
      ∃ l, Answers AnswersList (fun c l => (c.onList l).2) [] s.history l ∧
        ((∀ u c p, s.stage u = .inside c p → (Place.begin c).mode = .read) → s.shared.Holds l) := by
  obtain ⟨s, hrun, hhistory, -, hleaving⟩ := runs_pushAndFront
  obtain ⟨l, hanswers, hholds, -⟩ := linearizable emptyHeap hrun
  exact ⟨s, hhistory, hleaving, l, hanswers, hholds⟩

end PoQ.QueueT
