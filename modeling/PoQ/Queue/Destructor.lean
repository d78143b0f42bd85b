import PoQ.Queue.Calls

/-!
# The destructor of a queue

`queue_destructor` takes the elements out one by one, and releases them too if `deallocate` is set. The
queues that the program destroys are those of the buffers that a message is received in and of the
descriptors that are to be closed. They are used by every operation but `queue_selective_remove`. Behind
such calls and the destructor the cells are those that were there before the queue, whatever the calls
were, and the elements are released once each.
-/

namespace PoQ.QueueT

open LinkedHeap

variable {σ δ β : Type} {q q' : QueueT} {l : List ℕ} {lock : Bool} {r : β} {base : ℕ → Option (Cell ℕ)}

/-! ## The destructor -/

/-- `free` on an element of the queue, for the blocks that are allocated. `NULL` is let be. -/
def release (allocated : ℕ → Bool) (d : ℕ) : Except QueueAbort (ℕ → Bool) :=
  if d = 0 then .ok allocated
  else do
    ensure (allocated d) .removedCell
    return Function.update allocated d false

/-- `free(queue_front(q))`, behind `if (deallocate != 0)`. -/
def releaseFront (deallocate : Bool) (q : QueueT) (allocated : ℕ → Bool) :
    Except QueueAbort (QueueT × (ℕ → Bool)) :=
  if deallocate then do
    let (d, q) ← queueFrontCustom true q
    let allocated ← release allocated d
    return (q, allocated)
  else .ok (q, allocated)

/-- The loop of `queue_destructor`. -/
def destroyItems (deallocate : Bool) : ℕ → QueueT → (ℕ → Bool) → Except QueueAbort (QueueT × (ℕ → Bool))
  | 0, _, _ => .error .outOfFuel
  | fuel + 1, q, allocated => do
    let (empty, q) ← queueIsEmptyCustom true q
    if empty then return (q, allocated)
    let (q, allocated) ← releaseFront deallocate q allocated
    let (_, q) ← queuePopCustom true q
    destroyItems deallocate fuel q allocated

/-- `queue_destructor`: the cells and the blocks that are left. No one may hold a lock that is
destroyed. -/
def queueDestructor (deallocate : Bool) (q : QueueT) (allocated : ℕ → Bool) :
    Except QueueAbort (Heap ℕ × (ℕ → Bool)) := do
  let (q, allocated) ← destroyItems deallocate (q.size + 1) q allocated
  ensure (q.lock = none) .lockMisused
  return (q.heap, allocated)

/-! ## The cells that belong to a queue -/

/-- The cells are those of the queue and, at other addresses, those that were there before it. -/
def Owns (base : ℕ → Option (Cell ℕ)) (q : QueueT) : Prop :=
  ∃ cells, IsQueue q.heap.live q.head q.tail cells ∧ (∀ x ∈ cells.map Prod.fst, base x = none) ∧
    ∀ x ∉ cells.map Prod.fst, q.heap.live x = base x

theorem owns_queueConstructor (heap : Heap ℕ) : (queueConstructor heap).Owns heap.live :=
  ⟨[], .empty _, List.forall_mem_nil _, fun _ _ => rfl⟩

/-- An empty queue has no cells. -/
theorem Owns.live_eq (h : q.Owns base) (hq : q.Holds []) : q.heap.live = base := by
  obtain ⟨cells, hcells, -, hframe⟩ := h
  obtain rfl := hcells.head_eq_none_iff.mp (hq.head_eq_none_iff.mpr rfl)
  funext x
  exact hframe x List.not_mem_nil

theorem owns_popHead {d : ℕ} (h : q.Owns base) (hpop : q.popHead = .ok (d, q')) : q'.Owns base := by
  obtain ⟨cells, hcells, hbase, hframe⟩ := h
  rw [popHead] at hpop
  rcases cells with _ | ⟨⟨a, v⟩, cells⟩
  · rw [hcells.head_eq_none_iff.mpr rfl] at hpop
    obtain ⟨-, -, hpop⟩ := Except.bind_eq_ok.mp hpop
    cases hpop
    exact ⟨[], hcells, hbase, hframe⟩
  · obtain ⟨hhead, next, ha, hrest⟩ := hcells.of_cons
    obtain ⟨hmem, -⟩ := List.nodup_cons.mp hcells.nodup
    rw [hhead] at hpop
    simp only [Heap.read_of_live ha, Heap.free_of_live ha, accessed_some, Except.ok_bind] at hpop
    obtain ⟨-, -, hpop⟩ := Except.bind_eq_ok.mp hpop
    cases hpop
    obtain ⟨hbase_a, hbase⟩ := List.forall_mem_cons.mp hbase
    refine ⟨cells, ?_, hbase, ?_⟩
    · simpa only [hcells.tail_eq_head_iff] using hrest
    · intro x hx
      rcases eq_or_ne x a with rfl | hne
      · rw [hbase_a]
        exact Function.update_self _ _ _
      · refine (Function.update_of_ne hne _ _).trans (hframe x ?_)
        rw [List.map_cons, List.mem_cons, not_or]
        exact ⟨hne, hx⟩

theorem owns_pushItem {a d : ℕ} (h : q.Owns base) (ha : q.heap.live a = none)
    (hpush : q.pushItem (some a) d = .ok q') : q'.Owns base := by
  obtain ⟨cells, hcells, hbase, hframe⟩ := h
  have hmem : a ∉ cells.map Prod.fst := by
    intro hmem
    obtain ⟨x, hx, rfl⟩ := List.mem_map.mp hmem
    obtain ⟨next, hcell⟩ := hcells.chain.live x hx
    rw [ha] at hcell
    cases hcell
  have hbase' : ∀ x ∈ (cells ++ [(a, d)]).map Prod.fst, base x = none := by
    intro x hx
    rw [List.map_append, List.map_singleton, List.mem_append, List.mem_singleton] at hx
    rcases hx with hx | rfl
    · exact hbase x hx
    · exact (hframe x hmem).symm.trans ha
  have hother {x : ℕ} (hx : x ∉ (cells ++ [(a, d)]).map Prod.fst) : x ∉ cells.map Prod.fst ∧ x ≠ a := by
    rw [List.map_append, List.map_singleton, List.mem_append, List.mem_singleton, not_or] at hx
    exact hx
  rw [pushItem] at hpush
  rcases htail : q.tail with _ | t
  · rw [htail] at hpush
    obtain ⟨-, -, hpush⟩ := Except.bind_eq_ok.mp hpush
    cases hpush
    obtain rfl := hcells.tail_eq_none_iff.mp htail
    refine ⟨[(a, d)], .singleton _ a d, hbase', fun x hx => ?_⟩
    exact (Function.update_of_ne (hother hx).2 _ _).trans (hframe x (hother hx).1)
  · rw [htail] at hpush hcells
    obtain ⟨w, ht, hpushed⟩ := hcells.push hmem d
    have hta : t ≠ a := by
      intro hta
      rw [← hta, ht] at ha
      cases ha
    have hlive : (q.heap.alloc a ⟨d, none⟩).live t = some ⟨w, none⟩ :=
      (Function.update_of_ne hta _ _).trans ht
    simp only [Heap.setNext_of_live hlive, accessed_some, Except.ok_bind] at hpush
    cases hpush
    refine ⟨cells ++ [(a, d)], hpushed, hbase', fun x hx => ?_⟩
    have hxt : x ≠ t := by
      intro hxt
      subst hxt
      exact (hother hx).1 (List.mem_of_getLast? hcells.last.symm)
    refine (Function.update_of_ne hxt _ _).trans ?_
    exact (Function.update_of_ne (hother hx).2 _ _).trans (hframe x (hother hx).1)

/-- What an operation leaves is what it leaves between its locking and unlocking, but for the lock. -/
theorem withLock_eq_ok {mode : LockMode} {body : QueueT → Except QueueAbort (β × QueueT)}
    (h : withLock lock mode body q = .ok (r, q')) :
    ∃ held q₁, body { q with lock := held } = .ok (r, q₁) ∧ q' = { q₁ with lock := q'.lock } := by
  obtain ⟨q₀, hlock, h⟩ := Except.bind_eq_ok.mp h
  obtain ⟨⟨r₁, q₁⟩, hbody, h⟩ := Except.bind_eq_ok.mp h
  obtain ⟨q₂, hunlock, h⟩ := Except.bind_eq_ok.mp h
  cases h
  rcases lock with _ | _
  · cases hlock
    cases hunlock
    exact ⟨q.lock, q', hbody, rfl⟩
  · obtain ⟨-, -, hlock⟩ := Except.bind_eq_ok.mp hlock
    obtain ⟨-, -, hunlock⟩ := Except.bind_eq_ok.mp hunlock
    cases hlock
    cases hunlock
    exact ⟨some mode, q₁, hbody, rfl⟩

theorem owns_withLock {mode : LockMode} {body : QueueT → Except QueueAbort (β × QueueT)}
    (h : q.Owns base) (hrun : withLock lock mode body q = .ok (r, q'))
    (hbody : ∀ q₁ q₂, q₁.heap = q.heap → q₁.Owns base → body q₁ = .ok (r, q₂) → q₂.Owns base) :
    q'.Owns base := by
  obtain ⟨held, q₁, hrun, hq'⟩ := withLock_eq_ok hrun
  rw [hq']
  exact hbody { q with lock := held } q₁ rfl h hrun

theorem owns_queueIsEmptyCustom {empty : Bool} (h : q.Owns base)
    (hrun : queueIsEmptyCustom lock q = .ok (empty, q')) : q'.Owns base := by
  refine owns_withLock h hrun fun q₁ q₂ _ hq₁ hbody => ?_
  obtain ⟨-, -, hbody⟩ := Except.bind_eq_ok.mp hbody
  cases hbody
  exact hq₁

theorem owns_queuePopCustom (h : q.Owns base) (hrun : queuePopCustom lock q = .ok ((), q')) :
    q'.Owns base := by
  refine owns_withLock h hrun fun q₁ q₂ _ hq₁ hbody => ?_
  obtain ⟨⟨d, q₃⟩, hpop, hbody⟩ := Except.bind_eq_ok.mp hbody
  cases hbody
  exact owns_popHead hq₁ hpop

theorem owns_queuePushCustom {malloc : Option ℕ} {d : ℕ} (h : q.Owns base)
    (hfresh : ∀ a, malloc = some a → q.Fresh a) (hrun : queuePushCustom malloc d lock q = .ok ((), q')) :
    q'.Owns base := by
  refine owns_withLock h hrun fun q₁ q₂ hheap hq₁ hbody => ?_
  obtain ⟨q₃, hpush, hbody⟩ := Except.bind_eq_ok.mp hbody
  cases hbody
  rcases malloc with _ | a
  · cases hpush
    exact hq₁
  · refine owns_pushItem hq₁ ?_ hpush
    rw [hheap]
    exact (hfresh a rfl).1

namespace Call

/-- The operations that put at most one cell into the queue or take at most one out. -/
def OneCell : Call σ δ → Prop
  | selectiveRemove .. => False
  | _ => True

theorem OneCell.returns {c : Call σ δ} (h : c.OneCell) (keeps : Bool) (l : List ℕ) : c.Returns keeps l := by
  cases c with
  | selectiveRemove => exact h.elim
  | isEmpty | front | back | pop | frontAndPop | push | printFuncDump | size => trivial

/-- A call on a queue that holds `l` and is the only owner of its cells. -/
theorem owns_run {c : Call σ δ} {a : Answer σ δ} (hc : c.OneCell) (hq : q.Holds l) (hlock : q.lock = none)
    (h : q.Owns base) (hfresh : c.Fresh q) (hrun : c.run true q = .ok (a, q')) : q'.Owns base := by
  have hfree : true = q.lock.isNone := by rw [hlock, Option.isNone_none]
  have hend : (if l = [] then q else { q with lock := none }).Owns base := by
    split
    · exact h
    · exact h
  cases c with
  | selectiveRemove => exact hc.elim
  | front =>
    rw [run, queueFrontCustom_ok hq hfree] at hrun
    cases hrun
    exact hend
  | back =>
    rw [run, queueBackCustom_ok hq hfree] at hrun
    cases hrun
    exact hend
  | isEmpty =>
    obtain ⟨⟨empty, q₁⟩, hop, hq₁⟩ := Except.map_eq_ok.mp hrun
    cases hq₁
    exact owns_queueIsEmptyCustom h hop
  | size =>
    obtain ⟨⟨n, q₁⟩, hop, hq₁⟩ := Except.map_eq_ok.mp hrun
    cases hq₁
    refine owns_withLock h hop fun q₁ q₂ _ hq₁ hbody => ?_
    rw [Except.ok.injEq, Prod.mk.injEq] at hbody
    rw [← hbody.2]
    exact hq₁
  | printFuncDump printFunc dest =>
    obtain ⟨⟨dest', q₁⟩, hop, hq₁⟩ := Except.map_eq_ok.mp hrun
    cases hq₁
    refine owns_withLock h hop fun q₁ q₂ _ hq₁ hbody => ?_
    obtain ⟨dest'', -, hbody⟩ := Except.bind_eq_ok.mp hbody
    cases hbody
    exact hq₁
  | pop =>
    obtain ⟨⟨u, q₁⟩, hop, hq₁⟩ := Except.map_eq_ok.mp hrun
    cases hq₁
    exact owns_queuePopCustom h hop
  | frontAndPop =>
    obtain ⟨⟨d, q₁⟩, hop, hq₁⟩ := Except.map_eq_ok.mp hrun
    cases hq₁
    exact owns_withLock h hop fun q₁ q₂ _ hq₁ hpop => owns_popHead hq₁ hpop
  | push malloc d =>
    obtain ⟨⟨u, q₁⟩, hop, hq₁⟩ := Except.map_eq_ok.mp hrun
    cases hq₁
    refine owns_queuePushCustom h (fun a ha => ?_) hop
    subst ha
    exact hfresh

end Call

/-- What is in the queue behind the calls. -/
def contents (calls : List (Call σ δ)) (l : List ℕ) : List ℕ := calls.foldl (fun l c => (c.onList l).2) l

/-- A run of calls with `lock` set. -/
theorem foldlM_afterCall {calls : List (Call σ δ)} (hq : q.Holds l) (hlock : q.lock = none) (h : q.Owns base)
    (hcalls : ∀ c ∈ calls, c.OneCell) (hfresh : Along afterCall (fun q c => c.Fresh q) q calls) :
    ∃ q', calls.foldlM afterCall q = .ok q' ∧ q'.Holds (contents calls l) ∧ q'.lock = none ∧
      q'.Owns base := by
  induction calls generalizing q l with
  | nil => exact ⟨q, rfl, hq, hlock, h⟩
  | cons c calls ih =>
    obtain ⟨hc, hcalls⟩ := List.forall_mem_cons.mp hcalls
    have hfree : true = q.lock.isNone := by rw [hlock, Option.isNone_none]
    obtain ⟨a, q₁, hdoes⟩ := Call.does_of_returns hq hfresh.1 hfree (hc.returns _ _)
    have hlock₁ : q₁.lock = none := (hdoes.lock.mpr (c.keepsLock_true l)).trans hlock
    have hnext : afterCall q c = .ok q₁ := Except.map_eq_ok.mpr ⟨(a, q₁), hdoes.run, rfl⟩
    obtain ⟨q', hrun, hq'⟩ :=
      ih hdoes.holds hlock₁ (Call.owns_run hc hq hlock h hfresh.1 hdoes.run) hcalls (hfresh.2 q₁ hnext)
    refine ⟨q', ?_, hq'⟩
    rw [List.foldlM_cons, hnext]
    exact hrun

/-! ## What is released -/

/-- The elements that are not `NULL` are allocated, and none of them is in the queue twice. -/
def Releasable (allocated : ℕ → Bool) (l : List ℕ) : Prop :=
  (l.filter (· ≠ 0)).Nodup ∧ ∀ d ∈ l, d ≠ 0 → allocated d = true

/-- The blocks that are left if the elements of the list are released. -/
def releasedFrom (allocated : ℕ → Bool) (l : List ℕ) (x : ℕ) : Bool :=
  allocated x && (x == 0 || !l.contains x)

theorem releasable_cons {allocated : ℕ → Bool} {d : ℕ} (hd : d ≠ 0) (hallocated : allocated d = true) :
    Releasable allocated (d :: l) ↔ Releasable (Function.update allocated d false) l := by
  have hfilter : (d :: l).filter (· ≠ 0) = d :: l.filter (· ≠ 0) := List.filter_cons_of_pos (by simpa using hd)
  have hmem : d ∈ l.filter (· ≠ 0) ↔ d ∈ l := by rw [List.mem_filter]; simp [hd]
  rw [Releasable, Releasable, hfilter, List.nodup_cons, hmem, List.forall_mem_cons]
  constructor
  · intro h
    obtain ⟨⟨hnot, hnodup⟩, -, hl⟩ := h
    refine ⟨hnodup, fun x hx hx0 => ?_⟩
    rw [Function.update_of_ne (ne_of_mem_of_not_mem hx hnot)]
    exact hl x hx hx0
  · intro h
    obtain ⟨hnodup, hl⟩ := h
    have hne {x : ℕ} (hx : x ∈ l) (hx0 : x ≠ 0) : x ≠ d := by
      intro hxd
      have hupdate := hl x hx hx0
      rw [hxd, Function.update_self] at hupdate
      cases hupdate
    refine ⟨⟨fun hmem => hne hmem hd rfl, hnodup⟩, fun _ => hallocated, fun x hx hx0 => ?_⟩
    have hupdate := hl x hx hx0
    rwa [Function.update_of_ne (hne hx hx0)] at hupdate

/-- Releasing the elements in order returns exactly if none is released twice. -/
theorem foldlM_release (allocated : ℕ → Bool) (l : List ℕ) :
    (Releasable allocated l → l.foldlM release allocated = .ok (releasedFrom allocated l)) ∧
      (¬Releasable allocated l → l.foldlM release allocated = .error .removedCell) := by
  induction l generalizing allocated with
  | nil =>
    have hleft : releasedFrom allocated [] = allocated := by
      funext x
      simp [releasedFrom]
    rw [hleft]
    exact ⟨fun _ => rfl, fun h => (h ⟨List.nodup_nil, List.forall_mem_nil _⟩).elim⟩
  | cons d l ih =>
    rw [List.foldlM_cons, release]
    rcases eq_or_ne d 0 with rfl | hd
    · have hcons : Releasable allocated (0 :: l) ↔ Releasable allocated l := by
        simp [Releasable]
      have hleft : releasedFrom allocated (0 :: l) = releasedFrom allocated l := by
        funext x
        rcases eq_or_ne x 0 with rfl | hx
        · simp [releasedFrom]
        · simp [releasedFrom, hx]
      rw [if_pos rfl, hcons, hleft]
      exact ih allocated
    · rw [if_neg hd]
      rcases hallocated : allocated d with _ | _
      · refine ⟨fun h => ?_, fun _ => rfl⟩
        have htrue := h.2 d List.mem_cons_self hd
        rw [hallocated] at htrue
        cases htrue
      · have hleft : releasedFrom allocated (d :: l) = releasedFrom (Function.update allocated d false) l := by
          funext x
          rcases eq_or_ne x d with rfl | hx
          · simp [releasedFrom, hd]
          · simp [releasedFrom, hx]
        rw [releasable_cons hd hallocated, hleft]
        exact ih _

/-- What the loop of the destructor releases. -/
def releaseAll (deallocate : Bool) (allocated : ℕ → Bool) (l : List ℕ) : Except QueueAbort (ℕ → Bool) :=
  if deallocate then l.foldlM release allocated else .ok allocated

/-- The first round of the loop on a queue that is not empty. -/
theorem destroyItems_cons {d : ℕ} (hq : q.Holds (d :: l)) (hlock : q.lock = none) (h : q.Owns base)
    (deallocate : Bool) (allocated : ℕ → Bool) (fuel : ℕ) :
    ∃ q₁, destroyItems deallocate (fuel + 1) q allocated =
        (releaseAll deallocate allocated [d] >>= destroyItems deallocate fuel q₁) ∧
      q₁.Holds l ∧ q₁.lock = none ∧ q₁.Owns base := by
  obtain ⟨q₁, hempty, hleaves₁⟩ := queueIsEmptyCustom_ok hq (fun _ : true = true => hlock)
  have howns₁ := owns_queueIsEmptyCustom h hempty
  have hlock₁ := hleaves₁.lock.trans hlock
  have hfront : queueFrontCustom true q₁ = .ok (d, { q₁ with lock := none }) :=
    queueFrontCustom_ok hleaves₁.holds (by rw [hlock₁, Option.isNone_none])
  have hq₁ : ({ q₁ with lock := none } : QueueT) = q₁ := by rw [← hlock₁]
  rw [hq₁] at hfront
  obtain ⟨q₂, hpop, hleaves₂⟩ := queuePopCustom_ok hleaves₁.holds (fun _ : true = true => hlock₁)
  refine ⟨q₂, ?_, hleaves₂.holds, hleaves₂.lock.trans hlock₁, owns_queuePopCustom howns₁ hpop⟩
  rw [destroyItems, hempty, releaseAll]
  rcases deallocate with _ | _
  · simp [releaseFront, hpop]
  · rcases hrelease : release allocated d with e | allocated'
    · simp [releaseFront, hfront, hrelease]
    · simp [releaseFront, hfront, hrelease, hpop]

/-- The loop takes every element out of the queue, unless one of them cannot be released. -/
theorem destroyItems_eq (hq : q.Holds l) (hlock : q.lock = none) (h : q.Owns base) (deallocate : Bool)
    (allocated : ℕ → Bool) :
    (∀ e, releaseAll deallocate allocated l = .error e →
      destroyItems deallocate (l.length + 1) q allocated = .error e) ∧
    ∀ allocated', releaseAll deallocate allocated l = .ok allocated' →
      ∃ q', destroyItems deallocate (l.length + 1) q allocated = .ok (q', allocated') ∧
        q'.Holds [] ∧ q'.lock = none ∧ q'.Owns base := by
  induction l generalizing q allocated with
  | nil =>
    obtain ⟨q₁, hempty, hleaves⟩ := queueIsEmptyCustom_ok hq (fun _ : true = true => hlock)
    have hnothing : releaseAll deallocate allocated [] = .ok allocated := by
      rcases deallocate with _ | _
      · rfl
      · rfl
    rw [hnothing]
    constructor
    · intro e he
      cases he
    intro allocated' heq
    cases heq
    refine ⟨q₁, ?_, hleaves.holds, hleaves.lock.trans hlock, owns_queueIsEmptyCustom h hempty⟩
    rw [destroyItems, hempty]
    rfl
  | cons d l ih =>
    obtain ⟨q₁, hround, hq₁, hlock₁, howns₁⟩ :=
      destroyItems_cons hq hlock h deallocate allocated (l.length + 1)
    have hcons : releaseAll deallocate allocated (d :: l) =
        releaseAll deallocate allocated [d] >>= fun allocated => releaseAll deallocate allocated l := by
      rcases deallocate with _ | _
      · rfl
      · simp [releaseAll]
    rw [List.length_cons, hround, hcons]
    rcases hrelease : releaseAll deallocate allocated [d] with e | allocated₁
    · constructor
      · intro e' he'
        cases he'
        rfl
      · intro allocated' heq
        cases heq
    · exact ih hq₁ hlock₁ howns₁ allocated₁

/-- A queue is used from `queue_constructor` on by whatever operations but `queue_selective_remove`, and
destroyed. The destructor returns exactly if it does not release the elements, or releases each of them
once. It leaves the cells that were there before the queue, and all blocks but those it releases. -/
theorem queueDestructor_calls (calls : List (Call σ δ)) (heap : Heap ℕ) (hcalls : ∀ c ∈ calls, c.OneCell)
    (hfresh : Along afterCall (fun q c => c.Fresh q) (queueConstructor heap) calls) (deallocate : Bool)
    (allocated : ℕ → Bool) :
    ∃ q, calls.foldlM afterCall (queueConstructor heap) = .ok q ∧
      ((∃ left, q.queueDestructor deallocate allocated = .ok left) ↔
        (deallocate = true → Releasable allocated (contents calls []))) ∧
      ∀ left, q.queueDestructor deallocate allocated = .ok left →
        left.1.live = heap.live ∧
          left.2 = if deallocate then releasedFrom allocated (contents calls []) else allocated := by
  obtain ⟨q, hrun, hq, hlock, howns⟩ :=
    foldlM_afterCall (holds_queueConstructor heap) rfl (owns_queueConstructor heap) hcalls hfresh
  refine ⟨q, hrun, ?_⟩
  obtain ⟨herror, hok⟩ := destroyItems_eq hq hlock howns deallocate allocated
  rw [← hq.size_eq] at herror hok
  have hdone {allocated' : ℕ → Bool} (h : releaseAll deallocate allocated (contents calls []) = .ok allocated') :
      ∃ heap', q.queueDestructor deallocate allocated = .ok (heap', allocated') ∧ heap'.live = heap.live := by
    obtain ⟨q', hitems, hq', hlock', howns'⟩ := hok allocated' h
    refine ⟨q'.heap, ?_, howns'.live_eq hq'⟩
    rw [queueDestructor, hitems, Except.ok_bind]
    simp only [ensure_of hlock', Except.ok_bind, Except.pure_eq_ok]
  rcases deallocate with _ | _
  · obtain ⟨heap', hdestroyed, hlive⟩ := hdone rfl
    refine ⟨iff_of_true ⟨_, hdestroyed⟩ (fun h => Bool.noConfusion h), fun left hleft => ?_⟩
    cases hdestroyed.symm.trans hleft
    exact ⟨hlive, rfl⟩
  · obtain ⟨hreleased, hfailed⟩ := foldlM_release allocated (contents calls [])
    by_cases hreleasable : Releasable allocated (contents calls [])
    · obtain ⟨heap', hdestroyed, hlive⟩ := hdone (hreleased hreleasable)
      refine ⟨iff_of_true ⟨_, hdestroyed⟩ (fun _ => hreleasable), fun left hleft => ?_⟩
      cases hdestroyed.symm.trans hleft
      exact ⟨hlive, rfl⟩
    · have hnot (left : Heap ℕ × (ℕ → Bool)) : q.queueDestructor true allocated ≠ .ok left := by
        rw [queueDestructor, herror _ (hfailed hreleasable), Except.error_bind]
        intro h
        cases h
      refine ⟨iff_of_false ?_ (fun h => hreleasable (h rfl)), fun left hleft => absurd hleft (hnot left)⟩
      intro hleft
      obtain ⟨left, hleft⟩ := hleft
      exact hnot left hleft

/-- The blocks 5 and 7 are put into a queue, the first one is taken out, and the other one is released
with the queue. -/
theorem queueDestructor_calls_twoItems :
    ∃ q, ([.push (some 1) 5, .push (some 2) 7, .frontAndPop] : List (Call Unit Unit)).foldlM afterCall
        (queueConstructor emptyHeap) = .ok q ∧
      ∃ left, q.queueDestructor true (fun d => d == 5 || d == 7) = .ok left ∧
        left.1.live = emptyHeap.live ∧ left.2 5 = true ∧ left.2 7 = false := by
  obtain ⟨q, hrun, hiff, hleft⟩ := queueDestructor_calls
    ([.push (some 1) 5, .push (some 2) 7, .frontAndPop] : List (Call Unit Unit)) emptyHeap
    (by simp [Call.OneCell])
    (.cons ⟨rfl, by decide⟩ rfl (.cons ⟨rfl, by decide⟩ rfl (.cons trivial rfl trivial))) true
    (fun d => d == 5 || d == 7)
  obtain ⟨left, hreturns⟩ := hiff.mpr fun _ => ⟨by decide, by decide⟩
  obtain ⟨hlive, hblocks⟩ := hleft left hreturns
  refine ⟨q, hrun, left, hreturns, hlive, ?_, ?_⟩
  · rw [hblocks]
    rfl
  · rw [hblocks]
    rfl

end PoQ.QueueT
