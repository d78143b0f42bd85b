import PoQ.Queue.Cells

/-!
# What the operations do to the contents of a queue

A queue holds a list if its cells from the head to the tail do. Every operation but
`queue_selective_remove` is shown to do to the cells what it is to do to the list.
-/

namespace PoQ

open LinkedHeap

/-- The addresses of items: `malloc` aligns them to their size, 16. -/
def addresses : ℕ := 2 ^ 60

theorem accessed_some {β : Type} (b : β) : accessed (some b) = .ok b := rfl

theorem accessed_eq_ok {β : Type} {x : Option β} {b : β} : accessed x = .ok b ↔ x = some b := by
  cases x <;> simp [accessed]

namespace QueueT

variable {β σ δ : Type} {q : QueueT} {l l' : List ℕ} {lock : Bool} {r : β}

/-- The contents of the queue, which is well formed. -/
def Holds (q : QueueT) (l : List ℕ) : Prop :=
  ∃ cells, IsQueue q.heap.live q.head q.tail cells ∧ cells.map Prod.snd = l ∧ q.size = cells.length ∧
    ∀ x ∈ cells.map Prod.fst, x < addresses

/-- What an operation that returns leaves behind, unless it changes the lock. -/
structure Leaves (q : QueueT) (l : List ℕ) (q' : QueueT) : Prop where
  holds : q'.Holds l
  lock : q'.lock = q.lock
  keeps : q'.heap.keeps = q.heap.keeps

theorem holds_queueConstructor (heap : Heap ℕ) : (queueConstructor heap).Holds [] :=
  ⟨[], .empty _, rfl, rfl, List.forall_mem_nil _⟩

namespace Holds

theorem size_eq (h : q.Holds l) : q.size = l.length := by
  obtain ⟨cells, -, rfl, hsize, -⟩ := h
  rw [hsize, List.length_map]

theorem head_eq_none_iff (h : q.Holds l) : q.head = none ↔ l = [] := by
  obtain ⟨cells, hq, rfl, -, -⟩ := h
  rw [hq.head_eq_none_iff, List.map_eq_nil_iff]

theorem tail_eq_none_iff (h : q.Holds l) : q.tail = none ↔ l = [] := by
  obtain ⟨cells, hq, rfl, -, -⟩ := h
  rw [hq.tail_eq_none_iff, List.map_eq_nil_iff]

/-- The cells are at different addresses. -/
theorem length_le (h : q.Holds l) : l.length ≤ addresses := by
  obtain ⟨cells, hq, rfl, -, hbound⟩ := h
  have hsub : cells.map Prod.fst ⊆ List.range addresses := fun x hx => List.mem_range.mpr (hbound x hx)
  have hle := (hq.nodup.subperm hsub).length_le
  rw [List.length_map, List.length_range] at hle
  rwa [List.length_map]

end Holds

/-! ## The lock -/

/-- An operation with both its locking and unlocking behind `if (lock)` leaves the lock as it was. What
it does in between is done with the lock held in some way. -/
theorem withLock_held (mode : LockMode) (body : QueueT → Except QueueAbort (β × QueueT))
    (hlock : lock = true → q.lock = none) :
    ∃ held, ∀ r q', body { q with lock := held } = .ok (r, q') → Leaves { q with lock := held } l' q' →
      ∃ q'', withLock lock mode body q = .ok (r, q'') ∧ q.Leaves l' q'' := by
  rcases lock with _ | _
  · refine ⟨q.lock, fun r q' hrun hleaves => ⟨q', ?_, hleaves⟩⟩
    simp [withLock, lockIf, unlockIf, hrun]
  · have hnone := hlock rfl
    refine ⟨some mode, fun r q' hrun hleaves => ?_⟩
    refine ⟨{ q' with lock := none }, ?_, hleaves.holds, hnone.symm, hleaves.keeps⟩
    have hheld : q'.lock ≠ none := by simp [hleaves.lock]
    simp [withLock, lockIf, unlockIf, unlock, ensure_of, hnone, hrun, hheld]

theorem withLock_ok {mode : LockMode} {body : QueueT → Except QueueAbort (β × QueueT)}
    (hbody : ∀ held, ∃ q', body { q with lock := held } = .ok (r, q') ∧
      Leaves { q with lock := held } l' q')
    (hlock : lock = true → q.lock = none) :
    ∃ q', withLock lock mode body q = .ok (r, q') ∧ q.Leaves l' q' := by
  obtain ⟨held, hheld⟩ := withLock_held mode body hlock
  obtain ⟨q', hrun, hleaves⟩ := hbody held
  exact hheld r q' hrun hleaves

/-- So it is for an operation that only reads. -/
theorem withLock_reads {mode : LockMode} {body : QueueT → Except QueueAbort (β × QueueT)}
    (hbody : ∀ held, body { q with lock := held } = .ok (r, { q with lock := held })) (h : q.Holds l)
    (hlock : lock = true → q.lock = none) :
    ∃ q', withLock lock mode body q = .ok (r, q') ∧ q.Leaves l q' := by
  apply withLock_ok _ hlock
  intro held
  exact ⟨{ q with lock := held }, hbody held, h, rfl, rfl⟩

/-- An operation returns only if it does between its locking and unlocking. -/
theorem of_withLock_ok {mode : LockMode} {body : QueueT → Except QueueAbort (β × QueueT)} {q' : QueueT}
    (h : withLock lock mode body q = .ok (r, q')) :
    ∃ held q₁, body { q with lock := held } = .ok (r, q₁) ∧ q'.heap = q₁.heap := by
  obtain ⟨q₀, hlock, h⟩ := Except.bind_eq_ok.mp h
  obtain ⟨⟨r₁, q₁⟩, hbody, h⟩ := Except.bind_eq_ok.mp h
  obtain ⟨q₂, hunlock, h⟩ := Except.bind_eq_ok.mp h
  cases h
  rcases lock with _ | _
  · cases hlock
    cases hunlock
    exact ⟨q.lock, q', hbody, rfl⟩
  · obtain ⟨-, -, hlock⟩ := Except.bind_eq_ok.mp hlock
    obtain ⟨-, -, hunlock⟩ := Except.bind_eq_ok.mp hunlock
    cases hlock
    cases hunlock
    exact ⟨some mode, q₁, hbody, rfl⟩

/-! ## The operations -/

/-- The first cell of a queue that is not empty, and the queue without it. -/
theorem Holds.of_cons {d : ℕ} (h : q.Holds (d :: l)) :
    ∃ a next, q.head = some a ∧ q.heap.live a = some ⟨d, next⟩ ∧ (q.tail = some a ↔ l = []) ∧
      ∀ q' : QueueT, q'.heap.live = Function.update q.heap.live a none → q'.head = next →
        q'.tail = (if l = [] then none else q.tail) → q'.size = l.length → q'.Holds l := by
  obtain ⟨cells, hq, hmap, hsize, hbound⟩ := h
  obtain ⟨⟨a, v⟩, cells, rfl, rfl, rfl⟩ := List.map_eq_cons_iff.mp hmap
  obtain ⟨hhead, next, ha, hrest⟩ := hq.of_cons
  have hnil : cells = [] ↔ cells.map Prod.snd = [] := List.map_eq_nil_iff.symm
  refine ⟨a, next, hhead, ha, hq.tail_eq_head_iff.trans hnil, ?_⟩
  intro q' hlive hhead' htail' hsize'
  refine ⟨cells, ?_, rfl, hsize'.trans (List.length_map _), (List.forall_mem_cons.mp hbound).2⟩
  rw [hlive, hhead', htail']
  simpa only [hnil] using hrest

/-- The list that the queue holds behind `popHead`, and what `popHead` returns. -/
theorem popHead_ok (h : q.Holds l) : ∃ q', q.popHead = .ok (l.headD 0, q') ∧ q.Leaves (queuePop l) q' := by
  rcases l with _ | ⟨d, l⟩
  · have hhead := h.head_eq_none_iff.mpr rfl
    have htail := h.tail_eq_none_iff.mpr rfl
    refine ⟨q, ?_, h, rfl, rfl⟩
    simp [popHead, hhead, htail, ensure_of]
  · have hlength := h.length_le
    have hsize := h.size_eq
    obtain ⟨a, next, hhead, ha, htail, hrest⟩ := h.of_cons
    let q' : QueueT :=
      { q with
        head := next
        tail := if q.tail = some a then none else q.tail
        heap := { q.heap with
          live := Function.update q.heap.live a none
          freed := Function.update q.heap.freed a (some ⟨d, next⟩) }
        size := (q.size + (2 ^ 64 - 1)) % 2 ^ 64 }
    have hsize' : (q.size + (2 ^ 64 - 1)) % 2 ^ 64 = l.length := by
      rw [List.length_cons] at hlength hsize
      have hbound : addresses = 2 ^ 60 := rfl
      omega
    have hq' : q'.Holds l := by
      apply hrest q' rfl rfl ?_ hsize'
      simp only [q', htail]
    have hnext : q.tail = some a → next = none := fun h => hq'.head_eq_none_iff.mpr (htail.mp h)
    refine ⟨q', ?_, hq', rfl, rfl⟩
    simp [popHead, hhead, Heap.read_of_live ha, Heap.free_of_live ha, accessed_some, ensure_of hnext, q']

/-- Behind a value that is read the lock is free, whoever held it. -/
theorem queueEndCustom_some {pointer : QueueT → Option ℕ} {a : ℕ} {c : Cell ℕ}
    (hpointer : ∀ held, pointer { q with lock := held } = some a) (ha : q.heap.live a = some c)
    (hlock : lock = q.lock.isNone) :
    queueEndCustom pointer lock q = .ok (c.value, { q with lock := none }) := by
  obtain ⟨size, head, tail, heap, held⟩ := q
  have hread : heap.read a = some c := Heap.read_of_live ha
  subst hlock
  rcases held with _ | held
  · simp [queueEndCustom, lockIf, unlock, ensure_of, hpointer, hread, accessed_some]
  · simp [queueEndCustom, lockIf, unlock, ensure_of, hpointer, hread, accessed_some]

theorem queueEndCustom_none {pointer : QueueT → Option ℕ}
    (hpointer : ∀ held, pointer { q with lock := held } = none)
    (hlock : lock = q.lock.isNone) : queueEndCustom pointer lock q = .ok (0, q) := by
  obtain ⟨size, head, tail, heap, held⟩ := q
  subst hlock
  rcases held with _ | held
  · simp [queueEndCustom, lockIf, unlockIf, unlock, ensure_of, hpointer]
  · simp [queueEndCustom, lockIf, unlockIf, hpointer]

theorem queueFrontCustom_ok (h : q.Holds l) (hlock : lock = q.lock.isNone) :
    queueFrontCustom lock q = .ok (l.headD 0, if l = [] then q else { q with lock := none }) := by
  rcases l with _ | ⟨d, l⟩
  · have hhead := h.head_eq_none_iff.mpr rfl
    exact queueEndCustom_none (fun _ => hhead) hlock
  · obtain ⟨a, next, hhead, ha, -⟩ := h.of_cons
    exact queueEndCustom_some (fun _ => hhead) ha hlock

/-- The last cell of a queue that is not empty. -/
theorem Holds.of_concat {d : ℕ} (h : q.Holds (l ++ [d])) :
    ∃ a, q.tail = some a ∧ q.heap.live a = some ⟨d, none⟩ := by
  obtain ⟨cells, hq, hmap, -, -⟩ := h
  have hne : cells ≠ [] := by
    intro hnil
    simp [hnil] at hmap
  obtain ⟨init, z, w, rfl, htail, -, hz⟩ := hq.last_of_ne_nil hne
  rw [List.map_append, List.map_singleton] at hmap
  obtain ⟨-, hw⟩ := List.append_inj' hmap rfl
  cases hw
  exact ⟨z, htail, hz⟩

theorem queueBackCustom_ok (h : q.Holds l) (hlock : lock = q.lock.isNone) :
    queueBackCustom lock q = .ok (l.getLastD 0, if l = [] then q else { q with lock := none }) := by
  rcases List.eq_nil_or_concat' l with rfl | ⟨l, d, rfl⟩
  · have htail := h.tail_eq_none_iff.mpr rfl
    exact queueEndCustom_none (fun _ => htail) hlock
  · obtain ⟨a, htail, ha⟩ := h.of_concat
    rw [if_neg (List.concat_ne_nil d l), List.getLastD_concat]
    exact queueEndCustom_some (fun _ => htail) ha hlock

theorem queueIsEmptyCustom_ok (h : q.Holds l) (hlock : lock = true → q.lock = none) :
    ∃ q', queueIsEmptyCustom lock q = .ok (l.isEmpty, q') ∧ q.Leaves l q' := by
  have hassert : q.head ≠ none ∨ q.head = q.tail := by
    rcases l with _ | ⟨d, l⟩
    · exact .inr ((h.head_eq_none_iff.mpr rfl).trans (h.tail_eq_none_iff.mpr rfl).symm)
    · exact .inl fun hnone => List.cons_ne_nil d l (h.head_eq_none_iff.mp hnone)
  have hempty : q.head.isNone = l.isEmpty := by
    rw [Bool.eq_iff_iff, Option.isNone_iff_eq_none, h.head_eq_none_iff, List.isEmpty_iff]
  apply withLock_reads _ h hlock
  intro held
  simp only [ensure_of hassert, Except.ok_bind, Except.pure_eq_ok, hempty]

theorem queueFrontAndPopCustom_ok (h : q.Holds l) (hlock : lock = true → q.lock = none) :
    ∃ q', queueFrontAndPopCustom lock q = .ok (l.headD 0, q') ∧ q.Leaves (queuePop l) q' :=
  withLock_ok (fun _ => popHead_ok h) hlock

theorem queuePopCustom_ok (h : q.Holds l) (hlock : lock = true → q.lock = none) :
    ∃ q', queuePopCustom lock q = .ok ((), q') ∧ q.Leaves (queuePop l) q' := by
  apply withLock_ok _ hlock
  intro held
  have hheld : ({ q with lock := held } : QueueT).Holds l := h
  obtain ⟨q', hrun, hleaves⟩ := popHead_ok hheld
  refine ⟨q', ?_, hleaves⟩
  simp only [hrun, Except.ok_bind, Except.pure_eq_ok]

/-- The address that `malloc` returns is one of an item, and there is no item at it. -/
def Fresh (q : QueueT) (a : ℕ) : Prop := q.heap.live a = none ∧ a < addresses

theorem pushItem_ok {a : ℕ} (h : q.Holds l) (ha : q.Fresh a) (d : ℕ) :
    ∃ q', q.pushItem (some a) d = .ok q' ∧ q.Leaves (queuePush l d) q' := by
  have hlength := h.length_le
  obtain ⟨hlive, haddress⟩ := ha
  obtain ⟨cells, hq, rfl, hsize, hbound⟩ := h
  have hmem : a ∉ cells.map Prod.fst := by
    intro hmem
    obtain ⟨x, hx, rfl⟩ := List.mem_map.mp hmem
    obtain ⟨next, hcell⟩ := hq.chain.live x hx
    simp [hlive] at hcell
  have hsize' : (q.size + 1) % 2 ^ 64 = (cells ++ [(a, d)]).length := by
    rw [List.length_map] at hlength
    have haddresses : addresses = 2 ^ 60 := rfl
    rw [List.length_append, List.length_singleton]
    omega
  have hmap : (cells ++ [(a, d)]).map Prod.snd = queuePush (cells.map Prod.snd) d := List.map_append
  have hbound' : ∀ x ∈ (cells ++ [(a, d)]).map Prod.fst, x < addresses := by
    intro x hx
    rw [List.map_append, List.map_singleton, List.mem_append, List.mem_singleton] at hx
    rcases hx with hx | rfl
    · exact hbound x hx
    · exact haddress
  rcases htail : q.tail with _ | t
  · obtain rfl := hq.tail_eq_none_iff.mp htail
    have hhead := hq.head_eq_none_iff.mpr rfl
    let q' : QueueT :=
      { q with
        heap := q.heap.alloc a ⟨d, none⟩
        size := (q.size + 1) % 2 ^ 64
        head := some a
        tail := some a }
    refine ⟨q', ?_, ⟨[(a, d)], .singleton _ a d, hmap, hsize', hbound'⟩, rfl, rfl⟩
    simp [pushItem, htail, hhead, ensure_of, q']
  · rw [htail] at hq
    obtain ⟨w, ht, hpushed⟩ := hq.push hmem d
    have hta : t ≠ a := by
      intro hta
      simp [← hta, ht] at hlive
    have hlive' : (q.heap.alloc a ⟨d, none⟩).live t = some ⟨w, none⟩ :=
      (Function.update_of_ne hta _ _).trans ht
    let q' : QueueT :=
      { q with
        heap := { q.heap.alloc a ⟨d, none⟩ with
          live := Function.update (q.heap.alloc a ⟨d, none⟩).live t (some ⟨w, some a⟩) }
        size := (q.size + 1) % 2 ^ 64
        tail := some a }
    refine ⟨q', ?_, ⟨cells ++ [(a, d)], hpushed, hmap, hsize', hbound'⟩, rfl, rfl⟩
    simp [pushItem, htail, Heap.setNext_of_live hlive', accessed_some, q']

/-- No other cell comes into the heap with a new item. -/
theorem pushItem_live {a d x : ℕ} {q' : QueueT} (h : q.pushItem (some a) d = .ok q') (hx : x ≠ a)
    (hlive : q.heap.live x = none) : q'.heap.live x = none := by
  rw [pushItem] at h
  rcases htail : q.tail with _ | t
  · rw [htail] at h
    obtain ⟨-, -, h⟩ := Except.bind_eq_ok.mp h
    cases h
    exact (Function.update_of_ne hx _ _).trans hlive
  · rw [htail] at h
    obtain ⟨heap, hheap, h⟩ := Except.bind_eq_ok.mp h
    cases h
    exact Heap.live_setNext_eq_none (accessed_eq_ok.mp hheap) ((Function.update_of_ne hx _ _).trans hlive)

/-- `queue_push_custom` on a list. -/
def pushed (malloc : Option ℕ) (d : ℕ) (l : List ℕ) : List ℕ := if malloc = none then l else queuePush l d

theorem queuePushCustom_ok {malloc : Option ℕ} (h : q.Holds l)
    (hfresh : ∀ a, malloc = some a → q.Fresh a) (d : ℕ) (hlock : lock = true → q.lock = none) :
    ∃ q', queuePushCustom malloc d lock q = .ok ((), q') ∧ q.Leaves (pushed malloc d l) q' := by
  apply withLock_ok _ hlock
  intro held
  have hheld : ({ q with lock := held } : QueueT).Holds l := h
  rcases malloc with _ | a
  · exact ⟨{ q with lock := held }, rfl, hheld, rfl, rfl⟩
  · obtain ⟨q', hrun, hleaves⟩ := pushItem_ok hheld (hfresh a rfl) d
    refine ⟨q', ?_, hleaves⟩
    simp only [hrun, Except.ok_bind, Except.pure_eq_ok]

/-- The fuel of the loop is enough. -/
theorem printItems_ok {heap : Heap ℕ} {p : Option ℕ} {cells : List (ℕ × ℕ)}
    (h : Segment heap.live p cells none)
    (printFunc : ℕ → δ → δ) (dest : δ) :
    printItems printFunc heap cells.length p dest =
      .ok ((cells.map Prod.snd).foldl (fun dest d => printFunc d dest) dest) := by
  generalize hend : (none : Option ℕ) = z at h
  induction h generalizing dest with
  | nil p =>
    subst hend
    rfl
  | cons ha _ ih =>
    rw [List.length_cons, printItems, Heap.read_of_live ha, accessed_some, Except.ok_bind]
    exact ih _ hend

theorem queuePrintFuncDumpCustom_ok (h : q.Holds l) (printFunc : ℕ → δ → δ) (dest : δ)
    (hlock : lock = true → q.lock = none) :
    ∃ q', queuePrintFuncDumpCustom printFunc dest lock q =
        .ok (l.foldl (fun dest d => printFunc d dest) dest, q') ∧ q.Leaves l q' := by
  apply withLock_reads _ h hlock
  intro held
  obtain ⟨cells, hq, rfl, hsize, -⟩ := h
  simp only [hsize, printItems_ok hq.chain, Except.ok_bind, Except.pure_eq_ok]

theorem queueSizeCustom_ok (h : q.Holds l) (hlock : lock = true → q.lock = none) :
    ∃ q', queueSizeCustom lock q = .ok (toSizeT (toInt l.length), q') ∧ q.Leaves l q' := by
  apply withLock_reads _ h hlock
  intro held
  rw [h.size_eq]

/-- Through an `int` the size of a queue comes as it is exactly if it is one. -/
theorem toSizeT_toInt_eq_iff {n : ℕ} (h : n ≤ addresses) : toSizeT (toInt n) = n ↔ n < intSize := by
  refine ⟨fun heq => ?_, toSizeT_toInt⟩
  unfold addresses at h
  unfold toSizeT toInt at heq
  unfold intSize
  rw [Int.bmod_def] at heq
  split at heq <;> omega

end QueueT

end PoQ
