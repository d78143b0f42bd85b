import PoQ.Queue.Contents

/-!
# Selective removal on the cells

`queue_selective_remove` reads the address of the next item behind the `free` of an item that is deleted.
In a memory that keeps what was in a cell it does to the cells what `queueSelectiveRemove` does to the
list. In a memory where a freed cell cannot be read, and with a slot of `to_preserve` that is not there
if the queue is empty, it returns only if there is something in the queue and nothing is deleted.
-/

namespace PoQ.QueueT

open LinkedHeap

variable {σ : Type} {shouldDelete : Bool → ℕ → σ → Except Abort (Bool × σ)} {size : ℕ}
  {deallocate lock : Bool} {q : QueueT} {l kept : List ℕ} {deletions : ℕ} {s s' : σ}

/-! ## The first loop -/

section

variable {r : Removal σ} {a v : ℕ} {next : Option ℕ}

/-- The variables behind an iteration that deletes the item. -/
def Removal.deleted (deallocate : Bool) (a : ℕ) (c : Cell ℕ) (s : σ) (r : Removal σ) : Removal σ :=
  { heap := { r.heap with
      live := Function.update r.heap.live a none
      freed := Function.update r.heap.freed a (some c) }
    firstExecution := false
    deletions := r.deletions + 1
    toDelete := if deallocate then r.toDelete ++ [c.value] else r.toDelete
    toPreserve := r.toPreserve
    state := s }

/-- The variables behind an iteration that preserves the item. -/
def Removal.preserved (a : ℕ) (s : σ) (r : Removal σ) : Removal σ :=
  { r with firstExecution := false, toPreserve := r.toPreserve ++ [a], state := s }

theorem removeItems_delete (ha : r.heap.live a = some ⟨v, next⟩)
    (hdelete : shouldDelete r.firstExecution v r.state = .ok (true, s)) (hsize : r.deletions < size)
    (deallocate : Bool) (fuel : ℕ) :
    ∃ e, removeItems shouldDelete size deallocate (fuel + 1) (some a) r =
      if r.heap.keeps = true ∧ r.deletions + 1 < intSize then
        removeItems shouldDelete size deallocate fuel next (r.deleted deallocate a ⟨v, next⟩ s)
      else .error e := by
  have hroom : deallocate → r.deletions < size := fun _ => hsize
  have hread := Heap.read_freed ha (Heap.free_of_live ha)
  rw [removeItems, Heap.read_of_live ha, accessed_some, Except.ok_bind, hdelete]
  simp only [Except.mapError, Except.ok_bind, if_true, Removal.delete, ensure_of hroom,
    Heap.free_of_live ha, accessed_some]
  rcases Nat.lt_or_ge (r.deletions + 1) intSize with hlt | hge
  · -- the item is read again behind `free`
    simp only [ensure_of hlt, Except.ok_bind, Except.pure_eq_ok, hread]
    rcases hkeeps : r.heap.keeps with _ | _
    · exact ⟨.removedCell, rfl⟩
    · refine ⟨.removedCell, ?_⟩
      simp [hlt, accessed_some, Removal.deleted, hkeeps]
  · refine ⟨.intOverflow, ?_⟩
    simp [ensure, Nat.not_lt.mpr hge]

theorem removeItems_preserve (ha : r.heap.live a = some ⟨v, next⟩)
    (hdelete : shouldDelete r.firstExecution v r.state = .ok (false, s))
    (hsize : r.toPreserve.length < size) (deallocate : Bool) (fuel : ℕ) :
    ∃ e, removeItems shouldDelete size deallocate (fuel + 1) (some a) r =
      if r.toPreserve.length + 1 < intSize then
        removeItems shouldDelete size deallocate fuel next (r.preserved a s)
      else .error e := by
  have hread := Heap.read_of_live ha
  refine ⟨.intOverflow, ?_⟩
  rw [removeItems, hread, accessed_some, Except.ok_bind, hdelete]
  simp only [Except.mapError, Except.ok_bind, Bool.false_eq_true, if_false, Removal.preserve,
    ensure_of hsize]
  split
  · next hlt => simp [ensure_of hlt, hread, accessed_some, Removal.preserved]
  · next hlt => simp [ensure, hlt]

end

/-- Whether the first loop comes to its end, where it deletes and preserves so many items. -/
def Removal.Fits (r : Removal σ) (deletions preserve : ℕ) : Prop :=
  (r.heap.keeps = true ∨ deletions = 0) ∧ r.deletions + deletions < intSize ∧
    r.toPreserve.length + preserve < intSize

theorem Removal.fits_deleted_iff {r : Removal σ} {preserve : ℕ} (deallocate : Bool) (a : ℕ) (c : Cell ℕ)
    (s : σ) :
    r.Fits (deletions + 1) preserve ↔
      (r.heap.keeps = true ∧ r.deletions + 1 < intSize) ∧
        (r.deleted deallocate a c s).Fits deletions preserve := by
  unfold Fits Removal.deleted
  simp only [Nat.add_eq_zero_iff, one_ne_zero, and_false, or_false]
  constructor
  · intro hfits
    obtain ⟨hkeeps, hdeletions, hpreserve⟩ := hfits
    exact ⟨⟨hkeeps, by omega⟩, .inl hkeeps, by omega, hpreserve⟩
  · intro hfits
    obtain ⟨⟨hkeeps, -⟩, -, hdeletions, hpreserve⟩ := hfits
    exact ⟨hkeeps, by omega, hpreserve⟩

theorem Removal.fits_preserved_iff {r : Removal σ} {preserve : ℕ} (a : ℕ) (s : σ) :
    r.Fits deletions (preserve + 1) ↔
      r.toPreserve.length + 1 < intSize ∧ (r.preserved a s).Fits deletions preserve := by
  unfold Fits Removal.preserved
  simp only [List.length_append, List.length_singleton]
  constructor
  · intro hfits
    obtain ⟨hkeeps, hdeletions, hpreserve⟩ := hfits
    exact ⟨by omega, hkeeps, hdeletions, by omega⟩
  · intro hfits
    obtain ⟨-, hkeeps, hdeletions, hpreserve⟩ := hfits
    exact ⟨hkeeps, hdeletions, by omega⟩

/-- The variables behind the first loop. -/
structure Removal.Reaches (r : Removal σ) (deallocate : Bool) (cells keptCells : List (ℕ × ℕ))
    (deletions : ℕ) (s : σ) (r' : Removal σ) : Prop where
  deletions : r'.deletions = r.deletions + deletions
  toPreserve : r'.toPreserve = r.toPreserve ++ keptCells.map Prod.fst
  toDelete : deallocate = true →
    (r'.toDelete ++ keptCells.map Prod.snd).Perm (r.toDelete ++ cells.map Prod.snd)
  state : r'.state = s
  keeps : r'.heap.keeps = r.heap.keeps
  /-- The other cells are as they were. -/
  frame : ∀ x ∉ cells.map Prod.fst, r'.heap.live x = r.heap.live x
  live : ∀ x ∈ keptCells, ∃ next, r'.heap.live x.1 = some ⟨x.2, next⟩

section

variable {r r' : Removal σ} {a v : ℕ} {next : Option ℕ} {cells keptCells : List (ℕ × ℕ)} {s₁ : σ}

theorem Removal.Reaches.of_deleted
    (h : (r.deleted deallocate a ⟨v, next⟩ s₁).Reaches deallocate cells keptCells deletions s r') :
    r.Reaches deallocate ((a, v) :: cells) keptCells (deletions + 1) s r' where
  deletions := by
    rw [h.deletions]
    exact Nat.add_right_comm r.deletions 1 deletions
  toPreserve := h.toPreserve
  toDelete := by
    intro hdeallocate
    have hperm := h.toDelete hdeallocate
    simpa [Removal.deleted, hdeallocate] using hperm
  state := h.state
  keeps := h.keeps
  frame := by
    intro x hx
    rw [List.map_cons, List.mem_cons, not_or] at hx
    exact (h.frame x hx.2).trans (Function.update_of_ne hx.1 _ _)
  live := h.live

theorem Removal.Reaches.of_preserved
    (h : (r.preserved a s₁).Reaches deallocate cells keptCells deletions s r')
    (ha : r.heap.live a = some ⟨v, next⟩) (hmem : a ∉ cells.map Prod.fst) :
    r.Reaches deallocate ((a, v) :: cells) ((a, v) :: keptCells) deletions s r' where
  deletions := h.deletions
  toPreserve := by
    rw [h.toPreserve, Removal.preserved, List.append_assoc]
    rfl
  toDelete := by
    intro hdeallocate
    exact List.perm_middle.trans (((h.toDelete hdeallocate).cons v).trans List.perm_middle.symm)
  state := h.state
  keeps := h.keeps
  frame := by
    intro x hx
    rw [List.map_cons, List.mem_cons, not_or] at hx
    exact h.frame x hx.2
  live := List.forall_mem_cons.mpr ⟨⟨next, (h.frame a hmem).trans ha⟩, h.live⟩

end

/-- One run of the loop, for the list that `queueSelectiveRemove` keeps. The fuel is enough. -/
theorem removeItems_spec {cells : List (ℕ × ℕ)} {p : Option ℕ} {r : Removal σ}
    (hcells : Segment r.heap.live p cells none)
    (hnodup : (cells.map Prod.fst).Nodup)
    (hrun : PoQ.queueSelectiveRemove shouldDelete r.firstExecution (cells.map Prod.snd) r.state =
      .ok (kept, deletions, s))
    (hsize : r.deletions + r.toPreserve.length + cells.length ≤ size) (hdeletions : r.deletions < intSize)
    (hpreserve : r.toPreserve.length < intSize) :
    (r.Fits deletions kept.length → ∃ keptCells r', keptCells.Sublist cells ∧
      keptCells.map Prod.snd = kept ∧
      removeItems shouldDelete size deallocate cells.length p r = .ok r' ∧
      r.Reaches deallocate cells keptCells deletions s r') ∧
    (¬r.Fits deletions kept.length →
      ∃ e, removeItems shouldDelete size deallocate cells.length p r = .error e) := by
  induction cells generalizing p r kept deletions with
  | nil =>
    cases hcells with
    | nil =>
      cases hrun
      constructor
      · intro _
        exact ⟨[], r, List.Sublist.slnil, rfl, rfl, rfl, by simp, fun _ => by simp, rfl, rfl,
          fun _ _ => rfl, by simp⟩
      · intro hfits
        exact absurd ⟨.inr rfl, hdeletions, hpreserve⟩ hfits
  | cons x cells ih =>
    cases hcells with
    | @cons a v next _ _ ha hrest =>
      obtain ⟨hmem, hnodup⟩ := List.nodup_cons.mp hnodup
      rw [List.map_cons, PoQ.queueSelectiveRemove] at hrun
      obtain ⟨⟨delete, s₁⟩, hdelete, hrun⟩ := Except.bind_eq_ok.mp hrun
      obtain ⟨⟨kept₁, deletions₁, s₂⟩, hrun, hreturn⟩ := Except.bind_eq_ok.mp hrun
      rw [List.length_cons] at hsize ⊢
      rcases delete with _ | _
      · -- the item is preserved
        cases hreturn
        have hroom : r.toPreserve.length < size := by omega
        obtain ⟨e, hstep⟩ := removeItems_preserve ha hdelete hroom deallocate cells.length
        have hbehind (hlt : r.toPreserve.length + 1 < intSize) :=
          ih (r := r.preserved a s₁) hrest hnodup hrun
          (by simp only [Removal.preserved, List.length_append, List.length_singleton]; omega) hdeletions
          (by simpa [Removal.preserved] using hlt)
        rw [hstep, List.length_cons, Removal.fits_preserved_iff a s₁]
        constructor
        · intro hfits
          obtain ⟨hlt, hfits⟩ := hfits
          obtain ⟨keptCells, r', hsub, hmap, hrun', hreaches⟩ := (hbehind hlt).1 hfits
          exact ⟨(a, v) :: keptCells, r', hsub.cons_cons _, congrArg _ hmap, (if_pos hlt).trans hrun',
            hreaches.of_preserved ha hmem⟩
        · intro hfits
          split
          · next hlt => exact (hbehind hlt).2 fun h => hfits ⟨hlt, h⟩
          · exact ⟨e, rfl⟩
      · cases hreturn
        have hroom : r.deletions < size := by omega
        obtain ⟨e, hstep⟩ := removeItems_delete ha hdelete hroom deallocate cells.length
        have hbehind (hlt : r.heap.keeps = true ∧ r.deletions + 1 < intSize) :=
          ih (r := r.deleted deallocate a ⟨v, next⟩ s₁) (hrest.update hmem none) hnodup hrun
            (by simp only [Removal.deleted]; omega) hlt.2 hpreserve
        rw [hstep, Removal.fits_deleted_iff deallocate a ⟨v, next⟩ s₁]
        constructor
        · intro hfits
          obtain ⟨hlt, hfits⟩ := hfits
          obtain ⟨keptCells, r', hsub, hmap, hrun', hreaches⟩ := (hbehind hlt).1 hfits
          exact ⟨keptCells, r', hsub.cons _, hmap, (if_pos hlt).trans hrun', hreaches.of_deleted⟩
        · intro hfits
          split
          · next hlt => exact (hbehind hlt).2 fun h => hfits ⟨hlt, h⟩
          · exact ⟨e, rfl⟩

/-! ## The second loop -/

/-- The items are linked in their order. The last one still points to where it did. -/
theorem relink_ok {heap : Heap ℕ} {a v : ℕ} {items : List (ℕ × ℕ)}
    (hlive : ∀ x ∈ (a, v) :: items, ∃ next, heap.live x.1 = some ⟨x.2, next⟩)
    (hnodup : (((a, v) :: items).map Prod.fst).Nodup) :
    ∃ heap' init z w next, relink heap a (items.map Prod.fst) = .ok heap' ∧
      (a, v) :: items = init ++ [(z, w)] ∧
      Segment heap'.live (some a) init (some z) ∧ heap'.live z = some ⟨w, next⟩ ∧ heap'.keeps = heap.keeps ∧
      ∀ x ∉ ((a, v) :: items).map Prod.fst, heap'.live x = heap.live x := by
  induction items generalizing heap a v with
  | nil =>
    obtain ⟨next, ha⟩ := hlive (a, v) (List.mem_singleton_self _)
    exact ⟨heap, [], a, v, next, rfl, rfl, .nil _, ha, rfl, fun _ _ => rfl⟩
  | cons b items ih =>
    obtain ⟨b, u⟩ := b
    obtain ⟨⟨next, ha⟩, hlive⟩ := List.forall_mem_cons.mp hlive
    obtain ⟨hmem, hnodup⟩ := List.nodup_cons.mp hnodup
    let heap₁ : Heap ℕ := { heap with live := Function.update heap.live a (some ⟨v, some b⟩) }
    have hframe : ∀ x, x ≠ a → heap₁.live x = heap.live x := fun x hx => Function.update_of_ne hx _ _
    have hlive₁ : ∀ x ∈ (b, u) :: items, ∃ next, heap₁.live x.1 = some ⟨x.2, next⟩ := by
      intro x hx
      rw [hframe x.1 (ne_of_mem_of_not_mem (List.mem_map_of_mem hx) hmem)]
      exact hlive x hx
    obtain ⟨heap', init, z, w, next', hrun, hitems, hinit, hz, hkeeps, hframe'⟩ := ih hlive₁ hnodup
    have ha' : heap'.live a = some ⟨v, some b⟩ := (hframe' a hmem).trans (Function.update_self _ _ _)
    refine ⟨heap', (a, v) :: init, z, w, next', ?_, ?_, .cons ha' hinit, hz, hkeeps, ?_⟩
    · rw [List.map_cons, relink, Heap.setNext_of_live ha, accessed_some, Except.ok_bind]
      exact hrun
    · rw [hitems, List.cons_append]
    · intro x hx
      rw [List.map_cons, List.mem_cons, not_or] at hx
      exact (hframe' x hx.2).trans (hframe x hx.1)

theorem slot_ok {keeps : Bool} {k : ℕ} (h : k < size ∨ keeps = true) (toPreserve : List ℕ) :
    slot size keeps toPreserve k = .ok toPreserve[k]? := by
  rw [slot, ensure_of h]
  rfl

/-- The queue behind the second loop holds the items that are preserved. -/
theorem rebuild_ok {r : Removal σ} {keptCells : List (ℕ × ℕ)}
    (htoPreserve : r.toPreserve = keptCells.map Prod.fst)
    (hlive : ∀ x ∈ keptCells, ∃ next, r.heap.live x.1 = some ⟨x.2, next⟩)
    (hnodup : (keptCells.map Prod.fst).Nodup)
    (hbound : ∀ x ∈ keptCells.map Prod.fst, x < addresses) (hkeeps : r.heap.keeps = q.heap.keeps)
    (hsize : keptCells.length + r.deletions = q.size) (hint : q.size < intSize)
    (hslot : 0 < q.size ∨ r.heap.keeps = true) :
    ∃ q', q.rebuild r = .ok q' ∧ q.Leaves (keptCells.map Prod.snd) q' := by
  obtain ⟨heap, first, deletions, toDelete, toPreserve, state⟩ := r
  obtain rfl : toPreserve = keptCells.map Prod.fst := htoPreserve
  have hlength : (keptCells.map Prod.fst).length = keptCells.length := List.length_map _
  have hint' : (keptCells.map Prod.fst).length + deletions < intSize := by rw [hlength]; exact hsize ▸ hint
  have hsize' : (keptCells.map Prod.fst).length + deletions = q.size := by rw [hlength]; exact hsize
  have htail : (keptCells.map Prod.fst).length - 1 < q.size ∨ heap.keeps = true :=
    hslot.imp_left fun _ => by omega
  have hlast := slot_ok htail (keptCells.map Prod.fst)
  rw [← List.getLast?_eq_getElem?] at hlast
  rcases keptCells with _ | ⟨⟨a, v⟩, items⟩
  · let q' : QueueT := { q with heap := heap, head := none, tail := none, size := 0 }
    refine ⟨q', ?_, ⟨[], .empty _, rfl, rfl, List.forall_mem_nil _⟩, rfl, hkeeps⟩
    simp only [rebuild, slot_ok hslot, hlast, ensure_of hint', ensure_of hsize', Except.ok_bind]
    rfl
  · obtain ⟨heap', init, z, w, next, hrun, hitems, hinit, hz, hkeeps', -⟩ := relink_ok hlive hnodup
    have hgetLast : (((a, v) :: items).map Prod.fst).getLast? = some z := by
      rw [hitems, List.map_append, List.map_singleton, List.getLast?_concat]
    have hzinit : z ∉ init.map Prod.fst := by
      rw [hitems, List.map_append, List.map_singleton] at hnodup
      exact fun hmem => List.disjoint_of_nodup_append hnodup hmem (List.mem_singleton_self z)
    let q' : QueueT :=
      { q with
        heap := { heap' with live := Function.update heap'.live z (some ⟨w, none⟩) }
        head := some a
        tail := some z
        size := (((a, v) :: items).map Prod.fst).length }
    have hqueue : IsQueue q'.heap.live q'.head q'.tail ((a, v) :: items) := by
      rw [hitems] at hnodup ⊢
      exact .of_last (hinit.update hzinit _) (Function.update_self _ _ _) hnodup
    refine ⟨q', ?_, ⟨(a, v) :: items, hqueue, rfl, hlength, hbound⟩, rfl, hkeeps'.trans hkeeps⟩
    rw [hgetLast] at hlast
    simp only [rebuild, slot_ok hslot, hlast, ensure_of hint', ensure_of hsize', Except.ok_bind]
    simp only [List.map_cons, relinkItems, hrun, endAt, Heap.setNext_of_live hz, accessed_some,
      Except.ok_bind, Except.pure_eq_ok, q']
    rfl

/-- What the second loop needs. -/
theorem of_rebuild_ok {r : Removal σ} {q' : QueueT} (h : q.rebuild r = .ok q') :
    (0 < q.size ∨ r.heap.keeps = true) ∧ r.toPreserve.length + r.deletions < intSize := by
  obtain ⟨head, hhead, h⟩ := Except.bind_eq_ok.mp h
  obtain ⟨heap, -, h⟩ := Except.bind_eq_ok.mp h
  obtain ⟨tail, -, h⟩ := Except.bind_eq_ok.mp h
  obtain ⟨heap', -, h⟩ := Except.bind_eq_ok.mp h
  obtain ⟨u, hint, -⟩ := Except.bind_eq_ok.mp h
  obtain ⟨u', hslot, -⟩ := Except.bind_eq_ok.mp hhead
  exact ⟨ensure_eq_ok.mp hslot, ensure_eq_ok.mp hint⟩

/-! ## The whole operation -/

/-- When `queue_selective_remove` does to the cells what it is to do: the counters are in their range,
and a freed cell and the slot of an empty queue are not read where the memory does not keep what was
there. -/
def RemovalFits (keeps : Bool) (l : List ℕ) (deletions : ℕ) : Prop :=
  l.length < intSize ∧ (keeps = true ∨ l ≠ [] ∧ deletions = 0)

section

variable {toDelete : Bool}

/-- What the loop does from the first item on. -/
theorem removeItems_head (h : q.Holds l)
    (hrun : PoQ.queueSelectiveRemove shouldDelete true l s = .ok (kept, deletions, s'))
    (deallocate : Bool) :
    let r : Removal σ := ⟨q.heap, true, 0, [], [], s⟩
    ∃ cells, IsQueue q.heap.live q.head q.tail cells ∧ cells.map Prod.snd = l ∧
      (∀ x ∈ cells.map Prod.fst, x < addresses) ∧
    (r.Fits deletions kept.length → ∃ keptCells r', keptCells.Sublist cells ∧
      keptCells.map Prod.snd = kept ∧
      removeItems shouldDelete q.size deallocate q.size q.head r = .ok r' ∧
      r.Reaches deallocate cells keptCells deletions s' r') ∧
    (¬r.Fits deletions kept.length →
      ∃ e, removeItems shouldDelete q.size deallocate q.size q.head r = .error e) := by
  intro r
  obtain ⟨cells, hq, rfl, hsize, hbound⟩ := h
  refine ⟨cells, hq, rfl, hbound, ?_⟩
  rw [hsize]
  have hpos : 0 < intSize := by decide
  exact removeItems_spec (r := r) hq.chain hq.nodup hrun (Nat.zero_add _).le hpos hpos

/-- In a memory that keeps what was in a cell, and in one that does not if there is something in the
queue and nothing is deleted, `queue_selective_remove` does what `queueSelectiveRemove` does to the
list. -/
theorem removeSelected_ok (h : q.Holds l)
    (hrun : PoQ.queueSelectiveRemove shouldDelete true l s = .ok (kept, deletions, s'))
    (hfits : RemovalFits q.heap.keeps l deletions) (htoDelete : deallocate = true → toDelete = true) :
    ∃ freed q', removeSelected shouldDelete deallocate toDelete true s q =
        .ok (⟨deletions, freed, s'⟩, q') ∧
      q.Leaves kept q' ∧ (deallocate = true → (freed ++ kept).Perm l) := by
  have hlength := length_queueSelectiveRemove hrun
  have hsize := h.size_eq
  obtain ⟨hint, hkeeps⟩ := hfits
  obtain ⟨cells, hq, rfl, hbound, hloop, -⟩ := removeItems_head h hrun deallocate
  obtain ⟨keptCells, r, hsub, rfl, hitems, hreaches⟩ :=
    hloop ⟨hkeeps.imp_right And.right, by simp only; omega, by simp only [List.length_nil]; omega⟩
  have hslot : 0 < q.size ∨ r.heap.keeps = true := by
    rw [hreaches.keeps, hsize]
    exact hkeeps.symm.imp_left fun hne => List.length_pos_iff.mpr hne.1
  obtain ⟨q', hrebuild, hleaves⟩ := rebuild_ok hreaches.toPreserve hreaches.live
    (hq.nodup.sublist (hsub.map Prod.fst)) (fun x hx => hbound x ((hsub.map Prod.fst).subset hx))
    hreaches.keeps (by rw [hreaches.deletions, hsize, ← hlength, List.length_map]; simp) (hsize ▸ hint) hslot
  refine ⟨r.toDelete, q', ?_, hleaves, ?_⟩
  · have hindeterminate : ¬(deallocate = true ∧ toDelete = false) := by simpa using htoDelete
    rw [removeSelected, if_neg hindeterminate, if_neg Bool.noConfusion]
    simp [hitems, hrebuild, hreaches.deletions, hreaches.state]
  · intro hdeallocate
    simpa using hreaches.toDelete hdeallocate

/-- It returns only then. -/
theorem of_removeSelected_ok {x : Removed σ × QueueT} (h : q.Holds l)
    (hrun : PoQ.queueSelectiveRemove shouldDelete true l s = .ok (kept, deletions, s'))
    (hx : removeSelected shouldDelete deallocate toDelete true s q = .ok x) :
    (deallocate = true → toDelete = true) ∧ RemovalFits q.heap.keeps l deletions := by
  have hlength := length_queueSelectiveRemove hrun
  have hsize := h.size_eq
  rw [removeSelected] at hx
  split at hx
  · cases hx
  next hindeterminate =>
  rw [if_neg Bool.noConfusion] at hx
  obtain ⟨r, hitems, hx⟩ := Except.bind_eq_ok.mp hx
  obtain ⟨q', hrebuild, -⟩ := Except.bind_eq_ok.mp hx
  obtain ⟨hslot, hint⟩ := of_rebuild_ok hrebuild
  obtain ⟨cells, hq, rfl, hbound, hloop, herror⟩ := removeItems_head h hrun deallocate
  have hfits : Removal.Fits (⟨q.heap, true, 0, [], [], s⟩ : Removal σ) deletions kept.length := by
    by_contra hfits
    obtain ⟨e, he⟩ := herror hfits
    rw [he] at hitems
    cases hitems
  obtain ⟨keptCells, r', hsub, rfl, hitems', hreaches⟩ := hloop hfits
  cases hitems.symm.trans hitems'
  refine ⟨by simpa using hindeterminate, ?_, ?_⟩
  · rw [hreaches.toPreserve, hreaches.deletions] at hint
    simp only [List.nil_append, List.length_map, Nat.zero_add] at hint hlength
    rw [List.length_map]
    omega
  · rw [hreaches.keeps, hsize, List.length_pos_iff] at hslot
    rcases hslot with hne | hkeeps
    · exact hfits.1.imp_right fun hzero => ⟨hne, hzero⟩
    · exact .inl hkeeps

theorem queueSelectiveRemove_ok (h : q.Holds l)
    (hrun : PoQ.queueSelectiveRemove shouldDelete true l s = .ok (kept, deletions, s'))
    (hfits : RemovalFits q.heap.keeps l deletions) (htoDelete : deallocate = true → toDelete = true)
    (hlock : lock = true → q.lock = none) :
    ∃ freed q', queueSelectiveRemove shouldDelete deallocate toDelete true lock s q =
        .ok (⟨deletions, freed, s'⟩, q') ∧
      q.Leaves kept q' ∧ (deallocate = true → (freed ++ kept).Perm l) := by
  obtain ⟨held, hheld⟩ :=
    withLock_held .write (removeSelected shouldDelete deallocate toDelete true s) hlock
  have hq : ({ q with lock := held } : QueueT).Holds l := h
  obtain ⟨freed, q', hrun', hleaves, hperm⟩ := removeSelected_ok hq hrun hfits htoDelete
  obtain ⟨q'', hremove, hleaves'⟩ := hheld _ q' hrun' hleaves
  exact ⟨freed, q'', hremove, hleaves', hperm⟩

theorem of_queueSelectiveRemove_ok {x : Removed σ × QueueT} (h : q.Holds l)
    (hrun : PoQ.queueSelectiveRemove shouldDelete true l s = .ok (kept, deletions, s'))
    (hx : queueSelectiveRemove shouldDelete deallocate toDelete true lock s q = .ok x) :
    (deallocate = true → toDelete = true) ∧ RemovalFits q.heap.keeps l deletions := by
  obtain ⟨held, q₁, hbody, -⟩ := of_withLock_ok hx
  have hq : ({ q with lock := held } : QueueT).Holds l := h
  have hfits := of_removeSelected_ok hq hrun hbody
  exact hfits

/-- Nothing happens if there is no memory for `to_preserve`. -/
theorem queueSelectiveRemove_failed (h : q.Holds l) (htoDelete : deallocate = true → toDelete = true)
    (hlock : lock = true → q.lock = none) :
    ∃ q', queueSelectiveRemove shouldDelete deallocate toDelete false lock s q = .ok (⟨0, [], s⟩, q') ∧
      q.Leaves l q' := by
  have hindeterminate : ¬(deallocate = true ∧ toDelete = false) := by simpa using htoDelete
  apply withLock_reads _ h hlock
  intro held
  rw [removeSelected, if_neg hindeterminate, if_pos rfl]

/-- Without memory for `to_delete` the operation does not return. -/
theorem toDelete_of_queueSelectiveRemove_ok {toPreserve : Bool} {x : Removed σ × QueueT}
    (hx : queueSelectiveRemove shouldDelete deallocate toDelete toPreserve lock s q = .ok x) :
    deallocate = true → toDelete = true := by
  obtain ⟨held, q₁, hbody, -⟩ := of_withLock_ok hx
  rw [removeSelected] at hbody
  split at hbody
  · cases hbody
  · next hindeterminate => simpa using hindeterminate

end

/-! ## The clean-up -/

/-- `queue_cleanup` on the cells, for a caller that holds the lock: the sum of the deletions and the
variables of the callbacks. There is memory for `to_preserve` both times. -/
def queueCleanup (table : List Node) (s : Repetitions) (q : QueueT) :
    Except QueueAbort ((ℕ × Repetitions) × QueueT) :=
  if table.isEmpty then .ok ((0, s), q)
  else do
    let (_, q) ← queuePopCustom false q
    let (r, q) ← queueSelectiveRemove queueDeleteContinuousNodes false true true false s q
    let (r', q) ← queueSelectiveRemove queueDeleteRepeatedNodes false true true false r.state q
    return ((r.deletions + r'.deletions, r'.state), q)

/-- In a memory that keeps what was in a cell, the clean-up does what it does to the list. -/
theorem queueCleanup_refines {table : List Node} {s s' : Repetitions} (h : q.Holds l)
    (hkeeps : q.heap.keeps = true)
    (hint : l.length < intSize) (hrun : PoQ.queueCleanup table l s = .ok (kept, deletions, s')) :
    ∃ q', q.queueCleanup table s = .ok ((deletions, s'), q') ∧ q.Leaves kept q' := by
  rw [PoQ.queueCleanup] at hrun
  rw [queueCleanup]
  split at hrun
  · next hempty =>
    cases hrun
    exact ⟨q, if_pos hempty, h, rfl, rfl⟩
  next hempty =>
  obtain ⟨⟨kept₁, deletions₁, s₁⟩, hrun₁, hrun⟩ := Except.bind_eq_ok.mp hrun
  obtain ⟨⟨kept₂, deletions₂, s₂⟩, hrun₂, hrun⟩ := Except.bind_eq_ok.mp hrun
  cases hrun
  have hlength := length_queueSelectiveRemove hrun₁
  have hpop : (queuePop l).length < intSize := by
    rw [queuePop, List.length_tail]
    omega
  have hlock (q : QueueT) : false = true → q.lock = none := fun h => Bool.noConfusion h
  have htoDelete : false = true → true = true := fun _ => rfl
  obtain ⟨q₁, hq₁, hleaves₁⟩ := queuePopCustom_ok h (hlock q)
  have hkeeps₁ := hleaves₁.keeps.trans hkeeps
  obtain ⟨freed₁, q₂, hq₂, hleaves₂, -⟩ :=
    queueSelectiveRemove_ok hleaves₁.holds hrun₁ ⟨hpop, .inl hkeeps₁⟩ htoDelete (hlock q₁)
  have hkeeps₂ := hleaves₂.keeps.trans hkeeps₁
  obtain ⟨freed₂, q₃, hq₃, hleaves₃, -⟩ :=
    queueSelectiveRemove_ok hleaves₂.holds hrun₂ ⟨by omega, .inl hkeeps₂⟩ htoDelete (hlock q₂)
  refine ⟨q₃, ?_, hleaves₃.holds, ?_, ?_⟩
  · simp only [if_neg hempty, hq₁, hq₂, hq₃, Except.ok_bind, Except.pure_eq_ok]
  · exact hleaves₃.lock.trans (hleaves₂.lock.trans hleaves₁.lock)
  · exact hleaves₃.keeps.trans (hleaves₂.keeps.trans hleaves₁.keeps)

/-! ## Filtering with a callback that keeps a state -/

section

variable {σ : Type}

/-- The elements that are not deleted, the number of those that are, and the variables of the callback. -/
def selectiveFilter (shouldDelete : Bool → ℕ → σ → Bool × σ) : Bool → List ℕ → σ → List ℕ × ℕ × σ
  | _, [], s => ([], 0, s)
  | first, d :: l, s =>
    let (delete, s) := shouldDelete first d s
    let (kept, deletions, s) := selectiveFilter shouldDelete false l s
    if delete then (kept, deletions + 1, s) else (d :: kept, deletions, s)

/-- The calls of the callback that are to be made, with their arguments: the first one of them has a flag
of its own. -/
def callsFor (first : Bool) : List ℕ → List (Bool × ℕ)
  | [] => []
  | d :: l => (first, d) :: l.map fun d => (false, d)

/-- A callback that always returns. -/
def returning (shouldDelete : Bool → ℕ → σ → Bool × σ) (first : Bool) (d : ℕ) (s : σ) :
    Except Abort (Bool × σ) :=
  .ok (shouldDelete first d s)

/-- The callback, with a list of the calls that are made. -/
def logged (shouldDelete : Bool → ℕ → σ → Bool × σ) (first : Bool) (d : ℕ) (s : σ × List (Bool × ℕ)) :
    Bool × σ × List (Bool × ℕ) :=
  let (delete, s') := shouldDelete first d s.1
  (delete, s', s.2 ++ [(first, d)])

/-- What `queue_selective_remove` is to do: it returns, having called the callback once for each element,
in order, and with its first argument set for the first one; the queue is left with the elements that are
not deleted; and the number of the others is returned. -/
def FiltersContents (shouldDelete : Bool → ℕ → σ → Bool × σ) (deallocate toDelete toPreserve lock : Bool)
    (s : σ) (q : QueueT) (l : List ℕ) : Prop :=
  let (kept, deletions, s') := selectiveFilter shouldDelete true l s
  ∃ freed q',
    queueSelectiveRemove (returning (logged shouldDelete)) deallocate toDelete toPreserve lock (s, []) q =
      .ok (⟨deletions, freed, s', callsFor true l⟩, q') ∧ q'.Holds kept

theorem queueSelectiveRemove_returning (shouldDelete : Bool → ℕ → σ → Bool × σ) (first : Bool) (l : List ℕ)
    (s : σ) :
    PoQ.queueSelectiveRemove (returning shouldDelete) first l s =
      .ok (selectiveFilter shouldDelete first l s) := by
  induction l generalizing first s with
  | nil => rfl
  | cons d l ih =>
    rw [PoQ.queueSelectiveRemove, selectiveFilter]
    simp only [returning, Except.ok_bind, ih]
    rfl

theorem callsFor_false (l : List ℕ) : callsFor false l = l.map fun d => (false, d) := by
  cases l <;> rfl

theorem selectiveFilter_logged (shouldDelete : Bool → ℕ → σ → Bool × σ) (first : Bool) (l : List ℕ) (s : σ)
    (calls : List (Bool × ℕ)) :
    selectiveFilter (logged shouldDelete) first l (s, calls) =
      ((selectiveFilter shouldDelete first l s).1, (selectiveFilter shouldDelete first l s).2.1,
        (selectiveFilter shouldDelete first l s).2.2, calls ++ callsFor first l) := by
  induction l generalizing first s calls with
  | nil => simp [selectiveFilter, callsFor]
  | cons d l ih =>
    simp only [selectiveFilter, logged, ih, callsFor_false, List.append_assoc, List.singleton_append]
    rcases (shouldDelete first d s).1 with _ | _
    · rfl
    · rfl

/-- In a memory where a freed cell cannot be read, exactly a queue that is not empty and from which
nothing is deleted, with fewer elements than an `int` can count, is left as it is to be left. Where there
is no memory for `to_preserve`, it is the empty queue. -/
theorem filtersContents_iff {q : QueueT} {l : List ℕ} (shouldDelete : Bool → ℕ → σ → Bool × σ)
    (deallocate toDelete toPreserve lock : Bool) (s : σ) (h : q.Holds l) (hkeeps : q.heap.keeps = false)
    (hlock : lock = true → q.lock = none) :
    FiltersContents shouldDelete deallocate toDelete toPreserve lock s q l ↔
      (deallocate = true → toDelete = true) ∧
        if toPreserve then
          l ≠ [] ∧ l.length < intSize ∧ (selectiveFilter shouldDelete true l s).2.1 = 0
        else l = [] := by
  have hrun := queueSelectiveRemove_returning (logged shouldDelete) true l (s, [])
  rw [selectiveFilter_logged, List.nil_append] at hrun
  unfold FiltersContents
  constructor
  · intro hfilters
    obtain ⟨freed, q', hremove, -⟩ := hfilters
    have htoDelete := toDelete_of_queueSelectiveRemove_ok hremove
    refine ⟨htoDelete, ?_⟩
    rcases toPreserve with _ | _
    · -- the callback has not been called
      obtain ⟨q'', hfailed, -⟩ := queueSelectiveRemove_failed h htoDelete hlock
      have hcalls := hremove.symm.trans hfailed
      rcases l with _ | ⟨d, l⟩
      · rfl
      · simp [callsFor] at hcalls
    · obtain ⟨-, hint, hfits⟩ := of_queueSelectiveRemove_ok h hrun hremove
      rw [hkeeps] at hfits
      obtain ⟨hne, hzero⟩ := hfits.resolve_left Bool.noConfusion
      exact ⟨hne, hint, hzero⟩
  · intro hcond
    obtain ⟨htoDelete, hcond⟩ := hcond
    rcases toPreserve with _ | _
    · obtain rfl : l = [] := hcond
      obtain ⟨q', hremove, hleaves⟩ := queueSelectiveRemove_failed h htoDelete hlock
      exact ⟨[], q', hremove, hleaves.holds⟩
    · obtain ⟨hne, hint, hzero⟩ := hcond
      obtain ⟨freed, q', hremove, hleaves, -⟩ :=
        queueSelectiveRemove_ok h hrun ⟨hint, .inr ⟨hne, hzero⟩⟩ htoDelete hlock
      exact ⟨freed, q', hremove, hleaves.holds⟩

/-- The items 5 and 7, in a memory where a freed cell cannot be read. -/
def twoItems : QueueT where
  size := 2
  head := some 1
  tail := some 2
  heap :=
    { live := Function.update (Function.update (fun _ => none) 1 (some ⟨5, some 2⟩)) 2 (some ⟨7, none⟩)
      freed := fun _ => none
      keeps := false }
  lock := none

theorem holds_twoItems : twoItems.Holds [5, 7] := by
  refine ⟨[(1, 5), (2, 7)], ⟨.cons rfl (.cons rfl (.nil none)), by decide, rfl⟩, rfl, rfl, ?_⟩
  simp [addresses]

/-- Nothing is deleted from the two items. -/
theorem filtersContents_twoItems :
    FiltersContents (fun _ _ s => (false, s)) true true true true () twoItems [5, 7] :=
  (filtersContents_iff (fun _ _ s => (false, s)) true true true true () holds_twoItems rfl fun _ => rfl).mpr
    ⟨fun _ => rfl, by decide, by decide, rfl⟩

/-- The first of the two items is deleted, and then the address of the second one is read from it. -/
theorem not_filtersContents_twoItems :
    twoItems.Holds [5, 7] ∧
      queueSelectiveRemove (returning (logged fun first _ s => (first, s))) true true true true ((), [])
        twoItems = .error .removedCell ∧
      ¬FiltersContents (fun first _ s => (first, s)) true true true true () twoItems [5, 7] := by
  have herror : queueSelectiveRemove (returning (logged fun first _ s => (first, s))) true true true true
      ((), []) twoItems = .error .removedCell := rfl
  refine ⟨holds_twoItems, herror, ?_⟩
  intro hfilters
  obtain ⟨freed, q', hremove, -⟩ := hfilters
  cases herror.symm.trans hremove

end

end PoQ.QueueT
