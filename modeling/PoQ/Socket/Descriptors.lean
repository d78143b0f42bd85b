import PoQ.Lib.Runs
import PoQ.Basic

/-!
# The descriptors of listening sockets

`socket_constructor`, `socket_accept`, `socket_select`, `socket_close` and `socket_destructor` of
`socket_t.c`: a socket that listens keeps the set of the descriptors of the connections that it has
accepted, and a queue of those that have been closed since the last `select`. The sockets of a process
and its open descriptors are followed through every order of these calls.
-/

namespace PoQ

/-- `FD_SETSIZE`. -/
def fdSetSize : ℕ := 1024

/-- What keeps an operation from returning: an access to a socket that has been freed, a descriptor that
is not one of a set, a `select` that has not returned yet, and a recursion that did not end within its
fuel. -/
inductive SocketAbort
  | removedSocket
  | outsideSet
  | waiting
  | outOfFuel
deriving DecidableEq, Repr

/-- `socket_t`, as far as its descriptors go. `is_parent` is 1 where there is no `parent`. The set and the
queue are those of a parent. -/
structure SocketT where
  socketDescriptor : ℕ
  isClosed : Bool
  parent : Option ℕ
  set : ℕ → Bool
  closeQueue : List ℕ

/-- The sockets of a process, each by the number of its allocation, and the descriptors that are open. -/
structure Process where
  sockets : ℕ → Option SocketT
  next : ℕ
  opened : ℕ → Bool

namespace Process

/-- Before the first socket. -/
def initial (opened : ℕ → Bool) : Process := ⟨fun _ => none, 0, opened⟩

/-- An access to a socket. -/
def socketAt (w : Process) (a : ℕ) : Except SocketAbort SocketT :=
  (w.sockets a).elim (.error .removedSocket) .ok

/-- A socket is written. -/
def write (w : Process) (a : ℕ) (soc : SocketT) : Process :=
  { w with sockets := Function.update w.sockets a (some soc) }

/-- A new socket. -/
def alloc (w : Process) (soc : SocketT) : Process := { w.write w.next soc with next := w.next + 1 }

/-- The system opens or closes a descriptor. -/
def setOpened (w : Process) (fd : ℕ) (b : Bool) : Process := { w with opened := Function.update w.opened fd b }

/-- `get_parent`, with fuel for as many sockets as there have been. -/
def getParentFrom (w : Process) : ℕ → ℕ → Except SocketAbort ℕ
  | 0, _ => .error .outOfFuel
  | fuel + 1, a => do
    let soc ← w.socketAt a
    match soc.parent with
    | none => return a
    | some p => getParentFrom w fuel p

def getParent (w : Process) (a : ℕ) : Except SocketAbort ℕ := w.getParentFrom (w.next + 1) a

/-- `FD_SET` on the set of a socket. -/
def fdSet (w : Process) (p fd : ℕ) : Except SocketAbort Process := do
  let soc ← w.socketAt p
  ensure (fd < fdSetSize) .outsideSet
  return w.write p { soc with set := Function.update soc.set fd true }

/-- What the system does for `socket_constructor`: there is no memory, or no descriptor (where one of the
options cannot be set the descriptor is closed again), or the address is not one, or all is there. -/
inductive Construction
  | noMemory
  | noDescriptor
  | badAddress (fd : ℕ)
  | done (fd : ℕ)
deriving DecidableEq, Repr

/-- `socket_constructor`. The descriptor is not closed where the address is not one. -/
def socketConstructor (w : Process) : Construction → Except SocketAbort (Option ℕ × Process)
  | .noMemory | .noDescriptor => .ok (none, w)
  | .badAddress fd => .ok (none, w.setOpened fd true)
  | .done fd => do
    ensure (fd < fdSetSize) .outsideSet
    let w' := (w.setOpened fd true).alloc ⟨fd, false, none, fun x => decide (x = fd), []⟩
    return (some w.next, w')

/-- `socket_accept` behind an `accept` that has returned a descriptor. It is not closed where there is no
memory. -/
def accepted (w : Process) (a fd : ℕ) (memory : Bool) : Except SocketAbort (Option ℕ × Process) :=
  if memory then do
    let w' := (w.setOpened fd true).alloc ⟨fd, false, some a, fun _ => false, []⟩
    let p ← w'.getParent a
    let w' ← w'.fdSet p fd
    return (some w.next, w')
  else .ok (none, w.setOpened fd true)

/-- `socket_accept`, for the descriptor that `accept` returns. -/
def socketAccept (w : Process) (a : ℕ) (fd : Option ℕ) (memory : Bool) :
    Except SocketAbort (Option ℕ × Process) := do
  let soc ← w.socketAt a
  if soc.isClosed then return (none, w)
  match fd with
  | none => return (none, w)
  | some fd => w.accepted a fd memory

/-- `socket_close`. Without memory there is no new item in the queue. A `close` that fails is only
reported. -/
def socketClose (w : Process) (a : ℕ) (memory : Bool) : Except SocketAbort Process := do
  let soc ← w.socketAt a
  if soc.isClosed then return w
  let w := w.setOpened soc.socketDescriptor false
  let p ← w.getParent a
  let parent ← w.socketAt p
  let fds := if memory then [soc.socketDescriptor] else []
  let w := w.write p { parent with closeQueue := parent.closeQueue ++ fds }
  -- the socket is the one that has just been written if it is a parent
  let soc ← w.socketAt a
  return w.write a { soc with isClosed := true }

/-- `socket_destructor`. -/
def socketDestructor (w : Process) (a : ℕ) (memory : Bool) : Except SocketAbort Process := do
  let soc ← w.socketAt a
  let w ← if soc.isClosed then .ok w else w.socketClose a memory
  return { w with sockets := Function.update w.sockets a none }

end Process

/-- `FD_CLR` on the set of a socket. -/
def SocketT.fdClr (soc : SocketT) (fd : ℕ) : Except SocketAbort SocketT := do
  ensure (fd < fdSetSize) .outsideSet
  return { soc with set := Function.update soc.set fd false }

/-- The loop of `socket_select_parent` over the queue. -/
def SocketT.clearClosed (soc : SocketT) : Except SocketAbort SocketT :=
  soc.closeQueue.foldlM SocketT.fdClr { soc with closeQueue := [] }

/-- `socket_select_parent` from `retry` on, for the calls of `select` that fail and that do not. It is not
the set behind `select` that is looked at. -/
def SocketT.selectRetry (soc : SocketT) : List Bool → Except SocketAbort Bool
  | [] => .error .waiting
  | false :: _ => .ok false
  | true :: results => do
    ensure (soc.socketDescriptor < fdSetSize) .outsideSet
    if soc.set soc.socketDescriptor then return true else soc.selectRetry results

namespace Process

/-- `socket_select_parent`: the status, the socket whose set is given to `select`, and the process. -/
def socketSelectParent (w : Process) (a : ℕ) (results : List Bool) :
    Except SocketAbort (Bool × Process) := do
  let soc ← w.socketAt a
  let p ← w.getParent a
  if soc.isClosed then return (false, w)
  let parent ← w.socketAt p
  let parent ← if soc.parent = none then parent.clearClosed else .ok parent
  let status ← parent.selectRetry results
  return (status, w.write p parent)

end Process

/-- The calls, with what the system does for them. -/
inductive SocketCall
  | constructor (construction : Process.Construction)
  | accept (a : ℕ) (fd : Option ℕ) (memory : Bool)
  | close (a : ℕ) (memory : Bool)
  | destructor (a : ℕ) (memory : Bool)
  | select (a : ℕ) (results : List Bool)
deriving DecidableEq, Repr

/-- The socket that a call is made on. -/
def SocketCall.socket : SocketCall → Option ℕ
  | .constructor _ => none
  | .accept a _ _ | .close a _ | .destructor a _ | .select a _ => some a

namespace Process

/-- The process behind a call. -/
def step (w : Process) : SocketCall → Except SocketAbort Process
  | .constructor construction => (w.socketConstructor construction).map Prod.snd
  | .accept a fd memory => (w.socketAccept a fd memory).map Prod.snd
  | .close a memory => w.socketClose a memory
  | .destructor a memory => w.socketDestructor a memory
  | .select a results => (w.socketSelectParent a results).map Prod.snd

end Process

/-! ## What holds in every order of calls -/

/-- The socket whose set a socket is in. -/
def SocketT.root (a : ℕ) (soc : SocketT) : ℕ := soc.parent.getD a

namespace Process

/-- What every call keeps. -/
structure Sound (w : Process) : Prop where
  next : ∀ a soc, w.sockets a = some soc → a < w.next
  /-- The parent of a connection, if it has not been freed, is its own parent. -/
  parent : ∀ a soc, w.sockets a = some soc →
    soc.root a < w.next ∧ ∀ par, w.sockets (soc.root a) = some par → par.parent = none
  /-- A socket that is not closed has a descriptor of its own, which is open. -/
  opened : ∀ a soc, w.sockets a = some soc → soc.isClosed = false → w.opened soc.socketDescriptor = true
  unique : ∀ a b soc soc', w.sockets a = some soc → w.sockets b = some soc' → soc.isClosed = false →
    soc'.isClosed = false → soc.socketDescriptor = soc'.socketDescriptor → a = b
  fits : ∀ a soc, w.sockets a = some soc → soc.socketDescriptor < fdSetSize
  queued : ∀ a soc, w.sockets a = some soc → ∀ fd ∈ soc.closeQueue, fd < fdSetSize
  /-- A parent stays in its own set. -/
  own : ∀ a soc, w.sockets a = some soc → soc.parent = none → soc.set soc.socketDescriptor = true
  kept : ∀ a soc, w.sockets a = some soc → soc.isClosed = false → soc.socketDescriptor ∉ soc.closeQueue
  /-- What is in a set is the descriptor of a socket that is not closed, or is in the queue. -/
  set : ∀ a soc fd, w.sockets a = some soc → soc.set fd = true → fd ∈ soc.closeQueue ∨
    ∃ b soc', w.sockets b = some soc' ∧ soc'.isClosed = false ∧ soc'.socketDescriptor = fd ∧ soc'.root b = a

variable {w w' : Process} {a fd : ℕ} {soc par : SocketT}

theorem sound_initial (opened : ℕ → Bool) : (initial opened).Sound := by
  have hnone : ∀ a soc, (initial opened).sockets a ≠ some soc := fun a soc => (Option.some_ne_none soc).symm
  constructor
  case unique => exact fun a b soc soc' h => absurd h (hnone a soc)
  case set => exact fun a soc fd h => absurd h (hnone a soc)
  all_goals exact fun a soc h => absurd h (hnone a soc)

theorem socketAt_eq_ok : w.socketAt a = .ok soc ↔ w.sockets a = some soc := by
  rw [socketAt]
  rcases w.sockets a with _ | soc'
  · simp
  · simp

theorem getParent_eq (ha : w.sockets a = some soc) (hroot : w.sockets (soc.root a) = some par)
    (hpar : par.parent = none) (hnext : 0 < w.next) : w.getParent a = .ok (soc.root a) := by
  obtain ⟨n, hn⟩ := Nat.exists_eq_succ_of_ne_zero hnext.ne'
  rw [getParent, hn, getParentFrom, socketAt_eq_ok.mpr ha, Except.ok_bind]
  rcases hparent : soc.parent with _ | p
  · rw [SocketT.root, hparent]
    rfl
  · rw [SocketT.root, hparent, Option.getD_some] at hroot
    simp only [getParentFrom, socketAt_eq_ok.mpr hroot, Except.ok_bind, hpar]
    rw [SocketT.root, hparent]
    rfl

theorem Sound.getParent_eq (h : w.Sound) (ha : w.sockets a = some soc)
    (hpar : w.sockets (soc.root a) = some par) : w.getParent a = .ok (soc.root a) :=
  Process.getParent_eq ha hpar ((h.parent a soc ha).2 par hpar) (Nat.zero_lt_of_lt (h.next a soc ha))

/-- A connection whose parent has been freed has none. -/
theorem getParent_of_freed (ha : w.sockets a = some soc) (hfreed : w.sockets (soc.root a) = none)
    (hnext : 0 < w.next) : w.getParent a = .error .removedSocket := by
  obtain ⟨n, hn⟩ := Nat.exists_eq_succ_of_ne_zero hnext.ne'
  rw [getParent, hn, getParentFrom, socketAt_eq_ok.mpr ha, Except.ok_bind]
  rcases hparent : soc.parent with _ | p
  · rw [SocketT.root, hparent, Option.getD_none, ha] at hfreed
    cases hfreed
  · rw [SocketT.root, hparent, Option.getD_some] at hfreed
    simp only [getParentFrom, socketAt, hfreed]
    rfl

/-! ### New descriptors -/

/-- The system opens another descriptor. -/
theorem Sound.setOpened (h : w.Sound) (fd : ℕ) : (w.setOpened fd true).Sound where
  next := h.next
  parent := h.parent
  opened := by
    intro a soc ha hopen
    rcases eq_or_ne soc.socketDescriptor fd with heq | hne
    · rw [heq]
      exact Function.update_self _ _ _
    · exact (Function.update_of_ne hne _ _).trans (h.opened a soc ha hopen)
  unique := h.unique
  fits := h.fits
  queued := h.queued
  own := h.own
  kept := h.kept
  set := h.set

/-- A socket behind the allocation of another one. -/
theorem sockets_alloc {b : ℕ} {soc' : SocketT} (hb : (w.alloc soc).sockets b = some soc') :
    b = w.next ∧ soc' = soc ∨ w.sockets b = some soc' := by
  rcases eq_or_ne b w.next with rfl | hne
  · left
    have hself : (w.alloc soc).sockets w.next = some soc := Function.update_self _ _ _
    exact ⟨rfl, Option.some_inj.mp (hb.symm.trans hself)⟩
  · right
    exact (Function.update_of_ne hne _ _).symm.trans hb

theorem Sound.sockets_alloc_of_live {b : ℕ} {soc' : SocketT} (h : w.Sound) (soc : SocketT)
    (hb : w.sockets b = some soc') : (w.alloc soc).sockets b = some soc' :=
  (Function.update_of_ne (h.next b soc' hb).ne _ _).trans hb

/-- A new socket with a descriptor that was not open. -/
theorem Sound.alloc (h : w.Sound) (hnew : w.opened soc.socketDescriptor = false)
    (hopen : soc.isClosed = false) (hfits : soc.socketDescriptor < fdSetSize) (hqueue : soc.closeQueue = [])
    (hparent : soc.root w.next = w.next ∧ soc.parent = none ∨
      ∃ par, w.sockets (soc.root w.next) = some par ∧ par.parent = none)
    (hown : soc.parent = none → soc.set soc.socketDescriptor = true)
    (hset : ∀ fd, soc.set fd = true → fd = soc.socketDescriptor ∧ soc.root w.next = w.next) :
    ((w.setOpened soc.socketDescriptor true).alloc soc).Sound := by
  have hself : ((w.setOpened soc.socketDescriptor true).alloc soc).sockets w.next = some soc :=
    Function.update_self _ _ _
  have hlive {b : ℕ} {soc' : SocketT} (hb : w.sockets b = some soc') :
      ((w.setOpened soc.socketDescriptor true).alloc soc).sockets b = some soc' :=
    (h.setOpened _).sockets_alloc_of_live soc hb
  have hother {b : ℕ} {soc' : SocketT} (hb : w.sockets b = some soc') (hopen' : soc'.isClosed = false) :
      soc'.socketDescriptor ≠ soc.socketDescriptor := by
    intro heq
    have htrue := h.opened b soc' hb hopen'
    rw [heq, hnew] at htrue
    cases htrue
  refine ⟨?_, ?_, ?_, ?_, ?_, ?_, ?_, ?_, ?_⟩
  · intro b soc' hb
    rcases sockets_alloc hb with ⟨rfl, -⟩ | hb
    · exact Nat.lt_succ_self _
    · exact Nat.lt_succ_of_lt (h.next b soc' hb)
  · intro b soc' hb
    rcases sockets_alloc hb with ⟨rfl, rfl⟩ | hb
    · rcases hparent with ⟨hroot, hnone⟩ | ⟨par, hpar, hnone⟩
      · rw [show soc'.root (w.setOpened _ true).next = w.next from hroot, hself]
        refine ⟨Nat.lt_succ_self _, fun par hpar => ?_⟩
        cases hpar
        exact hnone
      · rw [show (w.setOpened _ true).next = w.next from rfl, hlive hpar]
        refine ⟨Nat.lt_succ_of_lt (h.next _ par hpar), fun par' hpar' => ?_⟩
        cases hpar'
        exact hnone
    · obtain ⟨hlt, hnone⟩ := h.parent b soc' hb
      refine ⟨Nat.lt_succ_of_lt hlt, fun par hpar => ?_⟩
      rcases sockets_alloc hpar with ⟨heq, -⟩ | hpar
      · exact absurd heq hlt.ne
      · exact hnone par hpar
  · intro b soc' hb hopen'
    rcases sockets_alloc hb with ⟨-, rfl⟩ | hb
    · exact Function.update_self _ _ _
    · exact (h.setOpened _).opened b soc' hb hopen'
  · intro b c soc₁ soc₂ hb hc hopen₁ hopen₂ heq
    rcases sockets_alloc hb with ⟨rfl, rfl⟩ | hb
    · rcases sockets_alloc hc with ⟨rfl, -⟩ | hc
      · rfl
      · exact absurd heq.symm (hother hc hopen₂)
    · rcases sockets_alloc hc with ⟨rfl, rfl⟩ | hc
      · exact absurd heq (hother hb hopen₁)
      · exact h.unique b c soc₁ soc₂ hb hc hopen₁ hopen₂ heq
  · intro b soc' hb
    rcases sockets_alloc hb with ⟨-, rfl⟩ | hb
    · exact hfits
    · exact h.fits b soc' hb
  · intro b soc' hb fd hfd
    rcases sockets_alloc hb with ⟨-, rfl⟩ | hb
    · rw [hqueue] at hfd
      cases hfd
    · exact h.queued b soc' hb fd hfd
  · intro b soc' hb hnone
    rcases sockets_alloc hb with ⟨-, rfl⟩ | hb
    · exact hown hnone
    · exact h.own b soc' hb hnone
  · intro b soc' hb hopen'
    rcases sockets_alloc hb with ⟨-, rfl⟩ | hb
    · rw [hqueue]
      exact List.not_mem_nil
    · exact h.kept b soc' hb hopen'
  · intro b soc' fd hb hfd
    rcases sockets_alloc hb with ⟨rfl, rfl⟩ | hb
    · obtain ⟨rfl, hroot⟩ := hset fd hfd
      exact .inr ⟨w.next, soc', hself, hopen, rfl, hroot⟩
    · refine (h.set b soc' fd hb hfd).imp_right ?_
      intro hex
      obtain ⟨c, soc'', hc, hrest⟩ := hex
      exact ⟨c, soc'', hlive hc, hrest⟩

/-! ### Changes of the sockets that are there -/

/-- Every socket is changed. -/
def modify (w : Process) (f : ℕ → SocketT → SocketT) : Process :=
  { w with sockets := fun x => (w.sockets x).map (f x) }

/-- One socket is changed. -/
def onlyAt (p : ℕ) (g : SocketT → SocketT) (x : ℕ) (soc : SocketT) : SocketT := if x = p then g soc else soc

theorem write_eq_modify {p : ℕ} (hp : w.sockets p = some par) (g : SocketT → SocketT) :
    w.write p (g par) = w.modify (onlyAt p g) := by
  rw [write, modify]
  congr 1
  funext x
  rcases eq_or_ne x p with rfl | hne
  · rw [Function.update_self, hp, Option.map_some, onlyAt, if_pos rfl]
  · have hid : onlyAt p g x = id := by
      funext soc
      exact if_neg hne
    rw [Function.update_of_ne hne, hid, Option.map_id, id]

/-- What a change of the sockets has to keep, where the descriptors and the parents are left as they
are and no socket is opened. -/
theorem Sound.modify {f : ℕ → SocketT → SocketT} {opened : ℕ → Bool} (h : w.Sound)
    (hfd : ∀ x soc, (f x soc).socketDescriptor = soc.socketDescriptor)
    (hparent : ∀ x soc, (f x soc).parent = soc.parent)
    (hclosed : ∀ x soc, (f x soc).isClosed = false → soc.isClosed = false)
    (hopened : ∀ a soc, w.sockets a = some soc → (f a soc).isClosed = false →
      opened soc.socketDescriptor = true)
    (hqueued : ∀ a soc, w.sockets a = some soc → ∀ fd ∈ (f a soc).closeQueue, fd < fdSetSize)
    (hown : ∀ a soc, w.sockets a = some soc → soc.parent = none →
      (f a soc).set soc.socketDescriptor = true)
    (hkept : ∀ a soc, w.sockets a = some soc → (f a soc).isClosed = false →
      soc.socketDescriptor ∉ (f a soc).closeQueue)
    (hset : ∀ a soc fd, w.sockets a = some soc → (f a soc).set fd = true → fd ∈ (f a soc).closeQueue ∨
      ∃ b soc', w.sockets b = some soc' ∧ (f b soc').isClosed = false ∧ soc'.socketDescriptor = fd ∧
        soc'.root b = a) :
    ({ w.modify f with opened } : Process).Sound := by
  have hroot (x : ℕ) (soc : SocketT) : (f x soc).root x = soc.root x := by
    rw [SocketT.root, hparent, SocketT.root]
  have hlive {x : ℕ} {soc : SocketT} (hx : w.sockets x = some soc) :
      ({ w.modify f with opened } : Process).sockets x = some (f x soc) := by
    exact Option.map_eq_some_iff.mpr ⟨soc, hx, rfl⟩
  refine ⟨?_, ?_, ?_, ?_, ?_, ?_, ?_, ?_, ?_⟩
  · intro a soc hx
    obtain ⟨soc, ha, rfl⟩ := Option.map_eq_some_iff.mp hx
    exact h.next a soc ha
  · intro a soc hx
    obtain ⟨soc, ha, rfl⟩ := Option.map_eq_some_iff.mp hx
    obtain ⟨hlt, hnone⟩ := h.parent a soc ha
    rw [hroot]
    refine ⟨hlt, fun par hx => ?_⟩
    obtain ⟨par, hpar, rfl⟩ := Option.map_eq_some_iff.mp hx
    exact (hparent _ par).trans (hnone par hpar)
  · intro a soc hx hopen
    obtain ⟨soc, ha, rfl⟩ := Option.map_eq_some_iff.mp hx
    rw [hfd]
    exact hopened a soc ha hopen
  · intro a b soc soc' hx hy hopen hopen' heq
    obtain ⟨soc, ha, rfl⟩ := Option.map_eq_some_iff.mp hx
    obtain ⟨soc', hb, rfl⟩ := Option.map_eq_some_iff.mp hy
    rw [hfd, hfd] at heq
    exact h.unique a b soc soc' ha hb (hclosed a soc hopen) (hclosed b soc' hopen') heq
  · intro a soc hx
    obtain ⟨soc, ha, rfl⟩ := Option.map_eq_some_iff.mp hx
    rw [hfd]
    exact h.fits a soc ha
  · intro a soc hx
    obtain ⟨soc, ha, rfl⟩ := Option.map_eq_some_iff.mp hx
    exact hqueued a soc ha
  · intro a soc hx hnone
    obtain ⟨soc, ha, rfl⟩ := Option.map_eq_some_iff.mp hx
    rw [hfd]
    exact hown a soc ha ((hparent a soc).symm.trans hnone)
  · intro a soc hx hopen
    obtain ⟨soc, ha, rfl⟩ := Option.map_eq_some_iff.mp hx
    rw [hfd]
    exact hkept a soc ha hopen
  · intro a soc fd hx hbit
    obtain ⟨soc, ha, rfl⟩ := Option.map_eq_some_iff.mp hx
    refine (hset a soc fd ha hbit).imp_right ?_
    intro hex
    obtain ⟨b, soc', hb, hopen, heq, hrootb⟩ := hex
    exact ⟨b, f b soc', hlive hb, hopen, (hfd b soc').trans heq, (hroot b soc').trans hrootb⟩

/-- What the change of one socket leaves as it is. -/
theorem onlyAt_eq {β : Type} (view : SocketT → β) {g : SocketT → SocketT}
    (hg : ∀ soc, view (g soc) = view soc) (p x : ℕ) (soc : SocketT) :
    view (onlyAt p g x soc) = view soc := by
  unfold onlyAt
  split
  · exact hg soc
  · rfl

/-- `FD_SET` for a connection that is open. -/
theorem Sound.fdSet {b : ℕ} {soc : SocketT} (h : w.Sound) (hb : w.sockets b = some soc)
    (hopen : soc.isClosed = false) (hpar : w.sockets (soc.root b) = some par) :
    ∃ w', w.fdSet (soc.root b) soc.socketDescriptor = .ok w' ∧ w'.Sound := by
  let g : SocketT → SocketT := fun par =>
    { par with set := Function.update par.set soc.socketDescriptor true }
  have hisClosed := onlyAt_eq SocketT.isClosed (g := g) (fun _ => rfl) (soc.root b)
  refine ⟨w.write (soc.root b) (g par), ?_, ?_⟩
  · rw [Process.fdSet, socketAt_eq_ok.mpr hpar, Except.ok_bind, ensure_of (h.fits b soc hb)]
    rfl
  rw [write_eq_modify hpar g]
  have hbit {x y : ℕ} {s : SocketT} (hy : (onlyAt (soc.root b) g x s).set y = true) :
      s.set y = true ∨ y = soc.socketDescriptor ∧ x = soc.root b := by
    unfold onlyAt at hy
    split at hy
    · next hx =>
      rcases eq_or_ne y soc.socketDescriptor with heq | hne
      · exact .inr ⟨heq, hx⟩
      · exact .inl ((Function.update_of_ne hne _ _).symm.trans hy)
    · exact .inl hy
  have hqueue := onlyAt_eq SocketT.closeQueue (g := g) (fun _ => rfl) (soc.root b)
  refine h.modify (onlyAt_eq SocketT.socketDescriptor (g := g) (fun _ => rfl) _)
    (onlyAt_eq SocketT.parent (g := g) (fun _ => rfl) _) ?_ ?_ ?_ ?_ ?_ ?_
  · intro x s hs
    rwa [hisClosed] at hs
  · intro x s hx hs
    rw [hisClosed] at hs
    exact h.opened x s hx hs
  · intro x s hx
    rw [hqueue]
    exact h.queued x s hx
  · intro x s hx hnone
    have hown := h.own x s hx hnone
    unfold onlyAt
    split
    · rcases eq_or_ne s.socketDescriptor soc.socketDescriptor with heq | hne
      · rw [heq]
        exact Function.update_self _ _ _
      · exact (Function.update_of_ne hne _ _).trans hown
    · exact hown
  · intro x s hx hs
    rw [hisClosed] at hs
    rw [hqueue]
    exact h.kept x s hx hs
  · intro x s fd hx hfd
    rw [hqueue]
    rcases hbit hfd with hold | ⟨rfl, rfl⟩
    · refine (h.set x s fd hx hold).imp_right ?_
      intro hex
      obtain ⟨c, s', hc, hopen', hrest⟩ := hex
      exact ⟨c, s', hc, (hisClosed c s').trans hopen', hrest⟩
    · exact .inr ⟨b, soc, hb, (hisClosed b soc).trans hopen, rfl, rfl⟩

/-! ### Closing -/

/-- A socket behind `socket_close` of the socket at `a`, whose descriptor is `fd` and whose set is that of
`p`. -/
def closing (a p fd x : ℕ) (soc : SocketT) : SocketT :=
  { soc with
    isClosed := soc.isClosed || decide (x = a)
    closeQueue := if x = p then soc.closeQueue ++ [fd] else soc.closeQueue }

theorem isClosed_closing {a p fd x : ℕ} {soc : SocketT} (h : (closing a p fd x soc).isClosed = false) :
    soc.isClosed = false ∧ x ≠ a := by
  simpa [closing] using h

theorem mem_closing {a p fd x y : ℕ} {soc : SocketT} :
    y ∈ (closing a p fd x soc).closeQueue ↔ y ∈ soc.closeQueue ∨ x = p ∧ y = fd := by
  unfold closing
  rcases eq_or_ne x p with rfl | hne
  · simp
  · simp [hne]

/-- A socket is closed once. -/
theorem socketClose_closed (ha : w.sockets a = some soc) (hclosed : soc.isClosed = true) (memory : Bool) :
    w.socketClose a memory = .ok w := by
  rw [socketClose, socketAt_eq_ok.mpr ha, Except.ok_bind, if_pos hclosed]
  rfl

/-- A connection is not closed when its parent has been freed. -/
theorem socketClose_of_freed (h : w.Sound) (ha : w.sockets a = some soc) (hopen : soc.isClosed = false)
    (hfreed : w.sockets (soc.root a) = none) (memory : Bool) :
    w.socketClose a memory = .error .removedSocket := by
  have hparent : (w.setOpened soc.socketDescriptor false).getParent a = .error .removedSocket :=
    getParent_of_freed (w := w.setOpened soc.socketDescriptor false) ha hfreed
      (Nat.zero_lt_of_lt (h.next a soc ha))
  rw [socketClose, socketAt_eq_ok.mpr ha, Except.ok_bind, if_neg (by simp [hopen])]
  change ((w.setOpened soc.socketDescriptor false).getParent a >>= _) = _
  rw [hparent]
  rfl

theorem socketClose_eq (h : w.Sound) (ha : w.sockets a = some soc) (hopen : soc.isClosed = false)
    (hpar : w.sockets (soc.root a) = some par) :
    w.socketClose a true = .ok
      { w.modify (closing a (soc.root a) soc.socketDescriptor) with
        opened := Function.update w.opened soc.socketDescriptor false } := by
  have hnone := (h.parent a soc ha).2 par hpar
  let w₁ := w.setOpened soc.socketDescriptor false
  have ha₁ : w₁.sockets a = some soc := ha
  have hpar₁ : w₁.sockets (soc.root a) = some par := hpar
  have hroot := getParent_eq ha₁ hpar₁ hnone (Nat.zero_lt_of_lt (h.next a soc ha))
  let g : SocketT → SocketT := fun par =>
    { par with closeQueue := par.closeQueue ++ [soc.socketDescriptor] }
  have ha' : (w₁.modify (onlyAt (soc.root a) g)).sockets a = some (onlyAt (soc.root a) g a soc) :=
    Option.map_eq_some_iff.mpr ⟨soc, ha₁, rfl⟩
  have hwrite := write_eq_modify ha' fun soc => { soc with isClosed := true }
  calc w.socketClose a true
      = (w₁.write (soc.root a) (g par)).socketAt a >>= fun soc' =>
          .ok ((w₁.write (soc.root a) (g par)).write a { soc' with isClosed := true }) := by
        simp only [socketClose, socketAt_eq_ok.mpr ha, Except.ok_bind, hopen, Bool.false_eq_true, if_false]
        rw [show w.setOpened soc.socketDescriptor false = w₁ from rfl, hroot, Except.ok_bind,
          socketAt_eq_ok.mpr hpar₁, Except.ok_bind]
        rfl
    _ = .ok ((w₁.modify (onlyAt (soc.root a) g)).modify
          (onlyAt a fun soc => { soc with isClosed := true })) := by
        rw [write_eq_modify hpar₁ g, socketAt_eq_ok.mpr ha', Except.ok_bind, hwrite]
    _ = _ := by
        simp only [modify, Option.map_map, w₁, setOpened]
        congr 2
        funext x
        congr 1
        funext s
        simp only [Function.comp_apply, onlyAt, closing, g]
        split <;> split <;> simp_all

theorem Sound.closing (h : w.Sound) (ha : w.sockets a = some soc) (hopen : soc.isClosed = false) :
    ({ w.modify (closing a (soc.root a) soc.socketDescriptor) with
        opened := Function.update w.opened soc.socketDescriptor false } : Process).Sound := by
  have hother {x : ℕ} {s : SocketT} (hx : w.sockets x = some s) (hs : s.isClosed = false) (hne : x ≠ a) :
      s.socketDescriptor ≠ soc.socketDescriptor :=
    fun heq => hne (h.unique x a s soc hx ha hs hopen heq)
  refine h.modify (fun _ _ => rfl) (fun _ _ => rfl) (fun x s hs => (isClosed_closing hs).1) ?_ ?_ h.own ?_ ?_
  · intro x s hx hs
    obtain ⟨hs, hne⟩ := isClosed_closing hs
    rw [Function.update_of_ne (hother hx hs hne)]
    exact h.opened x s hx hs
  · intro x s hx fd hfd
    rcases mem_closing.mp hfd with hfd | ⟨-, rfl⟩
    · exact h.queued x s hx fd hfd
    · exact h.fits a soc ha
  · intro x s hx hs hmem
    obtain ⟨hs, hne⟩ := isClosed_closing hs
    rcases mem_closing.mp hmem with hmem | ⟨-, heq⟩
    · exact h.kept x s hx hs hmem
    · exact hother hx hs hne heq
  · intro x s fd hx hfd
    rw [mem_closing]
    rcases h.set x s fd hx hfd with hmem | ⟨b, s', hb, hs', heq, hroot⟩
    · exact .inl (.inl hmem)
    · rcases eq_or_ne b a with rfl | hne
      · -- it is the socket that is closed
        cases hb.symm.trans ha
        exact .inl (.inr ⟨hroot.symm, heq.symm⟩)
      · refine .inr ⟨b, s', hb, ?_, heq, hroot⟩
        simp [Process.closing, hs', hne]

/-- A socket that is closed is freed, also where it is the parent of others. -/
theorem Sound.remove (h : w.Sound) (ha : w.sockets a = some soc) (hclosed : soc.isClosed = true) :
    ({ w with sockets := Function.update w.sockets a none } : Process).Sound := by
  have hlive {x : ℕ} {s : SocketT} (hx : Function.update w.sockets a none x = some s) :
      w.sockets x = some s ∧ x ≠ a := by
    rcases eq_or_ne x a with rfl | hne
    · rw [Function.update_self] at hx
      cases hx
    · exact ⟨(Function.update_of_ne hne _ _).symm.trans hx, hne⟩
  have hstays {x : ℕ} {s : SocketT} (hx : w.sockets x = some s) (hne : x ≠ a) :
      Function.update w.sockets a none x = some s :=
    (Function.update_of_ne hne _ _).trans hx
  refine ⟨?_, ?_, ?_, ?_, ?_, ?_, ?_, ?_, ?_⟩
  · intro x s hx
    exact h.next x s (hlive hx).1
  · intro x s hx
    obtain ⟨hlt, hnone⟩ := h.parent x s (hlive hx).1
    exact ⟨hlt, fun par hpar => hnone par (hlive hpar).1⟩
  · intro x s hx
    exact h.opened x s (hlive hx).1
  · intro x y s s' hx hy
    exact h.unique x y s s' (hlive hx).1 (hlive hy).1
  · intro x s hx
    exact h.fits x s (hlive hx).1
  · intro x s hx
    exact h.queued x s (hlive hx).1
  · intro x s hx
    exact h.own x s (hlive hx).1
  · intro x s hx
    exact h.kept x s (hlive hx).1
  · intro x s fd hx hfd
    refine (h.set x s fd (hlive hx).1 hfd).imp_right ?_
    intro hex
    obtain ⟨b, s', hb, hopen, hrest⟩ := hex
    refine ⟨b, s', hstays hb ?_, hopen, hrest⟩
    rintro rfl
    cases hb.symm.trans ha
    cases hopen.symm.trans hclosed

/-! ### Selecting -/

/-- The set of a socket without the descriptors in its queue. -/
def cleared (soc : SocketT) : SocketT :=
  { soc with set := fun fd => soc.set fd && !soc.closeQueue.contains fd, closeQueue := [] }

theorem clearClosed_eq (hqueue : ∀ fd ∈ soc.closeQueue, fd < fdSetSize) : soc.clearClosed = .ok (cleared soc) := by
  rw [SocketT.clearClosed, cleared]
  generalize soc.closeQueue = queue at hqueue
  induction queue generalizing soc with
  | nil => simp
  | cons fd queue ih =>
    obtain ⟨hfd, hqueue⟩ := List.forall_mem_cons.mp hqueue
    rw [List.foldlM_cons, SocketT.fdClr, ensure_of hfd]
    have hrest := @ih { soc with set := Function.update soc.set fd false } hqueue
    refine hrest.trans ?_
    congr 2
    funext x
    rcases eq_or_ne x fd with rfl | hne
    · simp
    · simp [hne]

theorem Sound.cleared (h : w.Sound) (ha : w.sockets a = some soc) (hopen : soc.isClosed = false) :
    (w.write a (cleared soc)).Sound := by
  rw [write_eq_modify ha]
  have hisClosed := onlyAt_eq SocketT.isClosed (g := Process.cleared) (fun _ => rfl) a
  have hbit {x fd : ℕ} {s : SocketT} (hfd : (onlyAt a Process.cleared x s).set fd = true) :
      s.set fd = true ∧ (x = a → fd ∉ s.closeQueue) := by
    unfold onlyAt at hfd
    split at hfd
    · simpa [Process.cleared, *] using hfd
    · next hne => exact ⟨hfd, fun hx => absurd hx hne⟩
  have hmem {x fd : ℕ} {s : SocketT} :
      fd ∈ (onlyAt a Process.cleared x s).closeQueue ↔ fd ∈ s.closeQueue ∧ x ≠ a := by
    unfold onlyAt
    split
    · simp [Process.cleared, *]
    · simp [*]
  refine h.modify (onlyAt_eq SocketT.socketDescriptor (g := Process.cleared) (fun _ => rfl) _)
    (onlyAt_eq SocketT.parent (g := Process.cleared) (fun _ => rfl) _) ?_ ?_ ?_ ?_ ?_ ?_
  · intro x s hs
    rwa [hisClosed] at hs
  · intro x s hx hs
    rw [hisClosed] at hs
    exact h.opened x s hx hs
  · intro x s hx fd hfd
    exact h.queued x s hx fd (hmem.mp hfd).1
  · intro x s hx hnone
    have hown := h.own x s hx hnone
    unfold onlyAt
    split
    · next hxa =>
      subst hxa
      cases hx.symm.trans ha
      have hkept := h.kept x soc ha hopen
      simp [Process.cleared, hown, hkept]
    · exact hown
  · intro x s hx hs hfd
    rw [hisClosed] at hs
    exact h.kept x s hx hs (hmem.mp hfd).1
  · intro x s fd hx hfd
    obtain ⟨hfd, hnot⟩ := hbit hfd
    rw [hmem]
    rcases h.set x s fd hx hfd with hqueue | ⟨b, s', hb, hs', hrest⟩
    · exact .inl ⟨hqueue, fun hxa => hnot hxa hqueue⟩
    · exact .inr ⟨b, s', hb, (hisClosed b s').trans hs', hrest⟩

/-- What the first call of `select` returns. -/
def firstResult (results : List Bool) : Except SocketAbort Bool := results.head?.elim (.error .waiting) .ok

/-- The first call of `select` decides. -/
theorem selectRetry_eq (hfits : soc.socketDescriptor < fdSetSize)
    (hown : soc.set soc.socketDescriptor = true) (results : List Bool) :
    soc.selectRetry results = firstResult results := by
  rcases results with _ | ⟨ready, results⟩
  · rfl
  rcases ready with _ | _
  · rfl
  · rw [SocketT.selectRetry, ensure_of hfits, Except.ok_bind, if_pos hown]
    rfl

/-- The set that is given to `select` is that of the parent, for a call on the parent itself without the
descriptors in the queue. -/
theorem socketSelectParent_eq (h : w.Sound) (ha : w.sockets a = some soc) (hopen : soc.isClosed = false)
    (hpar : w.sockets (soc.root a) = some par) (results : List Bool) :
    w.socketSelectParent a results = (firstResult results).map fun ready =>
      (ready, w.write (soc.root a) (if soc.parent = none then cleared par else par)) := by
  have hown := h.own _ par hpar ((h.parent a soc ha).2 par hpar)
  have hfits := h.fits _ par hpar
  rw [socketSelectParent, socketAt_eq_ok.mpr ha, Except.ok_bind, h.getParent_eq ha hpar, Except.ok_bind, hopen,
    socketAt_eq_ok.mpr hpar]
  simp only [Bool.false_eq_true, if_false, Except.ok_bind]
  rcases hparent : soc.parent with _ | p
  · -- the socket is the parent itself
    have hroot : soc.root a = a := by rw [SocketT.root, hparent, Option.getD_none]
    rw [hroot] at hpar ⊢
    cases hpar.symm.trans ha
    have hcleared : (cleared soc).set soc.socketDescriptor = true := by
      simp [cleared, hown, h.kept a soc ha hopen]
    rw [if_pos rfl, if_pos rfl, clearClosed_eq (h.queued a soc ha), Except.ok_bind,
      @selectRetry_eq (cleared soc) hfits hcleared]
    rfl
  · rw [if_neg (Option.some_ne_none p), if_neg (Option.some_ne_none p)]
    change (par.selectRetry results >>= fun status => .ok (status, w.write (soc.root a) par)) = _
    rw [selectRetry_eq hfits hown]
    rfl

/-- What a call on a socket leaves of the sets. -/
theorem Sound.select (h : w.Sound) (ha : w.sockets a = some soc) (hopen : soc.isClosed = false)
    (hpar : w.sockets (soc.root a) = some par) :
    (w.write (soc.root a) (if soc.parent = none then Process.cleared par else par)).Sound := by
  split
  · next hnone =>
    have hroot : soc.root a = a := by rw [SocketT.root, hnone, Option.getD_none]
    rw [hroot] at hpar ⊢
    cases hpar.symm.trans ha
    exact h.cleared ha hopen
  · have hsame : w.write (soc.root a) par = w := by
      rw [write, ← hpar, Function.update_eq_self]
    rwa [hsame]

/-- A connection is accepted on a socket that listens, unless its descriptor is not one of a set. -/
theorem accepted_eq (h : w.Sound) (ha : w.sockets a = some soc) (hnone : soc.parent = none)
    (hnew : w.opened fd = false) :
    if fd < fdSetSize then ∃ w', w.accepted a fd true = .ok (some w.next, w') ∧ w'.Sound
    else w.accepted a fd true = .error .outsideSet := by
  let child : SocketT := ⟨fd, false, some a, fun _ => false, []⟩
  let w₁ := (w.setOpened fd true).alloc child
  have ha₁ : w₁.sockets a = some soc := (h.setOpened fd).sockets_alloc_of_live child ha
  have hroot : soc.root a = a := by rw [SocketT.root, hnone, Option.getD_none]
  have hparent : w₁.getParent a = .ok a := by
    have hget := getParent_eq (w := w₁) ha₁ (by rwa [hroot]) hnone (Nat.succ_pos _)
    rwa [hroot] at hget
  have hrun : w.accepted a fd true = (w₁.fdSet a fd >>= fun w' => .ok (some w.next, w')) := by
    rw [accepted, if_pos rfl]
    exact congrArg (fun x => x >>= fun p => w₁.fdSet p fd >>= fun w' => .ok (some w.next, w')) hparent
  split
  · next hfits =>
    have hsound : w₁.Sound := by
      refine @Sound.alloc w child h hnew rfl hfits rfl (.inr ⟨soc, ha, hnone⟩)
        (fun hparent => absurd hparent (Option.some_ne_none a)) ?_
      intro x hx
      cases hx
    have hchild : w₁.sockets w.next = some child := Function.update_self _ _ _
    obtain ⟨w', hset, hsound'⟩ := hsound.fdSet hchild rfl ha₁
    refine ⟨w', ?_, hsound'⟩
    rw [hrun, show w₁.fdSet a fd = .ok w' from hset]
    rfl
  · next hfits =>
    rw [hrun, fdSet, socketAt_eq_ok.mpr ha₁, ensure, if_neg hfits]
    rfl

/-! ### Runs -/

/-- What the callers and the system keep to: a descriptor that is opened was not open, connections are
accepted on a socket that listens, and there is memory for an item of the queue. -/
def Allowed (w : Process) : SocketCall → Prop
  | .constructor (.badAddress fd) | .constructor (.done fd) => w.opened fd = false
  | .constructor _ => True
  | .accept a fd _ => (∀ fd', fd = some fd' → w.opened fd' = false) ∧
      ∀ soc, w.sockets a = some soc → soc.parent = none
  | .close _ memory | .destructor _ memory => memory = true
  | .select _ _ => True

/-- When a call on a socket that is there returns: the new descriptor is one of a set, the parent has not
been freed where it is looked at, and the call of `select` returns. -/
def Fits (w : Process) : SocketCall → Prop
  | .constructor (.done fd) => fd < fdSetSize
  | .accept a (some fd) true => ∀ soc, w.sockets a = some soc → soc.isClosed = false → fd < fdSetSize
  | .close a _ | .destructor a _ => ∀ soc, w.sockets a = some soc → soc.isClosed = false →
      ∃ par, w.sockets (soc.root a) = some par
  | .select a results => ∀ soc, w.sockets a = some soc →
      (∃ par, w.sockets (soc.root a) = some par) ∧ (soc.isClosed = false → results ≠ [])
  | _ => True

/-- A call that returns exactly if `p` holds, and then leaves a process that is sound. -/
def ReturnsIff (x : Except SocketAbort Process) (p : Prop) : Prop :=
  (p ∧ ∃ w', x = .ok w' ∧ w'.Sound) ∨ ¬p ∧ ∃ e, x = .error e

theorem ReturnsIff.of_ok {x : Except SocketAbort Process} {p : Prop} (hp : p) (hx : x = .ok w')
    (hw : w'.Sound) : ReturnsIff x p := .inl ⟨hp, w', hx, hw⟩

theorem returnsIff_constructor {construction : Construction} (h : w.Sound)
    (hallowed : w.Allowed (.constructor construction)) :
    ReturnsIff (w.step (.constructor construction)) (w.Fits (.constructor construction)) := by
  cases construction with
  | noMemory | noDescriptor => exact .of_ok trivial rfl h
  | badAddress fd => exact .of_ok trivial rfl (h.setOpened fd)
  | done fd =>
    rw [step, socketConstructor]
    by_cases hfits : fd < fdSetSize
    · rw [ensure_of hfits]
      refine .of_ok hfits rfl ?_
      refine @Sound.alloc w ⟨fd, false, none, fun x => decide (x = fd), []⟩ h hallowed rfl hfits rfl
        (.inl ⟨rfl, rfl⟩) (fun _ => decide_eq_true rfl) ?_
      intro x hx
      exact ⟨of_decide_eq_true hx, rfl⟩
    · rw [ensure, if_neg hfits]
      exact .inr ⟨hfits, .outsideSet, rfl⟩

theorem returnsIff_accept {fd : Option ℕ} {memory : Bool} (h : w.Sound) (ha : w.sockets a = some soc)
    (hallowed : w.Allowed (.accept a fd memory)) :
    ReturnsIff (w.step (.accept a fd memory)) (w.Fits (.accept a fd memory)) := by
  obtain ⟨hnew, hparent⟩ := hallowed
  rw [step]
  unfold socketAccept
  rw [socketAt_eq_ok.mpr ha, Except.ok_bind]
  rcases hclosed : soc.isClosed with _ | _
  · rcases fd with _ | fd
    · exact .of_ok trivial rfl h
    rcases memory with _ | _
    · exact .of_ok trivial rfl (h.setOpened fd)
    have haccepted := accepted_eq h ha (hparent soc ha) (hnew fd rfl)
    simp only [Bool.false_eq_true, if_false]
    split at haccepted
    · next hfits =>
      obtain ⟨w', hrun, hsound⟩ := haccepted
      exact .of_ok (fun _ _ _ => hfits) (by rw [hrun]; rfl) hsound
    · next hfits =>
      refine .inr ⟨fun hall => hfits (hall soc ha hclosed), .outsideSet, ?_⟩
      rw [haccepted]
      rfl
  · refine .of_ok ?_ rfl h
    have hvacuous : ∀ fd' : ℕ, ∀ s, w.sockets a = some s → s.isClosed = false → fd' < fdSetSize := by
      intro fd' s hs hopen
      cases hs.symm.trans ha
      cases hopen.symm.trans hclosed
    rcases fd with _ | fd
    · trivial
    · rcases memory with _ | _
      · trivial
      · exact hvacuous fd

theorem sound_socketClose (h : w.Sound) (ha : w.sockets a = some soc)
    (hpar : soc.isClosed = false → ∃ par, w.sockets (soc.root a) = some par) :
    ∃ w' soc', w.socketClose a true = .ok w' ∧ w'.Sound ∧ w'.sockets a = some soc' ∧
      soc'.isClosed = true := by
  rcases hclosed : soc.isClosed with _ | _
  · obtain ⟨par, hpar⟩ := hpar hclosed
    exact ⟨_, _, socketClose_eq h ha hclosed hpar, h.closing ha hclosed,
      Option.map_eq_some_iff.mpr ⟨soc, ha, rfl⟩, by simp [closing]⟩
  · exact ⟨w, soc, socketClose_closed ha hclosed true, h, ha, hclosed⟩

/-- A socket is open and its parent has been freed, or a call that closes it returns. -/
theorem freed_or_closable (w : Process) (a : ℕ) (soc : SocketT) :
    (soc.isClosed = false ∧ w.sockets (soc.root a) = none) ∨
      (soc.isClosed = false → ∃ par, w.sockets (soc.root a) = some par) := by
  rcases soc.isClosed with _ | _
  · rcases w.sockets (soc.root a) with _ | par
    · exact .inl ⟨rfl, rfl⟩
    · exact .inr fun _ => ⟨par, rfl⟩
  · exact .inr nofun

theorem not_fits_of_freed (ha : w.sockets a = some soc) (hopen : soc.isClosed = false)
    (hfreed : w.sockets (soc.root a) = none) :
    ¬∀ s, w.sockets a = some s → s.isClosed = false → ∃ par, w.sockets (s.root a) = some par := by
  intro hall
  obtain ⟨par, hpar⟩ := hall soc ha hopen
  rw [hfreed] at hpar
  cases hpar

theorem returnsIff_close (h : w.Sound) (ha : w.sockets a = some soc) :
    ReturnsIff (w.step (.close a true)) (w.Fits (.close a true)) := by
  rcases freed_or_closable w a soc with ⟨hopen, hfreed⟩ | hpar
  · exact .inr ⟨not_fits_of_freed ha hopen hfreed, _, socketClose_of_freed h ha hopen hfreed true⟩
  · obtain ⟨w', soc', hclose, hsound, -⟩ := sound_socketClose h ha hpar
    refine .of_ok ?_ hclose hsound
    intro s hs
    cases hs.symm.trans ha
    exact hpar

theorem returnsIff_destructor (h : w.Sound) (ha : w.sockets a = some soc) :
    ReturnsIff (w.step (.destructor a true)) (w.Fits (.destructor a true)) := by
  rcases freed_or_closable w a soc with ⟨hopen, hfreed⟩ | hpar
  · refine .inr ⟨not_fits_of_freed ha hopen hfreed, .removedSocket, ?_⟩
    rw [step, socketDestructor, socketAt_eq_ok.mpr ha, Except.ok_bind, if_neg (by simp [hopen]),
      socketClose_of_freed h ha hopen hfreed]
    rfl
  · obtain ⟨w', soc', hclose, hsound, ha', hclosed⟩ := sound_socketClose h ha hpar
    have hrun : w.step (.destructor a true) =
        .ok { w' with sockets := Function.update w'.sockets a none } := by
      rw [step, socketDestructor, socketAt_eq_ok.mpr ha, Except.ok_bind]
      split
      · next hsoc =>
        cases hclose.symm.trans (socketClose_closed ha hsoc true)
        rfl
      · rw [hclose]
        rfl
    refine .of_ok ?_ hrun (hsound.remove ha' hclosed)
    intro s hs
    cases hs.symm.trans ha
    exact hpar

theorem returnsIff_select {results : List Bool} (h : w.Sound) (ha : w.sockets a = some soc) :
    ReturnsIff (w.step (.select a results)) (w.Fits (.select a results)) := by
  rcases hpar : w.sockets (soc.root a) with _ | par
  · refine .inr ⟨fun hfits => ?_, .removedSocket, ?_⟩
    · obtain ⟨⟨par, hpar'⟩, -⟩ := hfits soc ha
      cases hpar.symm.trans hpar'
    · rw [step, socketSelectParent, socketAt_eq_ok.mpr ha, Except.ok_bind,
        getParent_of_freed ha hpar (Nat.zero_lt_of_lt (h.next a soc ha))]
      rfl
  rcases hclosed : soc.isClosed with _ | _
  · have hselect := socketSelectParent_eq h ha hclosed hpar
    rw [step, hselect]
    rcases results with _ | ⟨ready, results⟩
    · exact .inr ⟨fun hfits => (hfits soc ha).2 hclosed rfl, .waiting, rfl⟩
    · refine .of_ok ?_ rfl (h.select ha hclosed hpar)
      intro s hs
      cases hs.symm.trans ha
      exact ⟨⟨par, hpar⟩, fun _ => List.cons_ne_nil _ _⟩
  · refine .of_ok ?_ ?_ h
    · intro s hs
      cases hs.symm.trans ha
      exact ⟨⟨par, hpar⟩, fun hopen => Bool.noConfusion (hopen.symm.trans hclosed)⟩
    · rw [step, socketSelectParent, socketAt_eq_ok.mpr ha, Except.ok_bind, h.getParent_eq ha hpar,
        Except.ok_bind, if_pos hclosed]
      rfl

/-- A call that meets the conditions, on a socket that is there. -/
theorem returnsIff_step {c : SocketCall} (h : w.Sound) (hallowed : w.Allowed c)
    (hlive : ∀ a, c.socket = some a → ∃ soc, w.sockets a = some soc) : ReturnsIff (w.step c) (w.Fits c) := by
  cases c with
  | constructor construction => exact returnsIff_constructor h hallowed
  | accept a fd memory =>
    obtain ⟨soc, ha⟩ := hlive a rfl
    exact returnsIff_accept h ha hallowed
  | close a memory =>
    obtain ⟨soc, ha⟩ := hlive a rfl
    obtain rfl : memory = true := hallowed
    exact returnsIff_close h ha
  | destructor a memory =>
    obtain ⟨soc, ha⟩ := hlive a rfl
    obtain rfl : memory = true := hallowed
    exact returnsIff_destructor h ha
  | select a results =>
    obtain ⟨soc, ha⟩ := hlive a rfl
    exact returnsIff_select h ha

/-- A call that returns is made on a socket that is there. -/
theorem live_of_step {c : SocketCall} (hstep : w.step c = .ok w') :
    ∀ a, c.socket = some a → ∃ soc, w.sockets a = some soc := by
  intro a ha
  have hbind {β : Type} {f : SocketT → Except SocketAbort β} {b : β} (h : (w.socketAt a >>= f) = .ok b) :
      ∃ soc, w.sockets a = some soc := by
    obtain ⟨soc, hsoc, -⟩ := Except.bind_eq_ok.mp h
    exact ⟨soc, socketAt_eq_ok.mp hsoc⟩
  cases c with
  | constructor => cases ha
  | accept a fd memory =>
    cases ha
    obtain ⟨x, hrun, -⟩ := Except.map_eq_ok.mp hstep
    exact hbind hrun
  | close a memory =>
    cases ha
    exact hbind hstep
  | destructor a memory =>
    cases ha
    exact hbind hstep
  | select a results =>
    cases ha
    obtain ⟨x, hrun, -⟩ := Except.map_eq_ok.mp hstep
    exact hbind hrun

/-- Every order of calls that meet the conditions leaves a process that is sound. -/
theorem sound_of_runs {opened : ℕ → Bool}
    (h : Runs (fun w c w' => step w c = .ok w') Allowed (initial opened) w) : w.Sound := by
  refine h.invariant ?_ (sound_initial opened)
  intro w c w' hsound hallowed hstep
  rcases returnsIff_step hsound hallowed (live_of_step hstep) with ⟨-, w₁, hw₁, hsound'⟩ | ⟨-, e, he⟩
  · cases hw₁.symm.trans hstep
    exact hsound'
  · cases he.symm.trans hstep

/-- Behind every order of calls the next call returns exactly if its socket has not been freed, nor its
parent where that is looked at, a new descriptor is one of a set, and a call of `select` that is waited
for does return. None retries `select`. -/
theorem returns_iff_of_runs {opened : ℕ → Bool} {c : SocketCall}
    (h : Runs (fun w c w' => step w c = .ok w') Allowed (initial opened) w) (hallowed : w.Allowed c) :
    (∃ w', w.step c = .ok w') ↔
      (∀ a, c.socket = some a → ∃ soc, w.sockets a = some soc) ∧ w.Fits c := by
  have hsound := sound_of_runs h
  constructor
  · intro hret
    obtain ⟨w', hstep⟩ := hret
    have hlive := live_of_step hstep
    rcases returnsIff_step hsound hallowed hlive with ⟨hfits, -⟩ | ⟨-, e, he⟩
    · exact ⟨hlive, hfits⟩
    · cases he.symm.trans hstep
  · intro hcond
    obtain ⟨hlive, hfits⟩ := hcond
    rcases returnsIff_step hsound hallowed hlive with ⟨-, w', hw', -⟩ | ⟨hnot, -⟩
    · exact ⟨w', hw'⟩
    · exact absurd hfits hnot

/-- Behind every order of calls, `socket_select` on a socket that listens returns with the first call of
`select`, and says that there is a connection unless that call has failed. The set that it is given holds
the socket itself, and nothing but descriptors that are open. -/
theorem select_of_runs {opened : ℕ → Bool}
    (h : Runs (fun w c w' => step w c = .ok w') Allowed (initial opened) w) (ha : w.sockets a = some soc)
    (hopen : soc.isClosed = false) (hnone : soc.parent = none) (ready : Bool) (results : List Bool) :
    ∃ w' par, w.socketSelectParent a (ready :: results) = .ok (ready, w') ∧ w'.sockets a = some par ∧
      par.set soc.socketDescriptor = true ∧ ∀ fd, par.set fd = true → w.opened fd = true := by
  have hsound := sound_of_runs h
  have hroot : soc.root a = a := by rw [SocketT.root, hnone, Option.getD_none]
  have hselect := socketSelectParent_eq hsound ha hopen (by rwa [hroot])
  rw [hroot, if_pos hnone] at hselect
  have ha' : (w.write a (cleared soc)).sockets a = some (cleared soc) := Function.update_self _ _ _
  have hsound' := hsound.cleared ha hopen
  refine ⟨w.write a (cleared soc), cleared soc, hselect _, ha', hsound'.own a _ ha' hnone, fun fd hfd => ?_⟩
  rcases hsound'.set a _ fd ha' hfd with hqueue | ⟨b, s, hb, hs, rfl, -⟩
  · cases hqueue
  · exact hsound'.opened b s hb hs

/-- Behind every order of calls, the descriptor of a socket that is not closed is open. Unless its parent has
been freed `socket_close` closes this descriptor, which is that of no other socket that is not closed, and
no other one. Closing the socket again does nothing. -/
theorem close_of_runs {opened : ℕ → Bool}
    (h : Runs (fun w c w' => step w c = .ok w') Allowed (initial opened) w) (ha : w.sockets a = some soc)
    (hopen : soc.isClosed = false) :
    w.opened soc.socketDescriptor = true ∧ ∀ par, w.sockets (soc.root a) = some par →
      ∃ w', w.socketClose a true = .ok w' ∧
        w'.opened = Function.update w.opened soc.socketDescriptor false ∧
        (∀ b s, w'.sockets b = some s → s.isClosed = false →
          b ≠ a ∧ w'.opened s.socketDescriptor = true) ∧
        ∀ memory, w'.socketClose a memory = .ok w' := by
  have hsound := sound_of_runs h
  refine ⟨hsound.opened a soc ha hopen, fun par hpar => ?_⟩
  refine ⟨_, socketClose_eq hsound ha hopen hpar, rfl, ?_, ?_⟩
  · intro b s hb hs
    refine ⟨?_, (hsound.closing ha hopen).opened b s hb hs⟩
    obtain ⟨s', hs', rfl⟩ := Option.map_eq_some_iff.mp hb
    exact (isClosed_closing hs).2
  · intro memory
    have hclosed : (closing a (soc.root a) soc.socketDescriptor a soc).isClosed = true := by simp [closing]
    exact socketClose_closed (Option.map_eq_some_iff.mpr ⟨soc, ha, rfl⟩) hclosed memory

/-- A process with its standard streams and a socket that listens. -/
def listening : Process :=
  ((initial fun fd => decide (fd < 3)).setOpened 3 true).alloc
    ⟨3, false, none, fun x => decide (x = 3), []⟩

/-- It has accepted a connection. -/
def connected : Process :=
  ((listening.setOpened 4 true).alloc ⟨4, false, some 0, fun _ => false, []⟩).write 0
    ⟨3, false, none, Function.update (fun x => decide (x = 3)) 4 true, []⟩

theorem runs_connected :
    Runs (fun w c w' => step w c = .ok w') Allowed (initial fun fd => decide (fd < 3)) connected := by
  have hlistening : (initial fun fd => decide (fd < 3)).step (.constructor (.done 3)) = .ok listening := rfl
  have hconnected : listening.step (.accept 0 (some 4) true) = .ok connected := rfl
  refine .head ⟨.constructor (.done 3), rfl, hlistening⟩ (.single ⟨.accept 0 (some 4) true, ?_, hconnected⟩)
  refine ⟨?_, ?_⟩
  · intro fd hfd
    cases hfd
    rfl
  · intro soc hsoc
    cases hsoc
    rfl

/-- The connection can be closed, but not behind the socket that has accepted it: that is the order in which
the server does it when it is interrupted. -/
theorem returns_iff_of_runs_connected :
    (∃ w', connected.step (.close 1 true) = .ok w') ∧
      ∃ w', connected.step (.destructor 0 true) = .ok w' ∧ ¬∃ w'', w'.step (.close 1 true) = .ok w'' := by
  refine ⟨(returns_iff_of_runs runs_connected (c := .close 1 true) rfl).mpr ⟨?_, ?_⟩, ?_⟩
  · intro a ha
    cases ha
    exact ⟨_, rfl⟩
  · intro soc hsoc _
    cases hsoc
    exact ⟨_, rfl⟩
  · obtain ⟨w', hw'⟩ : ∃ w', connected.step (.destructor 0 true) = .ok w' := ⟨_, rfl⟩
    have hruns := Relation.ReflTransGen.tail runs_connected ⟨.destructor 0 true, rfl, hw'⟩
    refine ⟨w', hw', fun hreturns => ?_⟩
    obtain ⟨-, hfits⟩ := (returns_iff_of_runs hruns (c := .close 1 true) rfl).mp hreturns
    cases hw'
    obtain ⟨par, hpar⟩ := hfits _ rfl rfl
    cases hpar

/-- A `select` that has returned because of its time limit. -/
theorem select_of_runs_connected :
    ∃ w' par, connected.socketSelectParent 0 [true] = .ok (true, w') ∧ w'.sockets 0 = some par ∧
      par.set 3 = true ∧ ∀ fd, par.set fd = true → connected.opened fd = true :=
  @select_of_runs connected 0 ⟨3, false, none, Function.update (fun x => decide (x = 3)) 4 true, []⟩ _
    runs_connected rfl rfl rfl true []

theorem close_of_runs_connected :
    connected.opened 4 = true ∧ ∃ w', connected.socketClose 1 true = .ok w' ∧
      w'.opened = Function.update connected.opened 4 false ∧
      (∀ b s, w'.sockets b = some s → s.isClosed = false → b ≠ 1 ∧ w'.opened s.socketDescriptor = true) ∧
      ∀ memory, w'.socketClose 1 memory = .ok w' :=
  have h := @close_of_runs connected 1 ⟨4, false, some 0, fun _ => false, []⟩ _ runs_connected rfl rfl
  ⟨h.1, h.2 _ rfl⟩

end Process

end PoQ
