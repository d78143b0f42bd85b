import PoQ.Lib.Runs
import PoQ.Lib.RwLocks

/-!
# Operations behind a reader-writer lock

Any number of users call operations on a shared state. An operation takes a lock, for reading or for
writing, works on the state in steps of its own, and gives the lock back; the steps of all users come in any
order. As long as an operation that has the lock for reading writes nothing, and every operation does what
it should when it is left alone, the operations have the effect and the answers of abstract ones that are
done one after the other, in the order in which they come to their answers.
-/

universe u

variable {U σ τ C A P ε : Type u}

/-- The operations: where they begin, how they hold the lock at a place, and what a step does to the
state. -/
structure Sections (σ C A P ε : Type u) where
  start : C → P
  mode : P → LockMode
  step : P → σ → Except ε (σ × (P ⊕ A))

namespace Sections

/-- Where a user is. -/
inductive Stage (C A P : Type u)
  | outside
  | waiting (c : C)
  | inside (c : C) (p : P)
  | leaving (c : C) (a : A)

/-- The lock, the shared state, the users, and the calls that have come to an answer. -/
structure State (U σ C A P : Type u) where
  locks : RwLocks U Unit
  shared : σ
  stage : U → Stage C A P
  history : List (U × C × A)

/-- What a user does next. -/
inductive Event (U C : Type u)
  | call (u : U) (c : C)
  | enter (u : U)
  | go (u : U)
  | leave (u : U)

/-- How a user holds the lock. -/
def held (ops : Sections σ C A P ε) : Stage C A P → Option LockMode
  | .outside | .waiting _ => none
  | .inside c _ | .leaving c _ => some (ops.mode (ops.start c))

section

variable [DecidableEq U]

def State.move (s : State U σ C A P) (u : U) (stage : Stage C A P) : State U σ C A P :=
  { s with stage := Function.update s.stage u stage }

/-- What a step of an operation leaves behind. -/
def State.done (s : State U σ C A P) (u : U) (c : C) : σ × (P ⊕ A) → State U σ C A P
  | (shared, .inl p) => { s.move u (.inside c p) with shared }
  | (shared, .inr a) => { s.move u (.leaving c a) with shared, history := s.history ++ [(u, c, a)] }

/-- One step. A step that is not enabled is `blocked`. -/
def next (ops : Sections σ C A P ε) (blocked : ε) (s : State U σ C A P) :
    Event U C → Except ε (State U σ C A P)
  | .call u c =>
    match s.stage u with
    | .outside => .ok (s.move u (.waiting c))
    | _ => .error blocked
  | .enter u =>
    match s.stage u with
    | .waiting c => (s.locks.perform u (.acquire (ops.mode (ops.start c)) ())).elim (.error blocked) fun locks =>
        .ok { s.move u (.inside c (ops.start c)) with locks }
    | _ => .error blocked
  | .go u =>
    match s.stage u with
    | .inside c p => (ops.step p s.shared).map (s.done u c)
    | _ => .error blocked
  | .leave u =>
    match s.stage u with
    | .leaving _ _ => (s.locks.perform u (.release ())).elim (.error blocked) fun locks =>
        .ok { s.move u .outside with locks }
    | _ => .error blocked

end

/-- Nobody has called an operation yet. -/
def State.initial (shared : σ) : State U σ C A P := ⟨.free, shared, fun _ => .outside, []⟩

/-- What an operation comes to from a place on when it is left alone. -/
inductive Computes (ops : Sections σ C A P ε) : P → σ → A → σ → Prop
  | answer {p : P} {s s' : σ} {a : A} : ops.step p s = .ok (s', .inr a) → Computes ops p s a s'
  | step {p p' : P} {s s' s'' : σ} {a : A} : ops.step p s = .ok (s', .inl p') →
    Computes ops p' s' a s'' → Computes ops p s a s''

/-- The answers of the operations, done one after the other on an abstract state. -/
inductive Answers (good : C → τ → A → Prop) (effect : C → τ → τ) (x₀ : τ) : List (U × C × A) → τ → Prop
  | nil : Answers good effect x₀ [] x₀
  | snoc {h : List (U × C × A)} {x : τ} {u : U} {c : C} {a : A} : Answers good effect x₀ h x →
    good c x a → Answers good effect x₀ (h ++ [(u, c, a)]) (effect c x)

variable {ops : Sections σ C A P ε}

theorem Computes.of_step {p p' : P} {s s' s'' : σ} {a : A} (h : ops.Computes p s a s'')
    (hstep : ops.step p s = .ok (s', .inl p')) : ops.Computes p' s' a s'' := by
  cases h with
  | answer h => cases h.symm.trans hstep
  | step h hrest =>
    cases h.symm.trans hstep
    exact hrest

theorem Computes.of_answer {p : P} {s s' s'' : σ} {a b : A} (h : ops.Computes p s a s'')
    (hstep : ops.step p s = .ok (s', .inr b)) : a = b ∧ s'' = s' := by
  cases h with
  | answer h =>
    cases h.symm.trans hstep
    exact ⟨rfl, rfl⟩
  | step h => cases h.symm.trans hstep

theorem Computes.exists_step {p : P} {s s' : σ} {a : A} (h : ops.Computes p s a s') :
    ∃ r, ops.step p s = .ok r := by
  cases h with
  | answer h => exact ⟨_, h⟩
  | step h => exact ⟨_, h⟩

/-- Every operation that may be called does what it should when it is left alone, and one that has the lock
for reading writes nothing. -/
structure Correct (ops : Sections σ C A P ε) (R : σ → τ → Prop) (allowed : σ → C → Prop)
    (good : C → τ → A → Prop) (effect : C → τ → τ) : Prop where
  computes : ∀ b x c, R b x → allowed b c →
    ∃ a b', ops.Computes (ops.start c) b a b' ∧ R b' (effect c x) ∧ good c x a
  reads : ∀ p s s' r, ops.mode p = .read → ops.step p s = .ok (s', r) →
    s' = s ∧ ∀ p', r = .inl p' → ops.mode p' = .read
  effect : ∀ c x, ops.mode (ops.start c) = .read → effect c x = x

/-- The users that may enter do so with a call that is allowed. -/
def Enters (allowed : σ → C → Prop) (s : State U σ C A P) : Event U C → Prop
  | .enter u => ∀ c, s.stage u = .waiting c → allowed s.shared c
  | .call _ _ | .go _ | .leave _ => True

/-- The state is `base`, which stands for `x`, but for what a user that has the lock for writing has done to
it; and every user that has the lock will come to a good answer. -/
structure Atomic (ops : Sections σ C A P ε) (R : σ → τ → Prop) (good : C → τ → A → Prop)
    (effect : C → τ → τ) (x₀ : τ) (base : σ) (x : τ) (s : State U σ C A P) : Prop where
  locks : s.locks.Agrees fun u _ => ops.held (s.stage u)
  answers : Answers good effect x₀ s.history x
  refines : R base x
  shared : (∀ u c p, s.stage u = .inside c p → ops.mode (ops.start c) = .read) → s.shared = base
  inside : ∀ u c p, s.stage u = .inside c p →
    (ops.mode (ops.start c) = .read → ops.mode p = .read) ∧
      ∃ a b, ops.Computes p s.shared a b ∧ R b (effect c x) ∧ good c x a
  leaving : ∀ u c a, s.stage u = .leaving c a → (u, c, a) ∈ s.history

namespace Atomic

variable {R : σ → τ → Prop} {allowed : σ → C → Prop} {good : C → τ → A → Prop} {effect : C → τ → τ}
  {x₀ x : τ} {base : σ} {s t : State U σ C A P} {u v : U} {c d : C} {p q : P} {a : A}

theorem initial (h : R base x₀) :
    Atomic ops R good effect x₀ base x₀ (State.initial base : State U σ C A P) where
  locks := .free
  answers := .nil
  refines := h
  shared _ := rfl
  inside _ _ _ h := nomatch h
  leaving _ _ _ h := nomatch h

/-- Nobody else is inside when a user has the lock for writing. -/
theorem eq_of_write (h : Atomic ops R good effect x₀ base x s) (hu : s.stage u = .inside c p)
    (hmode : ops.mode (ops.start c) = .write) (hv : s.stage v = .inside d q) : v = u := by
  have hheld : ops.held (s.stage u) = some .write := by rw [hu, held, hmode]
  have hheld' : ops.held (s.stage v) = some (ops.mode (ops.start d)) := by rw [hv, held]
  exact h.locks.eq_of_write (l := ()) hheld hheld'

/-- A user that is inside makes a step: one that reads leaves the state alone, and one that writes is
alone. -/
theorem frame (hops : Correct ops R allowed good effect) (h : Atomic ops R good effect x₀ base x s)
    (hu : s.stage u = .inside c p) {shared : σ} {r : P ⊕ A} (hstep : ops.step p s.shared = .ok (shared, r)) :
    ops.mode (ops.start c) = .read ∧ shared = s.shared ∨
      ops.mode (ops.start c) = .write ∧ ∀ v d q, s.stage v = .inside d q → v = u := by
  cases hmode : ops.mode (ops.start c) with
  | read => exact .inl ⟨rfl, (hops.reads p _ _ _ ((h.inside u c p hu).1 hmode) hstep).1⟩
  | write => exact .inr ⟨rfl, fun v d q hv => h.eq_of_write hu hmode hv⟩

variable [DecidableEq U]

theorem held_move (ops : Sections σ C A P ε) (s : State U σ C A P) (u : U) (stage : Stage C A P) :
    (fun v (_ : Unit) => ops.held (Function.update s.stage u stage v)) =
      Function.update (fun v _ => ops.held (s.stage v)) u fun _ => ops.held stage := by
  funext v l
  rcases eq_or_ne v u with rfl | hne
  · rw [Function.update_self, Function.update_self]
  · rw [Function.update_of_ne hne, Function.update_of_ne hne]

/-- A user does something to the lock and goes to another place. -/
theorem locks_perform (h : Atomic ops R good effect x₀ base x s) {action : LockAction Unit}
    {locks : RwLocks U Unit} (hlocks : s.locks.perform u action = some locks) {stage : Stage C A P}
    (heffect : (action.effect fun _ => ops.held (s.stage u)) = fun _ => ops.held stage) :
    locks.Agrees fun v _ => ops.held (Function.update s.stage u stage v) := by
  have hperform := h.locks.perform hlocks
  rw [heffect] at hperform
  rwa [held_move]

theorem locks_same (h : Atomic ops R good effect x₀ base x s) {stage : Stage C A P}
    (hheld : ops.held stage = ops.held (s.stage u)) :
    s.locks.Agrees fun v _ => ops.held (Function.update s.stage u stage v) := by
  have hnone : s.locks.perform u LockAction.none = some s.locks := rfl
  apply h.locks_perform hnone
  rw [hheld]
  rfl

/-- Where a user is behind a step of another one or of its own. -/
theorem stage_cases {stage w : Stage C A P} (h : Function.update s.stage u stage v = w) :
    v = u ∧ stage = w ∨ v ≠ u ∧ s.stage v = w := by
  rcases eq_or_ne v u with rfl | hne
  · rw [Function.update_self] at h
    exact .inl ⟨rfl, h⟩
  · rw [Function.update_of_ne hne] at h
    exact .inr ⟨hne, h⟩

theorem call (h : Atomic ops R good effect x₀ base x s) (hu : s.stage u = .outside) (c : C) :
    Atomic ops R good effect x₀ base x (s.move u (.waiting c)) := by
  refine ⟨h.locks_same (by rw [hu]; rfl), h.answers, h.refines, fun hread => h.shared fun v d q hv => ?_,
    fun v d q hv => ?_, fun v d a hv => ?_⟩
  · have hne : v ≠ u := by
      rintro rfl
      cases hu.symm.trans hv
    exact hread v d q ((Function.update_of_ne hne _ _).trans hv)
  · obtain ⟨-, heq⟩ | ⟨-, hv⟩ := stage_cases hv
    · cases heq
    · exact h.inside v d q hv
  · obtain ⟨-, heq⟩ | ⟨-, hv⟩ := stage_cases hv
    · cases heq
    · exact h.leaving v d a hv

/-- Whoever can take the lock finds nobody writing. -/
theorem reading_of_perform (h : Atomic ops R good effect x₀ base x s) {mode : LockMode}
    {locks : RwLocks U Unit} (hlocks : s.locks.perform u (.acquire mode ()) = some locks)
    (hv : s.stage v = .inside d q) : ops.mode (ops.start d) = .read ∧ mode = .read := by
  have hheld : ops.held (s.stage v) = some (ops.mode (ops.start d)) := by rw [hv, held]
  cases mode with
  | write =>
    rw [RwLocks.perform] at hlocks
    split at hlocks
    · next hfree => cases (h.locks.not_held hfree.1 hfree.2 v).symm.trans hheld
    · cases hlocks
  | read =>
    rw [RwLocks.perform] at hlocks
    split at hlocks
    · next hfree =>
      refine ⟨?_, rfl⟩
      cases hmode : ops.mode (ops.start d) with
      | read => rfl
      | write =>
        rw [hmode] at hheld
        cases ((h.locks.writer v ()).mpr hheld).symm.trans hfree
    · cases hlocks

theorem enter (hops : Correct ops R allowed good effect) (h : Atomic ops R good effect x₀ base x s)
    (hallowed : allowed s.shared c) {locks : RwLocks U Unit}
    (hlocks : s.locks.perform u (.acquire (ops.mode (ops.start c)) ()) = some locks) :
    Atomic ops R good effect x₀ base x { s.move u (.inside c (ops.start c)) with locks } := by
  have hshared : s.shared = base := h.shared fun v d q hv => (h.reading_of_perform hlocks hv).1
  have hagrees : locks.Agrees fun v _ => ops.held (Function.update s.stage u (.inside c (ops.start c)) v) :=
    h.locks_perform hlocks rfl
  rw [hshared] at hallowed
  have hcomputes := hops.computes base x c h.refines hallowed
  rw [← hshared] at hcomputes
  refine ⟨hagrees, h.answers, h.refines, fun _ => hshared, fun v d q hv => ?_, fun v d a hv => ?_⟩
  · obtain ⟨-, heq⟩ | ⟨-, hv⟩ := stage_cases hv
    · cases heq
      exact ⟨id, hcomputes⟩
    · exact h.inside v d q hv
  · obtain ⟨-, heq⟩ | ⟨-, hv⟩ := stage_cases hv
    · cases heq
    · exact h.leaving v d a hv

theorem leave (h : Atomic ops R good effect x₀ base x s) (hu : s.stage u = .leaving c a)
    {locks : RwLocks U Unit} (hlocks : s.locks.perform u (.release ()) = some locks) :
    Atomic ops R good effect x₀ base x { s.move u .outside with locks } := by
  have hagrees : locks.Agrees fun v _ => ops.held (Function.update s.stage u .outside v) :=
    h.locks_perform hlocks (by funext l; rfl)
  refine ⟨hagrees, h.answers, h.refines, fun hread => h.shared fun v d q hv => ?_, fun v d q hv => ?_,
    fun v d a hv => ?_⟩
  · have hne : v ≠ u := by
      rintro rfl
      cases hu.symm.trans hv
    exact hread v d q ((Function.update_of_ne hne _ _).trans hv)
  · obtain ⟨-, heq⟩ | ⟨-, hv⟩ := stage_cases hv
    · cases heq
    · exact h.inside v d q hv
  · obtain ⟨-, heq⟩ | ⟨-, hv⟩ := stage_cases hv
    · cases heq
    · exact h.leaving v d a hv

theorem go (hops : Correct ops R allowed good effect) (h : Atomic ops R good effect x₀ base x s)
    (hu : s.stage u = .inside c p) {shared : σ} (hstep : ops.step p s.shared = .ok (shared, .inl q)) :
    Atomic ops R good effect x₀ base x (s.done u c (shared, .inl q)) := by
  obtain ⟨hmode, a, b, hcomputes, hb, hgood⟩ := h.inside u c p hu
  have hframe := h.frame hops hu hstep
  refine ⟨h.locks_same (by rw [hu]; rfl), h.answers, h.refines, fun hread => ?_, fun v d q' hv => ?_,
    fun v d a hv => ?_⟩
  · have hc : ops.mode (ops.start c) = .read := hread u c q (Function.update_self _ _ _)
    obtain ⟨-, hsame⟩ | ⟨hwrite, -⟩ := hframe
    · refine Eq.trans hsame (h.shared fun v d q' hv => ?_)
      rcases eq_or_ne v u with rfl | hne
      · cases hu.symm.trans hv
        exact hc
      · exact hread v d q' ((Function.update_of_ne hne _ _).trans hv)
    · cases hwrite.symm.trans hc
  · obtain ⟨-, heq⟩ | ⟨hne, hv⟩ := stage_cases hv
    · cases heq
      refine ⟨fun hc => (hops.reads p _ _ _ (hmode hc) hstep).2 q rfl, a, b, hcomputes.of_step hstep, hb, hgood⟩
    · obtain ⟨-, hsame⟩ | ⟨-, halone⟩ := hframe
      · obtain ⟨hd, hinside⟩ := h.inside v d q' hv
        rw [← hsame] at hinside
        exact ⟨hd, hinside⟩
      · exact absurd (halone v d q' hv) hne
  · obtain ⟨-, heq⟩ | ⟨-, hv⟩ := stage_cases hv
    · cases heq
    · exact h.leaving v d a hv

theorem answer (hops : Correct ops R allowed good effect) (h : Atomic ops R good effect x₀ base x s)
    (hu : s.stage u = .inside c p) {shared : σ} (hstep : ops.step p s.shared = .ok (shared, .inr a)) :
    Atomic ops R good effect x₀ shared (effect c x) (s.done u c (shared, .inr a)) := by
  obtain ⟨-, a', b, hcomputes, hb, hgood⟩ := h.inside u c p hu
  obtain ⟨rfl, rfl⟩ := hcomputes.of_answer hstep
  refine ⟨h.locks_same (by rw [hu]; rfl), h.answers.snoc hgood, hb, fun _ => rfl, fun v d q hv => ?_,
    fun v d a hv => ?_⟩
  · obtain ⟨-, heq⟩ | ⟨hne, hv⟩ := stage_cases hv
    · cases heq
    · obtain ⟨hread, hsame⟩ | ⟨-, halone⟩ := h.frame hops hu hstep
      · rw [hops.effect c x hread]
        obtain ⟨hd, hinside⟩ := h.inside v d q hv
        rw [← hsame] at hinside
        exact ⟨hd, hinside⟩
      · exact absurd (halone v d q hv) hne
  · obtain ⟨rfl, heq⟩ | ⟨-, hv⟩ := stage_cases hv
    · cases heq
      exact List.mem_append_right _ (List.mem_singleton_self _)
    · exact List.mem_append_left _ (h.leaving v d a hv)

theorem next (hops : Correct ops R allowed good effect) {blocked : ε} {e : Event U C}
    (h : Atomic ops R good effect x₀ base x s) (henters : Enters allowed s e)
    (hnext : ops.next blocked s e = .ok t) :
    ∃ base x, Atomic ops R good effect x₀ base x t := by
  cases e with
  | call u c =>
    rw [Sections.next] at hnext
    split at hnext
    · next hu =>
      cases hnext
      exact ⟨base, x, h.call hu c⟩
    · cases hnext
  | enter u =>
    rw [Sections.next] at hnext
    split at hnext
    · next c hu =>
      rcases hlocks : s.locks.perform u (.acquire (ops.mode (ops.start c)) ()) with _ | locks
      · rw [hlocks] at hnext
        cases hnext
      · rw [hlocks] at hnext
        cases hnext
        exact ⟨base, x, h.enter hops (henters c hu) hlocks⟩
    · cases hnext
  | go u =>
    rw [Sections.next] at hnext
    split at hnext
    · next c p hu =>
      obtain ⟨⟨shared, r⟩, hstep, rfl⟩ := Except.map_eq_ok.mp hnext
      rcases r with q | a
      · exact ⟨base, x, h.go hops hu hstep⟩
      · exact ⟨shared, effect c x, h.answer hops hu hstep⟩
    · cases hnext
  | leave u =>
    rw [Sections.next] at hnext
    split at hnext
    · next c a hu =>
      rcases hlocks : s.locks.perform u (.release ()) with _ | locks
      · rw [hlocks] at hnext
        cases hnext
      · rw [hlocks] at hnext
        cases hnext
        exact ⟨base, x, h.leave hu hlocks⟩
    · cases hnext

end Atomic

/-- Every run keeps to some order of the operations. -/
theorem atomic_of_runs [DecidableEq U] {R : σ → τ → Prop} {allowed : σ → C → Prop} {good : C → τ → A → Prop}
    {effect : C → τ → τ} (hops : Correct ops R allowed good effect) {blocked : ε} {shared : σ} {x₀ : τ}
    (h₀ : R shared x₀) {s : State U σ C A P}
    (h : Runs (fun s e t => ops.next blocked s e = .ok t) (Enters allowed) (State.initial shared) s) :
    ∃ base x, Atomic ops R good effect x₀ base x s := by
  refine Runs.invariant (I := fun s => ∃ base x, Atomic ops R good effect x₀ base x s) ?_ h
    ⟨shared, x₀, .initial h₀⟩
  intro s e t hs henters hnext
  obtain ⟨base, x, hs⟩ := hs
  exact hs.next hops henters hnext

end Sections
