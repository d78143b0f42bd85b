import Mathlib.Data.List.Basic

/-!
# Computations that may abort

A call of a program either returns or is ended early, by a failed assertion or by an access outside an
object. Such calls are `Except ε` computations; the lemmas below peel them apart without unfolding the
monad.
-/

/-- An assertion that ends the call with `e` when `p` is false. -/
def ensure {ε : Type*} (p : Prop) [Decidable p] (e : ε) : Except ε Unit :=
  if p then .ok () else .error e

theorem ensure_of {ε : Type*} {p : Prop} [Decidable p] (h : p) (e : ε) : ensure p e = .ok () :=
  if_pos h

namespace Except

universe u v

variable {ε : Type u} {α β : Type v}

@[simp] theorem ok_bind (a : α) (f : α → Except ε β) : (ok a >>= f) = f a := rfl

@[simp] theorem error_bind (e : ε) (f : α → Except ε β) : (error e >>= f) = error e := rfl

@[simp] theorem pure_eq_ok (a : α) : (pure a : Except ε α) = ok a := rfl

theorem bind_eq_ok {x : Except ε α} {f : α → Except ε β} {b : β} :
    (x >>= f) = ok b ↔ ∃ a, x = ok a ∧ f a = ok b := by
  cases x <;> simp

theorem map_eq_ok {x : Except ε α} {f : α → β} {b : β} : x.map f = ok b ↔ ∃ a, x = ok a ∧ f a = b := by
  cases x <;> simp [Except.map]

/-- A guarded call that returns. -/
theorem ite_eq_ok {p : Prop} [Decidable p] {e : ε} {a b : α} (h : (if p then ok a else error e) = ok b) :
    p ∧ a = b := by
  split at h
  · next hp => exact ⟨hp, ok.inj h⟩
  · cases h

end Except

@[simp] theorem ensure_eq_ok {ε : Type*} {p : Prop} [Decidable p] {e : ε} {u : Unit} :
    ensure p e = .ok u ↔ p := by
  unfold ensure
  split <;> simp_all

/-- A call for every entry of a list, each of which returns. -/
theorem List.mapM_ok {ε α β : Type*} {f : α → Except ε β} {g : α → β} {l : List α}
    (h : ∀ a ∈ l, f a = .ok (g a)) : l.mapM f = .ok (l.map g) := by
  induction l with
  | nil => rfl
  | cons a l ih =>
    obtain ⟨ha, hl⟩ := forall_mem_cons.mp h
    rw [mapM_cons, ha, Except.ok_bind, ih hl]
    rfl

/-- A loop over the entries of a list whose state after `k` entries is known to be `S k`. -/
theorem List.foldlM_zipIdx_ok {ε σ α : Type*} {f : σ → α × ℕ → Except ε σ} {l : List α} (S : ℕ → σ)
    (h : ∀ k a, l[k]? = some a → f (S k) (a, k) = .ok (S (k + 1))) :
    l.zipIdx.foldlM f (S 0) = .ok (S l.length) := by
  have key : ∀ (m : List α) (i : ℕ), (∀ k a, m[k]? = some a → f (S (i + k)) (a, i + k) =
      .ok (S (i + k + 1))) → (m.zipIdx i).foldlM f (S i) = .ok (S (i + m.length)) := by
    intro m
    induction m with
    | nil => intro i _; simp
    | cons a m ih =>
      intro i hm
      have h0 : f (S i) (a, i) = .ok (S (i + 1)) := hm 0 a rfl
      have hs := ih (i + 1) fun k b hb => by
        have := hm (k + 1) b hb
        rwa [show i + (k + 1) = i + 1 + k by omega] at this
      rw [zipIdx_cons, foldlM_cons, h0, Except.ok_bind, hs, length_cons]
      congr 2
      omega
  simpa using key l 0 (by simpa using h)
