import Mathlib.Logic.Relation
import PoQ.Lib.Abort

/-!
# Runs of a labelled transition system

Runs whose steps all meet a condition on the state before the step and on its label, and the rule that
carries an invariant along them.
-/

variable {σ α : Type*} {step : σ → α → σ → Prop} {cond : σ → α → Prop}

/-- `t` is reached from `s` by steps that meet the condition. -/
def Runs (step : σ → α → σ → Prop) (cond : σ → α → Prop) : σ → σ → Prop :=
  Relation.ReflTransGen fun s t => ∃ a, cond s a ∧ step s a t

namespace Runs

theorem refl (s : σ) : Runs step cond s s := Relation.ReflTransGen.refl

/-- What the steps of a run preserve holds along the whole run. -/
theorem invariant {I : σ → Prop} (hstep : ∀ s a t, I s → cond s a → step s a t → I t) {s t : σ}
    (h : Runs step cond s t) (hs : I s) : I t := by
  induction h with
  | refl => exact hs
  | tail _ hlast ih =>
    obtain ⟨a, hc, ha⟩ := hlast
    exact hstep _ a _ ih hc ha

/-- A run whose steps also meet a condition that an invariant gives. -/
theorem strengthen {I : σ → Prop} {cond' : σ → α → Prop}
    (hstep : ∀ s a t, I s → cond s a → step s a t → cond' s a ∧ I t) {s t : σ}
    (h : Runs step cond s t) (hs : I s) : Runs step cond' s t := by
  have hboth : Runs step cond' s t ∧ I t := by
    induction h with
    | refl => exact ⟨refl _, hs⟩
    | tail _ hlast ih =>
      obtain ⟨a, hc, ha⟩ := hlast
      obtain ⟨hc', ht⟩ := hstep _ a _ ih.2 hc ha
      exact ⟨Relation.ReflTransGen.tail ih.1 ⟨a, hc', ha⟩, ht⟩
  exact hboth.1

theorem mono {cond' : σ → α → Prop} {s t : σ} (h : Runs step cond s t)
    (hcond : ∀ s a, cond s a → cond' s a) : Runs step cond' s t :=
  h.strengthen (I := fun _ => True) (fun s a _ _ hc _ => ⟨hcond s a hc, trivial⟩) trivial

/-- When every step is matched by steps of a computable system, related to it by `R` and by the labels so
far, the whole run is. -/
theorem exists_foldlM {τ β ε : Type*} {next : τ → β → Except ε τ} {R : σ → τ → List β → Prop}
    (hstep : ∀ s a s' t l, R s t l → cond s a → step s a s' →
      ∃ bs t', bs.foldlM next t = .ok t' ∧ R s' t' (l ++ bs))
    {s s' : σ} {t : τ} {l : List β} (h : Runs step cond s s') (hs : R s t l) :
    ∃ l' t', l'.foldlM next t = .ok t' ∧ R s' t' (l ++ l') := by
  induction h with
  | refl => exact ⟨[], t, rfl, by rwa [List.append_nil]⟩
  | tail _ hlast ih =>
    obtain ⟨a, hc, ha⟩ := hlast
    obtain ⟨l', u, hl, hu⟩ := ih
    obtain ⟨bs, u', hbs, hu'⟩ := hstep _ a _ u _ hu hc ha
    refine ⟨l' ++ bs, u', ?_, by rwa [← List.append_assoc]⟩
    rw [List.foldlM_append, hl]
    exact hbs

/-- The states of a computable system that a list of labels leads through. -/
theorem of_foldlM {ε : Type*} {next : σ → α → Except ε σ} {l : List α} {s t : σ}
    (h : l.foldlM next s = .ok t) :
    Runs (fun s a t => next s a = .ok t) (fun _ _ => True) s t := by
  induction l generalizing s with
  | nil =>
    cases h
    exact refl _
  | cons a l ih =>
    rw [List.foldlM_cons] at h
    obtain ⟨u, hu, h⟩ := Except.bind_eq_ok.mp h
    exact Relation.ReflTransGen.head ⟨a, trivial, hu⟩ (ih h)

/-- A list of labels is run on a computable step as long as the condition holds. -/
def exec {ε : Type*} (next : σ → α → Except ε σ) (cond : σ → α → Prop)
    [∀ s a, Decidable (cond s a)] (e : ε) (l : List α) (s : σ) : Except ε σ :=
  l.foldlM (fun s a => if cond s a then next s a else .error e) s

theorem of_exec {ε : Type*} {next : σ → α → Except ε σ} [∀ s a, Decidable (cond s a)] {e : ε}
    {l : List α} {s t : σ} (h : exec next cond e l s = .ok t) :
    Runs (fun s a t => next s a = .ok t) cond s t := by
  induction l generalizing s with
  | nil =>
    cases h
    exact refl _
  | cons a l ih =>
    rw [exec, List.foldlM_cons] at h
    obtain ⟨u, hu, h⟩ := Except.bind_eq_ok.mp h
    split at hu
    · next hc => exact Relation.ReflTransGen.head ⟨a, hc, hu⟩ (ih h)
    · cases hu

end Runs

/-- A list of labels is run on a computable step, up to the first one that does not return, and the
property holds at every step that is tried. -/
def Along {ε : Type*} (next : σ → α → Except ε σ) (P : σ → α → Prop) : σ → List α → Prop
  | _, [] => True
  | s, a :: l => P s a ∧ ∀ t, next s a = .ok t → Along next P t l

theorem Along.cons {ε : Type*} {next : σ → α → Except ε σ} {P : σ → α → Prop} {s t : σ} {a : α} {l : List α}
    (ha : P s a) (ht : next s a = .ok t) (h : Along next P t l) : Along next P s (a :: l) := by
  refine ⟨ha, fun u hu => ?_⟩
  cases ht.symm.trans hu
  exact h

theorem Along.congr {ε : Type*} {next : σ → α → Except ε σ} {P Q : σ → α → Prop} {s : σ} {l : List α}
    (h : ∀ s a, a ∈ l → (P s a ↔ Q s a)) : Along next P s l ↔ Along next Q s l := by
  induction l generalizing s with
  | nil => exact Iff.rfl
  | cons a l ih =>
    refine and_congr (h s a List.mem_cons_self) (forall₂_congr fun t _ => ?_)
    exact ih fun s b hb => h s b (List.mem_cons_of_mem _ hb)

/-- The property holds at a step behind a run that returns. -/
theorem Along.of_foldlM {ε : Type*} {next : σ → α → Except ε σ} {P : σ → α → Prop} {s t : σ}
    {l : List α} {a : α} (h : Along next P s (l ++ [a])) (ht : l.foldlM next s = .ok t) : P t a := by
  induction l generalizing s with
  | nil =>
    cases ht
    exact h.1
  | cons b l ih =>
    rw [List.foldlM_cons] at ht
    obtain ⟨u, hu, ht⟩ := Except.bind_eq_ok.mp ht
    exact ih (h.2 u hu) ht

theorem Along.of_forall {ε : Type*} {next : σ → α → Except ε σ} {P : α → Prop} {l : List α}
    (h : ∀ a ∈ l, P a) (s : σ) : Along next (fun _ a => P a) s l := by
  induction l generalizing s with
  | nil => exact True.intro
  | cons a l ih =>
    obtain ⟨ha, hl⟩ := List.forall_mem_cons.mp h
    exact ⟨ha, fun t _ => ih hl t⟩

theorem Along.left {ε : Type*} {next : σ → α → Except ε σ} {P : σ → α → Prop} {s : σ} {l m : List α}
    (h : Along next P s (l ++ m)) : Along next P s l := by
  induction l generalizing s with
  | nil => exact True.intro
  | cons a l ih => exact ⟨h.1, fun t ht => ih (h.2 t ht)⟩

/-- What relates the labels so far to the state, and is kept by every step that meets the condition, holds
behind a run that returns. -/
theorem Along.relate {ε : Type*} {next : σ → α → Except ε σ} {P : σ → α → Prop} {R : List α → σ → Prop}
    {s t : σ} {l : List α} (hstep : ∀ l s a t, R l s → P s a → next s a = .ok t → R (l ++ [a]) t)
    (hs : R [] s) (h : Along next P s l) (ht : l.foldlM next s = .ok t) : R l t := by
  rw [← List.nil_append l]
  generalize ([] : List α) = l₀ at hs
  induction l generalizing s l₀ with
  | nil =>
    cases ht
    rwa [List.append_nil]
  | cons a l ih =>
    rw [List.foldlM_cons] at ht
    obtain ⟨u, hu, ht⟩ := Except.bind_eq_ok.mp ht
    rw [List.append_cons]
    exact ih (h.2 u hu) ht (l₀ ++ [a]) (hstep l₀ s a u hs h.1 hu)

/-- When a step keeps `P` exactly if it meets the condition, and breaks it for good otherwise, `P` holds
behind a run that returns exactly if the condition holds at every step. `I` is kept by every step. -/
theorem Along.iff_of_foldlM {ε : Type*} {next : σ → α → Except ε σ} {I P : σ → Prop} {s t : σ}
    {l : List α} (hI : ∀ s a t, I s → next s a = .ok t → I t)
    (hP : ∀ s a t, a ∈ l → I s → next s a = .ok t → (P t ↔ P s ∧ cond s a)) (hs : I s)
    (ht : l.foldlM next s = .ok t) : P t ↔ P s ∧ Along next cond s l := by
  induction l generalizing s with
  | nil =>
    cases ht
    exact (and_iff_left trivial).symm
  | cons a l ih =>
    rw [List.foldlM_cons] at ht
    obtain ⟨u, hu, ht⟩ := Except.bind_eq_ok.mp ht
    have hrest : Along next cond s (a :: l) ↔ cond s a ∧ Along next cond u l := by
      refine and_congr_right fun _ => ⟨fun h => h u hu, fun h v hv => ?_⟩
      cases hu.symm.trans hv
      exact h
    have htail := ih (fun s b t hb => hP s b t (List.mem_cons_of_mem _ hb)) (hI s a u hs hu) ht
    rw [htail, hP s a u List.mem_cons_self hs hu, hrest, and_assoc]
