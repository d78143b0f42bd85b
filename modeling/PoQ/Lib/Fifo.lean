import Mathlib.Data.List.Count
import Mathlib.Data.List.Nodup

/-!
# Turns in a queue

The first in a queue has its turn, and then goes back to the end of the queue, behind those that have come
in the meantime, or leaves. One that leaves is gone for good, or it comes back in the very next turn.
Between two turns of one user every other has at most one turn, and has one if it was waiting when the
first of the two was over.
-/

namespace Fifo

variable {α : Type*} [DecidableEq α]

/-- A turn: who had it, and who was waiting when it was over. -/
structure Turn (α : Type*) where
  served : α
  waiting : List α
deriving DecidableEq, Repr

/-- What comes behind the turn has every other user at most once, and once if it was waiting. -/
def Turn.FairBehind (d : Turn α) (behind : List α) : Prop :=
  ∀ x, x ≠ d.served → behind.count x ≤ 1 ∧ (x ∈ d.waiting → behind.count x = 1)

/-- The turns between any two consecutive ones of a user are fair. -/
def FairTurns (turns : List (Turn α)) : Prop :=
  ∀ l₁ d mid d' l₂, turns = l₁ ++ d :: (mid ++ d' :: l₂) → d'.served = d.served →
    (∀ e ∈ mid, e.served ≠ d.served) → d.FairBehind (mid.map Turn.served)

/-- Where a user is whose last turn is `d`, with the turns `mid` behind it: in the queue, with those ahead
of it that have not had their turn yet; about to come back; or gone. -/
inductive Pending (gone returning : α → Prop) (queue : List α) (d : Turn α) (mid : List (Turn α)) : Prop
  | queued (ahead behind : List α) (hqueue : queue = ahead ++ d.served :: behind)
    (hfair : d.FairBehind (mid.map Turn.served ++ ahead)) : Pending gone returning queue d mid
  | returning (hmid : mid = []) (hreturning : returning d.served) (hqueue : queue = d.waiting) :
    Pending gone returning queue d mid
  | gone (hgone : gone d.served) : Pending gone returning queue d mid

/-- So it is for everybody that has had a turn. -/
def AllPending (gone returning : α → Prop) (queue : List α) (turns : List (Turn α)) : Prop :=
  ∀ l₁ d mid, turns = l₁ ++ d :: mid → (∀ e ∈ mid, e.served ≠ d.served) →
    Pending gone returning queue d mid

theorem fairTurns_nil : FairTurns ([] : List (Turn α)) := by
  intro l₁ d mid d' l₂ h
  simp at h

theorem allPending_nil (gone returning : α → Prop) (queue : List α) :
    AllPending gone returning queue [] := by
  intro l₁ d mid h
  simp at h

/-- Everybody that waits comes once in a list without repetitions that begins with those that wait. -/
theorem Turn.FairBehind.of_nodup {d : Turn α} {l : List α} (hl : l.Nodup) (hsub : d.waiting ⊆ l) :
    d.FairBehind l :=
  fun x _ => ⟨List.nodup_iff_count_le_one.mp hl x, fun hx => List.count_eq_one_of_mem hl (hsub hx)⟩

section

variable {gone gone' returning returning' : α → Prop} {turns : List (Turn α)} {y : α}
  {rest arrivals queue : List α}

/-- Whoever is first in the queue and has had a turn has had to wait for a fair list of turns. -/
theorem AllPending.first (h : AllPending gone returning (y :: rest) turns) (hnodup : (y :: rest).Nodup)
    (hgone : ¬gone y) (hreturning : ¬returning y) {l₁ : List (Turn α)} {d : Turn α} {mid : List (Turn α)}
    (hturns : turns = l₁ ++ d :: mid) (hd : d.served = y) (hmid : ∀ e ∈ mid, e.served ≠ d.served) :
    d.FairBehind (mid.map Turn.served) := by
  cases h l₁ d mid hturns hmid with
  | queued ahead behind hqueue hfair =>
    cases ahead with
    | nil => simpa using hfair
    | cons z ahead =>
      -- the user would be in the queue twice
      rw [List.cons_append, List.cons.injEq] at hqueue
      have hmem : y ∈ rest := by
        rw [hqueue.2, ← hd]
        simp
      exact absurd hmem (List.nodup_cons.mp hnodup).1
  | returning _ hret => exact absurd (hd ▸ hret) hreturning
  | gone hg => exact absurd (hd ▸ hg) hgone

/-- A turn is added. -/
theorem FairTurns.serve (hfair : FairTurns turns) (hpending : AllPending gone returning (y :: rest) turns)
    (hnodup : (y :: rest).Nodup) (hgone : ¬gone y) (hreturning : ¬returning y) (waiting : List α) :
    FairTurns (turns ++ [⟨y, waiting⟩]) := by
  intro l₁ d mid d' l₂ hturns hd' hmid
  obtain rfl | ⟨l₂, e, rfl⟩ := List.eq_nil_or_concat l₂
  · have hsplit : turns ++ [⟨y, waiting⟩] = (l₁ ++ d :: mid) ++ [d'] := by simpa using hturns
    obtain ⟨hbefore, hlast⟩ := List.append_inj' hsplit rfl
    cases hlast
    exact hpending.first hnodup hgone hreturning hbefore hd'.symm hmid
  · have hsplit : turns ++ [⟨y, waiting⟩] = (l₁ ++ d :: (mid ++ d' :: l₂)) ++ [e] := by
      simpa using hturns
    obtain ⟨hbefore, -⟩ := List.append_inj' hsplit rfl
    exact hfair l₁ d mid d' l₂ hbefore hd' hmid

/-- Those that have had a turn before, when `y` has one and others come. -/
theorem Pending.serve {d : Turn α} {mid : List (Turn α)} {back : List α}
    (h : Pending gone returning (y :: rest) d mid) (hd : y ≠ d.served)
    (hnodup : (y :: rest ++ arrivals).Nodup) (hgone : ∀ x, x ≠ y → gone x → gone' x)
    (hreturning : ∀ x, returning x → x ∈ arrivals) (waiting : List α) :
    Pending gone' returning' (rest ++ arrivals ++ back) d (mid ++ [⟨y, waiting⟩]) := by
  cases h with
  | queued ahead behind hqueue hfair =>
    cases ahead with
    | nil => exact absurd (List.cons.inj hqueue).1 hd
    | cons z ahead =>
      obtain ⟨rfl, rfl⟩ := List.cons.inj hqueue
      refine .queued ahead (behind ++ arrivals ++ back) (by simp) ?_
      simpa using hfair
  | returning hmid hret hqueue =>
    subst hmid
    obtain ⟨before, after, rfl⟩ := List.append_of_mem (hreturning _ hret)
    refine .queued (rest ++ before) (after ++ back) (by simp) (.of_nodup ?_ ?_)
    · refine hnodup.sublist ?_
      simp
    · rw [← hqueue]
      simp
  | gone hg => exact .gone (hgone _ (Ne.symm hd) hg)

/-- A user has its turn and goes back to the end of the queue, or leaves. -/
theorem AllPending.serve (h : AllPending gone returning (y :: rest) turns)
    (hnodup : (y :: rest ++ arrivals).Nodup) (hgone : ∀ x, x ≠ y → gone x → gone' x)
    (hreturning : ∀ x, returning x → x ∈ arrivals)
    (hqueue : queue = rest ++ arrivals ++ [y] ∨ queue = rest ++ arrivals ∧ (gone' y ∨ returning' y)) :
    AllPending gone' returning' queue (turns ++ [⟨y, rest ++ arrivals⟩]) := by
  intro l₁ d mid hturns hmid
  obtain rfl | ⟨mid, e, rfl⟩ := List.eq_nil_or_concat mid
  · obtain ⟨-, hlast⟩ := List.append_inj' hturns rfl
    cases hlast
    obtain rfl | ⟨rfl, hy | hy⟩ := hqueue
    · refine .queued (rest ++ arrivals) [] rfl (.of_nodup ?_ ?_)
      · exact (List.nodup_cons.mp hnodup).2
      · exact List.Subset.refl _
    · exact .gone hy
    · exact .returning rfl hy rfl
  · have hsplit : turns ++ [⟨y, rest ++ arrivals⟩] = (l₁ ++ d :: mid) ++ [e] := by simpa using hturns
    obtain ⟨hbefore, hlast⟩ := List.append_inj' hsplit rfl
    cases hlast
    have hold := h l₁ d mid hbefore fun e he => hmid e (by simp [he])
    have hd : y ≠ d.served := hmid ⟨y, rest ++ arrivals⟩ (by simp)
    have hnew : ∀ back, Pending gone' returning' (rest ++ arrivals ++ back) d
        (mid ++ [⟨y, rest ++ arrivals⟩]) := fun back => hold.serve hd hnodup hgone hreturning _
    rw [List.concat_eq_append]
    obtain rfl | ⟨rfl, -⟩ := hqueue
    · exact hnew [y]
    · simpa using hnew []

/-- Nobody is in the queue, and others come. -/
theorem AllPending.idle (h : AllPending gone returning [] turns) (hnodup : arrivals.Nodup)
    (hgone : ∀ x, gone x → gone' x) (hreturning : ∀ x, returning x → x ∈ arrivals) :
    AllPending gone' returning' arrivals turns := by
  intro l₁ d mid hturns hmid
  cases h l₁ d mid hturns hmid with
  | queued ahead behind hqueue => simp at hqueue
  | returning hnil hret hqueue =>
    subst hnil
    obtain ⟨before, after, rfl⟩ := List.append_of_mem (hreturning _ hret)
    refine .queued before after rfl (.of_nodup ?_ ?_)
    · exact hnodup.sublist (by simp)
    · rw [← hqueue]
      simp
  | gone hg => exact .gone (hgone _ hg)

end

end Fifo
