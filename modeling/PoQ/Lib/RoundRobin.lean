import Mathlib.Algebra.BigOperators.Intervals
import Mathlib.Algebra.Order.BigOperators.Group.List
import Mathlib.Algebra.Order.Floor.Div
import Mathlib.Data.List.Nodup
import Mathlib.Logic.Function.Basic
import Mathlib.Tactic.Ring

/-!
# Round-robin schedules

A load gives every job an amount of work and a positive quantum. A queue of jobs is served from
the front: the job in front gets a slice, the smaller of its quantum and of the work it has left,
and goes back to the end of the queue while it has work left. `turns` lists the turns of a run until
one distinguished job has been given a certain time, `completionTime` adds the slices up until it has
finished. For a queue without repetitions a run is a sequence of rounds (`turns_eq_rounds`), which
turns sums over a run into sums over rounds.
-/

namespace RoundRobin

/-- The work every job brings and the quantum it is given in one turn. -/
structure Load (α : Type*) where
  quantum : α → ℕ
  work : α → ℕ
  quantum_pos : ∀ u, 0 < quantum u

/-- A turn of a run as a waiting job sees it: who is served, how many turns the served job has had
before, and how many the waiting job has had. -/
structure Turn (α : Type*) where
  job : α
  rep : ℕ
  own : ℕ

/-- Count one more turn of `u`. -/
def tick {α : Type*} [DecidableEq α] (done : α → ℕ) (u : α) : α → ℕ :=
  Function.update done u (done u + 1)

namespace Load

variable {α : Type*} (L : Load α)

/-- Work left of `u` after `k` turns. -/
def left (u : α) (k : ℕ) : ℕ := L.work u - k * L.quantum u

/-- What `u` is given in the turn that follows `k` turns. -/
def slice (u : α) (k : ℕ) : ℕ := min (L.quantum u) (L.left u k)

variable {L}

theorem left_pos {u : α} {k : ℕ} : 0 < L.left u k ↔ k * L.quantum u < L.work u := by
  simp [left]

theorem slice_pos {u : α} {k : ℕ} : 0 < L.slice u k ↔ 0 < L.left u k := by
  simp [slice, L.quantum_pos u]

theorem slice_le_left (u : α) (k : ℕ) : L.slice u k ≤ L.left u k := Nat.min_le_right _ _

theorem left_succ (u : α) (k : ℕ) : L.left u (k + 1) = L.left u k - L.slice u k := by
  simp only [left, slice, Nat.succ_mul]
  omega

theorem left_succ_le (u : α) (k : ℕ) : L.left u (k + 1) ≤ L.left u k := by
  rw [left_succ]; exact Nat.sub_le _ _

/-- While work is left, a turn reduces it. -/
theorem left_succ_lt {u : α} {k : ℕ} (h : 0 < L.left u k) : L.left u (k + 1) < L.left u k := by
  have := slice_pos.mpr h
  rw [left_succ]; omega

/-- The rest of the queue after `u` was served from its front. -/
def requeue (L : Load α) (u : α) (q : List α) (done : α → ℕ) : List α :=
  if 0 < L.slice u (done u + 1) then q ++ [u] else q

theorem mem_requeue {u v : α} {q : List α} {done : α → ℕ} (h : v ∈ L.requeue u q done) :
    v = u ∨ v ∈ q := by
  unfold requeue at h
  split at h
  · simpa [or_comm] using h
  · exact .inr h

theorem mem_requeue_of_mem {u v : α} {q : List α} {done : α → ℕ} (h : v ∈ q) :
    v ∈ L.requeue u q done := by
  unfold requeue
  split <;> simp [h]

theorem mem_requeue_self {u : α} {q : List α} {done : α → ℕ}
    (h : L.left u (done u + 1) ≠ 0) : u ∈ L.requeue u q done := by
  simp [requeue, slice_pos, Nat.pos_of_ne_zero h]

/-- The jobs of a list that still have work after `k` turns. -/
def live (L : Load α) (k : ℕ) (l : List α) : List α := l.filter fun u => 0 < L.left u k

/-- The number of turns `c` needs. -/
def rounds (L : Load α) (c : α) : ℕ := L.work c ⌈/⌉ L.quantum c

theorem lt_rounds {c : α} {k : ℕ} : k < L.rounds c ↔ 0 < L.left c k := by
  have h : L.work c ⌈/⌉ L.quantum c ≤ k ↔ L.work c ≤ k * L.quantum c := by
    rw [ceilDiv_le_iff_le_smul (L.quantum_pos c), smul_eq_mul, mul_comm]
  rw [left_pos, rounds]
  omega

theorem mem_live {k : ℕ} {l : List α} {u : α} : u ∈ L.live k l ↔ u ∈ l ∧ 0 < L.left u k := by
  simp [live]

theorem live_nodup {l : List α} (h : l.Nodup) (k : ℕ) : (L.live k l).Nodup := h.filter _

/-- Who is requeued in round `k` is who is served in round `k + 1`. -/
theorem live_filter (k : ℕ) (l : List α) :
    (L.live k l).filter (fun u => 0 < L.slice u (k + 1)) = L.live (k + 1) l := by
  simp only [live, List.filter_filter, slice_pos]
  refine List.filter_congr fun u _ => ?_
  have := left_succ_le (L := L) u k
  simp only [← Bool.decide_and, decide_eq_decide]
  omega

/-- Jobs without work have no slice, so that they may be left out of a sum of excesses. -/
theorem sum_live_sub (k x : ℕ) (l : List α) :
    ((L.live k l).map fun u => L.slice u k - x).sum = (l.map fun u => L.slice u k - x).sum := by
  induction l with
  | nil => rfl
  | cons u l ih =>
    by_cases hu : 0 < L.left u k
    · simpa [live, hu] using ih
    · have hs : L.slice u k = 0 := Nat.eq_zero_of_not_pos fun h => hu (slice_pos.mp h)
      simpa [live, hu, hs] using ih

/-- What a queue still holds. Every turn makes it smaller, so that a run ends. -/
def weight (L : Load α) (q : List α) (done : α → ℕ) : ℕ :=
  (q.map fun u => L.left u (done u) + 1).sum

theorem eq_nil_of_weight {L : Load α} {q : List α} {done : α → ℕ} (h : L.weight q done ≤ 0) :
    q = [] := by
  cases q with
  | nil => rfl
  | cons u q => simp [weight] at h

variable [DecidableEq α]

theorem left_tick_le (done : α → ℕ) (u v : α) :
    L.left v (tick done u v) ≤ L.left v (done v) := by
  by_cases h : v = u
  · subst h; simpa [tick] using left_succ_le v (done v)
  · simp [tick, h]

theorem weight_requeue_lt (u : α) (q : List α) (done : α → ℕ) :
    L.weight (L.requeue u q done) (tick done u) < L.weight (u :: q) done := by
  have hq : L.weight q (tick done u) ≤ L.weight q done :=
    List.sum_le_sum fun v _ => Nat.succ_le_succ (left_tick_le done u v)
  simp only [weight, List.map_cons, List.sum_cons] at hq ⊢
  unfold requeue
  split
  case isTrue h =>
    have h1 : 0 < L.left u (done u) := (slice_pos.mp h).trans_le (left_succ_le ..)
    have h2 := left_succ_lt h1
    simp only [List.map_append, List.sum_append, List.map_cons, List.map_nil, List.sum_cons,
      List.sum_nil]
    simp only [tick, Function.update_self] at hq ⊢
    omega
  case isFalse => omega

/-- The turns of a run until `c` has been given the time `T` (or nobody is left). -/
def turns (L : Load α) (c : α) (T : ℕ) : List α → (α → ℕ) → List (Turn α)
  | [], _ => []
  | u :: q, done =>
    if T ≤ done c * L.quantum c then [] else
      ⟨u, done u, done c⟩ :: turns L c T (L.requeue u q done) (tick done u)
termination_by q done => L.weight q done
decreasing_by exact weight_requeue_lt u q done

/-- Serving the front of a queue reduces the work left in it. -/
theorem remaining_lt (L : Load α) (u : α) (q : List α) (left left' : α → ℕ)
    (h : left' = Function.update left u (left u - min (L.quantum u) (left u))) :
    ((if 0 < left' u then q ++ [u] else q).map fun v => left' v + 1).sum <
      ((u :: q).map fun v => left v + 1).sum := by
  have hp := L.quantum_pos u
  have hu : left' u = left u - min (L.quantum u) (left u) := by simp [h]
  have hq : (q.map fun v => left' v + 1).sum ≤ (q.map fun v => left v + 1).sum := by
    refine List.sum_le_sum fun v _ => Nat.succ_le_succ ?_
    by_cases hv : v = u
    · subst hv; omega
    · simp [h, hv]
  split <;> simp only [List.map_append, List.sum_append, List.map_cons, List.map_nil,
    List.sum_cons, List.sum_nil] <;> omega

/-- The time at which `c` has finished: the full slices of all jobs served from the front of the
queue, up to and including the turn in which no work of `c` is left. -/
def completionTime (L : Load α) (c : α) : List α → (α → ℕ) → ℕ
  | [], _ => 0
  | u :: q, left =>
    let slice := min (L.quantum u) (left u)
    let left' := Function.update left u (left u - slice)
    if u = c ∧ left' u = 0 then slice
    else slice + completionTime L c (if 0 < left' u then q ++ [u] else q) left'
termination_by q left => (q.map fun u => left u + 1).sum
decreasing_by
  simp only [dite_eq_ite]
  exact remaining_lt L u _ left _ rfl

/-! ## Completion times as sums over the turns -/

theorem update_left (done : α → ℕ) (u : α) :
    Function.update (fun v => L.left v (done v)) u (L.left u (done u) - L.slice u (done u)) =
      fun v => L.left v (tick done u v) := by
  funext v
  by_cases h : v = u
  · subst h; simp [tick, left_succ]
  · simp [tick, h]

/-- One turn of `completionTime`, in terms of turn counters. -/
theorem completionTime_cons (c u : α) (q : List α) (done : α → ℕ) :
    L.completionTime c (u :: q) (fun v => L.left v (done v)) =
      if u = c ∧ L.left u (done u + 1) = 0 then L.slice u (done u)
      else L.slice u (done u) +
        L.completionTime c (L.requeue u q done) (fun v => L.left v (tick done u v)) := by
  have hs : min (L.quantum u) (L.left u (done u)) = L.slice u (done u) := rfl
  rw [completionTime]
  simp only [hs, update_left, requeue, slice_pos]
  simp [tick]

/-- The completion time adds up the slices of the turns that complete `c`. -/
theorem completionTime_eq_sum {c : α} {q : List α} {done : α → ℕ} (hc : 0 < L.left c (done c)) :
    L.completionTime c q (fun u => L.left u (done u)) =
      ((L.turns c (L.work c) q done).map fun t => L.slice t.job t.rep).sum := by
  fun_induction L.turns c (L.work c) q done with
  | case1 => simp [completionTime]
  | case2 u q done h => exact absurd (left_pos.mp hc) (Nat.not_lt.mpr h)
  | case3 u q done h ih =>
    rw [completionTime_cons]
    by_cases hu : u = c ∧ L.left u (done u + 1) = 0
    · obtain ⟨rfl, hl⟩ := hu
      have hT : L.work u ≤ tick done u u * L.quantum u := by
        simpa [tick, left, Nat.sub_eq_zero_iff_le] using hl
      cases hq : L.requeue u q done <;> simp [turns, hl, hT]
    · have hc' : 0 < L.left c (tick done u c) := by
        by_cases hcu : c = u
        · subst hcu
          simpa [tick, Nat.pos_iff_ne_zero] using hu
        · simpa [tick, hcu] using hc
      rw [if_neg hu, ih hc', List.map_cons, List.sum_cons]

theorem completionTime_pos {c : α} {q : List α} {done : α → ℕ} (hmem : c ∈ q)
    (hq : ∀ u ∈ q, 0 < L.left u (done u)) :
    0 < L.completionTime c q (fun u => L.left u (done u)) := by
  cases q with
  | nil => cases hmem
  | cons u q =>
    have := slice_pos.mpr (hq u List.mem_cons_self)
    rw [completionTime_cons]
    split <;> omega

/-- Without repetitions, everybody in the queue has work left after a turn as before it. -/
theorem requeue_live {u : α} {q : List α} {done : α → ℕ} (hn : (u :: q).Nodup)
    (hq : ∀ v ∈ u :: q, 0 < L.left v (done v)) :
    (L.requeue u q done).Nodup ∧ ∀ v ∈ L.requeue u q done, 0 < L.left v (tick done u v) := by
  obtain ⟨hu, hn⟩ := List.nodup_cons.mp hn
  have hlive : ∀ v ∈ q, 0 < L.left v (tick done u v) := by
    intro v hv
    have hvu : v ≠ u := fun h => hu (h ▸ hv)
    simpa [tick, hvu] using hq v (List.mem_cons_of_mem _ hv)
  unfold requeue
  split
  case isTrue h =>
    refine ⟨List.nodup_append.mpr ⟨hn, List.nodup_singleton u, ?_⟩, fun v hv => ?_⟩
    · rintro v hv _ hu' rfl
      exact hu (List.mem_singleton.mp hu' ▸ hv)
    rcases List.mem_append.mp hv with hv | hv
    · exact hlive v hv
    · obtain rfl := List.mem_singleton.mp hv
      simpa [tick] using slice_pos.mp h
  case isFalse => exact ⟨hn, hlive⟩

/-- Two jobs never finish at the same time. -/
theorem completionTime_ne {c d : α} (hne : c ≠ d) {q : List α} {done : α → ℕ} (hn : q.Nodup)
    (hc : c ∈ q) (hd : d ∈ q) (hq : ∀ u ∈ q, 0 < L.left u (done u)) :
    L.completionTime c q (fun u => L.left u (done u)) ≠
      L.completionTime d q (fun u => L.left u (done u)) := by
  induction hw : L.weight q done using Nat.strong_induction_on generalizing q done with
  | _ w ih =>
    cases q with
    | nil => cases hc
    | cons u q =>
      obtain ⟨hn', hq'⟩ := requeue_live hn hq
      -- whoever is not completed by this turn is still in the queue after it
      have stays : ∀ v ∈ u :: q, ¬(u = v ∧ L.left u (done u + 1) = 0) →
          v ∈ L.requeue u q done := by
        intro v hv h
        rcases List.mem_cons.mp hv with rfl | hv
        · exact mem_requeue_self fun hl => h ⟨rfl, hl⟩
        · exact mem_requeue_of_mem hv
      rw [completionTime_cons, completionTime_cons]
      split_ifs with h1 h2 h2
      · exact absurd (h1.1.symm.trans h2.1) hne
      · have := completionTime_pos (stays d hd h2) hq'
        omega
      · have := completionTime_pos (stays c hc h1) hq'
        omega
      · have := ih _ (hw ▸ weight_requeue_lt u q done) hn' (stays c hc h1) (stays d hd h2) hq' rfl
        omega

/-! ## Rounds -/

theorem turns_of_le {c : α} {T : ℕ} {q : List α} {done : α → ℕ} (h : T ≤ done c * L.quantum c) :
    L.turns c T q done = [] := by
  cases q <;> simp [turns, h]

/-- Jobs in front of the queue are served in order, each goes to the end while it has work left. -/
theorem turns_append {c : α} {T : ℕ} {p r : List α} {done : α → ℕ} (hp : p.Nodup) (hc : c ∉ p)
    (hT : done c * L.quantum c < T) :
    L.turns c T (p ++ r) done = p.map (fun u => ⟨u, done u, done c⟩) ++
      L.turns c T (r ++ p.filter fun u => 0 < L.slice u (done u + 1))
        (fun v => if v ∈ p then done v + 1 else done v) := by
  induction p generalizing r done with
  | nil => simp
  | cons u p ih =>
    obtain ⟨hu, hp⟩ := List.nodup_cons.mp hp
    obtain ⟨hcu, hc⟩ : c ≠ u ∧ c ∉ p := by simpa using hc
    have hother : ∀ v ∈ p, tick done u v = done v := by
      intro v hv
      have hvu : v ≠ u := fun h => hu (h ▸ hv)
      simp [tick, hvu]
    have htick : tick done u c = done c := by simp [tick, hcu]
    have hdone : (fun v => if v ∈ p then tick done u v + 1 else tick done u v) =
        fun v => if v ∈ u :: p then done v + 1 else done v := by
      funext v
      by_cases hv : v ∈ p
      · simp [hv, hother v hv]
      · by_cases hvu : v = u <;> simp [hv, hvu, hu, tick]
    have hfilter : (p.filter fun v => 0 < L.slice v (tick done u v + 1)) =
        p.filter fun v => 0 < L.slice v (done v + 1) :=
      List.filter_congr fun v hv => by rw [hother v hv]
    have hmap : p.map (fun v => (⟨v, tick done u v, tick done u c⟩ : Turn α)) =
        p.map fun v => ⟨v, done v, done c⟩ :=
      List.map_congr_left fun v hv => by rw [hother v hv, htick]
    -- the rest of the prefix is served from a queue whose end has grown by `u`, or not
    have key : ∀ r', L.turns c T (p ++ r') (tick done u) =
        p.map (fun v => ⟨v, done v, done c⟩) ++
          L.turns c T (r' ++ p.filter fun v => 0 < L.slice v (done v + 1))
            (fun v => if v ∈ u :: p then done v + 1 else done v) := by
      intro r'
      rw [ih hp hc (by rwa [htick]), hdone, hfilter, hmap]
    rw [List.cons_append, turns, if_neg (Nat.not_le.mpr hT)]
    unfold requeue
    split
    case isTrue h => rw [List.append_assoc, key]; simp [h]
    case isFalse h => rw [key]; simp [h]

/-- A part of the queue in which every live job has had `k` turns gets one turn more. -/
theorem turns_live {c : α} {l r : List α} {k : ℕ} {done : α → ℕ} (hl : l.Nodup)
    (hc : c ∉ L.live k l) (hT : done c * L.quantum c < L.work c)
    (hdone : ∀ u ∈ L.live k l, done u = k) :
    L.turns c (L.work c) (L.live k l ++ r) done = (L.live k l).map (⟨·, k, done c⟩) ++
      L.turns c (L.work c) (r ++ L.live (k + 1) l)
        (fun v => if v ∈ L.live k l then done v + 1 else done v) := by
  have hfilter : (L.live k l).filter (fun u => 0 < L.slice u (done u + 1)) = L.live (k + 1) l := by
    rw [← live_filter]
    exact List.filter_congr fun u hu => by rw [hdone u hu]
  rw [turns_append (live_nodup hl k) hc hT, hfilter]
  congr 1
  exact List.map_congr_left fun u hu => by rw [hdone u hu]

/-- A run of one round, for a queue in which `c` stands between `before` and `after`. -/
theorem turns_round {c : α} {before after : List α} {k : ℕ} {done : α → ℕ}
    (hn : (before ++ c :: after).Nodup) (hc : 0 < L.left c k)
    (hdone : ∀ u ∈ L.live k (before ++ c :: after), done u = k) :
    ∃ done', (∀ u ∈ L.live (k + 1) (before ++ c :: after), done' u = k + 1) ∧
      L.turns c (L.work c) (L.live k (before ++ c :: after)) done =
        (L.live k before).map (⟨·, k, k⟩) ++ ⟨c, k, k⟩ ::
          if L.left c (k + 1) = 0 then [] else
            (L.live k after).map (⟨·, k, k + 1⟩) ++
              L.turns c (L.work c) (L.live (k + 1) (before ++ c :: after)) done' := by
  obtain ⟨hnb, hnca, hdisj⟩ := List.nodup_append'.mp hn
  obtain ⟨hca, hna⟩ := List.nodup_cons.mp hnca
  have hcb : c ∉ L.live k before := fun h => hdisj (mem_live.mp h).1 List.mem_cons_self
  have hca' : c ∉ L.live k after := fun h => hca (mem_live.mp h).1
  have hba : ∀ u ∈ L.live k after, u ∉ L.live k before := fun u hu h =>
    hdisj (mem_live.mp h).1 (List.mem_cons_of_mem _ (mem_live.mp hu).1)
  have hsplit : ∀ j, 0 < L.left c j →
      L.live j (before ++ c :: after) = L.live j before ++ c :: L.live j after := by
    intro j hj
    simp [live, hj]
  rw [hsplit k hc] at hdone ⊢
  have hdc : done c = k := hdone c (by simp)
  have hdb : ∀ u ∈ L.live k before, done u = k := fun u hu => hdone u (by simp [hu])
  have hda : ∀ u ∈ L.live k after, done u = k := fun u hu => hdone u (by simp [hu])
  -- the counters after the jobs before `c`, after `c`, and after the jobs behind `c`
  let done₁ := fun v => if v ∈ L.live k before then done v + 1 else done v
  let done₂ := tick done₁ c
  let done₃ := fun v => if v ∈ L.live k after then done₂ v + 1 else done₂ v
  have h1c : done₁ c = k := by simp [done₁, hcb, hdc]
  have h2c : done₂ c = k + 1 := by simp [done₂, tick, h1c]
  have h2a : ∀ u ∈ L.live k after, done₂ u = k := by
    intro u hu
    have huc : u ≠ c := fun h => hca' (h ▸ hu)
    simp [done₂, tick, huc, done₁, hba u hu, hda u hu]
  have hb : L.turns c (L.work c) (L.live k before ++ c :: L.live k after) done =
      (L.live k before).map (⟨·, k, k⟩) ++
        L.turns c (L.work c) (c :: (L.live k after ++ L.live (k + 1) before)) done₁ := by
    have hT : done c * L.quantum c < L.work c := by rw [hdc]; exact left_pos.mp hc
    rw [turns_live hnb hcb hT hdb, hdc, List.cons_append]
  refine ⟨done₃, fun u hu => ?_, ?_⟩
  · obtain ⟨hmem, hlu⟩ := mem_live.mp hu
    have hlu' := hlu.trans_le (left_succ_le u k)
    rcases List.mem_append.mp hmem with hmem | hmem
    · have hub : u ∈ L.live k before := mem_live.mpr ⟨hmem, hlu'⟩
      have huc : u ≠ c := fun h => hcb (h ▸ hub)
      have hua : u ∉ L.live k after := fun h => hba u h hub
      simp [done₃, hua, done₂, tick, huc, done₁, hub, hdb u hub]
    · rcases List.mem_cons.mp hmem with rfl | hmem
      · simp [done₃, hca', h2c]
      · have hua : u ∈ L.live k after := mem_live.mpr ⟨hmem, hlu'⟩
        simp [done₃, hua, h2a u hua]
  · rw [hb, turns, if_neg (by rw [h1c]; exact Nat.not_le.mpr (left_pos.mp hc)), h1c]
    congr 2
    split
    case isTrue h =>
      have hT : L.work c ≤ done₂ c * L.quantum c := by
        rw [h2c]; exact Nat.sub_eq_zero_iff_le.mp h
      exact turns_of_le hT
    case isFalse h =>
      have hq : L.requeue c (L.live k after ++ L.live (k + 1) before) done₁ =
          L.live k after ++ (L.live (k + 1) before ++ [c]) := by
        simp [requeue, h1c, slice_pos, Nat.pos_of_ne_zero h]
      have hT : done₂ c * L.quantum c < L.work c := by
        rw [h2c]; exact left_pos.mp (Nat.pos_of_ne_zero h)
      rw [hq, turns_live hna hca' hT h2a, h2c, hsplit (k + 1) (Nat.pos_of_ne_zero h),
        List.append_assoc, List.singleton_append]

/-- A sum over the turns of a run is a sum over its rounds. In the last round nobody behind `c` is
served. -/
theorem sum_turns_live {c : α} {before after : List α} {k : ℕ} {done : α → ℕ}
    (hn : (before ++ c :: after).Nodup) (hc : 0 < L.left c k)
    (hdone : ∀ u ∈ L.live k (before ++ c :: after), done u = k) (f : Turn α → ℕ) :
    ((L.turns c (L.work c) (L.live k (before ++ c :: after)) done).map f).sum =
      ∑ i ∈ Finset.Ico k (L.rounds c),
        (((L.live i before).map fun u => f ⟨u, i, i⟩).sum + f ⟨c, i, i⟩) +
      ∑ i ∈ Finset.Ico k (L.rounds c - 1), ((L.live i after).map fun u => f ⟨u, i, i + 1⟩).sum := by
  induction hm : L.rounds c - k generalizing k done with
  | zero => have := lt_rounds.mpr hc; omega
  | succ m ih =>
    have hk := lt_rounds.mpr hc
    obtain ⟨done', hdone', hturns⟩ := turns_round hn hc hdone
    rw [hturns, Finset.sum_eq_sum_Ico_succ_bot hk]
    by_cases hl : L.left c (k + 1) = 0
    · have hlast : ¬k + 1 < L.rounds c := fun h => (lt_rounds.mp h).ne' hl
      have h1 : Finset.Ico (k + 1) (L.rounds c) = ∅ := Finset.Ico_eq_empty hlast
      have h2 : Finset.Ico k (L.rounds c - 1) = ∅ := Finset.Ico_eq_empty (by omega)
      simp [hl, h1, h2, Function.comp_def]
    · have hl := Nat.pos_of_ne_zero hl
      have hk' := lt_rounds.mpr hl
      rw [if_neg hl.ne', Finset.sum_eq_sum_Ico_succ_bot (show k < L.rounds c - 1 by omega)]
      simp only [List.map_append, List.map_cons, List.sum_append, List.sum_cons, List.map_map,
        Function.comp_def]
      rw [ih hl hdone' (by omega)]
      ring

/-! ## What a waiting job is charged -/

/-- The jobs in front of `c`. -/
def ahead (c : α) (q : List α) : List α := q.takeWhile (· ≠ c)

/-- The jobs behind `c`. -/
def behind (c : α) (q : List α) : List α := (q.dropWhile (· ≠ c)).tail

theorem ahead_append_behind {c : α} {q : List α} (h : c ∈ q) :
    ahead c q ++ c :: behind c q = q := by
  induction q with
  | nil => cases h
  | cons u q ih =>
    by_cases hu : u = c
    · simp [ahead, behind, hu]
    · have := ih ((List.mem_cons.mp h).resolve_left fun h => hu h.symm)
      simp only [ahead, behind, ne_eq, decide_not] at this ⊢
      simp [hu, this]

/-- By how much the slices of the other jobs exceed the work `c` has left at their turn, up to the
completion of `c`. -/
def excess (L : Load α) (c : α) (q : List α) : ℕ :=
  ∑ k ∈ Finset.range (L.rounds c), ((ahead c q).map fun u => L.slice u k - L.left c k).sum +
  ∑ k ∈ Finset.range (L.rounds c - 1),
    ((behind c q).map fun u => L.slice u k - L.left c (k + 1)).sum

/-- If every turn is charged to `c` with at most the work `c` has left, then the charge misses the
completion time of `c` by the excess. -/
theorem charge_add_excess {c : α} {q : List α} (hn : q.Nodup) (hc : c ∈ q)
    (hw : ∀ u ∈ q, 0 < L.work u) :
    ((L.turns c (L.work c) q fun _ => 0).map fun t =>
      min (L.slice t.job t.rep) (L.left c t.own)).sum + L.excess c q =
      L.completionTime c q L.work := by
  have hz : (fun u => L.left u 0) = L.work := by funext u; simp [left]
  have hc0 : 0 < L.left c 0 := by simpa [left] using hw c hc
  have hlive : L.live 0 (ahead c q ++ c :: behind c q) = q := by
    rw [ahead_append_behind hc]
    simpa [live, left] using hw
  have hexcess : L.excess c q =
      ((L.turns c (L.work c) q fun _ => 0).map fun t => L.slice t.job t.rep - L.left c t.own).sum := by
    have := sum_turns_live (ahead_append_behind hc ▸ hn) hc0 (fun _ _ => rfl)
      fun t => L.slice t.job t.rep - L.left c t.own
    rw [hlive] at this
    rw [this]
    simp only [sum_live_sub, Nat.sub_eq_zero_of_le (slice_le_left c _), Nat.add_zero, excess,
      Finset.range_eq_Ico]
  have hcompletion : L.completionTime c q (fun u => L.left u 0) =
      ((L.turns c (L.work c) q fun _ => 0).map fun t => L.slice t.job t.rep).sum :=
    completionTime_eq_sum hc0
  rw [hz] at hcompletion
  rw [hexcess, ← List.sum_map_add, hcompletion]
  refine congrArg List.sum (List.map_congr_left fun t _ => ?_)
  omega

theorem excess_eq_zero {c : α} {q : List α} :
    L.excess c q = 0 ↔
      (∀ u ∈ ahead c q, ∀ k, 0 < L.left c k → L.slice u k ≤ L.left c k) ∧
      (∀ u ∈ behind c q, ∀ k, 0 < L.left c (k + 1) → L.slice u k ≤ L.left c (k + 1)) := by
  have hlast : ∀ k, k < L.rounds c - 1 ↔ 0 < L.left c (k + 1) := fun k => by
    rw [← lt_rounds]; omega
  simp only [excess, Nat.add_eq_zero_iff, Finset.sum_eq_zero_iff, Finset.mem_range, lt_rounds,
    hlast, List.sum_eq_zero_iff, List.mem_map, forall_exists_index, and_imp,
    forall_apply_eq_imp_iff₂, Nat.sub_eq_zero_iff_le]
  exact and_congr ⟨fun h u hu k hk => h k hk u hu, fun h k hk u hu => h u hu k hk⟩
    ⟨fun h u hu k hk => h k hk u hu, fun h k hk u hu => h u hu k hk⟩

end Load

end RoundRobin
