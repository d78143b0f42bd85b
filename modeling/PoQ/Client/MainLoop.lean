import PoQ.Basic
import PoQ.Lib.Runs

/-!
# The main loop of a client

The main thread of `poet_client.cpp` draws a new SGX time and broadcasts it, and then waits until another
thread has counted `rejoin_state` up. The other threads do so without a lock, so that counting up is a load
and a store, and everything may come in between. A broadcast that fails is not waited for; after some of
these the client connects to the server again.
-/

namespace PoQ

/-- Where the main thread is: at the condition of its loop, in `poet_broadcast_sgxtime`, at the condition
of the inner loop, or behind the loop. -/
inductive MainPc
  | top
  | broadcasting (initialState : ℕ)
  | waiting (initialState : ℕ)
  | ended
deriving DecidableEq, Repr

/-- The variables of the main loop. -/
structure MainLoop where
  pc : MainPc
  rejoinState : ℕ
  /-- What other threads have loaded in `rejoin_state++`, and have not stored yet. -/
  loaded : List ℕ
  retries : ℕ
  shouldTerminate : Bool
deriving DecidableEq, Repr

/-- What happens next. Only `load`, `store` and `signal` are not of the main thread. -/
inductive MainEvent
  | load
  | store (i : ℕ)
  | enter
  /-- What `poet_broadcast_sgxtime` returns, and what connecting again would. -/
  | broadcast (state reconnected : Bool)
  | wake
  | signal
deriving DecidableEq, Repr

namespace MainLoop

def initial : MainLoop := ⟨.top, 0, [], 0, false⟩

/-- The main loop behind a broadcast that has failed. -/
def failed (s : MainLoop) (reconnected : Bool) : MainLoop :=
  if s.retries > 10 then
    let retries := if reconnected then 0 else s.retries
    { s with pc := .top, shouldTerminate := !reconnected, retries := retries + 1 }
  else { s with pc := .top, retries := s.retries + 1 }

/-- The store of `rejoin_state++`, for the value that was loaded. -/
def stored (s : MainLoop) (i : ℕ) (v : ℕ) : MainLoop :=
  { s with rejoinState := (v + 1) % uintSize, loaded := s.loaded.eraseIdx i }

/-- One step. A step that is not enabled is blocked. -/
def next (s : MainLoop) : MainEvent → Except Abort MainLoop
  | .load => .ok { s with loaded := s.loaded ++ [s.rejoinState] }
  | .store i => (s.loaded[i]?).elim (.error .blocked) fun v => .ok (s.stored i v)
  | .enter =>
    match s.pc with
    | .top => .ok { s with pc := if s.shouldTerminate then .ended else .broadcasting s.rejoinState }
    | _ => .error .blocked
  | .broadcast state reconnected =>
    match s.pc with
    | .broadcasting i => .ok (if state then { s with pc := .waiting i } else s.failed reconnected)
    | _ => .error .blocked
  | .wake =>
    match s.pc with
    | .waiting i => .ok { s with pc := if s.rejoinState = i then .waiting i else .top }
    | _ => .error .blocked
  | .signal => .ok { s with shouldTerminate := true }

/-- The broadcasts of a run. -/
def broadcasts (l : List MainEvent) : ℕ :=
  l.countP fun
    | .broadcast _ _ => true
    | _ => false

/-- The broadcasts that have failed. -/
def failures (l : List MainEvent) : ℕ :=
  l.countP fun
    | .broadcast state _ => !state
    | _ => false

/-- The stores of `rejoin_state++`. -/
def stores (l : List MainEvent) : ℕ :=
  l.countP fun
    | .store _ => true
    | _ => false

variable {s t : MainLoop} {l : List MainEvent} {e : MainEvent}

/-- What a step does, with the variables that it needs. -/
inductive Does (s : MainLoop) : MainEvent → MainLoop → Prop
  | load : s.Does .load { s with loaded := s.loaded ++ [s.rejoinState] }
  | store (i v : ℕ) : s.loaded[i]? = some v → s.Does (.store i) (s.stored i v)
  | enter : s.pc = .top → s.shouldTerminate = false →
    s.Does .enter { s with pc := .broadcasting s.rejoinState }
  | leave : s.pc = .top → s.shouldTerminate = true → s.Does .enter { s with pc := .ended }
  | sent (i : ℕ) (reconnected : Bool) : s.pc = .broadcasting i →
    s.Does (.broadcast true reconnected) { s with pc := .waiting i }
  | failed (i : ℕ) (reconnected : Bool) : s.pc = .broadcasting i →
    s.Does (.broadcast false reconnected) (s.failed reconnected)
  | sleep (i : ℕ) : s.pc = .waiting i → s.rejoinState = i → s.Does .wake s
  | wake (i : ℕ) : s.pc = .waiting i → s.rejoinState ≠ i → s.Does .wake { s with pc := .top }
  | signal : s.Does .signal { s with shouldTerminate := true }

theorem does_of_next (h : s.next e = .ok t) : s.Does e t := by
  cases e with
  | load =>
    cases h
    exact .load
  | store i =>
    rw [next] at h
    rcases hv : s.loaded[i]? with _ | v
    · rw [hv] at h
      cases h
    · rw [hv] at h
      cases h
      exact .store i v hv
  | enter =>
    rw [next] at h
    split at h
    · next hpc =>
      cases h
      split
      · next hterminate => exact .leave hpc hterminate
      · next hterminate => exact .enter hpc (Bool.eq_false_iff.mpr hterminate)
    · cases h
  | broadcast state reconnected =>
    rw [next] at h
    split at h
    · next i hpc =>
      cases h
      rcases state with _ | _
      · exact .failed i reconnected hpc
      · exact .sent i reconnected hpc
    · cases h
  | wake =>
    rw [next] at h
    split at h
    · next i hpc =>
      cases h
      split
      · next heq =>
        have hsame : ({ s with pc := .waiting i } : MainLoop) = s := by rw [← hpc]
        rw [hsame]
        exact .sleep i hpc heq
      · next hne => exact .wake i hpc hne
    · cases h
  | signal =>
    cases h
    exact .signal

/-! ## How often a client broadcasts -/

/-- The broadcasts so far are paid for by stores and by failures. A broadcast that is being waited for is
left out, and the stores before the round are counted by `r`. -/
def Paid (broadcasts stores failures rejoinState : ℕ) : MainPc → Prop
  | .top | .ended => broadcasts ≤ stores + failures
  | .broadcasting i =>
    ∃ r, r ≤ stores ∧ broadcasts ≤ r + failures ∧ (rejoinState ≠ i → r < stores)
  | .waiting i =>
    ∃ r, r ≤ stores ∧ broadcasts ≤ r + failures + 1 ∧ (rejoinState ≠ i → r < stores)

/-- A store pays for the rest of the round, whatever it stores. -/
theorem Paid.store {b st f v v' : ℕ} {pc : MainPc} (h : Paid b st f v pc) : Paid b (st + 1) f v' pc := by
  cases pc with
  | top | ended =>
    unfold Paid at h ⊢
    omega
  | broadcasting i =>
    obtain ⟨r, hr, hle, -⟩ := h
    exact ⟨r, hr.trans (Nat.le_succ st), hle, fun _ => Nat.lt_succ_of_le hr⟩
  | waiting i =>
    obtain ⟨r, hr, hle, -⟩ := h
    exact ⟨r, hr.trans (Nat.le_succ st), hle, fun _ => Nat.lt_succ_of_le hr⟩

theorem Paid.le {b st f v : ℕ} {pc : MainPc} (h : Paid b st f v pc) : b ≤ st + f + 1 := by
  cases pc with
  | top | ended =>
    unfold Paid at h
    omega
  | broadcasting i | waiting i =>
    obtain ⟨r, hr, hle, -⟩ := h
    omega

theorem pc_failed (s : MainLoop) (reconnected : Bool) : (s.failed reconnected).pc = .top := by
  unfold failed
  split
  · rfl
  · rfl

theorem broadcasts_append (l : List MainEvent) (e : MainEvent) :
    broadcasts (l ++ [e]) = broadcasts l + broadcasts [e] := List.countP_append

theorem stores_append (l : List MainEvent) (e : MainEvent) :
    stores (l ++ [e]) = stores l + stores [e] := List.countP_append

theorem failures_append (l : List MainEvent) (e : MainEvent) :
    failures (l ++ [e]) = failures l + failures [e] := List.countP_append

theorem paid_step (h : Paid (broadcasts l) (stores l) (failures l) s.rejoinState s.pc)
    (hstep : s.next e = .ok t) :
    Paid (broadcasts (l ++ [e])) (stores (l ++ [e])) (failures (l ++ [e])) t.rejoinState t.pc := by
  rw [broadcasts_append, stores_append, failures_append]
  cases does_of_next hstep with
  | load | signal | sleep => exact h
  | store i v hv => exact h.store
  | enter hpc _ =>
    rw [hpc] at h
    exact ⟨stores l, Nat.le_refl _, h, fun hne => absurd rfl hne⟩
  | leave hpc _ =>
    rw [hpc] at h
    exact h
  | sent i reconnected hpc =>
    rw [hpc] at h
    obtain ⟨r, hr, hle, hlt⟩ := h
    exact ⟨r, hr, Nat.succ_le_succ hle, hlt⟩
  | failed i reconnected hpc =>
    rw [hpc] at h
    rw [pc_failed]
    obtain ⟨r, hr, hle, hlt⟩ := h
    exact Nat.succ_le_succ (hle.trans (Nat.add_le_add_right hr _))
  | wake i hpc hne =>
    rw [hpc] at h
    obtain ⟨r, hr, hle, hlt⟩ := h
    have hstored := hlt hne
    change broadcasts l ≤ stores l + failures l
    omega

/-- Whatever comes in between, a client broadcasts once, and then at most once more for every time that
another thread has counted `rejoin_state` up and for every broadcast that has failed. -/
theorem broadcasts_le_stores_add_failures (h : l.foldlM next initial = .ok s) :
    broadcasts l ≤ stores l + failures l + 1 := by
  have hall : Along next (fun _ _ => True) initial l := Along.of_forall (fun _ _ => trivial) initial
  have hpaid := Along.relate
    (R := fun l (s : MainLoop) => Paid (broadcasts l) (stores l) (failures l) s.rejoinState s.pc)
    (s := initial) (fun l s e t hs _ hstep => paid_step hs hstep) (Nat.le_refl 0) hall h
  exact hpaid.le

/-! ## When a client broadcasts again -/

/-- Another thread counts up only when no other one is about to. -/
def OneAtATime (s : MainLoop) (e : MainEvent) : Prop := e = .load → s.loaded = []

/-- Then nothing that is counted up is lost. -/
structure Counted (l : List MainEvent) (s : MainLoop) : Prop where
  rejoinState : s.rejoinState = stores l % uintSize
  loaded : ∀ v ∈ s.loaded, v = s.rejoinState
  length : s.loaded.length ≤ 1

theorem Counted.step (h : Counted l s) (hone : OneAtATime s e) (hstep : s.next e = .ok t) :
    Counted (l ++ [e]) t := by
  cases does_of_next hstep with
  | load =>
    have hnil := hone rfl
    refine ⟨?_, ?_, ?_⟩
    · rw [stores_append]
      exact h.rejoinState
    · simp [hnil]
    · simp [hnil]
  | store i v hv =>
    have hmem : v ∈ s.loaded := List.mem_of_getElem? hv
    have hlength := h.length
    have hi : i < s.loaded.length := (List.getElem?_eq_some_iff.mp hv).1
    have hnil : (s.loaded.eraseIdx i).length = 0 := by
      rw [List.length_eraseIdx_of_lt hi]
      omega
    refine ⟨?_, ?_, ?_⟩
    · rw [stores_append, stored, h.loaded v hmem, h.rejoinState, Nat.mod_add_mod]
      rfl
    · intro x hx
      rw [stored, List.length_eq_zero_iff.mp hnil] at hx
      cases hx
    · exact hnil.le.trans (Nat.zero_le 1)
  | failed i reconnected hpc =>
    have hsame : (s.failed reconnected).rejoinState = s.rejoinState ∧
        (s.failed reconnected).loaded = s.loaded := by
      unfold failed
      split
      · exact ⟨rfl, rfl⟩
      · exact ⟨rfl, rfl⟩
    refine ⟨?_, ?_, ?_⟩
    · rw [stores_append, hsame.1]
      exact h.rejoinState
    · rw [hsame.1, hsame.2]
      exact h.loaded
    · rw [hsame.2]
      exact h.length
  | enter | leave | sent | sleep | wake | signal =>
    refine ⟨?_, h.loaded, h.length⟩
    rw [stores_append]
    exact h.rejoinState

/-- The round that the main thread is in began with this state. -/
def Began (initialState : ℕ) (pc : MainPc) : Prop :=
  (∀ i, pc = .broadcasting i → i = initialState) ∧ ∀ i, pc = .waiting i → i = initialState

theorem Began.of_not {j : ℕ} {pc : MainPc} (h : pc = .top ∨ pc = .ended) : Began j pc := by
  rcases h with rfl | rfl
  · exact ⟨fun _ h => MainPc.noConfusion h, fun _ h => MainPc.noConfusion h⟩
  · exact ⟨fun _ h => MainPc.noConfusion h, fun _ h => MainPc.noConfusion h⟩

theorem Began.step {j : ℕ} (h : Began j s.pc) (he : e ≠ .enter) (hstep : s.next e = .ok t) :
    Began j t.pc := by
  cases does_of_next hstep with
  | load | store | sleep | signal => exact h
  | enter | leave => exact absurd rfl he
  | sent i reconnected hpc =>
    refine ⟨fun _ hi => MainPc.noConfusion hi, fun k hk => ?_⟩
    cases hk
    exact h.1 i hpc
  | failed i reconnected hpc => exact .of_not (.inl (pc_failed s reconnected))
  | wake => exact .of_not (.inl rfl)

/-- As long as no two threads count up at the same time, the main thread wakes up from its wait exactly if
`rejoin_state` has been counted up since the beginning of the round, also while it was broadcasting; it
does not if this has been done a multiple of `2 ^ 32` times. -/
theorem wake_iff_not_dvd {l₁ l₂ : List MainEvent} {i : ℕ}
    (hrun : (l₁ ++ .enter :: l₂).foldlM next initial = .ok s)
    (hone : Along next OneAtATime initial (l₁ ++ .enter :: l₂)) (hround : .enter ∉ l₂)
    (hpc : s.pc = .waiting i) :
    s.next .wake = .ok { s with pc := .top } ↔ ¬uintSize ∣ stores l₂ := by
  have hstart : Counted [] initial := ⟨rfl, List.forall_mem_nil _, Nat.zero_le 1⟩
  have hcounted : Counted (l₁ ++ .enter :: l₂) s :=
    Along.relate (fun l s e t hs he hstep => Counted.step hs he hstep) hstart hone hrun
  rw [List.foldlM_append] at hrun
  obtain ⟨s₁, hrun₁, hrun⟩ := Except.bind_eq_ok.mp hrun
  rw [List.foldlM_cons] at hrun
  obtain ⟨s₂, henter, hrun₂⟩ := Except.bind_eq_ok.mp hrun
  have hcounted₁ : Counted l₁ s₁ :=
    Along.relate (fun l s e t hs he hstep => Counted.step hs he hstep) hstart hone.left hrun₁
  have hbegan : Began s₁.rejoinState s₂.pc := by
    cases does_of_next henter with
    | enter =>
      refine ⟨fun i hi => ?_, fun i hi => MainPc.noConfusion hi⟩
      cases hi
      rfl
    | leave => exact .of_not (.inr rfl)
  have hothers : Along next (fun _ e => e ≠ .enter) s₂ l₂ :=
    Along.of_forall (fun e he => ne_of_mem_of_not_mem he hround) s₂
  have hbehind : Began s₁.rejoinState s.pc :=
    Along.relate (R := fun _ (s : MainLoop) => Began s₁.rejoinState s.pc)
      (fun l s e t hs he hstep => hs.step he hstep) hbegan hothers hrun₂
  obtain rfl := hbehind.2 i hpc
  have hstores : stores (l₁ ++ .enter :: l₂) = stores l₁ + stores l₂ := by
    rw [stores, List.countP_append]
    rfl
  have hiff : s.rejoinState = s₁.rejoinState ↔ uintSize ∣ stores l₂ := by
    rw [hcounted.rejoinState, hcounted₁.rejoinState, hstores]
    unfold uintSize
    omega
  rw [next, hpc]
  simp only [Except.ok.injEq, MainLoop.mk.injEq, and_true, ← hiff]
  split
  · next heq => exact iff_of_false (fun h => MainPc.noConfusion h) (fun h => h heq)
  · next hne => exact iff_of_true rfl hne

/-! ## When a client connects again -/

/-- The number of broadcasts that have failed since the client has connected. -/
def retriesAfter (n : ℕ) : ℕ := if n = 0 then 0 else (n - 1) % 11 + 1

/-- `retries` follows the broadcasts that fail, unless the client is about to end. -/
def Retried (l : List MainEvent) (s : MainLoop) : Prop :=
  s.pc = .ended ∨ s.pc = .top ∧ s.shouldTerminate = true ∨ s.retries = retriesAfter (failures l)

theorem retries_failed (s : MainLoop) (reconnected : Bool) {n : ℕ} (h : s.retries = retriesAfter n) :
    (s.failed reconnected).shouldTerminate = (if n ≠ 0 ∧ 11 ∣ n then !reconnected else s.shouldTerminate) ∧
      ((s.failed reconnected).shouldTerminate = true ∨
        (s.failed reconnected).retries = retriesAfter (n + 1)) := by
  have hiff : s.retries > 10 ↔ n ≠ 0 ∧ 11 ∣ n := by
    rw [h]
    unfold retriesAfter
    split
    · omega
    · omega
  unfold failed
  split
  · next hgt =>
    have hdvd := hiff.mp hgt
    rw [if_pos hdvd]
    refine ⟨rfl, ?_⟩
    rcases reconnected with _ | _
    · exact .inl rfl
    · right
      unfold retriesAfter
      simp only [if_true, Nat.add_one_ne_zero, if_false]
      omega
  · next hle =>
    have hnot := fun hdvd => hle (hiff.mpr hdvd)
    rw [if_neg hnot]
    refine ⟨rfl, .inr ?_⟩
    simp only [h]
    unfold retriesAfter
    simp only [Nat.add_one_ne_zero, if_false]
    split
    · next hzero => omega
    · next hpos => omega

theorem Retried.step (h : Retried l s) (hstep : s.next e = .ok t) : Retried (l ++ [e]) t := by
  unfold Retried at h ⊢
  rw [failures_append]
  cases does_of_next hstep with
  | load | store | sleep => exact h
  | enter hpc hterminate =>
    rw [hpc, hterminate] at h
    have hretries : s.retries = retriesAfter (failures l) := by simpa using h
    exact .inr (.inr hretries)
  | leave => exact .inl rfl
  | sent i reconnected hpc | wake i hpc hne =>
    rw [hpc] at h
    have hretries : s.retries = retriesAfter (failures l) := by simpa using h
    exact .inr (.inr hretries)
  | signal =>
    rcases h with h | h | h
    · exact .inl h
    · exact .inr (.inl ⟨h.1, rfl⟩)
    · exact .inr (.inr h)
  | failed i reconnected hpc =>
    rw [hpc] at h
    have hretries : s.retries = retriesAfter (failures l) := by simpa using h
    rcases (retries_failed s reconnected hretries).2 with hterminate | hretries'
    · exact .inr (.inl ⟨pc_failed s reconnected, hterminate⟩)
    · exact .inr (.inr hretries')

/-- Whatever comes in between, a broadcast that fails makes the client connect again exactly if a multiple
of 11 broadcasts, and not none, have failed before it. What was in `should_terminate` is then lost, also
if it comes from a signal. -/
theorem shouldTerminate_of_failed (h : l.foldlM next initial = .ok s) {reconnected : Bool}
    (hfailed : s.next (.broadcast false reconnected) = .ok t) :
    t.shouldTerminate = if failures l ≠ 0 ∧ 11 ∣ failures l then !reconnected else s.shouldTerminate := by
  have hall : Along next (fun _ _ => True) initial l := Along.of_forall (fun _ _ => trivial) initial
  have hretried : Retried l s :=
    Along.relate (fun l s e t hs _ hstep => Retried.step hs hstep) (.inr (.inr rfl)) hall h
  cases does_of_next hfailed with
  | failed i reconnected hpc =>
    unfold Retried at hretried
    rw [hpc] at hretried
    have hretries : s.retries = retriesAfter (failures l) := by simpa using hretried
    exact (retries_failed s reconnected hretries).1

/-- Two broadcasts, between which another thread counts up while the first one is on its way. -/
def twoRounds : List MainEvent :=
  [.enter, .load, .store 0, .broadcast true true, .wake, .enter, .broadcast true true]

theorem broadcasts_le_twoRounds : broadcasts twoRounds ≤ stores twoRounds + failures twoRounds + 1 := by
  have hrun : twoRounds.foldlM next initial = .ok ⟨.waiting 1, 1, [], 0, false⟩ := rfl
  exact broadcasts_le_stores_add_failures hrun

/-- The first of the two is waited for. -/
theorem wake_iff_not_dvd_twoRounds :
    (⟨.waiting 0, 1, [], 0, false⟩ : MainLoop).next .wake = .ok ⟨.top, 1, [], 0, false⟩ ↔
      ¬uintSize ∣ stores [.load, .store 0, .broadcast true true] :=
  @wake_iff_not_dvd ⟨.waiting 0, 1, [], 0, false⟩ [] _ 0 rfl
    (.cons (fun h => MainEvent.noConfusion h) rfl (.cons (fun _ => rfl) rfl
      (.cons (fun h => MainEvent.noConfusion h) rfl
        (.cons (fun h => MainEvent.noConfusion h) rfl trivial))))
    (by decide) rfl

/-- Eleven broadcasts that fail, and a signal. -/
def elevenFailures : List MainEvent :=
  (List.replicate 11 [MainEvent.enter, .broadcast false false]).flatten ++ [.enter, .signal]

/-- The next broadcast fails too, and the signal is lost. -/
theorem shouldTerminate_of_failed_eleven :
    ∃ s t, elevenFailures.foldlM next initial = .ok s ∧ s.shouldTerminate = true ∧
      s.next (.broadcast false true) = .ok t ∧ t.shouldTerminate = false := by
  have hrun : elevenFailures.foldlM next initial = .ok ⟨.broadcasting 0, 0, [], 11, true⟩ := rfl
  have hfailed : (⟨.broadcasting 0, 0, [], 11, true⟩ : MainLoop).next (.broadcast false true) =
      .ok ⟨.top, 0, [], 1, false⟩ := rfl
  have hlost := shouldTerminate_of_failed hrun hfailed
  rw [if_pos ⟨by decide, by decide⟩] at hlost
  exact ⟨_, _, hrun, rfl, hfailed, hlost⟩

end MainLoop

end PoQ
