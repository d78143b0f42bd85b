import PoQ.Socket.Receive

/-!
# Errors while a message is received

`socket_get_message_custom` stores what `socket_recv` returns in a `size_t`, and tests whether it is
negative. The test is false for every value, so that an error is taken for a very long piece of the
message.
-/

namespace PoQ

open CString

/-- `RETRIES_THRESHOLD`. -/
def retriesThreshold : ℕ := 10

/-- What a call of `socket_recv` returns, and `errno` behind it. There is nothing for a call that does
not return. -/
abbrev RecvCall := Option (RecvOutcome × Option Errno)

/-- The calls of `socket_recv` that the loop makes, of which the last one may not return. -/
def recvCalls (beyond : ℕ → List UInt8) : ℕ → List RecvOutcome → ℕ → List RecvCall
  | 0, _, _ => [none]
  | fuel + 1, incoming, blocks =>
    match socketRecv incoming with
    | .error _ => [none]
    | .ok (outcome, errno, incoming) =>
      some (outcome, errno) ::
        if toSize outcome.valread = 0 then []
        else
          match strstr endingString (cstr (block outcome.bytes ++ beyond blocks)) with
          | some _ => []
          | none => recvCalls beyond fuel incoming (blocks + 1)

/-- Those of a call of `socket_get_message_custom`. -/
def Socket.recvCalls (soc : Socket) (beyond : ℕ → List UInt8) : List RecvCall :=
  if soc.isClosed then [] else PoQ.recvCalls beyond soc.incoming.length soc.incoming 0

/-- The call has returned a negative value. -/
def RecvCall.Failed (call : RecvCall) : Prop :=
  ∃ outcome errno, call = some (outcome, errno) ∧ outcome.valread < 0

/-- The call with this number has failed, and is not to be retried: `errno` is not `EAGAIN`, or
`RETRIES_THRESHOLD` calls in a row have failed. -/
def FailedForGood (calls : List RecvCall) (k : ℕ) : Prop :=
  ∃ outcome errno, calls[k]? = some (some (outcome, errno)) ∧ outcome.valread < 0 ∧
    (errno ≠ some .eagain ∨
      retriesThreshold ≤ k + 1 ∧
        ∀ j ≤ k, k < j + retriesThreshold → ∃ call, calls[j]? = some call ∧ call.Failed)

/-- A failure for good is the end: there is no further call, nothing is returned, and there is no
message. -/
def EndsOnFailure (beyond : ℕ → List UInt8) (soc : Socket) (buffer : Option (List UInt8)) (buffSize : ℕ) :
    Prop :=
  ∀ k, FailedForGood (soc.recvCalls beyond) k → (soc.recvCalls beyond).length = k + 1 ∧
    ∃ r, socketGetMessageCustom beyond soc buffer buffSize = .ok r ∧ r.returned ≤ 0 ∧ r.buffer = none ∧
      r.buffSize = 0

variable {beyond : ℕ → List UInt8}

/-- `socket_recv` returns, or waits for ever. -/
theorem socketRecv_eq_error {incoming : List RecvOutcome} {e : Abort} (h : socketRecv incoming = .error e) :
    e = .blocked := by
  unfold socketRecv at h
  split at h
  · cases h
    rfl
  · split at h
    · split at h
      · cases h
        rfl
      · cases h
    · cases h
  · cases h

/-- The loop waits for ever exactly when its last call does not return. -/
theorem receiveLoop_eq_blocked_iff {fuel : ℕ} {incoming : List RecvOutcome} {blocks : List (List UInt8)}
    {currentSize : ℕ} : receiveLoop beyond fuel incoming blocks currentSize = .error .blocked ↔
      none ∈ recvCalls beyond fuel incoming blocks.length := by
  induction fuel generalizing incoming blocks currentSize with
  | zero => exact iff_of_true rfl (List.mem_singleton_self none)
  | succ fuel ih =>
    rw [receiveLoop, recvCalls]
    cases hrecv : socketRecv incoming with
    | error e =>
      cases socketRecv_eq_error hrecv
      exact iff_of_true rfl (List.mem_singleton_self none)
    | ok result =>
      obtain ⟨outcome, errno, left⟩ := result
      simp only [Except.ok_bind]
      rcases Nat.eq_zero_or_pos (toSize outcome.valread) with hzero | hpos
      · simp [hzero]
      · simp only [if_neg hpos.ne']
        cases hfind : strstr endingString (cstr (block outcome.bytes ++ beyond blocks.length)) with
        | some i =>
          rcases Nat.lt_or_ge i bufferSize with hlt | hge
          · simp [ensure_of hlt]
          · simp [ensure, Nat.not_lt.mpr hge]
        | none =>
          have hrest := @ih left (blocks ++ [block outcome.bytes])
            ((currentSize + toSize outcome.valread) % 2 ^ 64)
          rw [List.length_append, List.length_singleton] at hrest
          simp only [hrest, List.mem_cons, reduceCtorEq, false_or]

theorem recvCalls_ne_nil (fuel : ℕ) (incoming : List RecvOutcome) (blocks : ℕ) :
    recvCalls beyond fuel incoming blocks ≠ [] := by
  cases fuel with
  | zero => exact List.cons_ne_nil _ _
  | succ fuel =>
    rw [recvCalls]
    split
    · exact List.cons_ne_nil _ _
    · exact List.cons_ne_nil _ _

/-- Nothing is written into the block, and no terminator is found in it. -/
theorem strstr_block_failed (errno : Errno) (select : Option Errno) (mem : List UInt8) :
    strstr endingString (cstr (block (RecvOutcome.failed errno select).bytes ++ mem)) = none := by
  have hplain : Plain [] := fun _ h => absurd h List.not_mem_nil
  rw [RecvOutcome.bytes, strstr_block_plain hplain (Nat.zero_le _), if_neg (by decide)]

/-- Behind a call that has failed there is a further one. -/
theorem lt_length_recvCalls {fuel : ℕ} {incoming : List RecvOutcome} {blocks k : ℕ} {outcome : RecvOutcome}
    {errno : Option Errno} (h : (recvCalls beyond fuel incoming blocks)[k]? = some (some (outcome, errno)))
    (hneg : outcome.valread < 0) : k + 1 < (recvCalls beyond fuel incoming blocks).length := by
  induction fuel generalizing incoming blocks k with
  | zero =>
    rw [recvCalls, List.getElem?_singleton] at h
    split at h <;> cases h
  | succ fuel ih =>
    rw [recvCalls] at h ⊢
    cases hrecv : socketRecv incoming with
    | error e =>
      simp only [hrecv, List.getElem?_singleton] at h
      split at h <;> cases h
    | ok result =>
      obtain ⟨outcome', errno', left⟩ := result
      simp only [hrecv] at h ⊢
      cases k with
      | zero =>
        cases h
        cases outcome with
        | data piece =>
          exact absurd hneg (Int.not_lt.mpr (Int.natCast_nonneg _))
        | closed => exact absurd hneg (Int.lt_irrefl 0)
        | failed errno select =>
          have hsize : ¬toSize (RecvOutcome.failed errno select).valread = 0 := by
            rw [RecvOutcome.valread]
            decide
          rw [if_neg hsize, strstr_block_failed]
          rw [List.length_cons]
          exact Nat.succ_lt_succ (List.length_pos_iff.mpr (recvCalls_ne_nil fuel left (blocks + 1)))
      | succ k =>
        rw [List.getElem?_cons_succ] at h
        rw [List.length_cons]
        apply Nat.succ_lt_succ
        rcases Nat.eq_zero_or_pos (toSize outcome'.valread) with hzero | hpos
        · rw [if_pos hzero] at h
          cases h
        · rw [if_neg hpos.ne'] at h ⊢
          cases hfind : strstr endingString (cstr (block outcome'.bytes ++ beyond blocks)) with
          | some i =>
            rw [hfind] at h
            cases h
          | none =>
            rw [hfind] at h
            exact ih h

/-- A call never ends on a failure for good: it does what it should exactly when there is none before it
ends. -/
theorem endsOnFailure_iff (beyond : ℕ → List UInt8) (soc : Socket) (buffer : Option (List UInt8))
    (buffSize : ℕ) :
    EndsOnFailure beyond soc buffer buffSize ↔ ∀ k, ¬FailedForGood (soc.recvCalls beyond) k := by
  constructor
  · intro h k hfailed
    obtain ⟨hlength, -⟩ := h k hfailed
    obtain ⟨outcome, errno, hcall, hneg, -⟩ := hfailed
    rw [Socket.recvCalls] at hcall hlength
    split at hcall
    · cases hcall
    · next hopen =>
      rw [if_neg hopen] at hlength
      have hlt := lt_length_recvCalls hcall hneg
      omega
  · intro h k hfailed
    exact absurd hfailed (h k)

/-- The peer resets the connection, and `ab` comes behind that: a further call takes it, and the value
returned is 1, with the buffer of an empty message. -/
theorem not_endsOnFailure_reset :
    FailedForGood (Socket.recvCalls
        ⟨false, [.failed (.other 104) none, .data ⟨[97, 98, 13, 10], by decide, by decide⟩]⟩
        fun _ => []) 0 ∧
      (Socket.recvCalls
        ⟨false, [.failed (.other 104) none, .data ⟨[97, 98, 13, 10], by decide, by decide⟩]⟩
        fun _ => []).length = 2 ∧
      (socketGetMessageCustom (fun _ => [])
        ⟨false, [.failed (.other 104) none, .data ⟨[97, 98, 13, 10], by decide, by decide⟩]⟩ none 0).map
          (fun r => (r.returned, r.buffer.isSome, r.buffSize)) = .ok (1, true, 0) ∧
      ¬EndsOnFailure (fun _ => [])
        ⟨false, [.failed (.other 104) none, .data ⟨[97, 98, 13, 10], by decide, by decide⟩]⟩ none 0 := by
  have hcalls : (Socket.recvCalls
      ⟨false, [.failed (.other 104) none, .data ⟨[97, 98, 13, 10], by decide, by decide⟩]⟩ fun _ => []) =
      [some (.failed (.other 104) none, some (.other 104)),
        some (.data ⟨[97, 98, 13, 10], by decide, by decide⟩, none)] := by
    decide
  have hfailed : FailedForGood (Socket.recvCalls
      ⟨false, [.failed (.other 104) none, .data ⟨[97, 98, 13, 10], by decide, by decide⟩]⟩
      fun _ => []) 0 := by
    rw [hcalls]
    exact ⟨_, _, rfl, by decide, .inl (by decide)⟩
  refine ⟨hfailed, by rw [hcalls]; rfl, by decide +kernel, fun h => ?_⟩
  obtain ⟨hlength, -⟩ := h 0 hfailed
  rw [hcalls] at hlength
  cases hlength

end PoQ
