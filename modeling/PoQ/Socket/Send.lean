import PoQ.Socket.ReceiveErrors

/-!
# Sending messages

`socket_send_message_custom` of `socket_t.c` and what it calls. What the network does is a list of
outcomes of `send`, one for each call still to come. The functions are called for nonempty buffers, as
their assertions demand.
-/

namespace PoQ

/-- The outcome of one call of `send`: there is room for `n + 1` bytes, of which `send` takes as many as
it is given; it returns 0, where `errno` is what it was before; or there is an error. -/
inductive SendOutcome
  | sent (n : ℕ)
  | zero (errno : Errno)
  | failed (errno : Errno)
deriving DecidableEq, Repr

/-- `socket_send` calls `send` again. -/
def SendOutcome.again : SendOutcome → Bool
  | sent _ => false
  | zero errno | failed errno => errno = .eintr ∨ errno = .eagain

/-- `send` returns 0. -/
def SendOutcome.isZero : SendOutcome → Bool
  | zero _ => true
  | sent _ | failed _ => false

/-- What `socket_send` returns, `errno`, and the bytes that `send` has taken. -/
structure SocketSent where
  val : ℤ
  errno : Option Errno
  bytes : List UInt8
deriving DecidableEq, Repr

/-- The outcome of the last call of `send` for these bytes. -/
def SendOutcome.result (buffer : List UInt8) : SendOutcome → SocketSent
  | sent n => ⟨min (n + 1) buffer.length, none, buffer.take (n + 1)⟩
  | zero errno => ⟨0, some errno, []⟩
  | failed errno => ⟨-1, some errno, []⟩

/-- `socket_send` on an open socket. -/
def socketSend (buffer : List UInt8) : List SendOutcome → Except Abort (SocketSent × List SendOutcome)
  | [] => .error .blocked
  | outcome :: outcomes =>
    if outcome.again then socketSend buffer outcomes else .ok (outcome.result buffer, outcomes)

/-- How the sending loop is left: by `goto error`, where the socket may have been closed, or with
`total_sent`. -/
inductive SendEnd
  | error (closed : Bool)
  | finished (totalSent : ℕ)
deriving DecidableEq, Repr

/-- The loop of `socket_send_message_custom`, with the bytes that have been taken. Every iteration
consumes an outcome, so that the fuel lasts if it is the number of outcomes. -/
def sendLoop (buffer : List UInt8) :
    ℕ → ℕ → ℕ → List SendOutcome → List UInt8 → Except Abort (SendEnd × List UInt8 × List SendOutcome)
  | 0, _, _, _, _ => .error .blocked
  | fuel + 1, totalSent, retries, outcomes, wire => do
    let (sent, outcomes) ← socketSend ((buffer.drop totalSent).take bufferSize) outcomes
    let wire := wire ++ sent.bytes
    if sent.val < 0 then
      let retries := retries + 1
      if retries < retriesThreshold ∧ sent.errno = some .eagain then
        sendLoop buffer fuel totalSent retries outcomes wire
      else return (.error false, wire, outcomes)
    else if sent.val = 0 then return (.error true, wire, outcomes)
    else
      let totalSent := totalSent + sent.val.toNat
      ensure (totalSent < intSize) .intOverflow
      if totalSent < buffer.length ∧ retries < retriesThreshold then
        sendLoop buffer fuel totalSent 0 outcomes wire
      else return (.finished totalSent, wire, outcomes)

/-- What a call of `socket_send_message_custom` leaves behind. -/
structure SentMessage where
  returned : ℤ
  wire : List UInt8
  isClosed : Bool
  outcomes : List SendOutcome
deriving DecidableEq, Repr

/-- `socket_send_message_custom`. -/
def socketSendMessageCustom (isClosed : Bool) (buffer : List UInt8) (outcomes : List SendOutcome) :
    Except Abort SentMessage := do
  if isClosed then return ⟨-1, [], isClosed, outcomes⟩
  match ← sendLoop buffer outcomes.length 0 0 outcomes [] with
  | (.error closed, wire, outcomes) => return ⟨0, wire, closed, outcomes⟩
  | (.finished totalSent, wire, outcomes) =>
    let (sent, outcomes) ← socketSend endingString outcomes
    let wire := wire ++ sent.bytes
    -- `strlen` returns a `size_t`, and `sent` is compared as one
    if toSize sent.val < endingString.length then return ⟨0, wire, false, outcomes⟩
    else return ⟨totalSent, wire, false, outcomes⟩

/-- What a call is to do, unless it waits for ever: a positive value is the length of the buffer, and
then the buffer and the terminator have been taken as a whole. -/
def SendsWhole (isClosed : Bool) (buffer : List UInt8) (outcomes : List SendOutcome) : Prop :=
  match socketSendMessageCustom isClosed buffer outcomes with
  | .ok r => r.returned ≤ 0 ∨ 0 < r.returned ∧ r.wire = frame buffer ∧ r.returned = buffer.length
  | .error e => e = .blocked

/-! ## The outcomes that matter -/

/-- The first outcome behind which `send` is not called again, and those behind it. -/
def settle : List SendOutcome → Option (SendOutcome × List SendOutcome)
  | [] => none
  | outcome :: outcomes => if outcome.again then settle outcomes else some (outcome, outcomes)

/-- The outcomes that are left when at least `limit` of the `len` bytes have been taken, in pieces of at
most `BUFFER_SIZE`. There are none if something else happens first. -/
def leftAfter (limit len : ℕ) : ℕ → List SendOutcome → Option (List SendOutcome)
  | taken, [] => if limit ≤ taken then some [] else none
  | taken, outcome :: outcomes =>
    if limit ≤ taken then some (outcome :: outcomes)
    else
      match outcome with
      | .sent n => leftAfter limit len (taken + min (n + 1) (min bufferSize (len - taken))) outcomes
      | .zero _ | .failed _ => if outcome.again then leftAfter limit len taken outcomes else none

theorem socketSend_eq (buffer : List UInt8) (outcomes : List SendOutcome) :
    socketSend buffer outcomes =
      match settle outcomes with
      | none => .error .blocked
      | some (outcome, left) => .ok (outcome.result buffer, left) := by
  induction outcomes with
  | nil => rfl
  | cons outcome outcomes ih =>
    rw [socketSend, settle]
    split
    · exact ih
    · rfl

theorem settle_length_lt {outcomes left : List SendOutcome} {outcome : SendOutcome}
    (h : settle outcomes = some (outcome, left)) : left.length < outcomes.length := by
  induction outcomes with
  | nil => cases h
  | cons outcome' outcomes ih =>
    rw [settle] at h
    split at h
    · exact (ih h).trans (Nat.lt_succ_self _)
    · cases h
      exact Nat.lt_succ_self _

theorem settle_again {outcomes left : List SendOutcome} {outcome : SendOutcome}
    (h : settle outcomes = some (outcome, left)) : outcome.again = false := by
  induction outcomes with
  | nil => cases h
  | cons outcome' outcomes ih =>
    rw [settle] at h
    split at h
    · exact ih h
    · next hagain =>
      cases h
      exact Bool.eq_false_of_not_eq_true hagain

theorem leftAfter_of_le {limit len taken : ℕ} (h : limit ≤ taken) (outcomes : List SendOutcome) :
    leftAfter limit len taken outcomes = some outcomes := by
  cases outcomes with
  | nil => exact if_pos h
  | cons outcome outcomes => exact if_pos h

/-- As long as there are bytes to be taken, the next settled outcome decides. -/
theorem leftAfter_of_lt {limit len taken : ℕ} (h : taken < limit) (outcomes : List SendOutcome) :
    leftAfter limit len taken outcomes =
      match settle outcomes with
      | some (.sent n, left) =>
        leftAfter limit len (taken + min (n + 1) (min bufferSize (len - taken))) left
      | _ => none := by
  induction outcomes with
  | nil => exact if_neg (Nat.not_le.mpr h)
  | cons outcome outcomes ih =>
    cases outcome with
    | sent n =>
      rw [leftAfter, if_neg (Nat.not_le.mpr h), settle]
      rfl
    | zero errno | failed errno =>
      rw [leftAfter, if_neg (Nat.not_le.mpr h), settle]
      split
      · exact ih
      · rfl

/-! ## The loop -/

section

variable {buffer : List UInt8}

/-- What one piece of the buffer adds to what has been taken of it. -/
theorem take_append_result (buffer : List UInt8) (total n : ℕ) :
    buffer.take total ++ (SendOutcome.result ((buffer.drop total).take bufferSize) (.sent n)).bytes =
      buffer.take (total + min (n + 1) (min bufferSize (buffer.length - total))) := by
  refine Eq.trans ?_ List.take_add.symm
  change _ ++ ((buffer.drop total).take bufferSize).take (n + 1) = _
  rw [List.take_take, ← List.length_drop, ← min_assoc, ← List.take_eq_take_min]

theorem toNat_val_sent (buffer : List UInt8) (total n : ℕ) :
    (SendOutcome.result ((buffer.drop total).take bufferSize) (.sent n)).val =
      (min (n + 1) (min bufferSize (buffer.length - total)) : ℕ) := by
  simp only [SendOutcome.result, List.length_take, List.length_drop]
  omega

/-- The loop, where `totalSent` bytes have been taken: all bytes are taken before anything else happens,
or the loop ends by `goto error` or waits for ever. -/
theorem sendLoop_eq {fuel total : ℕ} {outcomes : List SendOutcome} (hfuel : outcomes.length ≤ fuel)
    (htotal : total < min buffer.length intSize) :
    match leftAfter (min buffer.length intSize) buffer.length total outcomes with
    | some left => sendLoop buffer fuel total 0 outcomes (buffer.take total) =
        if buffer.length < intSize then .ok (.finished buffer.length, buffer, left) else .error .intOverflow
    | none => sendLoop buffer fuel total 0 outcomes (buffer.take total) = .error .blocked ∨
        ∃ closed wire left, sendLoop buffer fuel total 0 outcomes (buffer.take total) =
          .ok (.error closed, wire, left) := by
  induction fuel generalizing total outcomes with
  | zero =>
    obtain rfl := List.length_eq_zero_iff.mp (Nat.le_zero.mp hfuel)
    rw [leftAfter_of_lt htotal]
    exact .inl rfl
  | succ fuel ih =>
    rw [leftAfter_of_lt htotal, sendLoop, socketSend_eq]
    cases hsettle : settle outcomes with
    | none => exact .inl rfl
    | some result =>
      obtain ⟨outcome, left⟩ := result
      simp only [Except.ok_bind]
      cases outcome with
      | zero errno => exact .inr ⟨true, _, left, rfl⟩
      | failed errno =>
        have hagain := settle_again hsettle
        have hretry : ¬(0 + 1 < retriesThreshold ∧ some errno = some Errno.eagain) := by
          rintro ⟨-, heagain⟩
          cases heagain
          cases hagain
        refine .inr ⟨false, buffer.take total ++ [], left, ?_⟩
        change (if (-1 : ℤ) < 0 then _ else _) = _
        rw [if_pos (by decide)]
        exact if_neg hretry
      | sent n =>
        have hval := toNat_val_sent buffer total n
        have hwire := take_append_result buffer total n
        have hleft : left.length ≤ fuel := Nat.le_of_lt_succ ((settle_length_lt hsettle).trans_le hfuel)
        generalize hk : min (n + 1) (min bufferSize (buffer.length - total)) = k at hval hwire
        have hpos : 0 < k := by
          unfold bufferSize at hk
          omega
        simp only [hval, hwire, Int.toNat_natCast, if_neg (Int.not_lt.mpr (Int.natCast_nonneg k)),
          if_neg (Int.natCast_ne_zero.mpr hpos.ne'), hk]
        rcases Nat.lt_or_ge (total + k) intSize with hint | hint
        · rw [ensure_of hint, Except.ok_bind]
          rcases Nat.lt_or_ge (total + k) buffer.length with hmore | hall
          · rw [if_pos ⟨hmore, by decide⟩]
            exact ih hleft (lt_min hmore hint)
          · have heq : total + k = buffer.length := by omega
            rw [heq] at hint ⊢
            rw [leftAfter_of_le (min_le_left _ _), if_neg fun h => Nat.lt_irrefl _ h.1]
            simp only [if_pos hint, List.take_length, Except.pure_eq_ok]
        · have hlong : ¬buffer.length < intSize := by omega
          rw [leftAfter_of_le ((min_le_right _ _).trans hint)]
          simp only [ensure, if_neg (Nat.not_lt.mpr hint), if_neg hlong, Except.error_bind]

/-- Behind the last byte of the buffer the terminator is sent, and only a failure of that goes unnoticed. -/
theorem sendsWhole_iff_of_finished {outcomes left : List SendOutcome} (h : buffer ≠ [])
    (hloop : sendLoop buffer outcomes.length 0 0 outcomes [] =
      .ok (.finished buffer.length, buffer, left)) :
    SendsWhole false buffer outcomes ↔ ∀ errno left', settle left ≠ some (.failed errno, left') := by
  have hpos : (0 : ℤ) < buffer.length := by exact_mod_cast List.length_pos_iff.mpr h
  simp only [SendsWhole, socketSendMessageCustom, hloop, Except.ok_bind, Bool.false_eq_true, if_false,
    socketSend_eq]
  cases hsettle : settle left with
  | none => simp
  | some result =>
    obtain ⟨outcome, left'⟩ := result
    simp only [Except.ok_bind]
    cases outcome with
    | sent n =>
      refine iff_of_true ?_ (by simp)
      cases n with
      | zero => exact .inl le_rfl
      | succ n =>
        have hval : (SendOutcome.result endingString (.sent (n + 1))).val = 2 := by
          simp only [SendOutcome.result, endingString, List.length_cons, List.length_nil]
          omega
        have hbytes : (SendOutcome.result endingString (.sent (n + 1))).bytes = endingString :=
          List.take_of_length_le (Nat.le_add_left 2 n)
        rw [hval, hbytes, if_neg (by decide)]
        exact .inr ⟨hpos, rfl, rfl⟩
    | zero errno => exact iff_of_true (.inl le_rfl) (by simp)
    | failed errno =>
      refine iff_of_false ?_ fun hno => hno errno left' rfl
      have hval : ¬toSize (-1) < endingString.length := by decide
      rw [SendOutcome.result, if_neg hval]
      rintro (hle | ⟨-, hwire, -⟩)
      · exact absurd hpos (Int.not_lt.mpr hle)
      · have hlength := congrArg List.length hwire
        simp [frame, endingString] at hlength

end

/-- A positive result means that the message has been sent as a whole, exactly when the socket is closed,
or something else happens before the buffer has been taken, or the buffer has less than `2 ^ 31` bytes
and `send` does not fail for the terminator behind them. -/
theorem sendsWhole_iff (isClosed : Bool) {buffer : List UInt8} (h : buffer ≠ [])
    (outcomes : List SendOutcome) :
    SendsWhole isClosed buffer outcomes ↔
      isClosed = true ∨ ∀ left, leftAfter (min buffer.length intSize) buffer.length 0 outcomes = some left →
        buffer.length < intSize ∧ ∀ errno left', settle left ≠ some (.failed errno, left') := by
  cases isClosed with
  | true => exact iff_of_true (.inl (Int.negSucc_lt_zero 0).le) (.inl rfl)
  | false =>
    have htotal : 0 < min buffer.length intSize := lt_min (List.length_pos_iff.mpr h) (by decide)
    have hloop := sendLoop_eq (Nat.le_refl outcomes.length) htotal
    rw [List.take_zero] at hloop
    cases hleft : leftAfter (min buffer.length intSize) buffer.length 0 outcomes with
    | none =>
      refine iff_of_true ?_ (.inr fun left hsome => by cases hsome)
      rw [hleft] at hloop
      rw [SendsWhole, socketSendMessageCustom]
      rcases hloop with hblocked | ⟨closed, wire, left, herror⟩
      · simp [hblocked]
      · simp [herror]
    | some left =>
      rw [hleft] at hloop
      rcases Nat.lt_or_ge buffer.length intSize with hint | hint
      · rw [sendsWhole_iff_of_finished h (hloop.trans (if_pos hint))]
        simp [hint]
      · have hlong : ¬buffer.length < intSize := Nat.not_lt.mpr hint
        refine iff_of_false ?_ ?_
        · simp only [if_neg hlong] at hloop
          simp [SendsWhole, socketSendMessageCustom, hloop]
        · rintro (hclosed | hleft)
          · cases hclosed
          · exact hlong (hleft left rfl).1

/-- The bytes of `abc` are taken in two calls, and the terminator behind a call that is interrupted. -/
theorem sendsWhole_interrupted :
    SendsWhole false [97, 98, 99] [.sent 1, .sent 7, .failed .eintr, .sent 1] := by
  refine (sendsWhole_iff false (by decide) _).mpr
    (.inr fun left hleft => ⟨by decide, fun errno left' hsettle => ?_⟩)
  have hrest : leftAfter (min [97, 98, 99].length intSize) [97, 98, 99].length 0
      [.sent 1, .sent 7, .failed .eintr, .sent 1] = some [.failed .eintr, .sent 1] := by
    decide
  cases hrest.symm.trans hleft
  cases hsettle

/-- The peer resets the connection before the terminator: 1 is returned, though only the `a` has been
sent. -/
theorem not_sendsWhole_reset :
    socketSendMessageCustom false [97] [.sent 0, .failed (.other 104)] = .ok ⟨1, [97], false, []⟩ ∧
      ¬SendsWhole false [97] [.sent 0, .failed (.other 104)] := by
  have hsent : socketSendMessageCustom false [97] [.sent 0, .failed (.other 104)] =
      .ok ⟨1, [97], false, []⟩ := by
    decide
  refine ⟨hsent, ?_⟩
  rw [SendsWhole, hsent]
  decide

/-! ## One call of `send` at a time -/

/-- What the next call of `send` does in a call of `socket_send_message_custom`: the bytes that it takes,
what is left to be sent behind it, and whether the socket is closed. -/
structure SendStep where
  taken : List UInt8
  left : List UInt8
  closes : Bool
deriving DecidableEq, Repr

/-- The step loses nothing of what was to be sent. -/
def SendStep.Keeps (step : SendStep) (left : List UInt8) : Prop := step.taken ++ step.left = left

instance (step : SendStep) (left : List UInt8) : Decidable (step.Keeps left) :=
  inferInstanceAs (Decidable (_ = _))

/-- A call of `socket_send_message_custom` that has `left` of its text and the terminator still to send, and
comes to its next `send`. On a closed socket the call ends. -/
def sendStep (isClosed : Bool) (left : List UInt8) (outcome : SendOutcome) : SendStep :=
  if isClosed then ⟨[], [], false⟩
  else if outcome.again then ⟨[], left, false⟩
  else if endingString.length < left.length then
    match outcome with
    | .sent n =>
      let k := min (n + 1) (min bufferSize (left.length - endingString.length))
      ⟨left.take k, left.drop k, false⟩
    | .zero _ => ⟨[], [], true⟩
    | .failed _ => ⟨[], [], false⟩
  -- the terminator is sent once, whatever becomes of it
  else
    match outcome with
    | .sent n => ⟨left.take (n + 1), [], false⟩
    | .zero _ | .failed _ => ⟨[], [], false⟩

/-- The steps of a call until nothing is left: the bytes that have been taken, whether the socket has been
closed, and the outcomes that are left. -/
def sendSteps : List UInt8 → List SendOutcome → Except Abort (List UInt8 × Bool × List SendOutcome)
  | [], outcomes => .ok ([], false, outcomes)
  | _ :: _, [] => .error .blocked
  | b :: left, outcome :: outcomes =>
    let step := sendStep false (b :: left) outcome
    (sendSteps step.left outcomes).map fun r => (step.taken ++ r.1, step.closes || r.2.1, r.2.2)

@[simp] theorem sendSteps_nil (outcomes : List SendOutcome) :
    sendSteps [] outcomes = .ok ([], false, outcomes) := by
  cases outcomes <;> rfl

/-- On a closed socket nothing is sent. -/
@[simp] theorem sendStep_closed (left : List UInt8) (outcome : SendOutcome) :
    sendStep true left outcome = ⟨[], [], false⟩ := rfl

theorem sendStep_of_again (left : List UInt8) {outcome : SendOutcome} (h : outcome.again = true) :
    sendStep false left outcome = ⟨[], left, false⟩ :=
  if_pos h

theorem sendStep_text {left : List UInt8} {outcome : SendOutcome} (h : ¬outcome.again = true)
    (hleft : endingString.length < left.length) :
    sendStep false left outcome =
      match outcome with
      | .sent n =>
        ⟨left.take (min (n + 1) (min bufferSize (left.length - endingString.length))),
          left.drop (min (n + 1) (min bufferSize (left.length - endingString.length))), false⟩
      | .zero _ => ⟨[], [], true⟩
      | .failed _ => ⟨[], [], false⟩ := by
  rw [sendStep.eq_def, if_neg Bool.false_ne_true, if_neg h, if_pos hleft]
  cases outcome <;> rfl

theorem sendStep_ending {left : List UInt8} {outcome : SendOutcome} (h : ¬outcome.again = true)
    (hleft : ¬endingString.length < left.length) :
    sendStep false left outcome = ⟨(outcome.result left).bytes, [], false⟩ := by
  rw [sendStep.eq_def, if_neg Bool.false_ne_true, if_neg h, if_neg hleft]
  cases outcome <;> rfl

/-- What is taken, and what is left behind it, is the beginning of what was to be sent. -/
theorem sendStep_taken_isPrefix (isClosed : Bool) (left : List UInt8) (outcome : SendOutcome) :
    (sendStep isClosed left outcome).taken ++ (sendStep isClosed left outcome).left <+: left := by
  unfold sendStep
  split
  · exact List.nil_prefix
  split
  · exact List.prefix_rfl
  split
  · cases outcome with
    | sent n => exact (List.take_append_drop _ left).symm ▸ List.prefix_rfl
    | zero | failed => exact List.nil_prefix
  · cases outcome with
    | sent n => exact (List.append_nil _).symm ▸ List.take_prefix _ left
    | zero | failed => exact List.nil_prefix

/-- A step closes the socket only when `send` has returned 0. -/
theorem sendStep_closes {isClosed : Bool} {left : List UInt8} {outcome : SendOutcome}
    (h : (sendStep isClosed left outcome).closes = true) : outcome.isZero = true := by
  unfold sendStep at h
  split at h
  · cases h
  split at h
  · cases h
  split at h
  · cases outcome with
    | zero => rfl
    | sent | failed => cases h
  · cases outcome with
    | zero => rfl
    | sent | failed => cases h

/-- The first settled outcome decides. -/
theorem sendSteps_eq {left : List UInt8} (h : left ≠ []) (outcomes : List SendOutcome) :
    sendSteps left outcomes =
      match settle outcomes with
      | none => .error .blocked
      | some (outcome, rest) =>
        (sendSteps (sendStep false left outcome).left rest).map fun r =>
          ((sendStep false left outcome).taken ++ r.1, (sendStep false left outcome).closes || r.2.1, r.2.2) := by
  obtain ⟨b, left, rfl⟩ := List.exists_cons_of_ne_nil h
  induction outcomes with
  | nil => rfl
  | cons outcome outcomes ih =>
    rw [sendSteps, settle]
    by_cases hagain : outcome.again = true
    · rw [if_pos hagain, ← ih, sendStep_of_again _ hagain]
      change (sendSteps (b :: left) outcomes).map (fun r => ([] ++ r.1, false || r.2.1, r.2.2)) = _
      cases sendSteps (b :: left) outcomes <;> rfl
    · rw [if_neg hagain]

/-- What the loop leaves behind, and the terminator. -/
def sendEnding : SendEnd × List UInt8 × List SendOutcome →
    Except Abort (List UInt8 × Bool × List SendOutcome)
  | (.error closed, wire, outcomes) => .ok (wire, closed, outcomes)
  | (.finished _, wire, outcomes) =>
    (socketSend endingString outcomes).map fun r => (wire ++ r.1.bytes, false, r.2)

theorem sendSteps_endingString (outcomes : List SendOutcome) :
    (socketSend endingString outcomes).map (fun r => (r.1.bytes, false, r.2)) =
      sendSteps endingString outcomes := by
  have hne : endingString ≠ [] := List.cons_ne_nil _ _
  rw [socketSend_eq, sendSteps_eq hne]
  cases hsettle : settle outcomes with
  | none => rfl
  | some result =>
    obtain ⟨outcome, rest⟩ := result
    have hagain : ¬outcome.again = true := by simp [settle_again hsettle]
    simp only [sendStep_ending hagain (Nat.lt_irrefl _), sendSteps_nil, Except.map, List.append_nil,
      Bool.false_or]

/-- The `k` bytes that a call of `send` takes behind the first `total`. -/
theorem bytes_result_sent {buffer : List UInt8} {total n k : ℕ}
    (hk : min (n + 1) (min bufferSize (buffer.length - total)) = k) :
    (SendOutcome.result ((buffer.drop total).take bufferSize) (.sent n)).bytes = (buffer.drop total).take k := by
  change ((buffer.drop total).take bufferSize).take (n + 1) = _
  rw [List.take_take, ← hk, ← min_assoc, ← List.length_drop, ← List.take_eq_take_min]

theorem sendStep_sent {buffer : List UInt8} {total n k : ℕ} (htotal : total < buffer.length)
    (hk : min (n + 1) (min bufferSize (buffer.length - total)) = k) :
    sendStep false (buffer.drop total ++ endingString) (.sent n) =
      ⟨(buffer.drop total).take k, buffer.drop (total + k) ++ endingString, false⟩ := by
  have hlength : (buffer.drop total ++ endingString).length - endingString.length =
      buffer.length - total := by
    rw [List.length_append, Nat.add_sub_cancel, List.length_drop]
  have hkle : k ≤ (buffer.drop total).length := by
    rw [List.length_drop]
    omega
  have htext : endingString.length < (buffer.drop total ++ endingString).length := by
    rw [List.length_append, List.length_drop]
    omega
  have hagain : ¬(SendOutcome.sent n).again = true := Bool.false_ne_true
  rw [sendStep_text hagain htext]
  simp only [hlength, hk]
  rw [List.take_append_of_le_length hkle, List.drop_append_of_le_length hkle, List.drop_drop]

/-- The loop and the terminator, where `total` bytes have been taken. -/
theorem sendLoop_sendEnding {buffer : List UInt8} (hsize : buffer.length < intSize) {fuel total : ℕ}
    {outcomes : List SendOutcome} (hfuel : outcomes.length ≤ fuel) (htotal : total < buffer.length)
    (wire : List UInt8) :
    sendLoop buffer fuel total 0 outcomes wire >>= sendEnding =
      (sendSteps (buffer.drop total ++ endingString) outcomes).map fun r => (wire ++ r.1, r.2) := by
  have hne : buffer.drop total ++ endingString ≠ [] := by simp [endingString]
  induction fuel generalizing total outcomes wire with
  | zero =>
    obtain rfl := List.length_eq_zero_iff.mp (Nat.le_zero.mp hfuel)
    rw [sendSteps_eq hne]
    rfl
  | succ fuel ih =>
    rw [sendSteps_eq hne, sendLoop, socketSend_eq]
    cases hsettle : settle outcomes with
    | none => rfl
    | some result =>
      obtain ⟨outcome, rest⟩ := result
      have hagain : ¬outcome.again = true := by simp [settle_again hsettle]
      have htext : endingString.length < (buffer.drop total ++ endingString).length := by
        rw [List.length_append, List.length_drop]
        omega
      simp only [Except.ok_bind]
      cases outcome with
      | zero errno =>
        rw [sendStep_text hagain htext]
        simp only [sendSteps_nil]
        rfl
      | failed errno =>
        have hretry : ¬(0 + 1 < retriesThreshold ∧ some errno = some Errno.eagain) := by
          rintro ⟨-, heagain⟩
          cases heagain
          exact hagain rfl
        rw [sendStep_text hagain htext]
        simp only [sendSteps_nil]
        change (if (-1 : ℤ) < 0 then _ else _) >>= _ = _
        rw [if_pos (by decide)]
        exact congrArg (· >>= sendEnding) (if_neg hretry)
      | sent n =>
        have hleft : rest.length ≤ fuel := Nat.le_of_lt_succ ((settle_length_lt hsettle).trans_le hfuel)
        have hval := toNat_val_sent buffer total n
        generalize hk : min (n + 1) (min bufferSize (buffer.length - total)) = k at hval
        have hpos : 0 < k := by
          unfold bufferSize at hk
          omega
        have hint : total + k < intSize := by omega
        rw [sendStep_sent htotal hk]
        simp only [hval, bytes_result_sent hk, Int.toNat_natCast, if_neg (Int.not_lt.mpr (Int.natCast_nonneg k)),
          if_neg (Int.natCast_ne_zero.mpr hpos.ne'), ensure_of hint, Except.ok_bind, Bool.false_or]
        rcases Nat.lt_or_ge (total + k) buffer.length with hmore | hall
        · rw [if_pos ⟨hmore, by decide⟩, ih hleft hmore _ (by simp [endingString])]
          cases sendSteps (buffer.drop (total + k) ++ endingString) rest with
          | error e => rfl
          | ok r => simp [Except.map]
        · rw [if_neg fun h => Nat.not_le.mpr h.1 hall, List.drop_of_length_le hall, List.nil_append,
            ← sendSteps_endingString]
          change (socketSend endingString rest).map _ = _
          cases socketSend endingString rest with
          | error e => rfl
          | ok r => simp [Except.map]

/-- The steps are those of the function. -/
theorem socketSendMessageCustom_sendSteps {buffer : List UInt8} (h : buffer ≠ [])
    (hsize : buffer.length < intSize) (outcomes : List SendOutcome) :
    (socketSendMessageCustom false buffer outcomes).map (fun r => (r.wire, r.isClosed, r.outcomes)) =
      sendSteps (frame buffer) outcomes := by
  have hloop : sendLoop buffer outcomes.length 0 0 outcomes [] >>= sendEnding =
      (sendSteps (buffer.drop 0 ++ endingString) outcomes).map fun r => ([] ++ r.1, r.2) :=
    sendLoop_sendEnding hsize le_rfl (List.length_pos_iff.mpr h) []
  have hend : (socketSendMessageCustom false buffer outcomes).map (fun r => (r.wire, r.isClosed, r.outcomes)) =
      sendLoop buffer outcomes.length 0 0 outcomes [] >>= sendEnding := by
    rw [socketSendMessageCustom]
    simp only [Bool.false_eq_true, if_false]
    cases sendLoop buffer outcomes.length 0 0 outcomes [] with
    | error e => rfl
    | ok r =>
      obtain ⟨out, wire, rest⟩ := r
      cases out with
      | error closed => rfl
      | finished totalSent =>
        simp only [Except.ok_bind, sendEnding]
        cases socketSend endingString rest with
        | error e => rfl
        | ok sent =>
          simp only [Except.ok_bind]
          split <;> rfl
  rw [hend, hloop]
  change (sendSteps (frame buffer) outcomes).map _ = _
  cases sendSteps (frame buffer) outcomes <;> rfl

end PoQ
