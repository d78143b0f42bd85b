import PoQ.Socket.Send

/-!
# Messages from one end of a connection to the other

`socket_send_message` on one side and `socket_get_message` on the other. A call of `send` may take less
than it is given, a call of `recv` may deliver less than has arrived, and nothing but the terminator tells
the receiver where a message ends.
-/

namespace PoQ

open CString

/-- Messages are sent one after the other, as long as the calls of `socket_send_message` are successful.
The result is what `send` has taken of them. -/
def sendMessages : List (List UInt8 × List SendOutcome) → Except Abort (List UInt8)
  | [] => .ok []
  | (message, outcomes) :: calls => do
    let r ← socketSendMessageCustom false message outcomes
    if 0 < r.returned then return r.wire ++ (← sendMessages calls) else return r.wire

/-- What successive calls of `socket_get_message` return, up to the first that is not successful, and the
socket that they leave behind. Every call has its own memory behind its blocks. -/
def receiveMessages : List (ℕ → List UInt8) → Socket → List (List UInt8) × Socket
  | [], soc => ([], soc)
  | beyond :: calls, soc =>
    match socketGetMessage beyond soc none 0 with
    | .ok r =>
      if 0 < r.returned then
        (r.message.toList ++ (receiveMessages calls r.socket).1, (receiveMessages calls r.socket).2)
      else ([], r.socket)
    | .error _ => ([], soc)

/-! ## The side of the sender -/

/-- Behind a positive result the buffer has been taken as a whole, and its length is an `int`. -/
theorem socketSendMessageCustom_pos {buffer : List UInt8} {outcomes : List SendOutcome} {r : SentMessage}
    (hne : buffer ≠ []) (h : socketSendMessageCustom false buffer outcomes = .ok r)
    (hpos : 0 < r.returned) : buffer.length < intSize := by
  have hloop := sendLoop_eq (Nat.le_refl outcomes.length)
    (lt_min (List.length_pos_iff.mpr hne) (by decide : 0 < intSize))
  rw [List.take_zero] at hloop
  by_contra hlong
  rw [socketSendMessageCustom] at h
  cases hleft : leftAfter (min buffer.length intSize) buffer.length 0 outcomes with
  | none =>
    rw [hleft] at hloop
    rcases hloop with hblocked | ⟨closed, wire, left, herror⟩
    · simp [hblocked] at h
    · simp only [herror, Bool.false_eq_true, if_false, Except.ok_bind, Except.pure_eq_ok] at h
      cases h
      exact absurd hpos (lt_irrefl 0)
  | some left =>
    rw [hleft] at hloop
    simp [hlong] at hloop
    simp [hloop] at h

/-- A message on its way: what `send` does while it is sent, the pieces in which it arrives, and the memory
behind the blocks of the call that receives it. -/
structure Transfer where
  message : List UInt8
  outcomes : List SendOutcome
  pieces : List Piece
  beyond : ℕ → List UInt8

/-- The message can be put together again: the sender is told that it has been sent, and it has; the
pieces are those of its frame and no others; and they are cut so that the receiver finds its end. -/
structure Transfer.Sound (t : Transfer) : Prop where
  nonempty : t.message ≠ []
  plain : Plain t.message
  sent : ∃ r, socketSendMessageCustom false t.message t.outcomes = .ok r ∧ 0 < r.returned
  whole : SendsWhole false t.message t.outcomes
  cut : stream t.pieces = frame t.message
  full : FillsBlocks t.message t.pieces
  terminator : KeepsTerminator t.pieces
  quiet : QuietBehind t.beyond t.pieces

/-- What a successful call puts on the wire. -/
theorem Transfer.Sound.wire {t : Transfer} (h : t.Sound) :
    ∃ r, socketSendMessageCustom false t.message t.outcomes = .ok r ∧ 0 < r.returned ∧
      r.wire = frame t.message := by
  obtain ⟨r, hr, hpos⟩ := h.sent
  have hwhole := h.whole
  rw [SendsWhole, hr] at hwhole
  rcases hwhole with hle | ⟨-, hwire, -⟩
  · exact absurd hpos (Int.not_lt.mpr hle)
  · exact ⟨r, hr, hpos, hwire⟩

theorem sendMessages_eq {transfers : List Transfer} (h : ∀ t ∈ transfers, t.Sound) :
    sendMessages (transfers.map fun t => (t.message, t.outcomes)) =
      .ok ((transfers.map fun t => frame t.message).flatten) := by
  induction transfers with
  | nil => rfl
  | cons t transfers ih =>
    obtain ⟨r, hr, hpos, hwire⟩ := (h t List.mem_cons_self).wire
    have ih := ih fun t ht => h t (List.mem_cons_of_mem _ ht)
    simp only [List.map_cons, sendMessages, hr, Except.ok_bind, if_pos hpos, ih, hwire, List.flatten_cons,
      Except.pure_eq_ok]

/-! ## The side of the receiver -/

/-- A piece of message bytes in front of others holds no terminator, and no memory behind it does. -/
theorem QuietBehind.strstr_head {beyond : ℕ → List UInt8} {n : ℕ} {piece next : Piece}
    {pieces : List Piece} (h : QuietBehind (fun i => beyond (n + i)) (piece :: next :: pieces))
    (hm : Plain piece.bytes) : strstr endingString (cstr (block piece.bytes ++ beyond n)) = none := by
  rw [strstr_block_plain hm piece.fits]
  split
  · next hfull =>
    have hquiet : strstr endingString (cstr (beyond n)) = none := h 0 piece (by simp) rfl hfull
    rw [hquiet]
    rfl
  · rfl

/-- `current_size` counts the bytes of the message. -/
theorem receiveLoop_size (beyond : ℕ → List UInt8) {pieces : List Piece} {m : List UInt8} (hm : Plain m)
    (hcut : stream pieces = m ++ endingString) (hterm : KeepsTerminator pieces)
    (blocks : List (List UInt8)) (hquiet : QuietBehind (fun i => beyond (blocks.length + i)) pieces)
    {fuel : ℕ} (hfuel : pieces.length ≤ fuel) (rest : List RecvOutcome) (currentSize : ℕ) :
    ∃ blocks', receiveLoop beyond fuel (pieces.map .data ++ rest) blocks currentSize =
      .ok (.finished blocks' ((currentSize + m.length) % 2 ^ 64), rest) := by
  induction pieces generalizing m blocks fuel currentSize with
  | nil => simp [stream, endingString] at hcut
  | cons piece pieces ih =>
    obtain ⟨fuel, rfl⟩ : ∃ f, fuel = f + 1 := ⟨fuel - 1, by simp at hfuel; omega⟩
    rw [List.map_cons, List.cons_append]
    cases pieces with
    | nil =>
      obtain hbytes : piece.bytes = m ++ (endingString ++ []) := by simpa [stream] using hcut
      obtain ⟨current, -, hloop⟩ := receiveLoop_terminator beyond hm hbytes fuel rest blocks currentSize
      exact ⟨_, hloop⟩
    | cons next pieces =>
      rw [keepsTerminator_cons] at hterm
      rcases stream_cut hcut (stream_ne_nil next pieces) with ⟨m', rfl, hs⟩ | ⟨-, hs⟩
      · obtain ⟨blocks', hloop⟩ := ih hm.append_right hs hterm (blocks ++ [block piece.bytes])
          (by simpa using hquiet.tail) (by simpa using hfuel)
          ((currentSize + piece.bytes.length) % 2 ^ 64)
        refine ⟨blocks', ?_⟩
        rw [receiveLoop_data]
        simp only [hquiet.strstr_head hm.append_left]
        rw [hloop, Nat.mod_add_mod, List.length_append, Nat.add_assoc]
      · have htwo := hterm.two_le
        rw [show stream (next :: pieces) = [10] from hs] at htwo
        simp at htwo

/-- The call returns the message, and leaves what has arrived behind it for the next call. -/
theorem Transfer.Sound.receive {t : Transfer} (h : t.Sound) (rest : List RecvOutcome) :
    ∃ r, socketGetMessage t.beyond ⟨false, t.pieces.map .data ++ rest⟩ none 0 = .ok r ∧
      0 < r.returned ∧ r.message = some t.message ∧ r.socket = ⟨false, rest⟩ := by
  obtain ⟨r', hr', hsent⟩ := h.sent
  have hlength := socketSendMessageCustom_pos h.nonempty hr' hsent
  obtain ⟨r, hr, hmessage, -, -⟩ := (socketGetMessageCustom_iff t.beyond h.plain h.cut rest none 0).mpr
    ⟨h.full, h.terminator, h.quiet⟩
  have hfuel : t.pieces.length ≤ (t.pieces.map RecvOutcome.data ++ rest).length := by simp
  obtain ⟨blocks, hloop⟩ := receiveLoop_size t.beyond h.plain h.cut h.terminator []
    (by simpa using h.quiet) hfuel rest 0
  refine ⟨r, hr, ?_, hmessage, ?_⟩
  all_goals
    simp only [socketGetMessageCustom, Bool.false_eq_true, if_false, hloop, Except.ok_bind,
      Except.pure_eq_ok] at hr
    obtain rfl := Except.ok.inj hr
  · have hpos := List.length_pos_iff.mpr h.nonempty
    unfold intSize at hlength
    have hsize : (0 + t.message.length) % 2 ^ 64 = t.message.length := by omega
    simp only [hsize]
    rw [Int.bmod_eq_of_le] <;> omega
  · rfl

theorem receiveMessages_eq {transfers : List Transfer} (h : ∀ t ∈ transfers, t.Sound)
    (rest : List RecvOutcome) :
    receiveMessages (transfers.map (·.beyond))
        ⟨false, (transfers.flatMap (·.pieces)).map .data ++ rest⟩ =
      (transfers.map (·.message), ⟨false, rest⟩) := by
  induction transfers with
  | nil => rfl
  | cons t transfers ih =>
    have ih := ih fun t ht => h t (List.mem_cons_of_mem _ ht)
    obtain ⟨r, hr, hpos, hmessage, hsocket⟩ := (h t List.mem_cons_self).receive
      ((transfers.flatMap (·.pieces)).map .data ++ rest)
    rw [List.map_cons, List.flatMap_cons, List.map_append, List.append_assoc, receiveMessages, hr]
    simp only [if_pos hpos, hmessage, hsocket, ih, Option.toList_some, List.singleton_append, List.map_cons]

theorem stream_flatMap {transfers : List Transfer} (h : ∀ t ∈ transfers, t.Sound) :
    stream (transfers.flatMap (·.pieces)) = (transfers.map fun t => frame t.message).flatten := by
  induction transfers with
  | nil => rfl
  | cons t transfers ih =>
    have ih := ih fun t ht => h t (List.mem_cons_of_mem _ ht)
    rw [List.map_cons, List.flatten_cons, ← ih, ← (h t List.mem_cons_self).cut]
    simp [stream]

/-- Any number of messages sent one after the other, each as a whole: the pieces are cut from what `send`
has taken, and successive calls return the messages, each once and in order, and wait for what comes
behind them. -/
theorem receiveMessages_sendMessages {transfers : List Transfer} (h : ∀ t ∈ transfers, t.Sound)
    (rest : List RecvOutcome) :
    sendMessages (transfers.map fun t => (t.message, t.outcomes)) =
        .ok (stream (transfers.flatMap (·.pieces))) ∧
      receiveMessages (transfers.map (·.beyond))
          ⟨false, (transfers.flatMap (·.pieces)).map .data ++ rest⟩ =
        (transfers.map (·.message), ⟨false, rest⟩) :=
  ⟨by rw [stream_flatMap h, sendMessages_eq h], receiveMessages_eq h rest⟩

/-- `ab`, sent in two calls of `send` and received in two calls of `recv`. -/
def transferInTwo : Transfer where
  message := [97, 98]
  outcomes := [.sent 0, .failed .eintr, .sent 6, .sent 1]
  pieces := [⟨[97, 98], by decide, by decide⟩, ⟨endingString, by decide, by decide⟩]
  beyond := fun _ => []

theorem transferInTwo_sound : transferInTwo.Sound where
  nonempty := by decide
  plain := by decide
  sent := ⟨⟨2, frame [97, 98], false, []⟩, by decide, by decide⟩
  whole := by
    refine .inr ⟨by decide, ?_, ?_⟩ <;> decide
  cut := rfl
  full := fun i _ _ hlt => absurd hlt (by cases i <;> simp [delivered, transferInTwo, endingString])
  terminator := ⟨_, rfl, by decide⟩
  quiet := fun _ _ _ _ _ => rfl

/-- The same message twice. -/
theorem receiveMessages_sendMessages_twice :
    sendMessages [([97, 98], transferInTwo.outcomes), ([97, 98], transferInTwo.outcomes)] =
        .ok (frame [97, 98] ++ frame [97, 98]) ∧
      receiveMessages [fun _ => [], fun _ => []]
          ⟨false, (transferInTwo.pieces ++ transferInTwo.pieces).map .data⟩ =
        ([[97, 98], [97, 98]], ⟨false, []⟩) :=
  @receiveMessages_sendMessages [transferInTwo, transferInTwo] (by simpa using transferInTwo_sound) []

end PoQ
