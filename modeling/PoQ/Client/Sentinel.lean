import PoQ.Client.Mirror
import PoQ.Socket.Transport

/-!
# Notifications from the server to the client

The loop of `notifications_sentinel` of `poet_client.cpp` on the socket that `asyncronous_send_message` of
`poet_server.cpp` sends to. Together with `socket_t.c` it carries the table and the queue of the server to
its subscribers.
-/

namespace PoQ

/-- The variables of `notifications_sentinel`, with the client's table and queue. -/
structure Sentinel where
  socket : Socket
  buffer : Option (List UInt8)
  len : ℕ
  mirror : Mirror

/-- What an iteration of the loop does with a message, if it does not skip it: whether a thread for
`starting_time_calculation` is started. -/
inductive SentinelTurn
  | skipped
  | handled (updated : Bool)
deriving DecidableEq, Repr

/-- One iteration of the loop at the time `now`. -/
def notificationsSentinelTurn {σ : Type} (lib : JsonLibrary σ) (raw : Json → ℤ) (serverStartingTime : ℤ)
    (now : ℤ) (beyond : ℕ → List UInt8) (s : Sentinel) : Except Abort (SentinelTurn × Sentinel) := do
  let r ← socketGetMessage beyond s.socket s.buffer s.len
  if r.returned < 0 then
    return (.skipped, { s with socket := r.socket, buffer := r.buffer, len := r.buffSize })
  else
    match r.message with
    | none => return (.handled false, ⟨r.socket, none, 0, s.mirror⟩)
    | some buffer => do
      let (updated, mirror) ←
        updateSgxTableAndQueueFromTxt lib raw now serverStartingTime buffer s.mirror
      return (.handled updated, ⟨r.socket, none, 0, mirror⟩)

/-- Some iterations of the loop: what each of them does, and the table and the queue behind it. -/
def notificationsSentinel {σ : Type} (lib : JsonLibrary σ) (raw : Json → ℤ) (serverStartingTime : ℤ) :
    List (ℤ × (ℕ → List UInt8)) → Sentinel → Except Abort (List (SentinelTurn × Mirror) × Sentinel)
  | [], s => .ok ([], s)
  | (now, beyond) :: turns, s => do
    let (turn, s) ← notificationsSentinelTurn lib raw serverStartingTime now beyond s
    let (rest, last) ← notificationsSentinel lib raw serverStartingTime turns s
    return ((turn, s.mirror) :: rest, last)

/-! ## The bytes of a notification -/

theorem Plain.append {s t : List UInt8} (hs : Plain s) (ht : Plain t) : Plain (s ++ t) := by
  intro b hb
  rcases List.mem_append.mp hb with hb | hb
  · exact hs b hb
  · exact ht b hb

theorem plain_decimal (n : ℕ) : Plain (decimal n) := by
  intro b hb
  have hdigit := isDigitByte_of_mem_decimal hb
  simp only [isDigitByte, decide_eq_true_eq] at hdigit
  refine ⟨?_, ?_, ?_⟩ <;>
    rintro rfl <;> exact absurd hdigit.1 (by decide)

theorem plain_elementsText {texts : List (List UInt8)} (h : ∀ text ∈ texts, Plain text) :
    Plain (elementsText texts) := by
  induction texts with
  | nil => decide
  | cons text texts ih =>
    have htext := h text List.mem_cons_self
    cases texts with
    | nil => exact htext.append (by decide)
    | cons next texts =>
      rw [elementsText_cons_cons]
      exact htext.append (Plain.append (s := [44]) (by decide)
        (ih fun text ht => h text (List.mem_cons_of_mem _ ht)))

theorem plain_nodeTToJson (node : Node) : Plain (nodeTToJson node) := by
  unfold nodeTToJson
  have hnode := plain_decimal node.nodeId
  have hsgx := plain_decimal node.sgxTime
  have harrival := plain_decimal node.arrivalTime
  have hleft := plain_decimal node.timeLeft
  have hleadership := plain_decimal node.nLeadership
  exact (((((((((Plain.append (by decide) hnode).append (by decide)).append hsgx).append
    (by decide)).append harrival).append (by decide)).append hleft).append (by decide)).append
    hleadership).append (by decide)

/-- A notification can be sent as a message. -/
theorem plain_notificationText (queue : List ℕ) (table : List Node) :
    Plain (notificationText queue table) := by
  have hqueue : Plain (getQueueStr queue table) := by
    rw [getQueueStr_eq]
    refine Plain.append (s := [91]) (by decide) (plain_elementsText fun text ht => ?_)
    obtain ⟨n, -, rfl⟩ := List.mem_map.mp ht
    exact plain_decimal n
  have htable : Plain (getSgxTableStr table) := by
    rw [getSgxTableStr_eq]
    refine Plain.append (s := [91]) (by decide) (plain_elementsText fun text ht => ?_)
    obtain ⟨node, -, rfl⟩ := List.mem_map.mp ht
    exact plain_nodeTToJson node
  exact (((Plain.append (by decide) hqueue).append (by decide)).append htable).append (by decide)

theorem notificationText_ne_nil (queue : List ℕ) (table : List Node) :
    notificationText queue table ≠ [] := by
  have hbrace : ascii "\x7b\"data\":\x7b\"queue\": " ≠ [] := by decide
  simp [notificationText, hbrace]

/-! ## From one end to the other -/

/-- A notification of the server's queue and table, on its way to a subscriber who reads it at the time
`now`. -/
structure TableNotice where
  queue : List ℕ
  table : List Node
  now : ℤ
  outcomes : List SendOutcome
  pieces : List Piece
  beyond : ℕ → List UInt8

def TableNotice.text (n : TableNotice) : List UInt8 := notificationText n.queue n.table

def TableNotice.transfer (n : TableNotice) : Transfer := ⟨n.text, n.outcomes, n.pieces, n.beyond⟩

/-- The state is one that the server can be in, and the notification of it is sent as a whole and arrives
in pieces that can be put together again. -/
structure TableNotice.Arrives (n : TableNotice) : Prop where
  indexed : IndexedById n.table
  inRange : ∀ node ∈ n.table, node.InRange
  timeLeft : ∀ node ∈ n.table, node.timeLeft ≤ node.sgxTime
  queue : ∀ u ∈ n.queue, u < n.table.length
  sent : ∃ r, socketSendMessageCustom false n.text n.outcomes = .ok r ∧ 0 < r.returned
  whole : SendsWhole false n.text n.outcomes
  cut : stream n.pieces = frame n.text
  full : FillsBlocks n.text n.pieces
  terminator : KeepsTerminator n.pieces
  quiet : QuietBehind n.beyond n.pieces

namespace TableNotice.Arrives

variable {n : TableNotice}

theorem sound (h : n.Arrives) : n.transfer.Sound where
  nonempty := notificationText_ne_nil _ _
  plain := plain_notificationText _ _
  sent := h.sent
  whole := h.whole
  cut := h.cut
  full := h.full
  terminator := h.terminator
  quiet := h.quiet

/-- The client takes over the queue and the table: a text that `socket_send_message` could send is one
that `check_json_compliance` can count through. -/
theorem update {σ : Type} {lib : JsonLibrary σ} (hlib : lib.Correct) (raw : Json → ℤ)
    (serverStartingTime : ℤ) (h : n.Arrives) (m : Mirror) :
    updateSgxTableAndQueueFromTxt lib raw n.now serverStartingTime n.text m =
      .ok (true, ⟨n.table, n.queue, n.now - serverStartingTime⟩) := by
  obtain ⟨r, hr, hpos⟩ := h.sent
  have hlength := socketSendMessageCustom_pos (notificationText_ne_nil _ _) hr hpos
  rw [length_notificationText] at hlength
  have htable := length_le_notificationLength (printedIds n.queue n.table) n.table
  have hids : printedIds n.queue n.table = n.queue :=
    printedIds_eq h.indexed h.queue fun u hu => by
      have := h.queue u hu
      omega
  rw [TableNotice.text, updateSgxTableAndQueueFromTxt_eq hlib raw n.now serverStartingTime h.inRange h.timeLeft,
    if_pos hlength, hids]

theorem turn {σ : Type} {lib : JsonLibrary σ} (hlib : lib.Correct) (raw : Json → ℤ)
    (serverStartingTime : ℤ) (h : n.Arrives) (rest : List RecvOutcome) (m : Mirror) :
    notificationsSentinelTurn lib raw serverStartingTime n.now n.beyond
        ⟨⟨false, n.pieces.map .data ++ rest⟩, none, 0, m⟩ =
      .ok (.handled true, ⟨⟨false, rest⟩, none, 0, ⟨n.table, n.queue, n.now - serverStartingTime⟩⟩) := by
  obtain ⟨r, hr, hpos, hmessage, hsocket⟩ := h.sound.receive rest
  have hr : socketGetMessage n.beyond ⟨false, n.pieces.map .data ++ rest⟩ none 0 = .ok r := hr
  have hmessage : r.message = some n.text := hmessage
  simp only [notificationsSentinelTurn, hr, Except.ok_bind, if_neg (Int.not_lt.mpr hpos.le), hmessage,
    h.update hlib raw serverStartingTime m, hsocket, Except.pure_eq_ok]

end TableNotice.Arrives

/-- Any number of notifications, one after the other: the bytes that the client receives are those that the
server has sent; behind every turn of the client's loop its table and queue are those of the server that
the notification was made from; and after every one of them the leadership time is computed again. -/
theorem notificationsSentinel_sendMessages {σ : Type} {lib : JsonLibrary σ} (hlib : lib.Correct)
    (raw : Json → ℤ) (serverStartingTime : ℤ) {notices : List TableNotice} (h : ∀ n ∈ notices, n.Arrives)
    (rest : List RecvOutcome) (m : Mirror) :
    sendMessages (notices.map fun n => (n.text, n.outcomes)) =
        .ok (stream (notices.flatMap (·.pieces))) ∧
      ∃ last, notificationsSentinel lib raw serverStartingTime (notices.map fun n => (n.now, n.beyond))
          ⟨⟨false, (notices.flatMap (·.pieces)).map .data ++ rest⟩, none, 0, m⟩ =
        .ok (notices.map fun n =>
            (.handled true, ⟨n.table, n.queue, n.now - serverStartingTime⟩), last) ∧
        last.socket = ⟨false, rest⟩ := by
  constructor
  · have hsound : ∀ t ∈ notices.map TableNotice.transfer, t.Sound := by
      intro t ht
      obtain ⟨n, hn, rfl⟩ := List.mem_map.mp ht
      exact (h n hn).sound
    have hpieces := stream_flatMap hsound
    have hsent := sendMessages_eq hsound
    rw [List.flatMap_map] at hpieces
    rw [← hpieces, List.map_map] at hsent
    exact hsent
  · induction notices generalizing m with
    | nil => exact ⟨_, rfl, rfl⟩
    | cons n notices ih =>
      obtain ⟨last, hlast, hsocket⟩ := ih (fun n hn => h n (List.mem_cons_of_mem _ hn))
        ⟨n.table, n.queue, n.now - serverStartingTime⟩
      have hturn := (h n List.mem_cons_self).turn hlib raw serverStartingTime
        ((notices.flatMap (·.pieces)).map .data ++ rest) m
      refine ⟨last, ?_, hsocket⟩
      rw [List.flatMap_cons, List.map_append, List.append_assoc, List.map_cons, notificationsSentinel, hturn]
      simp only [Except.ok_bind, hlast, Except.pure_eq_ok, List.map_cons]

/-- Two nodes, in one piece. -/
def noticeOfTwo (queue : List ℕ) (now : ℤ)
    (hfits : (frame (notificationText queue (freshNodes 2))).length ≤ bufferSize) : TableNotice where
  queue := queue
  table := freshNodes 2
  now := now
  outcomes := [.sent 1023, .sent 1]
  pieces := [⟨frame (notificationText queue (freshNodes 2)), by simp [frame, endingString], hfits⟩]
  beyond := fun _ => []

theorem noticeOfTwo_arrives {queue : List ℕ} (now : ℤ)
    (hfits : (frame (notificationText queue (freshNodes 2))).length ≤ bufferSize)
    (hqueue : ∀ u ∈ queue, u < 2)
    (hsent : socketSendMessageCustom false (notificationText queue (freshNodes 2)) [.sent 1023, .sent 1] =
      .ok ⟨(notificationText queue (freshNodes 2)).length, frame (notificationText queue (freshNodes 2)),
        false, []⟩) : (noticeOfTwo queue now hfits).Arrives := by
  have hpos : (0 : ℤ) < (notificationText queue (freshNodes 2)).length := by
    exact_mod_cast List.length_pos_iff.mpr (notificationText_ne_nil queue (freshNodes 2))
  refine ⟨freshNodes_indexed 2, freshNodes_inRange (by decide), freshNodes_timeLeft 2, hqueue,
    ⟨_, hsent, hpos⟩, ?_, ?_, ?_, ⟨_, rfl, ?_⟩, fun _ _ _ _ _ => rfl⟩
  · change SendsWhole false (notificationText queue (freshNodes 2)) [.sent 1023, .sent 1]
    rw [SendsWhole, hsent]
    exact .inr ⟨hpos, rfl, rfl⟩
  · exact List.append_nil _
  · intro i piece hpiece hlt
    rcases i with _ | i
    · change (frame (notificationText queue (freshNodes 2))).length + 0 <
        (notificationText queue (freshNodes 2)).length at hlt
      rw [frame, List.length_append] at hlt
      omega
    · cases hpiece
  · simp [frame, endingString]

/-- The server's queue turns around. -/
def twoNotices : List TableNotice :=
  [noticeOfTwo [0, 1] 7 (by decide +kernel), noticeOfTwo [1, 0] 9 (by decide +kernel)]

theorem twoNotices_arrive : ∀ n ∈ twoNotices, n.Arrives := by
  refine List.forall_mem_cons.mpr ⟨noticeOfTwo_arrives 7 _ (by decide) (by decide +kernel), ?_⟩
  exact List.forall_mem_singleton.mpr (noticeOfTwo_arrives 9 _ (by decide) (by decide +kernel))

theorem notificationsSentinel_twoNotices :
    sendMessages (twoNotices.map fun n => (n.text, n.outcomes)) =
        .ok (stream (twoNotices.flatMap (·.pieces))) ∧
      ∃ last, notificationsSentinel readerLibrary (fun _ => 0) 3 [(7, fun _ => []), (9, fun _ => [])]
          ⟨⟨false, (twoNotices.flatMap (·.pieces)).map .data⟩, none, 0, ⟨[], [], 0⟩⟩ =
        .ok ([(.handled true, ⟨freshNodes 2, [0, 1], 4⟩), (.handled true, ⟨freshNodes 2, [1, 0], 6⟩)],
          last) ∧
        last.socket = ⟨false, []⟩ := by
  have h := notificationsSentinel_sendMessages readerLibrary_correct (fun _ => 0) 3 twoNotices_arrive []
    ⟨[], [], 0⟩
  rw [List.append_nil] at h
  exact h

end PoQ
