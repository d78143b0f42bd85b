import PoQ.Basic
import PoQ.Lib.CString

/-!
# Receiving messages

`socket_get_message_custom` of `socket_t.c` and what it calls. What the network does is a list of
outcomes of `recv`, one for each call still to come; what stands in memory behind the blocks that the
function allocates is a parameter, since `strstr` reads on when a block has no zero in it. Memory
allocation is taken to succeed.
-/

namespace PoQ

open CString

/-- `BUFFER_SIZE`. -/
def bufferSize : ℕ := 1024

/-- `ENDING_STRING`, a carriage return and a line feed. -/
def endingString : List UInt8 := [13, 10]

/-- What one call of `recv` with a buffer of `BUFFER_SIZE` delivers. -/
structure Piece where
  bytes : List UInt8
  nonempty : bytes ≠ []
  fits : bytes.length ≤ bufferSize
deriving DecidableEq

/-- The values of `errno` that the code tells apart. -/
inductive Errno
  | eintr
  | eagain
  | other (code : ℕ)
deriving DecidableEq, Repr

/-- The outcome of one call of `recv`: bytes, a connection closed by the peer (`recv` returns 0), or an
error (-1) with that of the `socket_select` that the code may do next. -/
inductive RecvOutcome
  | data (piece : Piece)
  | closed
  | failed (errno : Errno) (select : Option Errno)
deriving DecidableEq

namespace RecvOutcome

def valread : RecvOutcome → ℤ
  | data piece => piece.bytes.length
  | closed => 0
  | failed _ _ => -1

def bytes : RecvOutcome → List UInt8
  | data piece => piece.bytes
  | closed => []
  | failed _ _ => []

end RecvOutcome

/-- The part of `socket_t` that receiving depends on, with what its descriptor will deliver. -/
structure Socket where
  isClosed : Bool
  incoming : List RecvOutcome
deriving DecidableEq

/-- `socket_recv` on an open socket: the return value, the bytes written, `errno`, and the outcomes
left. A first failure with `EINTR` or `EAGAIN` is followed by a second and last try. -/
def socketRecv : List RecvOutcome → Except Abort (RecvOutcome × Option Errno × List RecvOutcome)
  | [] => .error .blocked
  | .failed errno select :: incoming =>
    if errno = .eintr ∨ errno = .eagain then
      match incoming with
      | [] => .error .blocked
      | second :: incoming => .ok (second, some (select.getD errno), incoming)
    else .ok (.failed errno select, some errno, incoming)
  | outcome :: incoming => .ok (outcome, none, incoming)

/-- A block as `memset` and `recv` leave it. -/
def block (bytes : List UInt8) : List UInt8 :=
  bytes ++ List.replicate (bufferSize - bytes.length) 0

/-- An integer stored in a `size_t`. -/
def toSize (i : ℤ) : ℕ := (i % 2 ^ 64).toNat

/-- How the receiving loop is left: by `goto error`, or with the blocks and `current_size`. -/
inductive LoopEnd
  | error
  | finished (blocks : List (List UInt8)) (currentSize : ℕ)
deriving DecidableEq, Repr

/-- The loop of `socket_get_message_custom`. `beyond i` is the memory behind the block numbered `i`.
Every iteration consumes an outcome, so that the fuel lasts if it is the number of outcomes. -/
def receiveLoop (beyond : ℕ → List UInt8) :
    ℕ → List RecvOutcome → List (List UInt8) → ℕ → Except Abort (LoopEnd × List RecvOutcome)
  | 0, _, _, _ => .error .blocked
  | fuel + 1, incoming, blocks, currentSize => do
    let (outcome, _, incoming) ← socketRecv incoming
    let current := block outcome.bytes
    -- `received` is unsigned: the branch for negative values is never taken
    let received := toSize outcome.valread
    if received = 0 then return (.error, incoming)
    match strstr endingString (cstr (current ++ beyond blocks.length)) with
    | some i =>
      ensure (i < bufferSize) .outOfRange
      let current := current.set i 0
      return (.finished (blocks ++ [current]) ((currentSize + strlen current) % 2 ^ 64), incoming)
    | none =>
      receiveLoop beyond fuel incoming (blocks ++ [current]) ((currentSize + received) % 2 ^ 64)

/-- `concat_buffers`: every block is copied whole. -/
def concatBuffers (blocks : List (List UInt8)) : List UInt8 := blocks.flatten

/-- What a call of `socket_get_message_custom` leaves behind; `buffer` has all the memory allocated. -/
structure Received where
  returned : ℤ
  buffer : Option (List UInt8)
  buffSize : ℕ
  socket : Socket
deriving DecidableEq

/-- The bytes of `*buffer` as its users read them, `*buff_size` many. -/
def Received.message (r : Received) : Option (List UInt8) := r.buffer.map (·.take r.buffSize)

/-- `socket_get_message_custom`, with the values of `*buffer` and `*buff_size` before the call. -/
def socketGetMessageCustom (beyond : ℕ → List UInt8) (soc : Socket) (buffer : Option (List UInt8))
    (buffSize : ℕ) : Except Abort Received := do
  if soc.isClosed then return ⟨-1, buffer, buffSize, soc⟩
  match ← receiveLoop beyond soc.incoming.length soc.incoming [] 0 with
  | (.error, incoming) => return ⟨0, none, 0, { soc with incoming }⟩
  | (.finished blocks currentSize, incoming) =>
    let buffer := concatBuffers blocks
    return ⟨Int.bmod currentSize (2 ^ 32), some buffer, strlen buffer, { soc with incoming }⟩

/-! ## Blocks -/

/-- The bytes may stand inside a message. -/
def Plain (m : List UInt8) : Prop := ∀ b ∈ m, b ≠ 0 ∧ b ≠ 13 ∧ b ≠ 10

instance (m : List UInt8) : Decidable (Plain m) :=
  List.decidableBAll (fun b => b ≠ 0 ∧ b ≠ 13 ∧ b ≠ 10) m

theorem Plain.append_left {s t : List UInt8} (h : Plain (s ++ t)) : Plain s :=
  fun b hb => h b (List.mem_append_left _ hb)

theorem Plain.append_right {s t : List UInt8} (h : Plain (s ++ t)) : Plain t :=
  fun b hb => h b (List.mem_append_right _ hb)

/-- A full block has no zero, so that the string goes on behind it; any other block ends it. -/
theorem cstr_block_append {bytes : List UInt8} (h : ∀ b ∈ bytes, b ≠ 0)
    (hle : bytes.length ≤ bufferSize) (mem : List UInt8) :
    cstr (block bytes ++ mem) = if bytes.length = bufferSize then bytes ++ cstr mem else bytes := by
  rw [block, List.append_assoc, cstr_append h]
  split
  · next hfull => simp [hfull]
  · next hshort =>
    obtain ⟨k, hk⟩ : ∃ k, bufferSize - bytes.length = k + 1 := ⟨bufferSize - bytes.length - 1, by omega⟩
    simp [hk, List.replicate_succ]

theorem strstr_terminator {m : List UInt8} (hm : Plain m) (mem : List UInt8) :
    strstr endingString (cstr (m ++ (endingString ++ mem))) = some m.length := by
  have hcr : cstr (endingString ++ mem) = 13 :: ([10] ++ cstr mem) :=
    cstr_append (by simp [endingString]) mem
  rw [cstr_append fun b hb => (hm b hb).1, hcr, endingString,
    strstr_append fun h => (hm 13 h).2.1 rfl, strstr_cons_append]
  rfl

theorem cstr_set_terminator {m : List UInt8} (hm : Plain m) (mem mem' : List UInt8) :
    cstr ((m ++ (endingString ++ mem)).set m.length 0 ++ mem') = m := by
  have hset : (m ++ (endingString ++ mem)).set m.length 0 = m ++ 0 :: 10 :: mem := by
    simp [endingString]
  rw [hset, List.append_assoc, cstr_append fun b hb => (hm b hb).1]
  simp

theorem block_terminator (m t : List UInt8) : ∃ mem,
    block (m ++ (endingString ++ t)) = m ++ (endingString ++ mem) := by
  simp only [block, List.append_assoc]
  exact ⟨_, rfl⟩

/-- In a block of message bytes only the memory behind it can hold a terminator. -/
theorem strstr_block_plain {bytes : List UInt8} (h : Plain bytes) (hle : bytes.length ≤ bufferSize)
    (mem : List UInt8) :
    strstr endingString (cstr (block bytes ++ mem)) =
      if bytes.length = bufferSize then (strstr endingString (cstr mem)).map (bufferSize + ·)
      else none := by
  rw [cstr_block_append (fun b hb => (h b hb).1) hle]
  split
  · next hfull =>
    rw [endingString, strstr_append fun hb => (h 13 hb).2.1 rfl, hfull]
  · exact strstr_pair_eq_none fun hb => (h 10 hb).2.2 rfl

/-! ## The receiving loop -/

theorem socketRecv_consumes {incoming left : List RecvOutcome} {outcome : RecvOutcome}
    {errno : Option Errno} (h : socketRecv incoming = .ok (outcome, errno, left)) :
    left.length < incoming.length := by
  unfold socketRecv at h
  split at h
  · cases h
  · split at h
    · split at h
      · cases h
      · cases h
        simp only [List.length_cons]
        omega
    · cases h
      exact Nat.lt_succ_self _
  · cases h
    exact Nat.lt_succ_self _

section
variable (beyond : ℕ → List UInt8)

/-- One iteration with bytes received. -/
theorem receiveLoop_data (piece : Piece) (fuel : ℕ) (incoming : List RecvOutcome)
    (blocks : List (List UInt8)) (currentSize : ℕ) :
    receiveLoop beyond (fuel + 1) (.data piece :: incoming) blocks currentSize =
      match strstr endingString (cstr (block piece.bytes ++ beyond blocks.length)) with
      | some i => do
        ensure (i < bufferSize) .outOfRange
        let current := (block piece.bytes).set i 0
        return (.finished (blocks ++ [current]) ((currentSize + strlen current) % 2 ^ 64), incoming)
      | none => receiveLoop beyond fuel incoming (blocks ++ [block piece.bytes])
          ((currentSize + piece.bytes.length) % 2 ^ 64) := by
  have hpos := List.length_pos_iff.mpr piece.nonempty
  have hle : piece.bytes.length ≤ 1024 := piece.fits
  have hsize : toSize (RecvOutcome.data piece).valread = piece.bytes.length := by
    simp only [toSize, RecvOutcome.valread]
    omega
  rw [receiveLoop]
  simp only [socketRecv, Except.ok_bind, hsize, hpos.ne', if_false, RecvOutcome.bytes]

/-- An iteration whose bytes hold a terminator is the last one. -/
theorem receiveLoop_terminator {m t : List UInt8} (hm : Plain m) {piece : Piece}
    (hbytes : piece.bytes = m ++ (endingString ++ t)) (fuel : ℕ) (incoming : List RecvOutcome)
    (blocks : List (List UInt8)) (currentSize : ℕ) :
    ∃ current, (∀ mem, cstr (current ++ mem) = m) ∧
      receiveLoop beyond (fuel + 1) (.data piece :: incoming) blocks currentSize =
        .ok (.finished (blocks ++ [current]) ((currentSize + m.length) % 2 ^ 64), incoming) := by
  have hlt : m.length < bufferSize := by
    have hfits := hbytes ▸ piece.fits
    simp [endingString] at hfits
    omega
  obtain ⟨mem, hblock⟩ := block_terminator m t
  have hcstr := cstr_set_terminator hm mem
  refine ⟨(block piece.bytes).set m.length 0, fun mem' => by rw [hbytes, hblock, hcstr], ?_⟩
  have hlen : strlen ((block piece.bytes).set m.length 0) = m.length := by
    rw [strlen, hbytes, hblock, ← List.append_nil (List.set _ _ _), hcstr]
  rw [receiveLoop_data]
  have hfind : strstr endingString (cstr (block piece.bytes ++ beyond blocks.length)) =
      some m.length := by
    rw [hbytes, hblock, List.append_assoc, List.append_assoc, strstr_terminator hm]
  simp only [hfind, ensure_of hlt, Except.ok_bind, Except.pure_eq_ok, hlen]

/-- The loop consumes at least one outcome. -/
theorem receiveLoop_consumes {fuel : ℕ} {incoming rest : List RecvOutcome}
    {blocks : List (List UInt8)} {currentSize : ℕ} {e : LoopEnd}
    (h : receiveLoop beyond fuel incoming blocks currentSize = .ok (e, rest)) :
    rest.length < incoming.length := by
  induction fuel generalizing incoming blocks currentSize with
  | zero => cases h
  | succ fuel ih =>
    rw [receiveLoop] at h
    obtain ⟨⟨outcome, errno, left⟩, hrecv, h⟩ := Except.bind_eq_ok.mp h
    have hleft := socketRecv_consumes hrecv
    simp only at h
    split at h
    · cases h; exact hleft
    · split at h
      · obtain ⟨_, _, h⟩ := Except.bind_eq_ok.mp h
        cases h; exact hleft
      · exact (ih h).trans hleft

/-! ### Reassembly

A message arrives whole when the conditions below hold of the way the stream has been cut. -/

/-- How many bytes the first `i` pieces deliver. -/
def delivered (pieces : List Piece) (i : ℕ) : ℕ := ((pieces.take i).map (·.bytes.length)).sum

/-- Every piece that is followed by bytes of the message fills its block. -/
def FillsBlocks (m : List UInt8) (pieces : List Piece) : Prop :=
  ∀ i piece, pieces[i]? = some piece → delivered pieces (i + 1) < m.length →
    piece.bytes.length = bufferSize

/-- The last piece holds the carriage return and the line feed. -/
def KeepsTerminator (pieces : List Piece) : Prop :=
  ∃ piece, pieces.getLast? = some piece ∧ 2 ≤ piece.bytes.length

/-- No terminator stands in the memory that is read behind a full block. -/
def QuietBehind (beyond : ℕ → List UInt8) (pieces : List Piece) : Prop :=
  ∀ i piece, i + 1 < pieces.length → pieces[i]? = some piece → piece.bytes.length = bufferSize →
    strstr endingString (cstr (beyond i)) = none

def stream (pieces : List Piece) : List UInt8 := (pieces.map (·.bytes)).flatten

@[simp] theorem stream_cons (piece : Piece) (pieces : List Piece) :
    stream (piece :: pieces) = piece.bytes ++ stream pieces := rfl

theorem stream_ne_nil (piece : Piece) (pieces : List Piece) : stream (piece :: pieces) ≠ [] := by
  simp [piece.nonempty]

/-- A piece that is not the last one ends inside the message, or between the two bytes of the
terminator. -/
theorem stream_cut {m bytes s : List UInt8} (h : bytes ++ s = m ++ endingString) (hs : s ≠ []) :
    (∃ m', m = bytes ++ m' ∧ s = m' ++ endingString) ∨ (bytes = m ++ [13] ∧ s = [10]) := by
  rcases List.append_eq_append_iff.mp h with ⟨m', hm, hs'⟩ | ⟨c, hb, hc⟩
  · exact .inl ⟨m', hm, hs'⟩
  · rcases c with _ | ⟨x, _ | ⟨y, c⟩⟩
    · exact .inl ⟨[], by simpa using hb.symm, by simpa using hc.symm⟩
    · obtain ⟨rfl, rfl⟩ : x = 13 ∧ s = [10] := by simpa [endingString, eq_comm] using hc
      exact .inr ⟨hb, rfl⟩
    · obtain ⟨-, -, -, rfl⟩ : x = 13 ∧ y = 10 ∧ c = [] ∧ s = [] := by
        simpa [endingString, eq_comm] using hc
      exact absurd rfl hs

variable {beyond} in
theorem QuietBehind.tail {piece next : Piece} {pieces : List Piece} {n : ℕ}
    (h : QuietBehind (fun i => beyond (n + i)) (piece :: next :: pieces)) :
    QuietBehind (fun i => beyond (n + 1 + i)) (next :: pieces) := by
  intro i p hi hp hfull
  have hquiet := h (i + 1) p (by simpa using hi) hp hfull
  simpa only [Nat.add_assoc, Nat.add_comm 1] using hquiet

theorem fillsBlocks_cons {m : List UInt8} {piece : Piece} {pieces : List Piece} :
    FillsBlocks (piece.bytes ++ m) (piece :: pieces) ↔
      (m ≠ [] → piece.bytes.length = bufferSize) ∧ FillsBlocks m pieces := by
  constructor
  · intro h
    refine ⟨fun hm => h 0 piece rfl ?_, fun i p hp hlt => h (i + 1) p hp ?_⟩
    · have := List.length_pos_iff.mpr hm
      simpa [delivered] using this
    · simpa [delivered, Nat.add_assoc] using hlt
  · rintro ⟨h0, hs⟩ (_ | i) p hp hlt
    · cases hp
      refine h0 fun hm => ?_
      simp [delivered, hm] at hlt
    · exact hs i p hp (by simpa [delivered, Nat.add_assoc] using hlt)

theorem KeepsTerminator.two_le {pieces : List Piece} (h : KeepsTerminator pieces) :
    2 ≤ (stream pieces).length := by
  obtain ⟨piece, hlast, hlen⟩ := h
  have hmem := List.mem_map_of_mem (f := Piece.bytes) (List.mem_of_getLast? hlast)
  exact hlen.trans (List.sublist_flatten_of_mem hmem).length_le

theorem keepsTerminator_cons {piece next : Piece} {pieces : List Piece} :
    KeepsTerminator (piece :: next :: pieces) ↔ KeepsTerminator (next :: pieces) := by
  simp [KeepsTerminator]

/-- When the terminator comes in one piece, and no other is found behind a full block, the loop ends
after the last piece. The blocks then hold the message as long as those before its end are full. -/
theorem receiveLoop_finished {pieces : List Piece} {m : List UInt8} (hm : Plain m)
    (hcut : stream pieces = m ++ endingString) (hterm : KeepsTerminator pieces)
    (blocks : List (List UInt8)) (hquiet : QuietBehind (fun i => beyond (blocks.length + i)) pieces)
    {fuel : ℕ} (hfuel : pieces.length ≤ fuel) (rest : List RecvOutcome) (currentSize : ℕ) :
    ∃ blocks' size, receiveLoop beyond fuel (pieces.map .data ++ rest) blocks currentSize =
        .ok (.finished (blocks ++ blocks') size, rest) ∧
      (cstr blocks'.flatten = m ↔ FillsBlocks m pieces) := by
  induction pieces generalizing m blocks fuel currentSize with
  | nil => simp [stream, endingString] at hcut
  | cons piece pieces ih =>
    obtain ⟨fuel, rfl⟩ : ∃ f, fuel = f + 1 := ⟨fuel - 1, by simp at hfuel; omega⟩
    rw [List.map_cons, List.cons_append]
    cases pieces with
    | nil =>
      obtain hbytes : piece.bytes = m ++ (endingString ++ []) := by simpa [stream] using hcut
      obtain ⟨current, hcurrent, hloop⟩ :=
        receiveLoop_terminator beyond hm hbytes fuel rest blocks currentSize
      refine ⟨_, _, hloop, iff_of_true (by simpa using hcurrent []) ?_⟩
      rintro (_ | i) p hp hlast
      · simp only [delivered, hbytes, Nat.zero_add, List.take_succ_cons, List.take_zero, List.map_cons,
          List.map_nil, List.sum_cons, List.sum_nil, List.length_append] at hlast
        omega
      · simp at hp
    | cons next pieces =>
      rw [receiveLoop_data]
      rw [keepsTerminator_cons] at hterm
      rcases stream_cut hcut (stream_ne_nil next pieces) with ⟨m', rfl, hs⟩ | ⟨-, hs⟩
      · have hnone : strstr endingString
            (cstr (block piece.bytes ++ beyond blocks.length)) = none := by
          rw [strstr_block_plain hm.append_left piece.fits]
          split
          · next hfull => simpa using hquiet 0 piece (by simp) rfl hfull
          · rfl
        obtain ⟨blocks', size, hloop, hiff⟩ := ih hm.append_right hs hterm
          (blocks ++ [block piece.bytes]) (by simpa using hquiet.tail)
          (by simpa using hfuel) ((currentSize + piece.bytes.length) % 2 ^ 64)
        refine ⟨block piece.bytes :: blocks', size, ?_, ?_⟩
        · rw [List.append_assoc, List.singleton_append] at hloop
          simpa only [hnone] using hloop
        rw [fillsBlocks_cons, ← hiff, List.flatten_cons,
          cstr_block_append (fun b hb => (hm.append_left b hb).1) piece.fits]
        split
        · next hfull => simp [hfull]
        · next hshort =>
          -- the string ends with this block, and so must the message
          constructor
          · intro h
            obtain rfl : m' = [] := by simpa using h
            exact ⟨fun h => absurd rfl h, hiff.mpr fun i p _ hlt => absurd hlt (by simp)⟩
          · rintro ⟨h, -⟩
            by_cases hm' : m' = []
            · simp [hm']
            · exact absurd (h hm') hshort
      · have htwo := hterm.two_le
        rw [show stream (next :: pieces) = [10] from hs] at htwo
        simp at htwo

/-- A line feed that comes alone does not end the loop. -/
theorem receiveLoop_lineFeed {pieces : List Piece} (hcut : stream pieces = [10])
    (rest : List RecvOutcome) (fuel : ℕ) (blocks : List (List UInt8)) (currentSize : ℕ)
    (e : LoopEnd) :
    receiveLoop beyond fuel (pieces.map .data ++ rest) blocks currentSize ≠ .ok (e, rest) := by
  intro h
  obtain ⟨piece, rfl, hbytes⟩ : ∃ piece, pieces = [piece] ∧ piece.bytes = [10] := by
    rcases pieces with _ | ⟨piece, _ | ⟨next, pieces⟩⟩
    · simp [stream] at hcut
    · exact ⟨piece, rfl, by simpa [stream] using hcut⟩
    · rw [stream_cons, List.append_eq_singleton_iff] at hcut
      rcases hcut with ⟨hnil, -⟩ | ⟨-, hnil⟩
      · exact absurd hnil piece.nonempty
      · exact absurd hnil (stream_ne_nil next pieces)
  cases fuel with
  | zero => cases h
  | succ fuel =>
    have hnone : strstr endingString (cstr (block piece.bytes ++ beyond blocks.length)) = none := by
      rw [hbytes, cstr_block_append (by simp) (by decide)]
      rfl
    rw [List.map_cons, List.cons_append, receiveLoop_data] at h
    simp only [hnone] at h
    exact absurd (receiveLoop_consumes beyond h) (lt_irrefl _)

/-- A loop that ends after exactly these pieces has found the terminator in the last of them. -/
theorem receiveLoop_cut {pieces : List Piece} {m : List UInt8} (hm : Plain m)
    (hcut : stream pieces = m ++ endingString) {rest : List RecvOutcome} {fuel : ℕ}
    {blocks : List (List UInt8)} {currentSize : ℕ} {e : LoopEnd}
    (h : receiveLoop beyond fuel (pieces.map .data ++ rest) blocks currentSize = .ok (e, rest)) :
    KeepsTerminator pieces ∧ QuietBehind (fun i => beyond (blocks.length + i)) pieces := by
  induction pieces generalizing m blocks fuel currentSize with
  | nil => simp [stream, endingString] at hcut
  | cons piece pieces ih =>
    cases pieces with
    | nil =>
      have hbytes : piece.bytes = m ++ endingString := by simpa [stream] using hcut
      refine ⟨⟨piece, rfl, by simp [hbytes, endingString]⟩, fun i p hi => ?_⟩
      simp at hi
    | cons next pieces =>
      cases fuel with
      | zero => cases h
      | succ fuel =>
        rw [List.map_cons, List.cons_append, receiveLoop_data] at h
        -- nothing can be found in this block, or the loop would end before the last piece
        have hnone : strstr endingString (cstr (block piece.bytes ++ beyond blocks.length)) =
            none := by
          cases hfind : strstr endingString (cstr (block piece.bytes ++ beyond blocks.length)) with
          | none => rfl
          | some i =>
            rw [hfind] at h
            obtain ⟨_, _, h⟩ := Except.bind_eq_ok.mp h
            have := congrArg List.length (congrArg Prod.snd (Except.ok.inj h))
            simp at this
            omega
        simp only [hnone] at h
        rcases stream_cut hcut (stream_ne_nil next pieces) with ⟨m', rfl, hs⟩ | ⟨-, hs⟩
        · obtain ⟨hterm, hquiet⟩ := ih hm.append_right hs h
          refine ⟨keepsTerminator_cons.mpr hterm, ?_⟩
          rintro (_ | i) p hi hp hfull
          · cases hp
            rw [strstr_block_plain hm.append_left piece.fits, if_pos hfull] at hnone
            simpa using hnone
          · have := hquiet i p (by simpa using hi) hp hfull
            simpa [Nat.add_assoc, Nat.add_comm 1] using this
        · exact absurd h (receiveLoop_lineFeed beyond hs rest fuel _ _ e)

/-- A call returns the message after the last piece of its stream exactly when every piece in front of
further message bytes fills its block, the two bytes of the terminator come together, and the memory
behind full blocks holds no terminator. -/
theorem socketGetMessageCustom_iff {m : List UInt8} (hm : Plain m) {pieces : List Piece}
    (hcut : stream pieces = m ++ endingString) (rest : List RecvOutcome)
    (buffer : Option (List UInt8)) (buffSize : ℕ) :
    (∃ r, socketGetMessageCustom beyond ⟨false, pieces.map .data ++ rest⟩ buffer buffSize = .ok r ∧
        r.message = some m ∧ r.buffSize = m.length ∧ r.socket.incoming = rest) ↔
      FillsBlocks m pieces ∧ KeepsTerminator pieces ∧ QuietBehind beyond pieces := by
  have hfuel : pieces.length ≤ (pieces.map RecvOutcome.data ++ rest).length := by simp
  simp only [socketGetMessageCustom, Bool.false_eq_true, if_false]
  constructor
  · rintro ⟨r, hr, hmsg, -, hrest⟩
    obtain ⟨⟨e, incoming⟩, hloop, hr⟩ := Except.bind_eq_ok.mp hr
    cases e with
    | error =>
      cases hr
      simp [Received.message] at hmsg
    | finished blocks size =>
      obtain rfl := Except.ok.inj hr
      obtain rfl : incoming = rest := hrest
      obtain ⟨hterm, hquiet⟩ := receiveLoop_cut beyond hm hcut hloop
      obtain ⟨blocks', size', hloop', hiff⟩ :=
        receiveLoop_finished beyond hm hcut hterm [] hquiet hfuel incoming 0
      rw [hloop'] at hloop
      cases hloop
      refine ⟨hiff.mp ?_, hterm, by simpa using hquiet⟩
      simpa [Received.message, concatBuffers, take_strlen] using hmsg
  · rintro ⟨hfull, hterm, hquiet⟩
    obtain ⟨blocks, size, hloop, hiff⟩ :=
      receiveLoop_finished beyond hm hcut hterm [] (by simpa using hquiet) hfuel rest 0
    have hstr := hiff.mpr hfull
    rw [hloop]
    refine ⟨_, rfl, ?_, ?_, rfl⟩
    · simp [Received.message, concatBuffers, take_strlen, hstr]
    · simp [concatBuffers, strlen, hstr]

end

/-- The message `ab` in two pieces, cut inside the message: only `a` is returned. -/
theorem socketGetMessageCustom_shortRead :
    Plain [97, 98] ∧
      stream [⟨[97], by decide, by decide⟩, ⟨[98, 13, 10], by decide, by decide⟩] =
        [97, 98] ++ endingString ∧
      (socketGetMessageCustom (fun _ => [])
          ⟨false, [.data ⟨[97], by decide, by decide⟩, .data ⟨[98, 13, 10], by decide, by decide⟩]⟩
          none 0).map (fun r => (r.message, r.buffSize)) = .ok (some [97], 1) :=
  ⟨by decide, rfl, by decide⟩

/-- The message `ab` in two pieces, cut in front of the terminator. -/
theorem socketGetMessageCustom_wholeRead :
    ∃ r, socketGetMessageCustom (fun _ => [])
        ⟨false, [⟨[97, 98], by decide, by decide⟩, ⟨endingString, by decide, by decide⟩].map .data ++
          []⟩ none 0 = .ok r ∧
      r.message = some [97, 98] ∧ r.buffSize = [97, 98].length ∧ r.socket.incoming = [] :=
  (socketGetMessageCustom_iff _ (by decide) rfl [] none 0).mpr
    ⟨fun i _ _ hlt => absurd hlt (by cases i <;> simp [delivered, endingString]),
      ⟨_, rfl, by decide⟩,
      fun _ _ _ _ _ => rfl⟩

/-! ### Messages sent back to back -/

/-- `socket_get_message`: no flags are passed on. -/
def socketGetMessage (beyond : ℕ → List UInt8) (soc : Socket) (buffer : Option (List UInt8))
    (buffSize : ℕ) : Except Abort Received :=
  socketGetMessageCustom beyond soc buffer buffSize

/-- What at most `calls` successive calls return, up to the first that is not successful. -/
def socketGetMessages (beyond : ℕ → ℕ → List UInt8) : ℕ → Socket → List (List UInt8)
  | 0, _ => []
  | calls + 1, soc =>
    match socketGetMessage (beyond calls) soc none 0 with
    | .ok r =>
      if 0 < r.returned then r.message.toList ++ socketGetMessages beyond calls r.socket else []
    | .error _ => []

/-- What `socket_send_message` puts on the wire for a message. -/
def frame (m : List UInt8) : List UInt8 := m ++ endingString

/-- A call takes the first message of a piece; whatever follows in the piece is gone. -/
theorem socketGetMessage_frame (beyond : ℕ → List UInt8) {m t : List UInt8} (hne : m ≠ [])
    (hm : Plain m) {piece : Piece} (hbytes : piece.bytes = m ++ (endingString ++ t))
    (rest : List RecvOutcome) (buffer : Option (List UInt8)) (buffSize : ℕ) :
    ∃ r, socketGetMessage beyond ⟨false, .data piece :: rest⟩ buffer buffSize = .ok r ∧
      0 < r.returned ∧ r.message = some m ∧ r.socket = ⟨false, rest⟩ := by
  obtain ⟨current, hcurrent, hloop⟩ :=
    receiveLoop_terminator beyond hm hbytes rest.length rest [] 0
  simp only [socketGetMessage, socketGetMessageCustom, Bool.false_eq_true, if_false,
    List.length_cons, hloop, Except.ok_bind, Except.pure_eq_ok]
  refine ⟨_, rfl, ?_, ?_, rfl⟩
  · have hpos := List.length_pos_iff.mpr hne
    have hfits := hbytes ▸ piece.fits
    simp [endingString, bufferSize] at hfits
    have hsize : (0 + m.length) % 2 ^ 64 = m.length := by omega
    simp only [hsize]
    rw [Int.bmod_eq_of_le] <;> omega
  · have hstr : cstr current = m := by simpa using hcurrent []
    simp [Received.message, concatBuffers, take_strlen, hstr]

theorem filterMap_head?_sublist {α : Type*} (groups : List (List α)) :
    (groups.filterMap List.head?).Sublist groups.flatten := by
  induction groups with
  | nil => simp
  | cons g groups ih =>
    cases g with
    | nil => simpa [List.filterMap_cons] using ih
    | cons m ms => simpa using ih.trans (List.sublist_append_right _ _)

section
variable (beyond : ℕ → ℕ → List UInt8) {groups : List (List (List UInt8))}
  (hgroups : ∀ g ∈ groups, g ≠ []) (hmessages : ∀ m ∈ groups.flatten, m ≠ [] ∧ Plain m)
  {pieces : List Piece} (hcut : pieces.map (·.bytes) = groups.map fun g => (g.map frame).flatten)
include hgroups hmessages hcut

/-- Successive calls return the first message of every piece. -/
theorem socketGetMessages_eq {calls : ℕ} (hcalls : pieces.length ≤ calls) :
    socketGetMessages beyond calls ⟨false, pieces.map .data⟩ = groups.filterMap List.head? := by
  induction pieces generalizing groups calls with
  | nil =>
    obtain rfl : groups = [] := by simpa using hcut.symm
    cases calls <;> rfl
  | cons piece pieces ih =>
    obtain ⟨calls, rfl⟩ : ∃ n, calls = n + 1 := ⟨calls - 1, by simp at hcalls; omega⟩
    obtain ⟨g, groups, rfl⟩ : ∃ g gs, groups = g :: gs :=
      List.exists_cons_of_ne_nil (by rintro rfl; simp at hcut)
    obtain ⟨m, ms, rfl⟩ := List.exists_cons_of_ne_nil (hgroups g List.mem_cons_self)
    obtain ⟨hbytes, htail⟩ := List.cons.inj hcut
    obtain ⟨hne, hm⟩ := hmessages m (by simp)
    obtain ⟨r, hr, hpos, hmsg, hsoc⟩ := socketGetMessage_frame (beyond calls) hne hm
      (t := (ms.map frame).flatten) (by simpa [frame] using hbytes) (pieces.map .data) none 0
    have hrest := ih (fun g hg => hgroups g (List.mem_cons_of_mem _ hg))
      (fun m' hm' => hmessages m' (by simp at hm' ⊢; tauto)) htail
      (show pieces.length ≤ calls by simpa using hcalls)
    simp only [List.map_cons, socketGetMessages, hr, hpos, if_true, hmsg, hsoc, hrest]
    rfl

/-- No message is lost between calls exactly when every piece holds one message only. -/
theorem socketGetMessages_eq_iff {calls : ℕ} (hcalls : pieces.length ≤ calls) :
    socketGetMessages beyond calls ⟨false, pieces.map .data⟩ = groups.flatten ↔
      ∀ g ∈ groups, g.length = 1 := by
  rw [socketGetMessages_eq beyond hgroups hmessages hcut hcalls]
  clear hcut hmessages
  induction groups with
  | nil => simp
  | cons g groups ih =>
    obtain ⟨m, ms, rfl⟩ := List.exists_cons_of_ne_nil (hgroups g List.mem_cons_self)
    have ih := ih fun g hg => hgroups g (List.mem_cons_of_mem _ hg)
    simp only [List.filterMap_cons, List.head?_cons, List.flatten_cons, List.cons_append,
      List.cons.injEq, true_and, List.forall_mem_cons, List.length_cons, ← ih]
    constructor
    · intro h
      -- there are at most as many first messages as messages in the other pieces
      have hle := (filterMap_head?_sublist groups).length_le
      have hlen := congrArg List.length h
      rw [List.length_append] at hlen
      obtain rfl : ms = [] := List.length_eq_zero_iff.mp (by omega)
      exact ⟨rfl, h⟩
    · rintro ⟨hms, h⟩
      obtain rfl : ms = [] := List.length_eq_zero_iff.mp (by omega)
      exact h

end

/-- Two messages in one piece: the second is never returned. -/
theorem socketGetMessages_twoFrames :
    Plain [97] ∧ Plain [98] ∧
      socketGetMessages (fun _ _ => []) 2
        ⟨false, [.data ⟨frame [97] ++ frame [98], by decide, by decide⟩]⟩ = [[97]] :=
  ⟨by decide, by decide, by decide⟩

theorem socketGetMessages_twoFrames_iff :
    socketGetMessages (fun _ _ => []) 2
        ⟨false, [⟨frame [97], by decide, by decide⟩, ⟨frame [98], by decide, by decide⟩].map .data⟩ =
      [[[97]], [[98]]].flatten ↔ ∀ g ∈ [[[97]], [[(98 : UInt8)]]], g.length = 1 :=
  socketGetMessages_eq_iff _ (by decide) (by decide) rfl (by decide)

end PoQ
