import PoQ.Base64Encode
import PoQ.Lib.CString

/-!
# Hexadecimal text

`encode_hex` and `decode_hex` of `general_structs.cpp`, with the memory that they write and read. What has
been encoded is decoded to what it was. The decoder takes any text: a character that is not a digit is
read as a zero, and behind a text of odd length its terminator is read as a digit.
-/

namespace PoQ

open CString

/-- What keeps a call from returning: the assertions on the positions in the memory that is written, the one
on the length of the text, and an access outside an object. -/
inductive HexAbort
  | wbufferLen
  | bufferLenPositive
  | outOfRange
deriving DecidableEq, Repr

/-- A digit of `%02x`. -/
def hexDigit (n : UInt8) : UInt8 := if n < 10 then n + 48 else n + 87

/-- `%02x`. -/
def hexByte (b : UInt8) : List UInt8 := [hexDigit (b >>> 4), hexDigit (b &&& 0x0f)]

/-- Bytes are written to the memory of a string. -/
def overwrite (mem : List UInt8) (pos : ℕ) (bytes : List UInt8) : Except HexAbort (List UInt8) := do
  ensure (pos + bytes.length ≤ mem.length) .outOfRange
  return mem.take pos ++ bytes ++ mem.drop (pos + bytes.length)

/-- The loop of `encode_hex`. `sprintf` ends what it writes with a zero. -/
def encodeHexLoop : ℕ → List UInt8 → List UInt8 → Except HexAbort (List UInt8)
  | _, [], wbuffer => .ok wbuffer
  | i, b :: buffer, wbuffer => do
    ensure (2 * i < wbuffer.length) .wbufferLen
    let wbuffer ← overwrite wbuffer (2 * i) (hexByte b ++ [0])
    encodeHexLoop (i + 1) buffer wbuffer

/-- `encode_hex`, if there is memory for it. -/
def encodeHex (memory : Bool) (buffer : List UInt8) : Except HexAbort (Option (List UInt8)) :=
  if memory then
    (encodeHexLoop 0 buffer (List.replicate ((buffer.length * 2 + 10) % 2 ^ 64) 0)).map some
  else .ok none

/-- `hexchr2bin`. -/
def hexchr2bin (hex : UInt8) : UInt8 :=
  if 48 ≤ hex ∧ hex ≤ 57 then hex - 48
  else if 65 ≤ hex ∧ hex ≤ 70 then hex - 65 + 10
  else if 97 ≤ hex ∧ hex ≤ 102 then hex - 97 + 10
  else 0

/-- A byte from two digits. -/
def hexPair (x y : UInt8) : UInt8 := hexchr2bin x <<< 4 ||| hexchr2bin y

/-- A read of the memory that a text is in. -/
def readByte (mem : List UInt8) (i : ℕ) : Except HexAbort UInt8 := (mem[i]?).elim (.error .outOfRange) .ok

/-- The loop of `decode_hex`, which is run this often more. -/
def decodeHexLoop (buffer : List UInt8) : ℕ → ℕ → ℕ → List UInt8 → Except HexAbort (List UInt8)
  | 0, _, _, wbuffer => .ok wbuffer
  | n + 1, i, pos, wbuffer => do
    ensure (pos < wbuffer.length) .wbufferLen
    let x ← readByte buffer i
    let y ← readByte buffer (i + 1)
    decodeHexLoop buffer n (i + 2) (pos + 1) (wbuffer.set pos (hexPair x y))

/-- `decode_hex`, if there is memory for it. The loop is run for every second position of the text. -/
def decodeHex (memory : Bool) (buffer : List UInt8) (bufferLen : ℕ) :
    Except HexAbort (Option (List UInt8)) := do
  ensure (0 < bufferLen) .bufferLenPositive
  if memory then
    (decodeHexLoop buffer ((bufferLen + 1) / 2) 0 0 (List.replicate (bufferLen / 2 + 1) 0)).map some
  else .ok none

/-! ## Digits -/

/-- The digits that `encode_hex` writes. -/
def IsLowerHex (c : UInt8) : Prop := 48 ≤ c ∧ c ≤ 57 ∨ 97 ≤ c ∧ c ≤ 102

instance (c : UInt8) : Decidable (IsLowerHex c) :=
  inferInstanceAs (Decidable (48 ≤ c ∧ c ≤ 57 ∨ 97 ≤ c ∧ c ≤ 102))

theorem hexchr2bin_lt : ∀ c : UInt8, hexchr2bin c < 16 := by
  refine forall_uint8 ?_
  decide +kernel

/-- A digit is written as it was read exactly if it is one of those. -/
theorem hexDigit_hexchr2bin_iff : ∀ c : UInt8, hexDigit (hexchr2bin c) = c ↔ IsLowerHex c := by
  refine forall_uint8 ?_
  decide +kernel

/-- The digits of a byte are read as its two halves. -/
theorem hexchr2bin_hexDigit : ∀ b : UInt8, hexchr2bin (hexDigit (b >>> 4)) = b >>> 4 ∧
    hexchr2bin (hexDigit (b &&& 0x0f)) = b &&& 0x0f ∧ hexDigit (b >>> 4) ≠ 0 ∧ hexDigit (b &&& 0x0f) ≠ 0 := by
  refine forall_uint8 ?_
  decide +kernel

/-- Four bits, as the upper and as the lower half of a byte. -/
theorem half_parts : ∀ x : UInt8, x < 16 →
    (x <<< 4) >>> 4 = x ∧ x >>> 4 = 0 ∧ (x <<< 4) &&& 0x0f = 0 ∧ x &&& 0x0f = x := by
  refine forall_uint8 ?_
  decide +kernel

theorem join_halves {x y : UInt8} (hx : x < 16) (hy : y < 16) :
    (x <<< 4 ||| y) >>> 4 = x ∧ (x <<< 4 ||| y) &&& 0x0f = y := by
  obtain ⟨hx₁, -, hx₂, -⟩ := half_parts x hx
  obtain ⟨-, hy₁, -, hy₂⟩ := half_parts y hy
  constructor
  · rw [UInt8.shiftRight_or, hx₁, hy₁, UInt8.or_zero]
  · rw [uint8_or_and, hx₂, hy₂, UInt8.zero_or]

theorem hexByte_hexPair_iff (x y : UInt8) : hexByte (hexPair x y) = [x, y] ↔ IsLowerHex x ∧ IsLowerHex y := by
  obtain ⟨hhigh, hlow⟩ := join_halves (hexchr2bin_lt x) (hexchr2bin_lt y)
  rw [hexByte, hexPair, hhigh, hlow, List.cons.injEq, List.cons.injEq, hexDigit_hexchr2bin_iff,
    hexDigit_hexchr2bin_iff]
  simp only [and_true]

theorem hexPair_hexByte (b : UInt8) : hexPair (hexDigit (b >>> 4)) (hexDigit (b &&& 0x0f)) = b := by
  obtain ⟨hhigh, hlow, -⟩ := hexchr2bin_hexDigit b
  obtain ⟨-, -, -, hjoin, -⟩ := shift_parts b
  rw [hexPair, hhigh, hlow, hjoin]

/-! ## Encoding -/

/-- The text that `encode_hex` makes. -/
def hexText (buffer : List UInt8) : List UInt8 := buffer.flatMap hexByte

theorem length_hexText (buffer : List UInt8) : (hexText buffer).length = 2 * buffer.length := by
  induction buffer with
  | nil => rfl
  | cons b buffer ih =>
    rw [hexText, List.flatMap_cons, List.length_append, ← hexText, ih, List.length_cons]
    simp only [hexByte, List.length_cons, List.length_nil]
    omega

theorem hexText_ne_zero (buffer : List UInt8) : ∀ c ∈ hexText buffer, c ≠ 0 := by
  intro c hc
  obtain ⟨b, -, hb⟩ := List.mem_flatMap.mp hc
  obtain ⟨-, -, hhigh, hlow⟩ := hexchr2bin_hexDigit b
  rw [hexByte, List.mem_cons, List.mem_singleton] at hb
  rcases hb with rfl | rfl
  · exact hhigh
  · exact hlow

/-- What is behind the digits stays zero. -/
theorem encodeHexLoop_eq (buffer text : List UInt8) {i k : ℕ} (htext : text.length = 2 * i)
    (hk : 2 * buffer.length < k) :
    encodeHexLoop i buffer (text ++ List.replicate k 0) =
      .ok (text ++ hexText buffer ++ List.replicate (k - 2 * buffer.length) 0) := by
  induction buffer generalizing text i k with
  | nil => simp [encodeHexLoop, hexText]
  | cons b buffer ih =>
    rw [List.length_cons] at hk ⊢
    have hpos : 2 * i < (text ++ List.replicate k (0 : UInt8)).length := by
      rw [List.length_append, List.length_replicate]
      omega
    have hroom : 2 * i + (hexByte b ++ [0]).length ≤ (text ++ List.replicate k (0 : UInt8)).length := by
      rw [List.length_append, List.length_append, List.length_replicate]
      simp only [hexByte, List.length_cons, List.length_nil]
      omega
    have hwritten : (text ++ List.replicate k (0 : UInt8)).take (2 * i) ++ (hexByte b ++ [0]) ++
        (text ++ List.replicate k 0).drop (2 * i + (hexByte b ++ [0]).length) =
          (text ++ hexByte b) ++ List.replicate (k - 2) 0 := by
      rw [List.take_left' htext, ← List.drop_drop, List.drop_left' htext]
      simp only [hexByte, List.drop_replicate, List.append_assoc, List.cons_append, List.nil_append,
        List.length_cons, List.length_nil]
      rw [show k - 2 = (k - 3) + 1 by omega, List.replicate_succ]
    rw [encodeHexLoop, ensure_of hpos, Except.ok_bind, overwrite, ensure_of hroom, hwritten]
    simp only [Except.ok_bind, Except.pure_eq_ok]
    have htext' : (text ++ hexByte b).length = 2 * (i + 1) := by
      rw [List.length_append, htext]
      rfl
    rw [ih (text ++ hexByte b) htext' (by omega)]
    rw [hexText, hexText, List.flatMap_cons, List.append_assoc text, show k - 2 - 2 * buffer.length =
      k - 2 * (buffer.length + 1) by omega]

theorem encodeHex_eq {buffer : List UInt8} (h : buffer.length < 2 ^ 62) :
    encodeHex true buffer = .ok (some (hexText buffer ++ List.replicate 10 0)) := by
  have hsize : (buffer.length * 2 + 10) % 2 ^ 64 = buffer.length * 2 + 10 := Nat.mod_eq_of_lt (by omega)
  have hloop := encodeHexLoop_eq buffer [] (i := 0) (k := buffer.length * 2 + 10) rfl (by omega)
  rw [List.nil_append, List.nil_append, show buffer.length * 2 + 10 - 2 * buffer.length = 10 by omega] at hloop
  rw [encodeHex, if_pos rfl, hsize, hloop]
  rfl

/-! ## Decoding -/

/-- What `decode_hex` makes of a text, whose terminator is read behind a text of odd length. -/
def hexPairs : List UInt8 → List UInt8
  | x :: y :: text => hexPair x y :: hexPairs text
  | [x] => [hexPair x 0]
  | [] => []

theorem length_hexPairs (text : List UInt8) : (hexPairs text).length = (text.length + 1) / 2 := by
  induction text using hexPairs.induct with
  | case1 x y text ih =>
    rw [hexPairs, List.length_cons, ih, List.length_cons, List.length_cons]
    omega
  | case2 x => simp [hexPairs]
  | case3 => simp [hexPairs]

/-- A round of the loop. -/
theorem decodeHexLoop_succ {x y : UInt8} (before out rest : List UInt8) {n k : ℕ} :
    decodeHexLoop (before ++ x :: y :: rest) (n + 1) before.length out.length
        (out ++ List.replicate (k + 1) 0) =
      decodeHexLoop (before ++ x :: y :: rest) n (before ++ [x, y]).length (out ++ [hexPair x y]).length
        ((out ++ [hexPair x y]) ++ List.replicate k 0) := by
  have hroom : out.length < (out ++ List.replicate (k + 1) (0 : UInt8)).length := by
    rw [List.length_append, List.length_replicate]
    omega
  have hx : readByte (before ++ x :: y :: rest) before.length = .ok x := by
    rw [readByte, List.getElem?_append_right (Nat.le_refl _), Nat.sub_self]
    rfl
  have hy : readByte (before ++ x :: y :: rest) (before.length + 1) = .ok y := by
    rw [readByte, List.getElem?_append_right (Nat.le_add_right _ 1), Nat.add_sub_cancel_left]
    rfl
  have hset : (out ++ List.replicate (k + 1) (0 : UInt8)).set out.length (hexPair x y) =
      (out ++ [hexPair x y]) ++ List.replicate k 0 := by
    rw [List.set_append_right _ _ (Nat.le_refl _), Nat.sub_self, List.replicate_succ, List.set_cons_zero,
      List.append_assoc]
    rfl
  rw [decodeHexLoop, ensure_of hroom, hx, hy]
  simp only [Except.ok_bind, hset, List.length_append, List.length_cons, List.length_nil]

/-- The rounds of the loop for the rest of a text. -/
theorem decodeHexLoop_eq (text before out rest : List UInt8) {k : ℕ} (hk : (text.length + 1) / 2 ≤ k) :
    decodeHexLoop (before ++ (text ++ 0 :: rest)) ((text.length + 1) / 2) before.length out.length
        (out ++ List.replicate k 0) =
      .ok (out ++ hexPairs text ++ List.replicate (k - (text.length + 1) / 2) 0) := by
  induction text using hexPairs.induct generalizing before out k with
  | case1 x y text ih =>
    have hrounds : ((x :: y :: text).length + 1) / 2 = (text.length + 1) / 2 + 1 := by
      rw [List.length_cons, List.length_cons]
      omega
    rw [hrounds] at hk ⊢
    obtain ⟨k, rfl⟩ := Nat.exists_eq_succ_of_ne_zero (Nat.ne_zero_of_lt hk)
    rw [hexPairs, List.cons_append, List.cons_append, decodeHexLoop_succ]
    have hrest := ih (before ++ [x, y]) (out ++ [hexPair x y]) (Nat.le_of_succ_le_succ hk)
    simp only [List.append_assoc, List.cons_append, List.nil_append] at hrest ⊢
    rw [hrest, Nat.succ_sub_succ]
  | case2 x =>
    have hpos : 0 < k := by
      rw [List.length_singleton] at hk
      omega
    obtain ⟨k, rfl⟩ := Nat.exists_eq_succ_of_ne_zero hpos.ne'
    -- the second digit is the terminator
    have hround := decodeHexLoop_succ (x := x) (y := 0) before out rest (n := 0) (k := k)
    simpa [hexPairs, decodeHexLoop] using hround
  | case3 => simp [hexPairs, decodeHexLoop]

theorem decodeHex_eq {text : List UInt8} (hne : text ≠ []) (rest : List UInt8) :
    decodeHex true (text ++ 0 :: rest) text.length =
      .ok (some (hexPairs text ++ List.replicate (text.length / 2 + 1 - (text.length + 1) / 2) 0)) := by
  have hloop := decodeHexLoop_eq text [] [] rest (k := text.length / 2 + 1) (by omega)
  rw [List.nil_append, List.nil_append, List.nil_append] at hloop
  rw [decodeHex, ensure_of (List.length_pos_iff.mpr hne), Except.ok_bind, if_pos rfl]
  exact congrArg (Except.map some) hloop

theorem hexPairs_hexText (buffer : List UInt8) : hexPairs (hexText buffer) = buffer := by
  induction buffer with
  | nil => rw [hexText, List.flatMap_nil, hexPairs]
  | cons b buffer ih =>
    rw [hexText, List.flatMap_cons, hexByte, List.cons_append, List.cons_append, List.nil_append, hexPairs,
      hexPair_hexByte, ← hexText, ih]

/-- Only digits that `encode_hex` writes come back. -/
theorem hexText_hexPairs_iff (text : List UInt8) :
    hexText (hexPairs text) = text ↔ text.length % 2 = 0 ∧ ∀ c ∈ text, IsLowerHex c := by
  induction text using hexPairs.induct with
  | case1 x y text ih =>
    have hcons : hexText (hexPairs (x :: y :: text)) = hexByte (hexPair x y) ++ hexText (hexPairs text) := by
      rw [hexPairs, hexText, List.flatMap_cons, hexText]
    have hsplit : hexByte (hexPair x y) ++ hexText (hexPairs text) = [x, y] ++ text ↔
        hexByte (hexPair x y) = [x, y] ∧ hexText (hexPairs text) = text :=
      List.append_eq_append_iff_of_size_eq_left rfl
    have heven : (x :: y :: text).length % 2 = text.length % 2 := Nat.add_mod_right text.length 2
    rw [hcons, show x :: y :: text = [x, y] ++ text from rfl, hsplit, hexByte_hexPair_iff, ih]
    rw [show [x, y] ++ text = x :: y :: text from rfl, heven, List.forall_mem_cons, List.forall_mem_cons]
    tauto
  | case2 x =>
    have hodd : ¬[x].length % 2 = 0 := Nat.one_ne_zero
    refine iff_of_false (fun htext => ?_) (fun h => hodd h.1)
    have hlength := length_hexText (hexPairs [x])
    rw [htext, List.length_singleton] at hlength
    omega
  | case3 => simp [hexPairs, hexText]

/-- What `encode_hex` has written, `decode_hex` reads as the bytes that it was made from, with a zero
behind them. -/
theorem decodeHex_encodeHex {buffer : List UInt8} (hne : buffer ≠ []) (hlength : buffer.length < 2 ^ 62) :
    ∃ text, encodeHex true buffer = .ok (some text) ∧
      decodeHex true text (strlen text) = .ok (some (buffer ++ [0])) := by
  have hmem : hexText buffer ++ List.replicate 10 0 = hexText buffer ++ 0 :: List.replicate 9 0 := rfl
  have hstrlen : strlen (hexText buffer ++ List.replicate 10 0) = (hexText buffer).length := by
    rw [strlen, hmem, cstr_append (hexText_ne_zero buffer), cstr_zero_cons, List.append_nil]
  have htext : hexText buffer ≠ [] := by
    intro hnil
    have hzero := length_hexText buffer
    rw [hnil, List.length_nil] at hzero
    exact hne (List.length_eq_zero_iff.mp (by omega))
  refine ⟨_, encodeHex_eq hlength, ?_⟩
  rw [hstrlen, hmem, decodeHex_eq htext, hexPairs_hexText, length_hexText]
  rw [show 2 * buffer.length / 2 + 1 - (2 * buffer.length + 1) / 2 = 1 by omega]
  rfl

theorem decodeHex_encodeHex_bytes :
    ∃ text, encodeHex true [0, 171, 16] = .ok (some text) ∧
      decodeHex true text (strlen text) = .ok (some [0, 171, 16, 0]) :=
  @decodeHex_encodeHex [0, 171, 16] (by decide) (by decide)

/-- `decode_hex` returns for every text, and reads nothing behind its terminator. Encoding the bytes that
it makes gives the text again exactly if the text is of even length and has no other characters than the
digits that `encode_hex` writes. -/
theorem encodeHex_decodeHex_iff {text : List UInt8} (hne : text ≠ []) (hlength : text.length < 2 ^ 62)
    (rest : List UInt8) :
    ∃ bytes, decodeHex true (text ++ 0 :: rest) text.length = .ok (some bytes) ∧
      ((∃ mem, encodeHex true (bytes.take ((text.length + 1) / 2)) = .ok (some mem) ∧ cstr mem = text) ↔
        text.length % 2 = 0 ∧ ∀ c ∈ text, IsLowerHex c) := by
  refine ⟨_, decodeHex_eq hne rest, ?_⟩
  have hpairs := length_hexPairs text
  rw [List.take_left' hpairs, encodeHex_eq (by omega)]
  have hcstr : cstr (hexText (hexPairs text) ++ List.replicate 10 0) = hexText (hexPairs text) := by
    rw [show hexText (hexPairs text) ++ List.replicate 10 0 = hexText (hexPairs text) ++ 0 :: List.replicate 9 0
      from rfl, cstr_append (hexText_ne_zero _), cstr_zero_cons, List.append_nil]
  rw [← hexText_hexPairs_iff]
  constructor
  · intro hex
    obtain ⟨mem, hmem, htext⟩ := hex
    cases hmem
    rwa [hcstr] at htext
  · intro htext
    exact ⟨_, rfl, hcstr.trans htext⟩

/-- A capital digit is read, but does not come back. -/
theorem not_encodeHex_decodeHex_capital :
    ∃ bytes, decodeHex true [65, 48, 0] 2 = .ok (some bytes) ∧
      ¬∃ mem, encodeHex true (bytes.take 1) = .ok (some mem) ∧ cstr mem = [65, 48] := by
  obtain ⟨bytes, hrun, hiff⟩ := @encodeHex_decodeHex_iff [65, 48] (by decide) (by decide) []
  exact ⟨bytes, hrun, fun h => absurd (hiff.mp h).2 (by decide)⟩

end PoQ
