import PoQ.Base64
import PoQ.Basic
import PoQ.Lib.CString

/-!
# Base64 encoding

`base64_encode` of `base64.c`, and `encode_64base` of `general_structs.cpp`, which takes the last character away.
The encoder ends every line of 72 characters, and the last one, with a line feed; the decoder skips line feeds.
Sizes are exact: a buffer in memory has far less than `2 ^ 62` bytes, so that the check for an overflow of `size_t`
never fails.
-/

namespace PoQ

open CString

/-- A character of `base64_table`; the one behind the 64 of the alphabet is the zero. -/
def tableChar (i : UInt8) : UInt8 := base64Table.getD i.toNat 0

/-- The character `\n`. -/
def lineFeed : UInt8 := 10

/-- The characters for a block of three bytes. -/
def encodeBlock (a b c : UInt8) : List UInt8 :=
  [tableChar (a >>> 2), tableChar ((a &&& 0x03) <<< 4 ||| b >>> 4), tableChar ((b &&& 0x0f) <<< 2 ||| c >>> 6),
    tableChar (c &&& 0x3f)]

/-- The characters for the bytes that are left behind the last block. -/
def encodeTail : List UInt8 → List UInt8
  | [] => []
  | [a] => [tableChar (a >>> 2), tableChar ((a &&& 0x03) <<< 4), padding, padding]
  | a :: b :: _ =>
    [tableChar (a >>> 2), tableChar ((a &&& 0x03) <<< 4 ||| b >>> 4), tableChar ((b &&& 0x0f) <<< 2), padding]

/-- The loop of `base64_encode` and what comes behind it, with the length of the current line. -/
def base64EncodeLoop : List UInt8 → ℕ → List UInt8
  | a :: b :: c :: src, lineLen =>
    if 72 ≤ lineLen + 4 then encodeBlock a b c ++ lineFeed :: base64EncodeLoop src 0
    else encodeBlock a b c ++ base64EncodeLoop src (lineLen + 4)
  | src, lineLen =>
    let lineLen := if src.length ≠ 0 then lineLen + 4 else lineLen
    encodeTail src ++ if lineLen ≠ 0 then [lineFeed] else []

/-- The size of the buffer that `base64_encode` allocates. -/
def encodedSize (len : ℕ) : ℕ :=
  let olen := len * 4 / 3 + 4
  olen + olen / 72 + 1

/-- `base64_encode`: the text, which stands in the buffer with a zero behind it. -/
def base64Encode (src : List UInt8) : Except Abort (Option (List UInt8)) :=
  let olen := encodedSize src.length
  if olen < src.length then .ok none
  else do
    let out := base64EncodeLoop src 0
    ensure (out.length + 1 ≤ olen) .outOfRange
    return some out

/-- `encode_64base`: what stands in the buffer. -/
def encode64base (buffer : List UInt8) : Except Abort (Option (List UInt8)) := do
  match ← base64Encode buffer with
  | some out =>
    ensure (0 < out.length) .outOfRange
    return some ((out ++ [0]).set (out.length - 1) 0)
  | none => return none

/-! ## Bits -/

theorem forall_uint8 {P : UInt8 → Prop} (h : ∀ i : Fin 256, P (UInt8.ofFin i)) (a : UInt8) : P a := h a.toFin

theorem uint8_or_and (x y z : UInt8) : (x ||| y) &&& z = (x &&& z) ||| (y &&& z) :=
  UInt8.toBitVec_inj.mp (by simp only [UInt8.toBitVec_and, UInt8.toBitVec_or, BitVec.and_or_distrib_right])

/-- Six bits, which a character stands for. -/
def IsSextet (i : UInt8) : Prop := i < 64

instance (i : UInt8) : Decidable (IsSextet i) := inferInstanceAs (Decidable (i < 64))

theorem IsSextet.or {i j : UInt8} (hi : IsSextet i) (hj : IsSextet j) : IsSextet (i ||| j) := by
  rw [IsSextet, UInt8.lt_iff_toNat_lt] at *
  rw [UInt8.toNat_or]
  exact Nat.or_lt_two_pow (n := 6) hi hj

/-- Every character of the alphabet is read as the bits it stands for, and is none of the special ones. -/
theorem dtable_tableChar : ∀ {i : UInt8}, IsSextet i →
    dtable (tableChar i) = i ∧ i ≠ 0x80 ∧ tableChar i ≠ padding ∧ tableChar i ≠ 0 := by
  refine @forall_uint8 _ ?_
  decide +kernel

/-- The parts of a byte that go into the characters of a block. -/
theorem isSextet_parts : ∀ a : UInt8, IsSextet (a >>> 2) ∧ IsSextet ((a &&& 0x03) <<< 4) ∧ IsSextet (a >>> 4) ∧
    IsSextet ((a &&& 0x0f) <<< 2) ∧ IsSextet (a >>> 6) ∧ IsSextet (a &&& 0x3f) := by
  refine forall_uint8 ?_
  decide +kernel

/-- What the decoder makes of each part: the bits go back to their places, or out of the byte. -/
theorem shift_parts : ∀ a : UInt8,
    (((a &&& 0x03) <<< 4) >>> 4 = a &&& 0x03 ∧ ((a &&& 0x03) <<< 4) <<< 4 = 0 ∧ (a >>> 4) >>> 4 = 0) ∧
    (((a &&& 0x0f) <<< 2) >>> 2 = a &&& 0x0f ∧ ((a &&& 0x0f) <<< 2) <<< 6 = 0 ∧ (a >>> 6) >>> 2 = 0) ∧
    (a >>> 2) <<< 2 ||| a &&& 0x03 = a ∧ (a >>> 4) <<< 4 ||| a &&& 0x0f = a ∧ (a >>> 6) <<< 6 ||| a &&& 0x3f = a := by
  refine forall_uint8 ?_
  decide +kernel

theorem join_first (a b : UInt8) : (a >>> 2) <<< 2 ||| ((a &&& 0x03) <<< 4 ||| b >>> 4) >>> 4 = a := by
  obtain ⟨⟨ha, -⟩, -, hjoin, -⟩ := shift_parts a
  obtain ⟨⟨-, -, hb⟩, -⟩ := shift_parts b
  rw [UInt8.shiftRight_or, ha, hb, UInt8.or_zero, hjoin]

theorem join_second (a b c : UInt8) :
    ((a &&& 0x03) <<< 4 ||| b >>> 4) <<< 4 ||| ((b &&& 0x0f) <<< 2 ||| c >>> 6) >>> 2 = b := by
  obtain ⟨⟨-, ha, -⟩, -⟩ := shift_parts a
  obtain ⟨-, ⟨hb, -⟩, -, hjoin, -⟩ := shift_parts b
  obtain ⟨-, ⟨-, -, hc⟩, -⟩ := shift_parts c
  rw [UInt8.shiftLeft_or, UInt8.shiftRight_or, ha, hb, hc, UInt8.zero_or, UInt8.or_zero, hjoin]

theorem join_third (b c : UInt8) : ((b &&& 0x0f) <<< 2 ||| c >>> 6) <<< 6 ||| c &&& 0x3f = c := by
  obtain ⟨-, ⟨-, hb, -⟩, -⟩ := shift_parts b
  obtain ⟨-, -, -, -, hjoin⟩ := shift_parts c
  rw [UInt8.shiftLeft_or, hb, UInt8.zero_or, hjoin]

/-! ## Without line feeds -/

/-- The characters without the line feeds. -/
def base64Codes : List UInt8 → List UInt8
  | a :: b :: c :: src => encodeBlock a b c ++ base64Codes src
  | src => encodeTail src

theorem base64Codes_one (a : UInt8) :
    base64Codes [a] = [tableChar (a >>> 2), tableChar ((a &&& 0x03) <<< 4), padding, padding] := rfl

theorem base64Codes_two (a b : UInt8) :
    base64Codes [a, b] = [tableChar (a >>> 2), tableChar ((a &&& 0x03) <<< 4 ||| b >>> 4),
      tableChar ((b &&& 0x0f) <<< 2), padding] := rfl

theorem base64Codes_block (a b c : UInt8) (src : List UInt8) :
    base64Codes (a :: b :: c :: src) = tableChar (a >>> 2) :: tableChar ((a &&& 0x03) <<< 4 ||| b >>> 4) ::
      tableChar ((b &&& 0x0f) <<< 2 ||| c >>> 6) :: tableChar (c &&& 0x3f) :: base64Codes src := rfl

/-- Three bytes at a time, as `base64_encode` takes them. -/
theorem blocks_induction {P : List UInt8 → Prop} (nil : P []) (one : ∀ a, P [a]) (two : ∀ a b, P [a, b])
    (block : ∀ a b c src, P src → P (a :: b :: c :: src)) (src : List UInt8) : P src := by
  fun_induction base64Codes src with
  | case1 a b c src ih => exact block a b c src ih
  | case2 src hshort =>
    rcases src with _ | ⟨a, _ | ⟨b, _ | ⟨c, src⟩⟩⟩
    · exact nil
    · exact one a
    · exact two a b
    · exact absurd rfl (hshort a b c src)

/-- The decoder looks only at the characters of the alphabet and the padding. -/
theorem base64DecodeLoop_filter (src block : List UInt8) (pad : ℕ) (out : List UInt8) :
    base64DecodeLoop (src.filter (dtable · ≠ 0x80)) block pad out = base64DecodeLoop src block pad out := by
  induction src generalizing block pad out with
  | nil => rfl
  | cons c src ih =>
    by_cases hc : dtable c = 0x80
    · rw [List.filter_cons_of_neg (by simpa using hc), ih, base64DecodeLoop, if_pos hc]
    · rw [List.filter_cons_of_pos (by simpa using hc), base64DecodeLoop, base64DecodeLoop, if_neg hc, if_neg hc]
      simp only [ih]

/-- A block of four characters is read as three bytes. -/
theorem base64DecodeLoop_block {i j k l : UInt8} (hi : IsSextet i) (hj : IsSextet j) (hk : IsSextet k)
    (hl : IsSextet l) (src out : List UInt8) :
    base64DecodeLoop (tableChar i :: tableChar j :: tableChar k :: tableChar l :: src) [] 0 out =
      base64DecodeLoop src [] 0 (out ++ [i <<< 2 ||| j >>> 4, j <<< 4 ||| k >>> 2, k <<< 6 ||| l]) := by
  obtain ⟨hi, hi', hi'', -⟩ := dtable_tableChar hi
  obtain ⟨hj, hj', hj'', -⟩ := dtable_tableChar hj
  obtain ⟨hk, hk', hk'', -⟩ := dtable_tableChar hk
  obtain ⟨hl, hl', hl'', -⟩ := dtable_tableChar hl
  simp [base64DecodeLoop, hi, hj, hk, hl, hi', hj', hk', hl', hi'', hj'', hk'', hl'']

theorem dtable_padding : dtable padding = 0 := by decide

theorem dtable_lineFeed : dtable lineFeed = 0x80 := by decide

/-- A block with two characters of padding is one byte. -/
theorem base64DecodeLoop_two {i j : UInt8} (hi : IsSextet i) (hj : IsSextet j) (src out : List UInt8) :
    base64DecodeLoop (tableChar i :: tableChar j :: padding :: padding :: src) [] 0 out =
      some (out ++ [i <<< 2 ||| j >>> 4]) := by
  obtain ⟨hi, hi', hi'', -⟩ := dtable_tableChar hi
  obtain ⟨hj, hj', hj'', -⟩ := dtable_tableChar hj
  simp [base64DecodeLoop, dtable_padding, hi, hj, hi', hj', hi'', hj'', List.take_length_add_append]

/-- A block with one character of padding is two bytes. -/
theorem base64DecodeLoop_one {i j k : UInt8} (hi : IsSextet i) (hj : IsSextet j) (hk : IsSextet k)
    (src out : List UInt8) :
    base64DecodeLoop (tableChar i :: tableChar j :: tableChar k :: padding :: src) [] 0 out =
      some (out ++ [i <<< 2 ||| j >>> 4, j <<< 4 ||| k >>> 2]) := by
  obtain ⟨hi, hi', hi'', -⟩ := dtable_tableChar hi
  obtain ⟨hj, hj', hj'', -⟩ := dtable_tableChar hj
  obtain ⟨hk, hk', hk'', -⟩ := dtable_tableChar hk
  simp [base64DecodeLoop, dtable_padding, hi, hj, hk, hi', hj', hk', hi'', hj'', hk'', List.take_length_add_append]

/-- The characters of every byte are read back. -/
theorem base64DecodeLoop_codes (src out : List UInt8) :
    base64DecodeLoop (base64Codes src) [] 0 out = some (out ++ src) := by
  induction src using blocks_induction generalizing out with
  | nil => simp [base64Codes, encodeTail, base64DecodeLoop]
  | one a =>
    obtain ⟨ha, ha', -⟩ := isSextet_parts a
    have hjoin := join_first a 0
    rw [base64Codes_one, base64DecodeLoop_two ha ha']
    simpa using hjoin
  | two a b =>
    obtain ⟨ha, ha', -⟩ := isSextet_parts a
    obtain ⟨-, -, hb, hb', -⟩ := isSextet_parts b
    have hjoin := join_second a b 0
    rw [base64Codes_two, base64DecodeLoop_one ha (ha'.or hb) hb', join_first]
    simpa using hjoin
  | block a b c src ih =>
    obtain ⟨ha, ha', -⟩ := isSextet_parts a
    obtain ⟨-, -, hb, hb', -⟩ := isSextet_parts b
    obtain ⟨-, -, -, -, hc, hc'⟩ := isSextet_parts c
    rw [base64Codes_block, base64DecodeLoop_block ha (ha'.or hb) (hb'.or hc) hc', join_first, join_second,
      join_third, ih]
    simp

theorem length_base64Codes (src : List UInt8) : (base64Codes src).length = 4 * ((src.length + 2) / 3) := by
  induction src using blocks_induction with
  | nil => rfl
  | one a => simp [base64Codes_one]
  | two a b => simp [base64Codes_two]
  | block a b c src ih =>
    simp only [base64Codes_block, List.length_cons, ih]
    omega

/-- What the characters of a text are: the alphabet and the padding, which are not skipped and no zeros. -/
def IsCode (c : UInt8) : Prop := dtable c ≠ 0x80 ∧ c ≠ 0

theorem isCode_tableChar {i : UInt8} (h : IsSextet i) : IsCode (tableChar i) := by
  obtain ⟨hi, hi', -, hi''⟩ := dtable_tableChar h
  exact ⟨hi.trans_ne hi', hi''⟩

theorem isCode_padding : IsCode padding := by
  rw [IsCode, dtable_padding]
  decide

theorem isCode_base64Codes (src : List UInt8) : ∀ c ∈ base64Codes src, IsCode c := by
  induction src using blocks_induction with
  | nil => exact fun _ hc => absurd hc List.not_mem_nil
  | one a =>
    obtain ⟨ha, ha', -⟩ := isSextet_parts a
    simp only [base64Codes_one, List.forall_mem_cons]
    exact ⟨isCode_tableChar ha, isCode_tableChar ha', isCode_padding, isCode_padding, by simp⟩
  | two a b =>
    obtain ⟨ha, ha', -⟩ := isSextet_parts a
    obtain ⟨-, -, hb, hb', -⟩ := isSextet_parts b
    simp only [base64Codes_two, List.forall_mem_cons]
    exact ⟨isCode_tableChar ha, isCode_tableChar (ha'.or hb), isCode_tableChar hb', isCode_padding, by simp⟩
  | block a b c src ih =>
    obtain ⟨ha, ha', -⟩ := isSextet_parts a
    obtain ⟨-, -, hb, hb', -⟩ := isSextet_parts b
    obtain ⟨-, -, -, -, hc, hc'⟩ := isSextet_parts c
    simp only [base64Codes_block, List.forall_mem_cons]
    exact ⟨isCode_tableChar ha, isCode_tableChar (ha'.or hb), isCode_tableChar (hb'.or hc), isCode_tableChar hc', ih⟩

/-! ## Lines -/

/-- A text with these characters, in lines. -/
inductive Lines : List UInt8 → List UInt8 → Prop
  | nil : Lines [] []
  | code {c : UInt8} {text codes : List UInt8} : Lines text codes → Lines (c :: text) (c :: codes)
  | lineFeed {text codes : List UInt8} : Lines text codes → Lines (lineFeed :: text) codes

theorem Lines.append {text codes : List UInt8} (l : List UInt8) (h : Lines text codes) :
    Lines (l ++ text) (l ++ codes) := by
  induction l with
  | nil => exact h
  | cons c l ih => exact .code ih

/-- Without the line feeds, the characters are left. -/
theorem Lines.filter_eq {text codes : List UInt8} (h : Lines text codes) (hcodes : ∀ c ∈ codes, IsCode c) :
    text.filter (dtable · ≠ 0x80) = codes := by
  induction h with
  | nil => rfl
  | code _ ih =>
    obtain ⟨hc, hcodes⟩ := List.forall_mem_cons.mp hcodes
    rw [List.filter_cons_of_pos (by simpa using hc.1), ih hcodes]
  | lineFeed _ ih => rw [List.filter_cons_of_neg (by simp [dtable_lineFeed]), ih hcodes]

theorem Lines.ne_zero {text codes : List UInt8} (h : Lines text codes) (hcodes : ∀ c ∈ codes, IsCode c) :
    ∀ c ∈ text, c ≠ 0 := by
  induction h with
  | nil => exact fun _ hc => absurd hc List.not_mem_nil
  | code _ ih =>
    obtain ⟨hc, hcodes⟩ := List.forall_mem_cons.mp hcodes
    exact List.forall_mem_cons.mpr ⟨hc.2, ih hcodes⟩
  | lineFeed _ ih => exact List.forall_mem_cons.mpr ⟨by decide, ih hcodes⟩

/-- The text for some bytes: lines of their characters, the last of which ends with a line feed. -/
theorem base64EncodeLoop_lines {src : List UInt8} {lineLen : ℕ} (h : src ≠ [] ∨ lineLen ≠ 0) :
    ∃ text, base64EncodeLoop src lineLen = text ++ [lineFeed] ∧ Lines text (base64Codes src) := by
  fun_induction base64EncodeLoop src lineLen with
  | case1 a b c src lineLen hline ih =>
    by_cases hsrc : src = []
    · subst hsrc
      exact ⟨encodeBlock a b c ++ [], rfl, Lines.nil.append _⟩
    · obtain ⟨text, heq, hlines⟩ := ih (.inl hsrc)
      exact ⟨encodeBlock a b c ++ lineFeed :: text, by rw [heq, List.append_assoc]; rfl, hlines.lineFeed.append _⟩
  | case2 a b c src lineLen hline ih =>
    obtain ⟨text, heq, hlines⟩ := ih (.inr (Nat.succ_ne_zero _))
    exact ⟨encodeBlock a b c ++ text, by rw [heq, List.append_assoc], hlines.append _⟩
  | case3 src lineLen hshort lineLen' =>
    have hline : lineLen' ≠ 0 := by
      simp only [lineLen']
      split
      · exact Nat.succ_ne_zero _
      · next hsrc => exact h.resolve_left fun hne => hsrc fun hlen => hne (List.eq_nil_of_length_eq_zero hlen)
    have hcodes : base64Codes src = encodeTail src ++ [] := by
      rw [base64Codes, List.append_nil]
      exact hshort
    refine ⟨encodeTail src ++ [], by rw [if_pos hline, List.append_nil], ?_⟩
    rw [hcodes]
    exact Lines.nil.append _

/-- The text fits the buffer: 72 characters take a line feed more. -/
theorem length_base64EncodeLoop_le (src : List UInt8) {lineLen : ℕ} (h : lineLen < 72) :
    (base64EncodeLoop src lineLen).length ≤
      4 * ((src.length + 2) / 3) + (lineLen + 4 * ((src.length + 2) / 3) + 71) / 72 := by
  fun_induction base64EncodeLoop src lineLen with
  | case1 a b c src lineLen hline ih =>
    have hlen := ih (by decide)
    simp only [encodeBlock, List.length_append, List.length_cons, List.length_nil]
    omega
  | case2 a b c src lineLen hline ih =>
    have hlen := ih (by omega)
    simp only [encodeBlock, List.length_append, List.length_cons, List.length_nil]
    omega
  | case3 src lineLen hshort lineLen' =>
    have htail : (encodeTail src).length = 4 * ((src.length + 2) / 3) := by
      rw [← length_base64Codes, base64Codes]
      exact hshort
    rw [List.length_append, htail]
    simp only [lineLen']
    split_ifs <;> simp only [List.length_cons, List.length_nil] <;> omega

theorem length_lt_encodedSize (src : List UInt8) : (base64EncodeLoop src 0).length + 1 ≤ encodedSize src.length := by
  have hlen := length_base64EncodeLoop_le src (Nat.succ_pos 71)
  have hcodes : 4 * ((src.length + 2) / 3) < src.length * 4 / 3 + 4 := by omega
  have hlines : (0 + 4 * ((src.length + 2) / 3) + 71) / 72 ≤ (src.length * 4 / 3 + 4) / 72 + 1 := by omega
  simp only [encodedSize]
  omega

/-! ## Round trip -/

/-- Whatever the lines are, the bytes of their characters are decoded. -/
theorem decode64base_of_lines {src text : List UInt8} (hsrc : src ≠ []) (h : Lines text (base64Codes src)) :
    decode64base text = some ⟨(src.length + 2) / 3 * 3, src⟩ := by
  have hfilter := h.filter_eq (isCode_base64Codes src)
  have hpos : 0 < src.length := List.length_pos_iff.mpr hsrc
  have hcount : text.countP (dtable · ≠ 0x80) = 4 * ((src.length + 2) / 3) := by
    rw [List.countP_eq_length_filter, hfilter, length_base64Codes]
  have hloop : base64DecodeLoop text [] 0 [] = some src := by
    rw [← base64DecodeLoop_filter, hfilter, base64DecodeLoop_codes, List.nil_append]
  rw [decode64base, base64Decode, hcount, if_neg (by omega), hloop, Option.map_some,
    Nat.mul_div_cancel_left _ (by decide)]

/-- For every nonempty buffer `encode_64base` puts a zero over a line feed, and the string that it returns is decoded
to the bytes of the buffer. -/
theorem decode64base_encode64base {buffer : List UInt8} (h : buffer ≠ []) :
    ∃ text block decoded, base64Encode buffer = .ok (some (text ++ [lineFeed])) ∧
      encode64base buffer = .ok (some block) ∧ 0 ∈ block ∧ cstr block = text ∧
      decode64base (block.take (strlen block)) = some decoded ∧ decoded.bytes = buffer := by
  obtain ⟨text, hloop, hlines⟩ := @base64EncodeLoop_lines buffer 0 (.inl h)
  have hfits := length_lt_encodedSize buffer
  have hencode : base64Encode buffer = .ok (some (text ++ [lineFeed])) := by
    have hsize : ¬encodedSize buffer.length < buffer.length := by
      simp only [encodedSize]
      omega
    simp only [base64Encode, if_neg hsize, ensure_of hfits, Except.ok_bind, Except.pure_eq_ok]
    rw [hloop]
  have hblock : encode64base buffer = .ok (some (text ++ [0, 0])) := by
    rw [encode64base, hencode, Except.ok_bind]
    simp [ensure]
  have hcstr : cstr (text ++ [0, 0]) = text := by
    rw [cstr_append (hlines.ne_zero (isCode_base64Codes buffer)), cstr_zero_cons, List.append_nil]
  refine ⟨text, _, ⟨(buffer.length + 2) / 3 * 3, buffer⟩, hencode, hblock, by simp, hcstr, ?_, rfl⟩
  rw [take_strlen, hcstr, decode64base_of_lines h hlines]

/-- 60 bytes: a line of 72 characters, and one of 8. -/
theorem decode64base_encode64base_twoLines :
    ∃ text block decoded, base64Encode (List.replicate 60 255) = .ok (some (text ++ [lineFeed])) ∧
      encode64base (List.replicate 60 255) = .ok (some block) ∧ 0 ∈ block ∧ cstr block = text ∧
      decode64base (block.take (strlen block)) = some decoded ∧ decoded.bytes = List.replicate 60 255 :=
  decode64base_encode64base (by decide)

example : (base64Encode (List.replicate 60 255)).map (Option.map (List.count lineFeed)) = .ok (some 2) := by
  decide

end PoQ
