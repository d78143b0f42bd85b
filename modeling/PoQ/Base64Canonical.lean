import PoQ.Base64Encode

/-!
# The texts of a key

`decode_64base` skips every byte that is not in the alphabet, takes padding at any place of a block, reads
nothing behind a block with padding, and drops the bits that the padding leaves over. A key therefore has
many texts. The server stores keys under their texts; the text that `encode_64base` writes is the one that
keeps to all of the format.
-/

namespace PoQ

open CString

/-- Blocks of four characters of the alphabet. Padding stands at the end of the last one, and the bits that
are left over there are zero. -/
inductive WellPadded : List UInt8 → Prop
  | two {a b : UInt8} : a ∈ base64Table → b ∈ base64Table → dtable b &&& 0x0f = 0 →
    WellPadded [a, b, padding, padding]
  | one {a b c : UInt8} : a ∈ base64Table → b ∈ base64Table → c ∈ base64Table → dtable c &&& 0x03 = 0 →
    WellPadded [a, b, c, padding]
  | last {a b c d : UInt8} : a ∈ base64Table → b ∈ base64Table → c ∈ base64Table → d ∈ base64Table →
    WellPadded [a, b, c, d]
  | block {a b c d : UInt8} {codes : List UInt8} : a ∈ base64Table → b ∈ base64Table → c ∈ base64Table →
    d ∈ base64Table → WellPadded codes → WellPadded (a :: b :: c :: d :: codes)

/-- A line feed behind every 72 characters, but not behind the last one; `n` are on the line already. -/
def inLines : List UInt8 → ℕ → List UInt8
  | [], _ => []
  | c :: codes, n => if n = 72 then lineFeed :: c :: inLines codes 1 else c :: inLines codes (n + 1)

/-- The format that `encode_64base` writes. -/
def Canonical (text : List UInt8) : Prop := ∃ codes, WellPadded codes ∧ text = inLines codes 0

/-! ## Characters -/

/-- A character of the alphabet is the one for its bits. -/
theorem tableChar_dtable : ∀ c ∈ base64Table, IsSextet (dtable c) ∧ tableChar (dtable c) = c := by
  decide +kernel

theorem tableChar_mem {i : UInt8} (h : IsSextet i) : tableChar i ∈ base64Table := by
  have hlength : base64Table.length = 64 := by decide
  have hi : i.toNat < base64Table.length := hlength ▸ UInt8.lt_iff_toNat_lt.mp h
  rw [tableChar, List.getD_eq_getElem?_getD, List.getElem?_eq_getElem hi, Option.getD_some]
  exact List.getElem_mem hi

/-- What the encoder makes of the bits of a character, when they have gone to their places in the bytes. -/
theorem sextet_parts : ∀ i : UInt8, IsSextet i →
    ((i <<< 2) >>> 2 = i ∧ (i <<< 2) &&& 0x03 = 0 ∧ (i >>> 4) >>> 2 = 0 ∧
      (i >>> 4) &&& (0x03 : UInt8) = i >>> 4) ∧
    ((i >>> 4) <<< 4 ||| (i <<< 4) >>> 4 = i ∧ (i <<< 4) &&& 0x0f = 0 ∧ (i >>> 2) >>> 4 = 0 ∧
      (i >>> 2) &&& (0x0f : UInt8) = i >>> 2) ∧
    (i >>> 2) <<< 2 ||| (i <<< 6) >>> 6 = i ∧ (i <<< 6) &&& 0x3f = 0 ∧ i >>> 6 = 0 ∧ i &&& 0x3f = i := by
  refine forall_uint8 ?_
  decide +kernel

/-- The bits that are left over by one character of padding, and by two. -/
theorem sextet_padded : ∀ i : UInt8, IsSextet i →
    (i &&& 0x0f = 0 → (i >>> 4) <<< 4 = i) ∧ (i &&& 0x03 = 0 → (i >>> 2) <<< 2 = i) := by
  refine forall_uint8 ?_
  decide +kernel

section

variable {i j k l : UInt8} (hi : IsSextet i) (hj : IsSextet j) (hk : IsSextet k) (hl : IsSextet l)
include hi hj

theorem split_first : (i <<< 2 ||| j >>> 4) >>> 2 = i ∧ (i <<< 2 ||| j >>> 4) &&& (0x03 : UInt8) = j >>> 4 := by
  obtain ⟨⟨hi₁, hi₂, -⟩, -⟩ := sextet_parts i hi
  obtain ⟨⟨-, -, hj₁, hj₂⟩, -⟩ := sextet_parts j hj
  rw [UInt8.shiftRight_or, uint8_or_and, hi₁, hi₂, hj₁, hj₂, UInt8.or_zero, UInt8.zero_or]
  exact ⟨rfl, rfl⟩

omit hi
include hk

theorem split_second : (j >>> 4) <<< 4 ||| (j <<< 4 ||| k >>> 2) >>> 4 = j ∧
    (j <<< 4 ||| k >>> 2) &&& (0x0f : UInt8) = k >>> 2 := by
  obtain ⟨-, ⟨hj₁, hj₂, -⟩, -⟩ := sextet_parts j hj
  obtain ⟨-, ⟨-, -, hk₁, hk₂⟩, -⟩ := sextet_parts k hk
  rw [UInt8.shiftRight_or, uint8_or_and, hj₂, hk₁, hk₂, UInt8.or_zero, UInt8.zero_or, hj₁]
  exact ⟨rfl, rfl⟩

omit hj
include hl

theorem split_third : (k >>> 2) <<< 2 ||| (k <<< 6 ||| l) >>> 6 = k ∧ (k <<< 6 ||| l) &&& 0x3f = l := by
  obtain ⟨-, -, hk₁, hk₂, -⟩ := sextet_parts k hk
  obtain ⟨-, -, -, -, hl₁, hl₂⟩ := sextet_parts l hl
  rw [UInt8.shiftRight_or, uint8_or_and, hk₂, hl₁, hl₂, UInt8.or_zero, UInt8.zero_or, hk₁]
  exact ⟨rfl, rfl⟩

end

/-! ## Blocks -/

/-- The three bytes of a block. -/
theorem encodeBlock_eq {a b c d : UInt8} (ha : a ∈ base64Table) (hb : b ∈ base64Table) (hc : c ∈ base64Table)
    (hd : d ∈ base64Table) :
    encodeBlock (dtable a <<< 2 ||| dtable b >>> 4) (dtable b <<< 4 ||| dtable c >>> 2)
      (dtable c <<< 6 ||| dtable d) = [a, b, c, d] := by
  obtain ⟨ha, ha'⟩ := tableChar_dtable a ha
  obtain ⟨hb, hb'⟩ := tableChar_dtable b hb
  obtain ⟨hc, hc'⟩ := tableChar_dtable c hc
  obtain ⟨hd, hd'⟩ := tableChar_dtable d hd
  obtain ⟨hfirst, hfirst'⟩ := split_first ha hb
  obtain ⟨hsecond, hsecond'⟩ := split_second hb hc
  obtain ⟨hthird, hthird'⟩ := split_third hc hd
  rw [encodeBlock, hfirst, hfirst', hsecond, hsecond', hthird, hthird', ha', hb', hc', hd']

/-- Characters in this format are those of some bytes. -/
theorem WellPadded.exists_base64Codes {codes : List UInt8} (h : WellPadded codes) :
    ∃ src, src ≠ [] ∧ base64Codes src = codes := by
  induction h with
  | @two a b ha hb hzero =>
    obtain ⟨ha, ha'⟩ := tableChar_dtable a ha
    obtain ⟨hb, hb'⟩ := tableChar_dtable b hb
    obtain ⟨hfirst, hfirst'⟩ := split_first ha hb
    refine ⟨[dtable a <<< 2 ||| dtable b >>> 4], List.cons_ne_nil _ _, ?_⟩
    rw [base64Codes_one, hfirst, hfirst', (sextet_padded _ hb).1 hzero, ha', hb']
  | @one a b c ha hb hc hzero =>
    obtain ⟨ha, ha'⟩ := tableChar_dtable a ha
    obtain ⟨hb, hb'⟩ := tableChar_dtable b hb
    obtain ⟨hc, hc'⟩ := tableChar_dtable c hc
    obtain ⟨hfirst, hfirst'⟩ := split_first ha hb
    obtain ⟨hsecond, hsecond'⟩ := split_second hb hc
    refine ⟨[dtable a <<< 2 ||| dtable b >>> 4, dtable b <<< 4 ||| dtable c >>> 2], List.cons_ne_nil _ _, ?_⟩
    rw [base64Codes_two, hfirst, hfirst', hsecond, hsecond', (sextet_padded _ hc).2 hzero, ha', hb', hc']
  | last ha hb hc hd => exact ⟨[_, _, _], List.cons_ne_nil _ _, encodeBlock_eq ha hb hc hd⟩
  | @block a b c d codes ha hb hc hd _ ih =>
    obtain ⟨src, -, hsrc⟩ := ih
    refine ⟨(dtable a <<< 2 ||| dtable b >>> 4) :: (dtable b <<< 4 ||| dtable c >>> 2) ::
      (dtable c <<< 6 ||| dtable d) :: src, List.cons_ne_nil _ _, ?_⟩
    rw [base64Codes, encodeBlock_eq ha hb hc hd, hsrc]
    rfl

/-- The bits that a byte leaves over in the last character. -/
theorem leftover_parts : ∀ a : UInt8,
    ((a &&& 0x03) <<< 4) &&& 0x0f = 0 ∧ ((a &&& 0x0f) <<< 2) &&& 0x03 = 0 := by
  refine forall_uint8 ?_
  decide +kernel

/-- The characters of some bytes are in this format. -/
theorem wellPadded_base64Codes {src : List UInt8} (h : src ≠ []) : WellPadded (base64Codes src) := by
  induction src using blocks_induction with
  | nil => exact absurd rfl h
  | one a =>
    obtain ⟨ha, ha', -⟩ := isSextet_parts a
    rw [base64Codes_one]
    refine .two (tableChar_mem ha) (tableChar_mem ha') ?_
    rw [(dtable_tableChar ha').1]
    exact (leftover_parts a).1
  | two a b =>
    obtain ⟨ha, ha', -⟩ := isSextet_parts a
    obtain ⟨-, -, hb, hb', -⟩ := isSextet_parts b
    rw [base64Codes_two]
    refine .one (tableChar_mem ha) (tableChar_mem (ha'.or hb)) (tableChar_mem hb') ?_
    rw [(dtable_tableChar hb').1]
    exact (leftover_parts b).2
  | block a b c src ih =>
    obtain ⟨ha, ha', -⟩ := isSextet_parts a
    obtain ⟨-, -, hb, hb', -⟩ := isSextet_parts b
    obtain ⟨-, -, -, -, hc, hc'⟩ := isSextet_parts c
    rw [base64Codes_block]
    cases src with
    | nil =>
      exact .last (tableChar_mem ha) (tableChar_mem (ha'.or hb)) (tableChar_mem (hb'.or hc))
        (tableChar_mem hc')
    | cons d src =>
      exact .block (tableChar_mem ha) (tableChar_mem (ha'.or hb)) (tableChar_mem (hb'.or hc))
        (tableChar_mem hc') (ih (List.cons_ne_nil d src))

theorem WellPadded.ne_nil {codes : List UInt8} (h : WellPadded codes) : codes ≠ [] := by
  cases h <;> exact List.cons_ne_nil _ _

/-! ## Lines of 72 characters -/

theorem inLines_full {codes : List UInt8} (h : codes ≠ []) :
    inLines codes 72 = lineFeed :: inLines codes 0 := by
  cases codes with
  | nil => exact absurd rfl h
  | cons c codes => rfl

/-- Characters that still fit on the line. -/
theorem inLines_append {l : List UInt8} {n : ℕ} (codes : List UInt8) (h : n + l.length ≤ 72) :
    inLines (l ++ codes) n = l ++ inLines codes (n + l.length) := by
  induction l generalizing n with
  | nil => rfl
  | cons c l ih =>
    rw [List.length_cons] at h
    rw [List.cons_append, inLines, if_neg (by omega), ih (by omega), List.length_cons, Nat.add_assoc,
      Nat.add_comm 1]
    rfl

theorem lines_inLines (codes : List UInt8) (n : ℕ) : Lines (inLines codes n) codes := by
  induction codes generalizing n with
  | nil => exact .nil
  | cons c codes ih =>
    rw [inLines]
    split
    · exact .lineFeed (.code (ih 1))
    · exact .code (ih (n + 1))

/-- The text of the encoder, which puts a line feed behind the last line too. -/
theorem base64EncodeLoop_inLines {src : List UInt8} {lineLen : ℕ} (hline : lineLen < 72)
    (hdvd : 4 ∣ lineLen) (h : src ≠ [] ∨ lineLen ≠ 0) :
    base64EncodeLoop src lineLen = inLines (base64Codes src) lineLen ++ [lineFeed] := by
  fun_induction base64EncodeLoop src lineLen with
  | case1 a b c src lineLen hfull ih =>
    have hlength : lineLen + (encodeBlock a b c).length = 72 := by
      change lineLen + 4 = 72
      omega
    rw [base64Codes, inLines_append _ hlength.le, hlength]
    by_cases hsrc : src = []
    · subst hsrc
      change _ = encodeBlock a b c ++ inLines [] 72 ++ [lineFeed]
      rw [inLines, List.append_nil]
      rfl
    · rw [ih (by decide) (by decide) (.inl hsrc),
        inLines_full (wellPadded_base64Codes hsrc).ne_nil, List.append_assoc, List.cons_append]
  | case2 a b c src lineLen hfull ih =>
    have hlength : lineLen + (encodeBlock a b c).length = lineLen + 4 := rfl
    rw [base64Codes, inLines_append _ (by omega), hlength, ih (by omega) (by omega) (.inr (by omega)),
      List.append_assoc]
  | case3 src lineLen hshort lineLen' =>
    have hcodes : base64Codes src = encodeTail src ++ [] := by
      rw [base64Codes, List.append_nil]
      exact hshort
    have hlength := length_base64Codes src
    have htwo : src.length ≤ 2 := by
      rcases src with _ | ⟨a, _ | ⟨b, _ | ⟨c, src⟩⟩⟩
      · decide
      · exact Nat.le_succ 1
      · exact le_rfl
      · exact absurd rfl (hshort a b c src)
    rw [hcodes, List.append_nil] at hlength
    rw [hcodes, inLines_append [] (by omega), inLines, List.append_nil]
    have hfeed : lineLen' ≠ 0 := by
      simp only [lineLen']
      split
      · exact Nat.succ_ne_zero _
      · next hsrc => exact h.resolve_left fun hne => hsrc fun hlen => hne (List.eq_nil_of_length_eq_zero hlen)
    rw [if_pos hfeed]

/-- The string of `encode_64base`, with the zero that is put over the last line feed and the one behind. -/
theorem encode64base_eq {buffer : List UInt8} (h : buffer ≠ []) :
    encode64base buffer = .ok (some (inLines (base64Codes buffer) 0 ++ [0, 0])) := by
  have hfits := length_lt_encodedSize buffer
  have hsize : ¬encodedSize buffer.length < buffer.length := by
    simp only [encodedSize]
    omega
  simp only [encode64base, base64Encode, if_neg hsize, ensure_of hfits, Except.ok_bind, Except.pure_eq_ok]
  rw [base64EncodeLoop_inLines (by decide) (Nat.dvd_zero 4) (.inl h)]
  simp [ensure]

theorem cstr_inLines (buffer : List UInt8) :
    cstr (inLines (base64Codes buffer) 0 ++ [0, 0]) = inLines (base64Codes buffer) 0 := by
  have hzero := (lines_inLines (base64Codes buffer) 0).ne_zero (isCode_base64Codes buffer)
  rw [cstr_append hzero, cstr_zero_cons, List.append_nil]

/-! ## What is decoded -/

/-- A block that is complete adds a byte at least, as two characters of padding take away two of three. -/
theorem length_base64DecodeLoop {src block out bytes : List UInt8} {pad : ℕ} (hblock : block.length < 4)
    (h : base64DecodeLoop src block pad out = some bytes) :
    out.length ≤ bytes.length ∧
      (4 ≤ block.length + src.countP (dtable · ≠ 0x80) → out.length < bytes.length) := by
  induction src generalizing block pad out with
  | nil =>
    cases h
    refine ⟨le_rfl, fun hfour => ?_⟩
    rw [List.countP_nil] at hfour
    omega
  | cons c src ih =>
    rw [base64DecodeLoop] at h
    split at h
    · next hskip =>
      rw [List.countP_cons_of_neg (by simpa using hskip)]
      exact ih hblock h
    · next hcode =>
      rw [List.countP_cons_of_pos (by simpa using hcode)]
      suffices hlt : out.length < bytes.length ∨ out.length ≤ bytes.length ∧
          (4 ≤ block.length + 1 + src.countP (dtable · ≠ 0x80) → out.length < bytes.length) by
        omega
      dsimp only at h
      split at h
      · left
        split at h
        · have hle := (ih (by decide) h).1
          rw [List.length_append] at hle
          exact Nat.lt_of_lt_of_le (Nat.lt_add_of_pos_right (Nat.succ_pos 2)) hle
        · cases h
          simp
        · cases h
          simp
        · cases h
      · next hother =>
        right
        have hshort : (block ++ [dtable c]).length < 4 := by
          rw [List.length_append, List.length_singleton]
          refine Nat.lt_of_le_of_ne hblock fun hfour => ?_
          obtain ⟨b₀, b₁, b₂, rfl⟩ := List.length_eq_three.mp (Nat.succ.inj hfour)
          exact hother b₀ b₁ b₂ (dtable c) rfl
        have hle := ih hshort h
        rwa [List.length_append] at hle

/-- A text that is decoded holds a byte at least. -/
theorem decode64base_ne_nil {text : List UInt8} {decoded : Decoded} (h : decode64base text = some decoded) :
    decoded.bytes ≠ [] := by
  rw [decode64base, base64Decode] at h
  split at h
  · cases h
  · next hcount =>
    obtain ⟨bytes, hloop, rfl⟩ := Option.map_eq_some_iff.mp h
    have hlength := (length_base64DecodeLoop (by decide) hloop).2
    refine List.ne_nil_of_length_pos (hlength ?_)
    rw [List.length_nil]
    omega

/-- For every text that `decode_64base` accepts, whatever it skips in it and ignores of it, `encode_64base`
writes a text in the canonical format, which has the same bytes; and this is the text itself exactly if the
text is in this format. So the bytes of a text have one canonical text and no other. -/
theorem encode64base_decode64base {text : List UInt8} {decoded : Decoded}
    (h : decode64base text = some decoded) :
    ∃ block, encode64base decoded.bytes = .ok (some block) ∧ Canonical (cstr block) ∧
      (decode64base (cstr block)).map Decoded.bytes = some decoded.bytes ∧
      (cstr block = text ↔ Canonical text) := by
  have hne := decode64base_ne_nil h
  refine ⟨_, encode64base_eq hne, ?_⟩
  rw [cstr_inLines]
  have hcanonical : Canonical (inLines (base64Codes decoded.bytes) 0) :=
    ⟨_, wellPadded_base64Codes hne, rfl⟩
  refine ⟨hcanonical, ?_, fun heq => heq ▸ hcanonical, ?_⟩
  · rw [decode64base_of_lines hne (lines_inLines _ 0), Option.map_some]
  · rintro ⟨codes, hcodes, rfl⟩
    obtain ⟨src, hsrc, rfl⟩ := hcodes.exists_base64Codes
    rw [decode64base_of_lines hsrc (lines_inLines _ 0)] at h
    cases h
    rfl

/-- Blanks, padding in front, leftover bits and a second key behind the padding: still one byte. -/
theorem encode64base_decode64base_loose :
    decode64base (ascii " =Y=B QUI=") = some ⟨6, [1]⟩ ∧ ∃ block, encode64base [1] = .ok (some block) ∧
      Canonical (cstr block) ∧ (decode64base (cstr block)).map Decoded.bytes = some [1] ∧
      (cstr block = ascii " =Y=B QUI=" ↔ Canonical (ascii " =Y=B QUI=")) := by
  have h : decode64base (ascii " =Y=B QUI=") = some ⟨6, [1]⟩ := by decide
  exact ⟨h, encode64base_decode64base h⟩

end PoQ
