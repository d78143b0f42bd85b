import PoQ.Server.Functions

/-!
# The check of keys and signatures

`check_public_key_and_signature_registration` decodes the key and the signature and copies 32 bytes of what
it gets, before it acts on what the decoder has reported. The loops behind that are to find a byte that is
not zero, but `valid = valid || ..` cannot make `valid` false.
-/

namespace PoQ

/-- The text decodes to 32 bytes. -/
def IsKey (text : List UInt8) : Prop := ∃ d, decode64base text = some d ∧ d.bytes.length = keySize

/-- And they are not all zero. -/
def IsNonzeroKey (text : List UInt8) : Prop :=
  ∃ d, decode64base text = some d ∧ d.bytes.length = keySize ∧ ∃ b ∈ d.bytes, b ≠ 0

/-- The decoder returns a buffer from which 32 bytes can be copied. -/
def Copyable (text : List UInt8) : Prop := ∃ d, decode64base text = some d ∧ keySize ≤ d.allocated

theorem IsNonzeroKey.isKey {text : List UInt8} (h : IsNonzeroKey text) : IsKey text := by
  obtain ⟨d, hd, hlen, -⟩ := h
  exact ⟨d, hd, hlen⟩

/-- The loops leave `valid` alone. -/
theorem checkNonzero_eq (valid : Bool) (bytes : List UInt8) : checkNonzero valid bytes = valid := by
  induction bytes with
  | nil => rfl
  | cons b bytes ih =>
    cases valid with
    | false => exact ih
    | true => exact ih

theorem decodeKey_eq_ok {text : List UInt8} {valid : Bool} {bytes : List UInt8} :
    decodeKey text = .ok (valid, bytes) ↔
      ∃ d, decode64base text = some d ∧ keySize ≤ d.allocated ∧ valid = decide (d.bytes.length = keySize) ∧
        bytes = d.bytes := by
  rw [decodeKey]
  cases decode64base text with
  | none => simp
  | some d =>
    by_cases hfits : keySize ≤ d.allocated
    · simp only [ensure_of hfits, Except.ok_bind, Except.pure_eq_ok, Except.ok.injEq, Prod.mk.injEq,
        Option.some.injEq, exists_eq_left']
      rw [eq_comm (b := valid), eq_comm (b := bytes), and_iff_right hfits]
    · simp [ensure, hfits]

/-- Whether a key is copied without an error, and what is reported. -/
theorem exists_decodeKey_iff {text : List UInt8} :
    (∃ valid bytes, decodeKey text = .ok (valid, bytes)) ↔ Copyable text := by
  simp only [decodeKey_eq_ok, Copyable]
  constructor
  · rintro ⟨_, _, d, hd, hfits, -⟩
    exact ⟨d, hd, hfits⟩
  · rintro ⟨d, hd, hfits⟩
    exact ⟨_, _, d, hd, hfits, rfl, rfl⟩

theorem isKey_iff_of_decodeKey {text : List UInt8} {valid : Bool} {bytes : List UInt8}
    (h : decodeKey text = .ok (valid, bytes)) : valid = true ↔ IsKey text := by
  obtain ⟨d, hd, -, rfl, -⟩ := decodeKey_eq_ok.mp h
  rw [decide_eq_true_eq]
  constructor
  · exact fun hlen => ⟨d, hd, hlen⟩
  · rintro ⟨d', hd', hlen⟩
    cases hd.symm.trans hd'
    exact hlen

/-- The signature is decoded only if the key has its size. -/
theorem exists_checkPublicKeyAndSignatureRegistration {publicKeys : List (List UInt8 × ℕ)}
    {pkStr signStr : List UInt8} {node : Node} {valid : Bool} :
    (∃ node', checkPublicKeyAndSignatureRegistration true publicKeys pkStr signStr node = .ok (valid, node')) ↔
      (valid = false ∧ ∃ pk, decodeKey pkStr = .ok (false, pk)) ∨
        ∃ pk sign, decodeKey pkStr = .ok (true, pk) ∧ decodeKey signStr = .ok (valid, sign) := by
  rw [checkPublicKeyAndSignatureRegistration]
  cases hpk : decodeKey pkStr with
  | error e => simp
  | ok decoded =>
    obtain ⟨valid₁, pk⟩ := decoded
    cases valid₁ with
    | false => cases valid <;> simp [checkNonzero_eq]
    | true =>
      cases hsign : decodeKey signStr with
      | error e => simp
      | ok decoded => simp [checkNonzero_eq, Prod.ext_iff]

/-- The function returns exactly when the key can be copied, and the signature too if the key has its size.
It returns true exactly when both have their size. -/
theorem checkPublicKeyAndSignatureRegistration_eq_ok {publicKeys : List (List UInt8 × ℕ)}
    {pkStr signStr : List UInt8} {node : Node} {valid : Bool} :
    (∃ node', checkPublicKeyAndSignatureRegistration true publicKeys pkStr signStr node = .ok (valid, node')) ↔
      Copyable pkStr ∧ (IsKey pkStr → Copyable signStr) ∧
        (valid = true ↔ IsKey pkStr ∧ IsKey signStr) := by
  rw [exists_checkPublicKeyAndSignatureRegistration]
  constructor
  · rintro (⟨rfl, pk, hpk⟩ | ⟨pk, sign, hpk, hsign⟩)
    · have hkey : ¬IsKey pkStr := by simp [← isKey_iff_of_decodeKey hpk]
      exact ⟨exists_decodeKey_iff.mp ⟨_, _, hpk⟩, fun h => absurd h hkey, by simp [hkey]⟩
    · have hkey : IsKey pkStr := (isKey_iff_of_decodeKey hpk).mp rfl
      refine ⟨exists_decodeKey_iff.mp ⟨_, _, hpk⟩, fun _ => exists_decodeKey_iff.mp ⟨_, _, hsign⟩, ?_⟩
      rw [and_iff_right hkey, isKey_iff_of_decodeKey hsign]
  · rintro ⟨hpk, hsign, hvalid⟩
    obtain ⟨valid₁, pk, hdpk⟩ := exists_decodeKey_iff.mpr hpk
    have hkey := isKey_iff_of_decodeKey hdpk
    cases valid₁ with
    | false =>
      refine .inl ⟨?_, pk, hdpk⟩
      rw [← Bool.not_eq_true, hvalid, ← hkey]
      simp
    | true =>
      have hpkey : IsKey pkStr := hkey.mp rfl
      obtain ⟨valid₂, sign, hdsign⟩ := exists_decodeKey_iff.mpr (hsign hpkey)
      have heq : valid = valid₂ := by
        rw [Bool.eq_iff_iff, isKey_iff_of_decodeKey hdsign, hvalid, and_iff_right hpkey]
      exact .inr ⟨pk, sign, hdpk, heq ▸ hdsign⟩

/-- What the check is for: it returns, and what it returns says whether key and signature are 32 bytes that
are not all zero. -/
def ChecksKeys (publicKeys : List (List UInt8 × ℕ)) (pkStr signStr : List UInt8) (node : Node) : Prop :=
  ∃ valid node', checkPublicKeyAndSignatureRegistration true publicKeys pkStr signStr node =
    .ok (valid, node') ∧ (valid = true ↔ IsNonzeroKey pkStr ∧ IsNonzeroKey signStr)

/-- The check does that exactly when nothing is copied that is not there, and no key or signature of zeros
goes through. -/
theorem checkPublicKeyAndSignatureRegistration_checksKeys_iff (publicKeys : List (List UInt8 × ℕ))
    (pkStr signStr : List UInt8) (node : Node) :
    ChecksKeys publicKeys pkStr signStr node ↔
      Copyable pkStr ∧ (IsKey pkStr → Copyable signStr ∧
        (IsKey signStr → IsNonzeroKey pkStr ∧ IsNonzeroKey signStr)) := by
  constructor
  · rintro ⟨valid, node', hok, hvalid⟩
    obtain ⟨hpk, hsign, hkeys⟩ := checkPublicKeyAndSignatureRegistration_eq_ok.mp ⟨node', hok⟩
    exact ⟨hpk, fun hpkey => ⟨hsign hpkey, fun hskey => hvalid.mp (hkeys.mpr ⟨hpkey, hskey⟩)⟩⟩
  · rintro ⟨hpk, hsign⟩
    classical
    obtain ⟨node', hok⟩ := (@checkPublicKeyAndSignatureRegistration_eq_ok publicKeys pkStr signStr node
      (decide (IsKey pkStr ∧ IsKey signStr))).mpr ⟨hpk, fun hpkey => (hsign hpkey).1, decide_eq_true_iff⟩
    refine ⟨_, node', hok, decide_eq_true_iff.trans ?_⟩
    exact ⟨fun h => (hsign h.1).2 h.2, fun h => ⟨h.1.isKey, h.2.isKey⟩⟩

/-- 32 bytes of zeros. -/
def zeroKey : List UInt8 := ascii "AAAAAAAAAAAAAAAAAAAAAAAAAAAAAAAAAAAAAAAAAAA="

/-- A key and a signature of zeros are accepted. -/
theorem not_checksKeys_zeroKey : ¬ChecksKeys [] zeroKey zeroKey ⟨0, 0, 0, 0, 0⟩ := by
  rintro ⟨valid, node', hok, hvalid⟩
  have hzero : decode64base zeroKey = some ⟨33, List.replicate 32 0⟩ := by decide
  have htrue : checkPublicKeyAndSignatureRegistration true [] zeroKey zeroKey ⟨0, 0, 0, 0, 0⟩ =
      .ok (true, ⟨0, 0, 0, 0, 0⟩) := by decide +kernel
  cases htrue.symm.trans hok
  obtain ⟨⟨d, hd, -, b, hb, hne⟩, -⟩ := hvalid.mp rfl
  cases hzero.symm.trans hd
  exact hne (List.eq_of_mem_replicate hb)

end PoQ
