import Mathlib.Data.Nat.Notation

/-!
# Base64 decoding

`base64_decode` of `base64.c`.
-/

namespace PoQ

/-- The bytes of a text of ASCII characters. -/
def ascii (s : String) : List UInt8 := s.toList.map fun c => c.toNat.toUInt8

/-- `base64_table`. -/
def base64Table : List UInt8 :=
  ascii "ABCDEFGHIJKLMNOPQRSTUVWXYZabcdefghijklmnopqrstuvwxyz0123456789+/"

/-- The padding character `=`. -/
def padding : UInt8 := 61

/-- `dtable`, which holds 0x80 for the bytes that are skipped. -/
def dtable (c : UInt8) : UInt8 :=
  if c = padding then 0
  else match base64Table.idxOf? c with
    | some i => i.toUInt8
    | none => 0x80

/-- A buffer of `allocated` bytes of which the first ones have been decoded. -/
structure Decoded where
  allocated : ℕ
  bytes : List UInt8
deriving DecidableEq, Repr

/-- The second loop of `base64_decode`, with the characters of the unfinished block. -/
def base64DecodeLoop : List UInt8 → List UInt8 → ℕ → List UInt8 → Option (List UInt8)
  | [], _, _, out => some out
  | c :: src, block, pad, out =>
    let tmp := dtable c
    if tmp = 0x80 then base64DecodeLoop src block pad out
    else
      let pad := if c = padding then pad + 1 else pad
      match block ++ [tmp] with
      | [b₀, b₁, b₂, b₃] =>
        let out := out ++ [b₀ <<< 2 ||| b₁ >>> 4, b₁ <<< 4 ||| b₂ >>> 2, b₂ <<< 6 ||| b₃]
        match pad with
        | 0 => base64DecodeLoop src [] 0 out
        | 1 => some (out.take (out.length - 1))
        | 2 => some (out.take (out.length - 2))
        | _ => none
      | block => base64DecodeLoop src block pad out

/-- `base64_decode`; no buffer is returned when the number of characters is not a positive multiple of
4, or the padding is wrong. -/
def base64Decode (src : List UInt8) : Option Decoded :=
  let count := src.countP (dtable · ≠ 0x80)
  if count = 0 ∨ count % 4 ≠ 0 then none
  else (base64DecodeLoop src [] 0 []).map (⟨count / 4 * 3, ·⟩)

/-- `decode_64base`. -/
def decode64base (buffer : List UInt8) : Option Decoded := base64Decode buffer

end PoQ
