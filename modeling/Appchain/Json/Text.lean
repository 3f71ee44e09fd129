import Appchain.Json.Token

/-!
# JSON strings

A string is spelled by escaping the bytes that JSON does not take as they are:
the quote, the backslash and the control characters, five of which have a short
form: 8 is written `\b`, 9 `\t`, 10 `\n`, 12 `\f`, 13 `\r`. Reading also knows
the escapes that are never written; a surrogate escape counts only as half of a
pair. Reading undoes writing (`ofRaw_raw`).
-/

namespace Appchain.Json

def escapeByte (b : UInt8) : Bytes :=
  if b = 34 then [92, 34]
  else if b = 92 then [92, 92]
  else if b = 8 then [92, 98]
  else if b = 12 then [92, 102]
  else if b = 10 then [92, 110]
  else if b = 13 then [92, 114]
  else if b = 9 then [92, 116]
  else if b < 32 then [92, 117, 48, 48, Hex.digit (b / 16), Hex.digit (b % 16)]
  else [b]

def escape (b : Bytes) : Bytes := b.flatMap escapeByte

/-- The byte that a short escape stands for. -/
def shortEscape (b : UInt8) : UInt8 :=
  if b = 98 then 8
  else if b = 102 then 12
  else if b = 110 then 10
  else if b = 114 then 13
  else if b = 116 then 9
  else b

def utf8 (code : Nat) : Bytes := String.utf8EncodeChar (Char.ofNat code)

def codeUnit (a b c d : UInt8) : Nat :=
  let v (x : UInt8) : Nat := ((Hex.digitValue? x).getD 0).toNat
  4096 * v a + 256 * v b + 16 * v c + v d

def isHighSurrogate (u : Nat) : Bool := 0xd800 ≤ u && u < 0xdc00

def isLowSurrogate (u : Nat) : Bool := 0xdc00 ≤ u && u < 0xe000

/-- The bytes that a spelling denotes. The escapes are taken to be well formed. -/
def unescape : Bytes → Option Bytes
  | [] => some []
  | 92 :: 117 :: a :: b :: c :: d :: r =>
    let u := codeUnit a b c d
    if isLowSurrogate u then none
    else if isHighSurrogate u then
      match r with
      | 92 :: 117 :: a :: b :: c :: d :: r =>
        let l := codeUnit a b c d
        if isLowSurrogate l then
          (unescape r).map (utf8 (0x10000 + 1024 * (u - 0xd800) + (l - 0xdc00)) ++ ·)
        else none
      | _ => none
    else (unescape r).map (utf8 u ++ ·)
  | 92 :: e :: r => (unescape r).map (shortEscape e :: ·)
  | b :: r => (unescape r).map (b :: ·)

/-- The spelling of a text between its quotes. -/
def raw (s : String) : Bytes := escape (Bytes.ofString s)

/-- The text that a spelling denotes, if it pairs its surrogates and is valid UTF-8. -/
def ofRaw (r : Bytes) : Option String := (unescape r).bind Bytes.toString?

theorem codeUnit_digit (b : UInt8) :
    codeUnit 48 48 (Hex.digit (b / 16)) (Hex.digit (b % 16)) = b.toNat := by
  have hz : Hex.digitValue? 48 = some 0 := by decide
  simp only [codeUnit, hz, Hex.digitValue?_digit (Hex.div_lt b), Hex.digitValue?_digit (Hex.mod_lt b),
    Option.getD_some, UInt8.toNat_div, UInt8.toNat_mod]
  change 4096 * 0 + 256 * 0 + 16 * (b.toNat / 16) + b.toNat % 16 = b.toNat
  omega

theorem utf8_toNat {b : UInt8} (h : b < 32) : utf8 b.toNat = [b] := by
  have small : ∀ n : Fin 32, utf8 n = [UInt8.ofNat n] := by decide
  simpa using small ⟨b.toNat, UInt8.lt_iff_toNat_lt.mp h⟩

theorem unescape_control {b : UInt8} (h : b < 32) (r : Bytes) :
    unescape (92 :: 117 :: 48 :: 48 :: Hex.digit (b / 16) :: Hex.digit (b % 16) :: r)
      = (unescape r).map (b :: ·) := by
  have hb : b.toNat < 32 := UInt8.lt_iff_toNat_lt.mp h
  have hl : isLowSurrogate b.toNat = false := by simp [isLowSurrogate]; omega
  have hh : isHighSurrogate b.toNat = false := by simp [isHighSurrogate]; omega
  conv => lhs; unfold unescape
  simp only [codeUnit_digit, hl, hh, utf8_toNat h, Bool.false_eq_true, ↓reduceIte,
    List.singleton_append]

theorem unescape_escapeByte_append (b : UInt8) (r : Bytes) :
    unescape (escapeByte b ++ r) = (unescape r).map (b :: ·) := by
  unfold escapeByte
  iterate 7
    split
    · subst b
      rfl
  split
  · next h => exact unescape_control h r
  · rw [List.singleton_append, unescape]
    all_goals simp_all

theorem unescape_escape (b : Bytes) : unescape (escape b) = some b := by
  induction b with
  | nil => rfl
  | cons x b ih =>
    have : escape (x :: b) = escapeByte x ++ escape b := rfl
    rw [this, unescape_escapeByte_append, ih, Option.map_some]

@[simp] theorem ofRaw_raw (s : String) : ofRaw (raw s) = some s := by
  simp [ofRaw, raw, unescape_escape]

end Appchain.Json
