import Appchain.Bytes

/-!
# Hexadecimal text

Bytes are written as two lowercase digits each and read back in either case.
A text of odd length is refused before any digit is looked at; otherwise the
first byte that is no digit is named together with its offset. Reading undoes
writing (`decode_encode`). Numbers are written without leading zeros.
-/

namespace Appchain
namespace Hex

inductive Fault where
  | oddLength
  | badDigit (byte : UInt8) (offset : Nat)
  deriving DecidableEq, Repr

/-- A byte as a quoted Latin-1 character, with the usual escapes for what does not print. -/
def quoted (b : UInt8) : String :=
  let body :=
    if b = 0 then "\\0"
    else if b = 9 then "\\t"
    else if b = 10 then "\\n"
    else if b = 13 then "\\r"
    else if b = 39 then "\\'"
    else if b = 92 then "\\\\"
    else if b < 32 ∨ (127 ≤ b ∧ b ≤ 160) ∨ b = 173 then
      "\\u\x7b" ++ String.ofList (Nat.toDigits 16 b.toNat) ++ "\x7d"
    else String.singleton (Char.ofNat b.toNat)
  "'" ++ body ++ "'"

def Fault.message : Fault → String
  | oddLength => "Odd number of digits"
  | badDigit b i => "Invalid character " ++ quoted b ++ " at position " ++ toString i

/-- The ASCII code of a digit below sixteen. -/
def digit (n : UInt8) : UInt8 := if n < 10 then 48 + n else 87 + n

def digitValue? (b : UInt8) : Option UInt8 :=
  if 48 ≤ b ∧ b ≤ 57 then some (b - 48)
  else if 97 ≤ b ∧ b ≤ 102 then some (b - 87)
  else if 65 ≤ b ∧ b ≤ 70 then some (b - 55)
  else none

/-- The digits of `b` as ASCII codes. -/
def digits : Bytes → Bytes
  | [] => []
  | x :: b => digit (x / 16) :: digit (x % 16) :: digits b

def encode (b : Bytes) : String :=
  String.ofList ((digits b).map fun d => Char.ofNat d.toNat)

/-- Reads pairs of digits; `i` is the offset of the first. -/
def pairs : Nat → Bytes → Except Fault Bytes
  | _, [] => .ok []
  | _, [_] => .error .oddLength
  | i, x :: y :: b =>
    match digitValue? x, digitValue? y with
    | some u, some v => (pairs (i + 2) b).map ((16 * u + v) :: ·)
    | none, _ => .error (.badDigit x i)
    | some _, none => .error (.badDigit y (i + 1))

def decodeBytes (b : Bytes) : Except Fault Bytes :=
  if b.length % 2 = 1 then .error .oddLength else pairs 0 b

def decode (s : String) : Except Fault Bytes := decodeBytes (Bytes.ofString s)

/-- A number in hexadecimal, without leading zeros. -/
def ofNat (n : Nat) : String := String.ofList (Nat.toDigits 16 n)

@[simp] theorem length_digits (b : Bytes) : (digits b).length = 2 * b.length := by
  induction b with
  | nil => rfl
  | cons x b ih => simp only [digits, List.length_cons, ih]; omega

theorem digitValue?_digit {n : UInt8} (h : n < 16) : digitValue? (digit n) = some n := by
  have : ∀ m : Fin 16, digitValue? (digit (UInt8.ofNat m)) = some (UInt8.ofNat m) := by decide
  have hn : n.toNat < 16 := UInt8.lt_iff_toNat_lt.mp h
  have := this ⟨n.toNat, hn⟩
  simpa using this

theorem div_lt (x : UInt8) : x / 16 < 16 := by
  have := x.toNat_lt
  rw [UInt8.lt_iff_toNat_lt, UInt8.toNat_div]
  change x.toNat / 16 < 16
  omega

theorem mod_lt (x : UInt8) : x % 16 < 16 := by
  rw [UInt8.lt_iff_toNat_lt, UInt8.toNat_mod]
  exact Nat.mod_lt _ (by decide)

theorem pairs_digits (i : Nat) (b : Bytes) : pairs i (digits b) = .ok b := by
  induction b generalizing i with
  | nil => rfl
  | cons x b ih =>
    have hx : 16 * (x / 16) + x % 16 = x := by
      apply UInt8.toNat.inj
      have := x.toNat_lt
      simp only [UInt8.toNat_add, UInt8.toNat_mul, UInt8.toNat_div, UInt8.toNat_mod]
      change (16 * (x.toNat / 16) % 256 + x.toNat % 16) % 256 = x.toNat
      omega
    simp [digits, pairs, digitValue?_digit (div_lt x), digitValue?_digit (mod_lt x), ih, Except.map, hx]

theorem decodeBytes_digits (b : Bytes) : decodeBytes (digits b) = .ok b := by
  simp [decodeBytes, pairs_digits]

theorem digit_lt {n : UInt8} (h : n < 16) : digit n < 128 := by
  have : ∀ m : Fin 16, digit (UInt8.ofNat m) < 128 := by decide
  have hn : n.toNat < 16 := UInt8.lt_iff_toNat_lt.mp h
  simpa using this ⟨n.toNat, hn⟩

theorem digits_lt (b : Bytes) : ∀ d ∈ digits b, d < 128 := by
  induction b with
  | nil => simp [digits]
  | cons x b ih => simpa [digits, digit_lt (div_lt x), digit_lt (mod_lt x)] using ih

@[simp] theorem decode_encode (b : Bytes) : decode (encode b) = .ok b := by
  rw [decode, encode, Bytes.ofString_ofList_ascii (digits_lt b), decodeBytes_digits]

theorem encode_injective {b c : Bytes} (h : encode b = encode c) : b = c :=
  Except.ok.inj (by rw [← decode_encode b, h, decode_encode])

end Hex
end Appchain
