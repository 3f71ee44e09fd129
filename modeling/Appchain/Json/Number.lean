import Appchain.Json.Token
import Appchain.Word

/-!
# JSON numbers

Data holds words of 64 bits, spelled in decimal without sign, fraction or
exponent. Any other number may stand where its value is not asked for, as long
as it is not beyond the range of a double. That range is tested on the literal's
first digits that fit a word times a power of ten, both rounded to 53 bits.
-/

namespace Appchain.Json

/-- A number in decimal, without leading zeros. -/
def decimal (n : Nat) : Bytes :=
  if n < 10 then [48 + UInt8.ofNat n] else decimal (n / 10) ++ [48 + UInt8.ofNat (n % 10)]

def decimalValue (ds : Bytes) : Nat := ds.foldl (fun n d => 10 * n + (d.toNat - 48)) 0

/-- The word that a literal spells. -/
def word? (literal : Bytes) : Option UInt64 :=
  if literal ≠ [] ∧ literal.all isDigit then Word.ofNat? (decimalValue literal) else none

/-- Rounded to 53 significant bits, ties to even. -/
def round53 (n : Nat) : Nat :=
  if n < 1 <<< 53 then n
  else
    let unit := 1 <<< (n.log2 - 52)
    let q := n / unit
    let r := n % unit
    if 2 * r < unit ∨ (2 * r = unit ∧ q % 2 = 0) then q * unit else (q + 1) * unit

/-- Takes digits into the significand while it fits a word; the others are counted. -/
def significand (s : Nat) (ds : Bytes) : Nat × Nat :=
  match ds with
  | [] => (s, 0)
  | d :: r =>
    let t := 10 * s + (d.toNat - 48)
    if t < UInt64.size then significand t r else (s, ds.length)

/-- Whether `significand * 10 ^ exponent` overflows the range of a double. -/
def overflows (significand : Nat) (exponent : Int) : Bool :=
  significand ≠ 0 &&
    match exponent with
    | .ofNat e => 308 < e || 1 <<< 1024 - 1 <<< 970 ≤ round53 significand * round53 (Nat.pow 10 e)
    | .negSucc _ => false

def exponentOf (s : Bytes) : Int :=
  match s with
  | e :: 45 :: r => if e = 101 ∨ e = 69 then -(decimalValue r) else 0
  | e :: 43 :: r => if e = 101 ∨ e = 69 then decimalValue r else 0
  | e :: r => if e = 101 ∨ e = 69 then decimalValue r else 0
  | [] => 0

/-- Whether a literal is beyond the range of a double. -/
def beyondDouble (literal : Bytes) : Bool :=
  let s := if literal.head? = some 45 then literal.drop 1 else literal
  let whole := significand 0 (digits s)
  let rest := afterDigits s
  match rest with
  | 46 :: r =>
    let part := significand whole.1 (digits r)
    let places := (digits r).length - part.2
    overflows part.1 (whole.2 - places + exponentOf (afterDigits r))
  | _ => overflows whole.1 (whole.2 + exponentOf rest)

theorem decimal_all_isDigit (n : Nat) : (decimal n).all isDigit = true := by
  induction n using decimal.induct with
  | case1 n h =>
    rw [decimal, if_pos h]
    have : ∀ m : Fin 10, isDigit (48 + UInt8.ofNat m) = true := by decide
    simpa using this ⟨n, h⟩
  | case2 n h ih =>
    rw [decimal, if_neg h, List.all_append, ih]
    have : ∀ m : Fin 10, isDigit (48 + UInt8.ofNat m) = true := by decide
    simpa using this ⟨n % 10, Nat.mod_lt _ (by decide)⟩

theorem decimal_ne_nil (n : Nat) : decimal n ≠ [] := by
  rw [decimal]
  split <;> simp

theorem decimalValue_decimal (n : Nat) : decimalValue (decimal n) = n := by
  have digit : ∀ m : Fin 10, (48 + UInt8.ofNat m).toNat - 48 = m := by decide
  induction n using decimal.induct with
  | case1 n h =>
    rw [decimal, if_pos h]
    simpa [decimalValue] using digit ⟨n, h⟩
  | case2 n h ih =>
    have := digit ⟨n % 10, Nat.mod_lt _ (by decide)⟩
    rw [decimal, if_neg h, decimalValue, List.foldl_append, ← decimalValue, ih]
    simp only [List.foldl_cons, List.foldl_nil]
    simp only at this
    omega

@[simp] theorem word?_decimal (a : UInt64) : word? (decimal a.toNat) = some a := by
  simp only [word?, ne_eq, decimal_ne_nil, not_false_eq_true, decimal_all_isDigit, and_self,
    ↓reduceIte, decimalValue_decimal]
  exact Word.ofNat?_eq_some_iff.mpr rfl

end Appchain.Json
