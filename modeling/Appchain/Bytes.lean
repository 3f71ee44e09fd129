/-!
# Byte strings

Keys, values, hash inputs and documents are lists of bytes. Text enters and
leaves through UTF-8; fixed-width numbers through their base-256 digits, least
significant first (`littleEndian`) or most significant first (`bigEndian`).
Both directions are inverse on the numbers that fit the width.
-/

namespace Appchain

abbrev Bytes := List UInt8

namespace Bytes

def ofString (s : String) : Bytes := s.toByteArray.data.toList

/-- The text with these UTF-8 bytes, if they are valid UTF-8. -/
def toString? (b : Bytes) : Option String := String.fromUTF8? ⟨b.toArray⟩

@[simp] theorem toString?_ofString (s : String) : toString? (ofString s) = some s := by
  have h : (⟨(ofString s).toArray⟩ : ByteArray) = s.toByteArray := by simp [ofString]
  simp [toString?, String.fromUTF8?, h, s.isValidUTF8, String.fromUTF8]

theorem eq_ofString_of_toString? {b : Bytes} {s : String} (h : toString? b = some s) :
    b = ofString s := by
  simp only [toString?, String.fromUTF8?] at h
  split at h
  · cases h
    simp [ofString, String.fromUTF8]
  · cases h

theorem ofString_injective {s t : String} (h : ofString s = ofString t) : s = t :=
  Option.some.inj (by rw [← toString?_ofString s, h, toString?_ofString])

theorem ofString_eq_nil_iff {s : String} : ofString s = [] ↔ s = "" := by
  constructor
  · intro h
    exact ofString_injective (h.trans rfl)
  · rintro rfl
    rfl

@[simp] theorem ofString_append (s t : String) : ofString (s ++ t) = ofString s ++ ofString t := by
  simp [ofString]

theorem ofString_ofList (l : List Char) :
    ofString (String.ofList l) = l.flatMap String.utf8EncodeChar := by
  simp [ofString, List.utf8Encode]

/-- The encoding of an ASCII character is its code. -/
theorem utf8EncodeChar_ofNat {b : UInt8} (h : b < 128) :
    String.utf8EncodeChar (Char.ofNat b.toNat) = [b] := by
  have small : ∀ n : Fin 128, String.utf8EncodeChar (Char.ofNat n) = [UInt8.ofNat n] := by decide
  simpa using small ⟨b.toNat, UInt8.lt_iff_toNat_lt.mp h⟩

theorem ofString_ofList_ascii {b : Bytes} (h : ∀ x ∈ b, x < 128) :
    ofString (String.ofList (b.map fun x => Char.ofNat x.toNat)) = b := by
  rw [ofString_ofList]
  induction b with
  | nil => rfl
  | cons x b ih =>
    rw [List.map_cons, List.flatMap_cons, utf8EncodeChar_ofNat (h x (by simp)),
      ih fun y hy => h y (List.mem_cons_of_mem x hy)]
    rfl

/-- The lowest `k` digits of `n` in base 256, least significant first. -/
def littleEndian : Nat → Nat → Bytes
  | 0, _ => []
  | k + 1, n => UInt8.ofNat n :: littleEndian k (n / 256)

def littleEndianValue : Bytes → Nat
  | [] => 0
  | b :: bs => b.toNat + 256 * littleEndianValue bs

def bigEndian (k n : Nat) : Bytes := (littleEndian k n).reverse

def bigEndianValue (b : Bytes) : Nat := littleEndianValue b.reverse

@[simp] theorem length_littleEndian (k n : Nat) : (littleEndian k n).length = k := by
  induction k generalizing n with
  | zero => rfl
  | succ k ih => simp [littleEndian, ih]

@[simp] theorem length_bigEndian (k n : Nat) : (bigEndian k n).length = k := by
  simp [bigEndian]

theorem littleEndianValue_littleEndian (k n : Nat) (h : n < Nat.pow 256 k) :
    littleEndianValue (littleEndian k n) = n := by
  induction k generalizing n with
  | zero => simp_all [littleEndian, littleEndianValue]
  | succ k ih =>
    have hq : n / 256 < Nat.pow 256 k := by
      apply Nat.div_lt_of_lt_mul
      rw [Nat.mul_comm]
      exact h
    simp only [littleEndian, littleEndianValue, ih _ hq, UInt8.toNat_ofNat']
    omega

theorem bigEndianValue_bigEndian (k n : Nat) (h : n < Nat.pow 256 k) :
    bigEndianValue (bigEndian k n) = n := by
  simp [bigEndianValue, bigEndian, littleEndianValue_littleEndian k n h]

theorem littleEndian_littleEndianValue (b : Bytes) :
    littleEndian b.length (littleEndianValue b) = b := by
  induction b with
  | nil => rfl
  | cons x b ih =>
    have hx := x.toNat_lt
    have hq : (x.toNat + 256 * littleEndianValue b) / 256 = littleEndianValue b := by omega
    have hr : UInt8.ofNat (x.toNat + 256 * littleEndianValue b) = x := by
      apply UInt8.toNat.inj
      simp only [UInt8.toNat_ofNat']
      omega
    simp [littleEndian, littleEndianValue, hq, hr, ih]

/-- Eight bytes, least significant first. -/
def ofUInt64LE (n : UInt64) : Bytes := littleEndian 8 n.toNat

/-- Eight bytes, most significant first. -/
def ofUInt64BE (n : UInt64) : Bytes := bigEndian 8 n.toNat

@[simp] theorem length_ofUInt64BE (n : UInt64) : (ofUInt64BE n).length = 8 := length_bigEndian ..

theorem ofUInt64BE_injective {m n : UInt64} (h : ofUInt64BE m = ofUInt64BE n) : m = n := by
  have hv := congrArg bigEndianValue h
  unfold ofUInt64BE at hv
  rw [bigEndianValue_bigEndian _ _ m.toNat_lt_size, bigEndianValue_bigEndian _ _ n.toNat_lt_size] at hv
  exact UInt64.toNat.inj hv

/-- What follows `p` in `b`, if `b` starts with `p`. -/
def dropPrefix? : Bytes → Bytes → Option Bytes
  | b, [] => some b
  | [], _ :: _ => none
  | x :: b, y :: p => if x = y then dropPrefix? b p else none

theorem dropPrefix?_eq_some_iff {b p r : Bytes} : dropPrefix? b p = some r ↔ b = p ++ r := by
  induction p generalizing b with
  | nil => cases b <;> simp [dropPrefix?]
  | cons y p ih =>
    cases b with
    | nil => simp [dropPrefix?]
    | cons x b =>
      by_cases h : x = y <;> simp [dropPrefix?, h, ih]

end Bytes
end Appchain
