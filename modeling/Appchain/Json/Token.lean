import Appchain.Hex

/-!
# JSON tokens

A text is cut into punctuation, words, number literals and strings. Strings and
numbers keep their spelling: what they denote is decided by whoever reads them,
so a part of a document that nobody reads is held to the syntax alone. The first
byte that starts no token ends the list with `fault`.

Bytes are given by their ASCII codes: 34 is the quote, 92 the backslash, 48 to 57
are the digits, 43 and 45 the signs, 46 is the point, 69 and 101 start an
exponent, 91 and 93 enclose arrays, 123 and 125 objects.
-/

namespace Appchain.Json

inductive Token where
  | openArray
  | closeArray
  | openObject
  | closeObject
  | comma
  | colon
  | null
  | bool (value : Bool)
  | number (literal : Bytes)
  | text (raw : Bytes)
  | fault
  deriving DecidableEq, Repr

def isBlank (b : UInt8) : Bool := b = 32 || b = 9 || b = 10 || b = 13

def isDigit (b : UInt8) : Bool := 48 ≤ b && b ≤ 57

def isHex (b : UInt8) : Bool := (Hex.digitValue? b).isSome

/-- The bytes that may follow a backslash, other than `u`: quote, backslash, slash and `bfnrt`. -/
def isShortEscape (b : UInt8) : Bool :=
  b = 34 || b = 92 || b = 47 || b = 98 || b = 102 || b = 110 || b = 114 || b = 116

/-- The spelling of a string up to its closing quote, and what follows the quote. -/
def scanText : Bytes → Option (Bytes × Bytes)
  | [] => none
  | 34 :: r => some ([], r)
  | 92 :: 117 :: a :: b :: c :: d :: r =>
    if isHex a && isHex b && isHex c && isHex d then
      (scanText r).map fun t => (92 :: 117 :: a :: b :: c :: d :: t.1, t.2)
    else none
  | 92 :: e :: r =>
    if isShortEscape e then (scanText r).map fun t => (92 :: e :: t.1, t.2) else none
  | b :: r =>
    if b = 92 ∨ b < 32 then none else (scanText r).map fun t => (b :: t.1, t.2)

def digits (s : Bytes) : Bytes := s.takeWhile isDigit

def afterDigits (s : Bytes) : Bytes := s.dropWhile isDigit

/-- An exponent with at least one digit, or nothing. -/
def scanExponent (literal s : Bytes) : Option (Bytes × Bytes) :=
  match s with
  | e :: r =>
    if e = 101 ∨ e = 69 then
      let sign := r.take 1 |>.filter fun b => b = 43 || b = 45
      let r := r.drop sign.length
      if digits r = [] then none else some (literal ++ e :: sign ++ digits r, afterDigits r)
    else some (literal, s)
  | [] => some (literal, s)

/-- A point with at least one digit, or nothing; then the exponent. -/
def scanFraction (literal s : Bytes) : Option (Bytes × Bytes) :=
  match s with
  | 46 :: r =>
    if digits r = [] then none else scanExponent (literal ++ 46 :: digits r) (afterDigits r)
  | _ => scanExponent literal s

/-- A number from its first digit on; no zero is put in front of other digits. -/
def scanUnsigned (literal s : Bytes) : Option (Bytes × Bytes) :=
  match digits s with
  | [] => none
  | 48 :: _ :: _ => none
  | ds => scanFraction (literal ++ ds) (afterDigits s)

def scanNumber (s : Bytes) : Option (Bytes × Bytes) :=
  match s with
  | 45 :: r => scanUnsigned [45] r
  | _ => scanUnsigned [] s

theorem length_of_scanText {s raw rest : Bytes} (h : scanText s = some (raw, rest)) :
    rest.length < s.length := by
  fun_induction scanText s generalizing raw rest with
  | case1 | case4 | case6 | case7 => simp at h
  | case2 => grind
  | case3 | case5 | case8 =>
    rename_i ih
    obtain ⟨x, hx, he⟩ := Option.map_eq_some_iff.mp h
    have := @ih x.1 x.2 hx
    cases he
    simp only [List.length_cons]
    omega

theorem length_afterDigits (s : Bytes) : (digits s).length + (afterDigits s).length = s.length := by
  rw [← List.length_append, digits, afterDigits, List.takeWhile_append_dropWhile]

theorem length_of_scanExponent {literal s t rest : Bytes}
    (h : scanExponent literal s = some (t, rest)) : rest.length ≤ s.length := by
  unfold scanExponent at h
  split at h
  · next e r =>
    split at h
    · have := length_afterDigits
      grind
    · grind
  · grind

theorem length_of_scanFraction {literal s t rest : Bytes}
    (h : scanFraction literal s = some (t, rest)) : rest.length ≤ s.length := by
  unfold scanFraction at h
  split at h
  · next r =>
    split at h
    · simp at h
    · have := length_of_scanExponent h
      have := length_afterDigits r
      grind
  · exact length_of_scanExponent h

theorem length_of_scanUnsigned {literal s t rest : Bytes}
    (h : scanUnsigned literal s = some (t, rest)) : rest.length < s.length := by
  have hl := length_afterDigits s
  unfold scanUnsigned at h
  split at h
  · simp at h
  · simp at h
  · have := length_of_scanFraction h
    have : (digits s).length ≠ 0 := by simp_all
    omega

theorem length_of_scanNumber {s t rest : Bytes} (h : scanNumber s = some (t, rest)) :
    rest.length < s.length := by
  unfold scanNumber at h
  split at h
  · have := length_of_scanUnsigned h
    grind
  · exact length_of_scanUnsigned h

def punctuation? (b : UInt8) : Option Token :=
  if b = 91 then some .openArray
  else if b = 93 then some .closeArray
  else if b = 123 then some .openObject
  else if b = 125 then some .closeObject
  else if b = 44 then some .comma
  else if b = 58 then some .colon
  else none

/-- The word `null`, `true` or `false` that a text starts with, and what follows it. -/
def scanWord (s : Bytes) : Option (Token × Bytes) :=
  match s with
  | 110 :: 117 :: 108 :: 108 :: r => some (.null, r)
  | 116 :: 114 :: 117 :: 101 :: r => some (.bool true, r)
  | 102 :: 97 :: 108 :: 115 :: 101 :: r => some (.bool false, r)
  | _ => none

theorem length_of_scanWord {s rest : Bytes} {t : Token} (h : scanWord s = some (t, rest)) :
    rest.length < s.length := by
  unfold scanWord at h
  grind

/-- The token that a text starts with, and what follows it. -/
def scan (s : Bytes) : Option (Token × Bytes) :=
  match s with
  | [] => none
  | b :: r =>
    match punctuation? b with
    | some t => some (t, r)
    | none =>
      if b = 34 then (scanText r).map fun t => (.text t.1, t.2)
      else (scanWord s).or ((scanNumber s).map fun t => (.number t.1, t.2))

theorem length_of_scan {s rest : Bytes} {t : Token} (h : scan s = some (t, rest)) :
    rest.length < s.length := by
  unfold scan at h
  split at h
  · simp at h
  · next b r =>
    split at h
    · grind
    · split at h
      · obtain ⟨x, hx, he⟩ := Option.map_eq_some_iff.mp h
        have := @length_of_scanText _ x.1 x.2 hx
        grind
      · rcases Option.or_eq_some_iff.mp h with hw | ⟨-, hn⟩
        · exact length_of_scanWord hw
        · obtain ⟨x, hx, he⟩ := Option.map_eq_some_iff.mp hn
          have := @length_of_scanNumber _ x.1 x.2 hx
          grind

def tokens (s : Bytes) : List Token :=
  match s with
  | [] => []
  | b :: r =>
    if isBlank b then tokens r
    else
      match _ : scan (b :: r) with
      | some (t, rest) => t :: tokens rest
      | none => [.fault]
termination_by s.length
decreasing_by
  · simp
  · exact length_of_scan (by assumption)

end Appchain.Json
