import Appchain.Json.Value

/-!
# The spelling of values

A value whose numbers are words is spelled by a list of tokens (`spelled`), and
both of its printed forms scan to that list (`tokens_compact`, `tokens_pretty`).
A number ends only where a byte follows that could not go on with it, so each
statement is about a text that ends a number.
-/

namespace Appchain.Json

/-- Whether a byte could go on with a number. -/
def continuesNumber (b : UInt8) : Bool := isDigit b || b = 46 || b = 101 || b = 69

/-- A number may end before this text. -/
def EndsNumber (s : Bytes) : Prop := ∀ b ∈ s.head?, continuesNumber b = false

theorem scanText_escapeByte_append (b : UInt8) (s : Bytes) :
    scanText (escapeByte b ++ s) = (scanText s).map fun t => (escapeByte b ++ t.1, t.2) := by
  unfold escapeByte
  iterate 7
    split
    · subst b
      rfl
  split
  · have hq : isHex (Hex.digit (b / 16)) = true := by simp [isHex, Hex.digitValue?_digit (Hex.div_lt b)]
    have hr : isHex (Hex.digit (b % 16)) = true := by simp [isHex, Hex.digitValue?_digit (Hex.mod_lt b)]
    have hz : isHex 48 = true := by decide
    simp [scanText, hz, hq, hr]
  · rw [List.singleton_append, scanText]
    · rw [if_neg (by simp_all)]
      rfl
    all_goals simp_all

theorem scanText_escape (b s : Bytes) : scanText (escape b ++ 34 :: s) = some (escape b, s) := by
  induction b with
  | nil => rfl
  | cons x b ih =>
    have : escape (x :: b) = escapeByte x ++ escape b := rfl
    rw [this, List.append_assoc, scanText_escapeByte_append, ih]
    rfl

theorem scan_quoted (t : String) (s : Bytes) :
    scan (quoted t ++ s) = some (.text (raw t), s) := by
  have : quoted t ++ s = 34 :: (raw t ++ 34 :: s) := by simp [quoted]
  rw [this, scan]
  have := scanText_escape (Bytes.ofString t) s
  simp [punctuation?, raw, this]

theorem digits_append {ds s : Bytes} (h : ds.all isDigit = true) (hs : EndsNumber s) :
    digits (ds ++ s) = ds ∧ afterDigits (ds ++ s) = s := by
  have hs : s.takeWhile isDigit = [] ∧ s.dropWhile isDigit = s := by
    cases s with
    | nil => simp
    | cons b s =>
      have := hs b rfl
      simp only [continuesNumber, Bool.or_eq_false_iff] at this
      simp [this.1]
  induction ds with
  | nil => exact hs
  | cons d ds ih =>
    simp only [List.all_cons, Bool.and_eq_true] at h
    have := ih h.2
    simp only [digits, afterDigits] at this ⊢
    simp [h.1, this]

theorem scanFraction_of_endsNumber {literal s : Bytes} (hs : EndsNumber s) :
    scanFraction literal s = some (literal, s) := by
  cases s with
  | nil => rfl
  | cons b s =>
    have hb := hs b rfl
    simp only [continuesNumber, Bool.or_eq_false_iff, decide_eq_false_iff_not] at hb
    obtain ⟨⟨⟨-, hp⟩, he⟩, hE⟩ := hb
    rw [scanFraction]
    · simp [scanExponent, he, hE]
    · simp [hp]

theorem decimal_eq_zero_of_head? {n : Nat} (h : (decimal n).head? = some 48) : n = 0 := by
  induction n using decimal.induct with
  | case1 n hn =>
    rw [decimal, if_pos hn] at h
    have : ∀ m : Fin 10, [48 + UInt8.ofNat m].head? = some 48 → m.val = 0 := by decide
    exact this ⟨n, hn⟩ h
  | case2 n hn ih =>
    rw [decimal, if_neg hn, List.head?_append] at h
    cases hd : (decimal (n / 10)).head? with
    | none => exact absurd (List.head?_eq_none_iff.mp hd) (decimal_ne_nil _)
    | some d =>
      rw [hd] at h ih
      have := ih h
      omega

theorem scanNumber_decimal (n : Nat) {s : Bytes} (hs : EndsNumber s) :
    scanNumber (decimal n ++ s) = some (decimal n, s) := by
  obtain ⟨d, ds, he⟩ := List.exists_cons_of_ne_nil (decimal_ne_nil n)
  have hd : isDigit d = true := by
    have := decimal_all_isDigit n
    rw [he, List.all_cons, Bool.and_eq_true] at this
    exact this.1
  have hsign : d ≠ 45 := by
    rintro rfl
    exact absurd hd (by decide)
  have hparts := digits_append (decimal_all_isDigit n) hs
  have hu : scanUnsigned [] (decimal n ++ s) = some (decimal n, s) := by
    rw [scanUnsigned, hparts.1]
    split
    · next h => exact absurd h (decimal_ne_nil n)
    · next h =>
      have h0 := decimal_eq_zero_of_head? (n := n) (by rw [h]; rfl)
      subst h0
      simp [decimal] at h
    · rw [hparts.2]
      exact scanFraction_of_endsNumber hs
  rw [scanNumber]
  · exact hu
  · intro r hr
    rw [he] at hr
    exact hsign (List.cons.inj hr).1

theorem scan_decimal (n : Nat) {s : Bytes} (hs : EndsNumber s) :
    scan (decimal n ++ s) = some (.number (decimal n), s) := by
  have hn := scanNumber_decimal n hs
  obtain ⟨d, ds, he⟩ := List.exists_cons_of_ne_nil (decimal_ne_nil n)
  have hd : isDigit d = true := by
    have := decimal_all_isDigit n
    rw [he, List.all_cons, Bool.and_eq_true] at this
    exact this.1
  have other : ∀ c : UInt8, isDigit c = false → d ≠ c := by
    rintro c hc rfl
    exact absurd hd (by simp [hc])
  have hp : punctuation? d = none := by
    simp [punctuation?, other 91 rfl, other 93 rfl, other 123 rfl, other 125 rfl, other 44 rfl,
      other 58 rfl]
  have hw : scanWord (decimal n ++ s) = none := by
    rw [he, List.cons_append, scanWord]
    · rintro _ h
      exact other 110 rfl (List.cons.inj h).1
    · rintro _ h
      exact other 116 rfl (List.cons.inj h).1
    · rintro _ h
      exact other 102 rfl (List.cons.inj h).1
  rw [he] at hn hw ⊢
  simp only [List.cons_append] at hn hw ⊢
  rw [scan]
  simp [hp, other 34 rfl, hw, hn]

theorem not_isBlank_of_isDigit {b : UInt8} (h : isDigit b = true) : isBlank b = false := by
  cases hb : isBlank b with
  | false => rfl
  | true =>
    simp only [isBlank, Bool.or_eq_true, decide_eq_true_eq] at hb
    rcases hb with ((rfl | rfl) | rfl) | rfl <;> exact absurd h (by decide)

theorem not_isBlank_of_punctuation? {b : UInt8} {t : Token} (h : punctuation? b = some t) :
    isBlank b = false := by
  cases hb : isBlank b with
  | false => rfl
  | true =>
    simp only [isBlank, Bool.or_eq_true, decide_eq_true_eq] at hb
    rcases hb with ((rfl | rfl) | rfl) | rfl <;> exact absurd h (by simp [punctuation?])

/-- A text whose first token is known. -/
theorem tokens_of_scan {s rest : Bytes} {t : Token} (h : scan s = some (t, rest))
    (hb : ∀ b ∈ s.head?, isBlank b = false) : tokens s = t :: tokens rest := by
  cases s with
  | nil => simp [scan] at h
  | cons b s =>
    rw [tokens, if_neg (by simp [hb b rfl])]
    split
    · next h' =>
      rw [h] at h'
      cases h'
      rfl
    · next h' =>
      rw [h] at h'
      cases h'

theorem tokens_blank {b : UInt8} (hb : isBlank b = true) (s : Bytes) :
    tokens (b :: s) = tokens s := by
  rw [tokens, if_pos hb]

theorem tokens_lineBreak (level : Nat) (s : Bytes) : tokens (lineBreak level ++ s) = tokens s := by
  have blanks : ∀ n, tokens (List.replicate n 32 ++ s) = tokens s := by
    intro n
    induction n with
    | zero => rfl
    | succ n ih =>
      rw [List.replicate_succ, List.cons_append, tokens_blank (by decide), ih]
  rw [lineBreak, List.cons_append, tokens_blank (by decide), blanks]

theorem tokens_punctuation {b : UInt8} {t : Token} (h : punctuation? b = some t) (s : Bytes) :
    tokens (b :: s) = t :: tokens s := by
  refine tokens_of_scan (by rw [scan, h]) fun c hc => ?_
  cases hc
  exact not_isBlank_of_punctuation? h

theorem tokens_quoted (k : String) (s : Bytes) :
    tokens (quoted k ++ s) = .text (raw k) :: tokens s :=
  tokens_of_scan (scan_quoted k s) fun b hb => by
    cases hb
    rfl

theorem tokens_decimal (n : Nat) {s : Bytes} (hs : EndsNumber s) :
    tokens (decimal n ++ s) = .number (decimal n) :: tokens s := by
  refine tokens_of_scan (scan_decimal n hs) fun b hb => ?_
  obtain ⟨d, ds, he⟩ := List.exists_cons_of_ne_nil (decimal_ne_nil n)
  have hd := decimal_all_isDigit n
  rw [he] at hb hd
  cases hb
  rw [List.all_cons, Bool.and_eq_true] at hd
  exact not_isBlank_of_isDigit hd.1

mutual

/-- Whether every number in a value is a word. -/
def isData : Json → Bool
  | .literal _ => false
  | .array items => areData items
  | .object members => areDataMembers members
  | _ => true

def areData : List Json → Bool
  | [] => true
  | v :: vs => v.isData && areData vs

def areDataMembers : List (String × Json) → Bool
  | [] => true
  | (_, v) :: ms => v.isData && areDataMembers ms

end

mutual

/-- The tokens that spell a value. -/
def spelled : Json → List Token
  | .null => [.null]
  | .bool b => [.bool b]
  | .word n => [.number (decimal n.toNat)]
  | .literal l => [.number l]
  | .text s => [.text (raw s)]
  | .array items => .openArray :: spelledItems items ++ [.closeArray]
  | .object members => .openObject :: spelledMembers members ++ [.closeObject]

def spelledItems : List Json → List Token
  | [] => []
  | [v] => v.spelled
  | v :: vs => v.spelled ++ .comma :: spelledItems vs

def spelledMembers : List (String × Json) → List Token
  | [] => []
  | [(k, v)] => .text (raw k) :: .colon :: v.spelled
  | (k, v) :: ms => .text (raw k) :: .colon :: v.spelled ++ .comma :: spelledMembers ms

end

theorem endsNumber_cons {b : UInt8} (h : continuesNumber b = false) (s : Bytes) :
    EndsNumber (b :: s) := by
  rintro c hc
  cases hc
  exact h

mutual

theorem tokens_compact : (v : Json) → v.isData = true → (s : Bytes) → EndsNumber s →
    tokens (v.compact ++ s) = v.spelled ++ tokens s
  | .null, _, s, _ => tokens_of_scan rfl (by simp [isBlank, compact])
  | .bool true, _, s, _ => tokens_of_scan rfl (by simp [isBlank, compact])
  | .bool false, _, s, _ => tokens_of_scan rfl (by simp [isBlank, compact])
  | .word n, _, s, hs => tokens_decimal n.toNat hs
  | .literal _, h, _, _ => by simp [isData] at h
  | .text t, _, s, _ => tokens_quoted t s
  | .array items, h, s, _ => by
    have h : areData items = true := h
    have hc : tokens (93 :: s) = .closeArray :: tokens s := tokens_punctuation rfl s
    have hi := tokens_compactItems items h (93 :: s) (endsNumber_cons rfl s)
    simp only [compact, List.cons_append, List.append_assoc, List.nil_append, spelled]
    rw [tokens_punctuation (t := .openArray) rfl, hi, hc]
  | .object members, h, s, _ => by
    have h : areDataMembers members = true := h
    have hc : tokens (125 :: s) = .closeObject :: tokens s := tokens_punctuation rfl s
    have hi := tokens_compactMembers members h (125 :: s) (endsNumber_cons rfl s)
    simp only [compact, List.cons_append, List.append_assoc, List.nil_append, spelled]
    rw [tokens_punctuation (t := .openObject) rfl, hi, hc]

theorem tokens_compactItems : (vs : List Json) → areData vs = true → (s : Bytes) → EndsNumber s →
    tokens (compactItems vs ++ s) = spelledItems vs ++ tokens s
  | [], _, _, _ => rfl
  | [v], h, s, hs => by
    simp only [areData, Bool.and_true] at h
    exact tokens_compact v h s hs
  | v :: w :: vs, h, s, hs => by
    rw [areData, Bool.and_eq_true] at h
    have hi := tokens_compactItems (w :: vs) h.2 s hs
    simp only [compactItems, spelledItems, List.append_assoc, List.cons_append]
    rw [tokens_compact v h.1 _ (endsNumber_cons rfl _), tokens_punctuation (t := .comma) rfl, hi]

theorem tokens_compactMembers : (ms : List (String × Json)) → areDataMembers ms = true →
    (s : Bytes) → EndsNumber s → tokens (compactMembers ms ++ s) = spelledMembers ms ++ tokens s
  | [], _, _, _ => rfl
  | [(k, v)], h, s, hs => by
    simp only [areDataMembers, Bool.and_true] at h
    simp only [compactMembers, spelledMembers, List.append_assoc, List.cons_append]
    rw [tokens_quoted, tokens_punctuation (t := .colon) rfl, tokens_compact v h s hs]
  | (k, v) :: m :: ms, h, s, hs => by
    rw [areDataMembers, Bool.and_eq_true] at h
    have hi := tokens_compactMembers (m :: ms) h.2 s hs
    simp only [compactMembers, spelledMembers, List.append_assoc, List.cons_append]
    rw [tokens_quoted, tokens_punctuation (t := .colon) rfl,
      tokens_compact v h.1 _ (endsNumber_cons rfl _), tokens_punctuation (t := .comma) rfl, hi]

end

theorem endsNumber_lineBreak (level : Nat) (s : Bytes) : EndsNumber (lineBreak level ++ s) :=
  endsNumber_cons rfl _

mutual

theorem tokens_pretty : (v : Json) → v.isData = true → (level : Nat) → (s : Bytes) →
    EndsNumber s → tokens (v.pretty level ++ s) = v.spelled ++ tokens s
  | .null, h, _, s, hs => tokens_compact .null h s hs
  | .bool b, h, _, s, hs => tokens_compact (.bool b) h s hs
  | .word n, h, _, s, hs => tokens_compact (.word n) h s hs
  | .literal _, h, _, _, _ => by simp [isData] at h
  | .text t, h, _, s, hs => tokens_compact (.text t) h s hs
  | .array [], h, _, s, hs => tokens_compact (.array []) h s hs
  | .array (v :: vs), h, level, s, _ => by
    have h : areData (v :: vs) = true := h
    have hc : tokens (lineBreak level ++ 93 :: s) = .closeArray :: tokens s := by
      rw [tokens_lineBreak, tokens_punctuation rfl]
    have hi := tokens_prettyItems (v :: vs) h (level + 1) _ (endsNumber_lineBreak level (93 :: s))
    simp only [pretty, List.cons_append, List.append_assoc, List.nil_append, spelled]
    rw [tokens_punctuation (t := .openArray) rfl, hi, hc]
  | .object [], h, _, s, hs => tokens_compact (.object []) h s hs
  | .object (m :: ms), h, level, s, _ => by
    have h : areDataMembers (m :: ms) = true := h
    have hc : tokens (lineBreak level ++ 125 :: s) = .closeObject :: tokens s := by
      rw [tokens_lineBreak, tokens_punctuation rfl]
    have hi := tokens_prettyMembers (m :: ms) h (level + 1) _
      (endsNumber_lineBreak level (125 :: s))
    simp only [pretty, List.cons_append, List.append_assoc, List.nil_append, spelled]
    rw [tokens_punctuation (t := .openObject) rfl, hi, hc]

theorem tokens_prettyItems : (vs : List Json) → areData vs = true → (level : Nat) → (s : Bytes) →
    EndsNumber s → tokens (prettyItems level vs ++ s) = spelledItems vs ++ tokens s
  | [], _, _, _, _ => rfl
  | [v], h, level, s, hs => by
    simp only [areData, Bool.and_true] at h
    simp only [prettyItems, spelledItems, List.append_assoc]
    rw [tokens_lineBreak, tokens_pretty v h level s hs]
  | v :: w :: vs, h, level, s, hs => by
    rw [areData, Bool.and_eq_true] at h
    have hi := tokens_prettyItems (w :: vs) h.2 level s hs
    simp only [prettyItems, spelledItems, List.append_assoc, List.cons_append]
    rw [tokens_lineBreak, tokens_pretty v h.1 level _ (endsNumber_cons rfl _),
      tokens_punctuation (t := .comma) rfl, hi]

theorem tokens_prettyMembers : (ms : List (String × Json)) → areDataMembers ms = true →
    (level : Nat) → (s : Bytes) → EndsNumber s →
    tokens (prettyMembers level ms ++ s) = spelledMembers ms ++ tokens s
  | [], _, _, _, _ => rfl
  | [(k, v)], h, level, s, hs => by
    simp only [areDataMembers, Bool.and_true] at h
    simp only [prettyMembers, spelledMembers, List.append_assoc, List.cons_append]
    rw [tokens_lineBreak, tokens_quoted, tokens_punctuation (t := .colon) rfl,
      tokens_blank (by decide), tokens_pretty v h level s hs]
  | (k, v) :: m :: ms, h, level, s, hs => by
    rw [areDataMembers, Bool.and_eq_true] at h
    have hi := tokens_prettyMembers (m :: ms) h.2 level s hs
    simp only [prettyMembers, spelledMembers, List.append_assoc, List.cons_append]
    rw [tokens_lineBreak, tokens_quoted, tokens_punctuation (t := .colon) rfl,
      tokens_blank (by decide), tokens_pretty v h.1 level _ (endsNumber_cons rfl _),
      tokens_punctuation (t := .comma) rfl, hi]

end

end Appchain.Json
