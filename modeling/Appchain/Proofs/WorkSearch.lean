import Appchain.Message
import Appchain.Proofs.Outcomes
import Mathlib.Tactic.Ring

/-!
# The search for work

A message is checked by the text of its proof: the text has to be the one that belongs to
the work, and the number it spells has to be below the target. The digits of a proof always
spell a word, and the difficulty by which the greatest word is divided is never zero when
it comes to that, so the check never gets stuck. A search finds the least nonce with which
a message passes.
-/

namespace Appchain

open Outcome

namespace Bytes

theorem littleEndianValue_append (a b : Bytes) :
    littleEndianValue (a ++ b) = littleEndianValue a + 256 ^ a.length * littleEndianValue b := by
  induction a with
  | nil => simp [littleEndianValue]
  | cons x a ih =>
    rw [List.cons_append, littleEndianValue, littleEndianValue, ih, List.length_cons, Nat.pow_succ]
    ring

theorem bigEndianValue_cons (x : UInt8) (b : Bytes) :
    bigEndianValue (x :: b) = x.toNat * 256 ^ b.length + bigEndianValue b := by
  unfold bigEndianValue
  rw [List.reverse_cons, littleEndianValue_append, List.length_reverse]
  simp only [littleEndianValue]
  ring

theorem bigEndianValue_lt (b : Bytes) : bigEndianValue b < 256 ^ b.length := by
  induction b with
  | nil => exact Nat.one_pos
  | cons x b ih =>
    calc
      bigEndianValue (x :: b) = x.toNat * 256 ^ b.length + bigEndianValue b := bigEndianValue_cons x b
      _ < x.toNat * 256 ^ b.length + 256 ^ b.length := Nat.add_lt_add_left ih _
      _ = (x.toNat + 1) * 256 ^ b.length := (Nat.succ_mul ..).symm
      _ ≤ 256 * 256 ^ b.length := Nat.mul_le_mul_right _ x.toNat_lt
      _ = 256 ^ (x :: b).length := (Nat.pow_succ' ..).symm

end Bytes

namespace Hex

/-- What digits spell after the number `n`. -/
def numberFrom? (n : Nat) : Bytes → Option Nat
  | [] => some n
  | x :: b => (digitValue? x).bind fun d => numberFrom? (16 * n + d.toNat) b

/-- The digits of a number in a text, where a plus sign may stand before them. -/
def unsigned (text : String) : Bytes :=
  match Bytes.ofString text with
  | 43 :: b => b
  | b => b

/-- The word that a text spells in digits of either case. -/
def word? (text : String) : Option UInt64 :=
  if unsigned text = [] then none else (numberFrom? 0 (unsigned text)).bind Word.ofNat?

theorem numberFrom?_digits (n : Nat) (b : Bytes) :
    numberFrom? n (digits b) = some (n * 256 ^ b.length + Bytes.bigEndianValue b) := by
  induction b generalizing n with
  | nil => simp [digits, numberFrom?, Bytes.bigEndianValue, Bytes.littleEndianValue]
  | cons x b ih =>
    have hx : (x / 16).toNat * 16 + (x % 16).toNat = x.toNat := by
      rw [UInt8.toNat_div, UInt8.toNat_mod]
      exact Nat.div_add_mod' x.toNat 16
    rw [digits, numberFrom?, digitValue?_digit (div_lt x), Option.bind_some, numberFrom?,
      digitValue?_digit (mod_lt x), Option.bind_some, ih, Bytes.bigEndianValue_cons,
      List.length_cons, Nat.pow_succ, ← hx]
    congr 1
    ring

theorem ofString_encode (b : Bytes) : Bytes.ofString (encode b) = digits b :=
  Bytes.ofString_ofList_ascii (digits_lt b)

theorem toList_encode (b : Bytes) :
    (encode b).toList = (digits b).map fun d => Char.ofNat d.toNat :=
  String.toList_ofList

theorem digits_take (b : Bytes) (k : Nat) : digits (b.take k) = (digits b).take (2 * k) := by
  induction b generalizing k with
  | nil => simp [digits]
  | cons x b ih =>
    cases k with
    | zero => rfl
    | succ k =>
      rw [List.take_succ_cons, digits, ih, digits, Nat.mul_succ]
      rfl

/-- The digits that are written. -/
def alphabet : List Char := "0123456789abcdef".toList

theorem mem_alphabet_of_mem_encode {b : Bytes} {c : Char} (h : c ∈ (encode b).toList) :
    c ∈ alphabet := by
  have hdigit {n : UInt8} (hn : n < 16) : Char.ofNat (digit n).toNat ∈ alphabet := by
    have : ∀ m : Fin 16, Char.ofNat (digit (UInt8.ofNat m)).toNat ∈ alphabet := by decide
    simpa using this ⟨n.toNat, UInt8.lt_iff_toNat_lt.mp hn⟩
  rw [toList_encode] at h
  induction b with
  | nil => cases h
  | cons x b ih =>
    rcases List.mem_cons.mp h with rfl | h
    · exact hdigit (div_lt x)
    · rcases List.mem_cons.mp h with rfl | h
      · exact hdigit (mod_lt x)
      · exact ih h

/-- Digits do not look like a sign. -/
theorem unsigned_encode (b : Bytes) : unsigned (encode b) = digits b := by
  unfold unsigned
  rw [ofString_encode]
  split
  · next c h =>
    cases b with
    | nil => cases h
    | cons x b =>
      have hsign : digitValue? 43 = none := by decide
      have hfirst := digitValue?_digit (div_lt x)
      rw [(List.cons.inj h).1, hsign] at hfirst
      cases hfirst
  · rfl

/-- What has been encoded spells the number of its bytes, if this is a word. -/
theorem word?_encode {b : Bytes} (hne : b ≠ []) (hlen : b.length ≤ 8) :
    word? (encode b) = some (UInt64.ofNat (Bytes.bigEndianValue b)) := by
  have hdigits : digits b ≠ [] := by
    rw [← List.length_pos_iff, length_digits]
    have := List.length_pos_iff.mpr hne
    omega
  have hlt : Bytes.bigEndianValue b < UInt64.size :=
    Nat.lt_of_lt_of_le b.bigEndianValue_lt (Nat.pow_le_pow_right (by decide) hlen)
  unfold word?
  rw [unsigned_encode, if_neg hdigits, numberFrom?_digits, Nat.zero_mul, Nat.zero_add,
    Option.bind_some]
  exact if_pos hlt

end Hex

/-- A quotient, which a divisor of zero does not have. -/
def Word.div? (a b : UInt64) : Option UInt64 := if b = 0 then none else some (a / b)

namespace Work

variable {sender : Address} {difficulty count nonce : UInt64}

theorem length_head (sender : Address) (count nonce : UInt64) :
    (head sender count nonce).length = 8 := by
  unfold head
  rw [List.length_take, Sha256.length_hash]
  rfl

theorem word?_proof (sender : Address) (count nonce : UInt64) :
    Hex.word? (proof sender count nonce) = some (UInt64.ofNat (value sender count nonce)) := by
  have hlen := length_head sender count nonce
  refine Hex.word?_encode (fun h => ?_) (Nat.le_of_eq hlen)
  rw [h] at hlen
  cases hlen

theorem value_lt (sender : Address) (count nonce : UInt64) :
    value sender count nonce < UInt64.size := by
  have h := Bytes.bigEndianValue_lt (head sender count nonce)
  rwa [length_head] at h

/-- Whether a text spells a word below the target, if there is a target. -/
def isBelow? (text : String) (difficulty : UInt64) : Option Bool :=
  match Hex.word? text with
  | some v => (Word.div? Word.maximum difficulty).map fun target => v < target
  | none => some false

/-- The text of a proof is compared as its value is. -/
theorem isBelow?_proof (h : difficulty ≠ 0) :
    isBelow? (proof sender count nonce) difficulty = some (meets sender difficulty count nonce) := by
  have hvalue : (UInt64.ofNat (value sender count nonce)).toNat = value sender count nonce :=
    UInt64.toNat_ofNat_of_lt (value_lt sender count nonce)
  unfold isBelow? meets target
  rw [word?_proof, Word.div?, if_neg h]
  simp only [Option.map_some, UInt64.lt_iff_toNat_lt, UInt64.toNat_div]
  rw [hvalue]

/-- A proof is how the digits of the digest begin. -/
theorem toList_proof (sender : Address) (count nonce : UInt64) :
    (proof sender count nonce).toList =
      (Hex.encode (Sha256.hash (preimage sender count nonce))).toList.take 16 := by
  unfold proof head
  rw [Hex.toList_encode, Hex.toList_encode, Hex.digits_take, List.map_take]

theorem length_proof (sender : Address) (count nonce : UInt64) :
    (proof sender count nonce).length = 16 := by
  rw [← String.length_toList, toList_proof, List.length_take, Hex.toList_encode, List.length_map,
    Hex.length_digits, Sha256.length_hash]
  rfl

/-- The sixteen digits with which the digest of the work begins. -/
structure IsProof (sender : Address) (count nonce : UInt64) (text : String) : Prop where
  digits : text.toList = (Hex.encode (Sha256.hash (preimage sender count nonce))).toList.take 16
  length : text.length = 16
  lowercase : ∀ c ∈ text.toList, c ∈ Hex.alphabet

theorem isProof_proof (sender : Address) (count nonce : UInt64) :
    IsProof sender count nonce (proof sender count nonce) where
  digits := toList_proof sender count nonce
  length := length_proof sender count nonce
  lowercase _ hc := Hex.mem_alphabet_of_mem_encode hc

/-- Beyond the words that have been looked at, none satisfies `p`. -/
theorem least?_eq_none {p : UInt64 → Bool} {n : Nat} (h : least? p n = none) {w : UInt64}
    (hw : n ≤ w.toNat) : p w = false := by
  fun_induction least? p n with
  | case1 n hn hp => cases h
  | case2 n hn hp ih =>
    by_cases he : w.toNat = n
    · rw [← he, UInt64.ofNat_toNat] at hp
      simpa using hp
    · exact ih h (by omega)
  | case3 n hn => exact absurd (Nat.lt_of_le_of_lt hw w.toNat_lt_size) hn

end Work

namespace Mine

open Work

variable {sender : Address} {difficulty count : UInt64} {m : Mine}

/-- The check by the text of the proof, which gets stuck where it would divide by zero. -/
def checkText? (m : Mine) : Option (Except TxError Unit) :=
  if m.sender.isEmpty then some (.error (.invalidAddress (.empty "miner")))
  else if m.difficulty = 0 then some (.error (.invalidMessage .zeroDifficulty))
  else if Work.proof m.sender m.count m.nonce ≠ m.proof then
    some (.error (.invalidMessage .foreignProof))
  else (isBelow? m.proof m.difficulty).map fun below =>
    if below then .ok () else .error (.invalidMessage (.aboveTarget m.difficulty))

theorem checkText?_eq (m : Mine) : m.checkText? = some m.check := by
  unfold checkText? check
  split
  · rfl
  · split
    · rfl
    · next hd =>
      split
      · rfl
      · next hp =>
        rw [← not_ne_iff.mp hp, isBelow?_proof hd, Option.map_some]
        cases meets m.sender m.difficulty m.count m.nonce <;> rfl

/-- A message passes with the proof of its work, if this is below the target. -/
theorem check_eq_ok_iff : m.check = .ok () ↔ ¬ m.sender.isEmpty = true ∧ m.difficulty ≠ 0 ∧
    m.proof = Work.proof m.sender m.count m.nonce ∧
      meets m.sender m.difficulty m.count m.nonce = true := by
  unfold check
  rw [guard_eq_ok, guard_eq_ok, guard_eq_ok, guard_eq_ok, and_iff_left rfl, not_ne_iff,
    Bool.not_eq_true', Bool.not_eq_false, @eq_comm _ m.proof]

theorem max_one_ne_zero (difficulty : UInt64) : max difficulty 1 ≠ 0 := by
  change (if difficulty ≤ 1 then 1 else difficulty) ≠ 0
  split
  · decide
  · next h =>
    rintro rfl
    exact h (by decide)

/-- The message that a search should find. -/
structure Finds (sender : Address) (difficulty count : UInt64) (m : Mine) : Prop where
  sender_eq : m.sender = sender
  difficulty_eq : m.difficulty = max difficulty 1
  count_eq : m.count = count
  passes : m.check = .ok ()
  least : ∀ other : Mine, other.sender = sender → other.difficulty = max difficulty 1 →
    other.count = count → other.check = .ok () → m.nonce ≤ other.nonce

theorem search?_eq_some : search? sender difficulty count = some m ↔
    ∃ nonce, nonce? sender (max difficulty 1) count = some nonce ∧
      m = ⟨sender, max difficulty 1, count, nonce, Work.proof sender count nonce⟩ := by
  unfold search?
  rw [Option.map_eq_some_iff]
  exact exists_congr fun nonce => and_congr_right fun _ => eq_comm

theorem search?_eq_none :
    search? sender difficulty count = none ↔ nonce? sender (max difficulty 1) count = none := by
  unfold search?
  exact Option.map_eq_none_iff

theorem finds_of_search? (hs : ¬ sender.isEmpty = true)
    (h : search? sender difficulty count = some m) : Finds sender difficulty count m := by
  obtain ⟨nonce, hn, rfl⟩ := search?_eq_some.mp h
  obtain ⟨hmeets, -, hleast⟩ := least?_eq_some hn
  refine ⟨rfl, rfl, rfl, ?_, ?_⟩
  · exact check_eq_ok_iff.mpr ⟨hs, max_one_ne_zero difficulty, rfl, hmeets⟩
  · rintro ⟨_, _, _, other, text⟩ rfl rfl rfl ho
    obtain ⟨-, -, -, hother⟩ := check_eq_ok_iff.mp ho
    refine UInt64.not_lt.mp fun hlt => ?_
    have := hleast other (Nat.zero_le _) (UInt64.lt_iff_toNat_lt.mp hlt)
    rw [hother] at this
    cases this

theorem check_ne_ok_of_search? (h : search? sender difficulty count = none) (hs : m.sender = sender)
    (hd : m.difficulty = max difficulty 1) (hc : m.count = count) : m.check ≠ .ok () := by
  subst hs hc
  intro hm
  obtain ⟨-, -, -, hmeets⟩ := check_eq_ok_iff.mp hm
  have := least?_eq_none (search?_eq_none.mp h) (Nat.zero_le m.nonce.toNat)
  rw [hd, this] at hmeets
  cases hmeets

/-- A search by anybody, of whatever difficulty and count, finds the least nonce with which a message
passes, if there is one. It looks at the same texts as the check does, which always comes to an end
and lets nothing pass but the digits that belong to the work. -/
theorem search_agrees_with_check (hs : ¬ sender.isEmpty = true) (difficulty count : UInt64) :
    (∀ m, search? sender difficulty count = some m → Finds sender difficulty count m) ∧
    (search? sender difficulty count = none → ∀ m : Mine, m.sender = sender →
      m.difficulty = max difficulty 1 → m.count = count → m.check ≠ .ok ()) ∧
    (∀ nonce, isBelow? (Work.proof sender count nonce) (max difficulty 1) =
      some (meets sender (max difficulty 1) count nonce)) ∧
    ∀ m : Mine, m.checkText? = some m.check ∧
      (m.check = .ok () → IsProof m.sender m.count m.nonce m.proof) := by
  refine ⟨fun m h => finds_of_search? hs h, fun h m => check_ne_ok_of_search? h,
    fun nonce => isBelow?_proof (max_one_ne_zero difficulty), fun m => ⟨checkText?_eq m, fun h => ?_⟩⟩
  obtain ⟨-, -, hp, -⟩ := check_eq_ok_iff.mp h
  rw [hp]
  exact isProof_proof ..

/-- For the count zero and the difficulty three, two nonces are tried in vain. -/
theorem search_agrees_with_check_third :
    ∃ sender m, ¬ sender.isEmpty = true ∧ search? sender 3 0 = some m ∧ m.check = .ok () ∧
      m.nonce = 2 ∧ m.proof = "5169b00aefd6c88a" ∧
      ∀ text, Mine.check ⟨sender, 3, 0, 1, text⟩ ≠ .ok () := by
  let sender : Address := .ofPublicKey [7]
  have hs : ¬ sender.isEmpty = true := by decide +kernel
  have hhead : head sender 0 2 = [0x51, 0x69, 0xb0, 0x0a, 0xef, 0xd6, 0xc8, 0x8a] := by
    decide +kernel
  have hmeets : meets sender (max 3 1) 0 2 = true := by
    unfold meets value
    rw [hhead]
    decide +kernel
  have hn : nonce? sender (max 3 1) 0 = some 2 := by
    unfold nonce?
    rw [least?, if_pos (by decide), if_neg (by decide +kernel), least?, if_pos (by decide),
      if_neg (by decide +kernel), least?, if_pos (by decide)]
    exact if_pos hmeets
  have hp : Work.proof sender 0 2 = "5169b00aefd6c88a" := by
    unfold Work.proof
    rw [hhead]
    decide +kernel
  obtain ⟨hfinds, -⟩ := search_agrees_with_check hs 3 0
  have hm := search?_eq_some.mpr ⟨2, hn, rfl⟩
  refine ⟨sender, _, hs, hm, (hfinds _ hm).passes, rfl, hp, fun text hpass => ?_⟩
  have hle : (2 : UInt64) ≤ 1 := (hfinds _ hm).least ⟨sender, 3, 0, 1, text⟩ rfl rfl rfl hpass
  exact absurd hle (by decide)

end Mine
end Appchain
