import Appchain.Message
import Mathlib.Algebra.GroupWithZero.Nat

/-!
# What is hashed for work

Count and nonce are written one after the other, with no mark between them. The
digits of both are fixed by what is hashed, but not where those of the count end:
when the first digits of a nonce become the last digits of a count, the work stays
the same. Counts with equally many digits are always told apart.
-/

namespace Appchain

namespace Hex

/-- The number of digits of a number. -/
def width (n : Nat) : Nat := (Nat.toDigits 16 n).length

theorem digitChar_injective {a b : Nat} (ha : a < 16) (hb : b < 16)
    (h : a.digitChar = b.digitChar) : a = b := by
  have distinct : ∀ a b : Fin 16, a.val.digitChar = b.val.digitChar → a = b := by decide
  exact congrArg Fin.val (distinct ⟨a, ha⟩ ⟨b, hb⟩ h)

/-- Numbers with the same digits are the same. -/
theorem toDigits_injective {a b : Nat} (h : Nat.toDigits 16 a = Nat.toDigits 16 b) : a = b := by
  induction a using Nat.strongRecOn generalizing b with
  | ind a ih =>
    -- A number below sixteen is the only one with a single digit.
    have single {m n : Nat} (hm : m < 16) (hn : 16 ≤ n) :
        Nat.toDigits 16 m ≠ Nat.toDigits 16 n := by
      rw [Nat.toDigits_of_lt_base hm, Nat.toDigits_of_base_le (by decide) hn]
      intro he
      rcases List.append_eq_singleton_iff.mp he.symm with ⟨hnil, -⟩ | ⟨-, hnil⟩
      · exact Nat.toDigits_ne_nil hnil
      · cases hnil
    by_cases ha : a < 16
    · by_cases hb : b < 16
      · rw [Nat.toDigits_of_lt_base ha, Nat.toDigits_of_lt_base hb] at h
        exact digitChar_injective ha hb (List.singleton_inj.mp h)
      · exact absurd h (single ha (Nat.le_of_not_lt hb))
    · by_cases hb : b < 16
      · exact absurd h.symm (single hb (Nat.le_of_not_lt ha))
      · rw [Nat.toDigits_of_base_le (by decide) (Nat.le_of_not_lt ha),
          Nat.toDigits_of_base_le (by decide) (Nat.le_of_not_lt hb)] at h
        obtain ⟨hinit, hlast⟩ := List.append_inj' h rfl
        have hq : a / 16 = b / 16 := ih (a / 16) (by omega) hinit
        have hr : a % 16 = b % 16 := digitChar_injective (Nat.mod_lt _ (by decide))
          (Nat.mod_lt _ (by decide)) (List.singleton_inj.mp hlast)
        omega

/-- Digits may be appended to those of any number but zero. -/
theorem toDigits_append {m : Nat} (hm : 0 < m) (n : Nat) :
    Nat.toDigits 16 m ++ Nat.toDigits 16 n = Nat.toDigits 16 (m * 16 ^ width n + n) := by
  induction n using Nat.strongRecOn with
  | ind n ih =>
    by_cases hn : n < 16
    · have hw : width n = 1 := by
        rw [width, Nat.toDigits_of_lt_base hn]
        rfl
      rw [Nat.toDigits_append_toDigits (by decide) hm hn, hw, Nat.pow_one, Nat.mul_comm]
    · have hle : 16 ≤ n := Nat.le_of_not_lt hn
      have hw : width n = width (n / 16) + 1 := by
        rw [width, Nat.toDigits_of_base_le (by decide) hle, List.length_append]
        rfl
      have hpos : 0 < m * 16 ^ width (n / 16) + n / 16 := by omega
      calc
        Nat.toDigits 16 m ++ Nat.toDigits 16 n
          = Nat.toDigits 16 m ++ Nat.toDigits 16 (n / 16) ++ Nat.toDigits 16 (n % 16) := by
            rw [Nat.toDigits_of_base_le (by decide) hle, List.append_assoc,
              Nat.toDigits_of_lt_base (Nat.mod_lt n (by decide))]
        _ = Nat.toDigits 16 (16 * (m * 16 ^ width (n / 16) + n / 16) + n % 16) := by
            rw [ih (n / 16) (by omega), Nat.toDigits_append_toDigits (by decide) hpos
              (Nat.mod_lt n (by decide))]
        _ = Nat.toDigits 16 (m * 16 ^ width n + n) := by
            congr 1
            have hpow : m * 16 ^ width n = 16 * (m * 16 ^ width (n / 16)) := by
              rw [hw, Nat.pow_succ, ← Nat.mul_assoc, Nat.mul_comm]
            omega

/-- The first digits of a number, if not all of them, are the digits of a number other than zero. -/
theorem exists_toDigits_of_append {k : Nat} {x y : List Char} (h : Nat.toDigits 16 k = x ++ y)
    (hx : x ≠ []) (hy : y ≠ []) : ∃ m, 0 < m ∧ x = Nat.toDigits 16 m := by
  induction k using Nat.strongRecOn generalizing y with
  | ind k ih =>
    obtain ⟨z, d, rfl⟩ : ∃ z d, y = z ++ [d] := ⟨_, _, (List.dropLast_concat_getLast hy).symm⟩
    rcases Nat.lt_or_ge k 16 with hk | hk
    · rw [Nat.toDigits_of_lt_base hk] at h
      rcases List.append_eq_singleton_iff.mp h.symm with ⟨hnil, -⟩ | ⟨-, hnil⟩
      · exact absurd hnil hx
      · exact absurd hnil hy
    · rw [Nat.toDigits_of_base_le (by decide) hk, ← List.append_assoc] at h
      obtain ⟨hinit, -⟩ := List.append_inj' h rfl
      cases z with
      | nil =>
        rw [List.append_nil] at hinit
        exact ⟨k / 16, by omega, hinit.symm⟩
      | cons e z => exact ih (k / 16) (by omega) hinit nofun

end Hex

namespace Work

variable {sender : Address} {count nonce count' nonce' : UInt64}

/-- The first digits of the nonce have become the last digits of the count. -/
def Regrouped (count nonce count' nonce' : UInt64) : Prop :=
  ∃ m, 0 < m ∧ 0 < count.toNat ∧ count'.toNat = count.toNat * 16 ^ Hex.width m + m ∧
    nonce.toNat = m * 16 ^ Hex.width nonce'.toNat + nonce'.toNat

theorem regrouped_iff : Regrouped count nonce count' nonce' ↔
    ∃ x ≠ [], Nat.toDigits 16 count'.toNat = Nat.toDigits 16 count.toNat ++ x ∧
      Nat.toDigits 16 nonce.toNat = x ++ Nat.toDigits 16 nonce'.toNat := by
  constructor
  · rintro ⟨m, hm, hcount, hc, hn⟩
    refine ⟨Nat.toDigits 16 m, Nat.toDigits_ne_nil, ?_, ?_⟩
    · rw [hc, Hex.toDigits_append hcount]
    · rw [hn, Hex.toDigits_append hm]
  · rintro ⟨x, hx, hc, hn⟩
    obtain ⟨m, hm, rfl⟩ := Hex.exists_toDigits_of_append hn hx Nat.toDigits_ne_nil
    obtain ⟨k, hk, hcount⟩ := Hex.exists_toDigits_of_append hc Nat.toDigits_ne_nil hx
    rw [← Hex.toDigits_injective hcount] at hk
    rw [Hex.toDigits_append hk] at hc
    rw [Hex.toDigits_append hm] at hn
    exact ⟨m, hm, hk, Hex.toDigits_injective hc, Hex.toDigits_injective hn⟩

/-- The count that digits have been added to has more of them. -/
theorem Regrouped.width_lt (h : Regrouped count nonce count' nonce') :
    Hex.width count.toNat < Hex.width count'.toNat := by
  obtain ⟨x, hx, hc, -⟩ := regrouped_iff.mp h
  have hpos := List.length_pos_iff.mpr hx
  unfold Hex.width
  rw [hc, List.length_append]
  omega

theorem preimage_eq_iff_digits : preimage sender count nonce = preimage sender count' nonce' ↔
    Nat.toDigits 16 count.toNat ++ Nat.toDigits 16 nonce.toNat =
      Nat.toDigits 16 count'.toNat ++ Nat.toDigits 16 nonce'.toNat := by
  unfold preimage Hex.ofNat
  simp only [List.append_assoc, ← Bytes.ofString_append, ← String.ofList_append]
  constructor
  · intro h
    exact String.ofList_injective (Bytes.ofString_injective (List.append_cancel_left h))
  · intro h
    rw [h]

/-- The input of the hash tells all pairs apart but those that are one another's regroupings. -/
theorem preimage_eq_iff : preimage sender count nonce = preimage sender count' nonce' ↔
    (count = count' ∧ nonce = nonce') ∨ Regrouped count nonce count' nonce' ∨
      Regrouped count' nonce' count nonce := by
  rw [preimage_eq_iff_digits, List.append_eq_append_iff]
  constructor
  · rintro (⟨x, hc, hn⟩ | ⟨x, hc, hn⟩)
    · cases x with
      | nil =>
        rw [List.append_nil] at hc
        exact .inl ⟨UInt64.toNat.inj (Hex.toDigits_injective hc.symm),
          UInt64.toNat.inj (Hex.toDigits_injective hn)⟩
      | cons d x => exact .inr (.inl (regrouped_iff.mpr ⟨d :: x, nofun, hc, hn⟩))
    · cases x with
      | nil =>
        rw [List.append_nil] at hc
        exact .inl ⟨UInt64.toNat.inj (Hex.toDigits_injective hc),
          UInt64.toNat.inj (Hex.toDigits_injective hn.symm)⟩
      | cons d x => exact .inr (.inr (regrouped_iff.mpr ⟨d :: x, nofun, hc, hn⟩))
  · rintro (⟨rfl, rfl⟩ | h | h)
    · exact .inl ⟨[], (List.append_nil _).symm, rfl⟩
    · obtain ⟨x, -, hc, hn⟩ := regrouped_iff.mp h
      exact .inl ⟨x, hc, hn⟩
    · obtain ⟨x, -, hc, hn⟩ := regrouped_iff.mp h
      exact .inr ⟨x, hc, hn⟩

/-- A message is checked by what is hashed for its work, and by its difficulty. -/
theorem check_eq_of_preimage (h : preimage sender count nonce = preimage sender count' nonce')
    (difficulty : UInt64) (proof : String) :
    Mine.check ⟨sender, difficulty, count, nonce, proof⟩ =
      Mine.check ⟨sender, difficulty, count', nonce', proof⟩ := by
  unfold Mine.check Work.proof meets value head
  simp only [h]

/-- Work is bound to its count as far as the digits are: other pairs of count and nonce have the
same input of the hash only when digits have moved from the nonce to the count, which then has more
of them. Such work is as good for the one count as it is for the other. -/
theorem inputs_told_apart (sender : Address) (count nonce count' nonce' : UInt64) :
    (preimage sender count nonce = preimage sender count' nonce' ↔
      (count = count' ∧ nonce = nonce') ∨ Regrouped count nonce count' nonce' ∨
        Regrouped count' nonce' count nonce) ∧
    (Hex.width count.toNat = Hex.width count'.toNat →
      preimage sender count nonce = preimage sender count' nonce' →
        count = count' ∧ nonce = nonce') ∧
    (Regrouped count nonce count' nonce' → ∀ difficulty proof,
      Mine.check ⟨sender, difficulty, count, nonce, proof⟩ =
        Mine.check ⟨sender, difficulty, count', nonce', proof⟩) := by
  refine ⟨preimage_eq_iff, fun hw h => ?_, fun h difficulty proof => ?_⟩
  · rcases preimage_eq_iff.mp h with h | h | h
    · exact h
    · exact absurd hw (Nat.ne_of_lt h.width_lt)
    · exact absurd hw (Nat.ne_of_gt h.width_lt)
  · exact check_eq_of_preimage (preimage_eq_iff.mpr (.inr (.inl h))) difficulty proof

/-- The nonce `1b` for the count `1` is the nonce `b` for the count `11`, where the same proof is
good again. -/
theorem inputs_told_apart_regrouped :
    ∃ sender proof, preimage sender 0x1 0x1b = preimage sender 0x11 0xb ∧
      (Mine.check ⟨sender, 2, 0x1, 0x1b, proof⟩).toOption = some () ∧
      (Mine.check ⟨sender, 18, 0x11, 0xb, proof⟩).toOption = some () := by
  have hr : Regrouped 0x1 0x1b 0x11 0xb := ⟨1, by decide, by decide, by decide, by decide⟩
  obtain ⟨hiff, -, hreplay⟩ := inputs_told_apart (.ofPublicKey [7]) 0x1 0x1b 0x11 0xb
  refine ⟨.ofPublicKey [7], "04b9e45e5dc878d7", hiff.mpr (.inr (.inl hr)), ?_, ?_⟩
  · decide +kernel
  · rw [← hreplay hr]
    decide +kernel

end Work
end Appchain
