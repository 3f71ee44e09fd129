/-!
# 64-bit words

Amounts, sequences, counts and heights are words of 64 bits. Sums and
differences are taken only where they fit (`add?_eq_some_iff`,
`sub?_eq_some_iff`); `succ` stays at the greatest word.
-/

namespace Appchain.Word

def maximum : UInt64 := 0xffffffffffffffff

/-- The word `n`, if it is one. -/
def ofNat? (n : Nat) : Option UInt64 :=
  if n < UInt64.size then some (UInt64.ofNat n) else none

def add? (a b : UInt64) : Option UInt64 := ofNat? (a.toNat + b.toNat)

def sub? (a b : UInt64) : Option UInt64 := if b ≤ a then some (a - b) else none

/-- The next word, or the greatest one again. -/
def succ (a : UInt64) : UInt64 := if a = maximum then a else a + 1

theorem ofNat?_eq_some_iff {n : Nat} {a : UInt64} : ofNat? n = some a ↔ n = a.toNat := by
  unfold ofNat?
  split
  · next h =>
    constructor
    · rintro ⟨⟩
      exact (UInt64.toNat_ofNat_of_lt h).symm
    · rintro rfl
      simp
  · next h =>
    constructor
    · simp
    · rintro rfl
      exact absurd a.toNat_lt_size h

theorem add?_eq_some_iff {a b c : UInt64} : add? a b = some c ↔ a.toNat + b.toNat = c.toNat :=
  ofNat?_eq_some_iff

theorem sub?_eq_some_iff {a b c : UInt64} : sub? a b = some c ↔ b.toNat + c.toNat = a.toNat := by
  unfold sub?
  split
  · next h =>
    have hs := UInt64.toNat_sub_of_le a b h
    have hle := UInt64.le_iff_toNat_le.mp h
    constructor
    · rintro ⟨⟩
      omega
    · intro hc
      exact congrArg some (UInt64.toNat.inj (by omega))
  · next h =>
    have := UInt64.lt_iff_toNat_lt.mp (UInt64.not_le.mp h)
    constructor
    · simp
    · omega

theorem add?_eq_none_iff {a b : UInt64} : add? a b = none ↔ UInt64.size ≤ a.toNat + b.toNat := by
  simp [add?, ofNat?]

theorem sub?_eq_none_iff {a b : UInt64} : sub? a b = none ↔ a.toNat < b.toNat := by
  simp [sub?, UInt64.lt_iff_toNat_lt]

theorem toNat_add_one {a : UInt64} (h : a.toNat + 1 < UInt64.size) : (a + 1).toNat = a.toNat + 1 := by
  rw [UInt64.toNat_add]
  exact Nat.mod_eq_of_lt h

theorem toNat_add_one_lt_size {a : UInt64} (h : a ≠ maximum) : a.toNat + 1 < UInt64.size := by
  have hn : a.toNat ≠ maximum.toNat := fun e => h (UInt64.toNat.inj e)
  have hm : maximum.toNat = UInt64.size - 1 := rfl
  have hlt := a.toNat_lt_size
  omega

/-- The next word is one more, except after the greatest one. -/
theorem toNat_succ {a : UInt64} (h : a ≠ maximum) : (succ a).toNat = a.toNat + 1 := by
  rw [succ, if_neg h]
  exact toNat_add_one (toNat_add_one_lt_size h)

end Appchain.Word
