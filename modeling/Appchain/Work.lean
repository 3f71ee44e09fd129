import Appchain.Address
import Appchain.Word

/-!
# Proof of work

The work for a sender and a count is a nonce. Its value is the number that the
first eight bytes of a SHA-256 digest spell, most significant byte first, and
the proof is those bytes in hexadecimal. A difficulty asks for a value below the
greatest word divided by it.
-/

namespace Appchain.Work

/-- What is hashed: the sender's bytes, the count and the nonce in hexadecimal. -/
def preimage (sender : Address) (count nonce : UInt64) : Bytes :=
  sender.bytes ++ Bytes.ofString (Hex.ofNat count.toNat) ++ Bytes.ofString (Hex.ofNat nonce.toNat)

/-- The bytes that count, of the digest of the work. -/
def head (sender : Address) (count nonce : UInt64) : Bytes :=
  (Sha256.hash (preimage sender count nonce)).take 8

def proof (sender : Address) (count nonce : UInt64) : String :=
  Hex.encode (head sender count nonce)

def value (sender : Address) (count nonce : UInt64) : Nat :=
  Bytes.bigEndianValue (head sender count nonce)

/-- The values that meet a difficulty are below this one. -/
def target (difficulty : UInt64) : Nat := Word.maximum.toNat / difficulty.toNat

def meets (sender : Address) (difficulty count nonce : UInt64) : Bool :=
  value sender count nonce < target difficulty

/-- The least word from `n` on that satisfies `p`. -/
def least? (p : UInt64 → Bool) (n : Nat) : Option UInt64 :=
  if n < UInt64.size then
    if p (UInt64.ofNat n) then some (UInt64.ofNat n) else least? p (n + 1)
  else none
termination_by UInt64.size - n

/-- The least nonce that meets the difficulty. -/
def nonce? (sender : Address) (difficulty count : UInt64) : Option UInt64 :=
  least? (meets sender difficulty count) 0

/-- The word found satisfies `p`, and no word before it does. -/
theorem least?_eq_some {p : UInt64 → Bool} {n : Nat} {w : UInt64} (h : least? p n = some w) :
    p w = true ∧ n ≤ w.toNat ∧ ∀ v : UInt64, n ≤ v.toNat → v.toNat < w.toNat → p v = false := by
  fun_induction least? p n with
  | case1 n hn hp =>
    cases h
    have e : (UInt64.ofNat n).toNat = n := UInt64.toNat_ofNat_of_lt hn
    rw [e]
    exact ⟨hp, Nat.le_refl n, fun v hv hw => absurd hw (Nat.not_lt.mpr hv)⟩
  | case2 n hn hp ih =>
    obtain ⟨hw, hle, hleast⟩ := ih h
    refine ⟨hw, by omega, fun v hv hvw => ?_⟩
    by_cases hvn : v.toNat = n
    · rw [← hvn, UInt64.ofNat_toNat] at hp
      simpa using hp
    · exact hleast v (by omega) hvw
  | case3 => simp at h

end Appchain.Work
