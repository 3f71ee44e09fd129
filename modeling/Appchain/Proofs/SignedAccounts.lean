import Appchain.Module.Admission
import Appchain.Proofs.Outcomes

/-!
# Signed accounts

What it takes for an account to accept a signature, and what the account is afterwards:
`signed_eq_ok_iff` says all that can come of signing.
-/

namespace Appchain

open Outcome

theorem Account.withPublicKey_eq_self {x : Account} {key : String} (h : x.publicKey = some key) :
    x.withPublicKey key = x := by
  cases x with
  | plain b =>
    change plain { b with publicKey := some key } = _
    rw [← h]
    rfl
  | named n =>
    change named { n with base := { n.base with publicKey := some key } } = _
    rw [← h]
    rfl

namespace Admission

variable {x y : Account} {a : Address} {g : Signature}

/-- The account after its holder has signed with a key. -/
def signedWith (x : Account) (key : Bytes) : Account :=
  (x.withPublicKey (x.publicKey.getD (Hex.encode key))).withSequence (x.sequence + 1)

/-- The account of the address accepts the signature, which names the key. -/
structure Accepts (a : Address) (g : Signature) (x : Account) (key : Bytes) : Prop where
  number : g.accountNumber = x.number
  sequence : g.sequence = x.sequence
  names : Hex.decode g.publicKey = .ok key
  address : Address.ofPublicKey key = a
  recorded : ∀ known, x.publicKey = some known → sameHex known g.publicKey = true
  signature : ∃ b bs, Hex.decode g.signature = .ok (b :: bs)

@[simp] theorem address_signedWith (x : Account) (key : Bytes) :
    (signedWith x key).address = x.address := by
  cases x <;> rfl

@[simp] theorem coins_signedWith (x : Account) (key : Bytes) :
    (signedWith x key).coins = x.coins := by
  cases x <;> rfl

@[simp] theorem number_signedWith (x : Account) (key : Bytes) :
    (signedWith x key).number = x.number := by
  cases x <;> rfl

@[simp] theorem sequence_signedWith (x : Account) (key : Bytes) :
    (signedWith x key).sequence = x.sequence + 1 := by
  cases x <;> rfl

@[simp] theorem publicKey_signedWith (x : Account) (key : Bytes) :
    (signedWith x key).publicKey = some (x.publicKey.getD (Hex.encode key)) := by
  cases x <;> rfl

theorem withKey_eq_ok_iff {text : String} : withKey x a text = .ok y ↔
    ∃ key, Hex.decode text = .ok key ∧ Address.ofPublicKey key = a ∧
      (∀ known, x.publicKey = some known → sameHex known text = true) ∧
      y = x.withPublicKey (x.publicKey.getD (Hex.encode key)) := by
  unfold withKey
  cases hk : Hex.decode text with
  | error f => simp
  | ok key =>
    simp only [guard_eq_ok, Decidable.not_not, Except.ok.injEq, exists_eq_left']
    refine and_congr_right fun _ => ?_
    cases hx : x.publicKey with
    | none =>
      constructor
      · rintro ⟨⟩
        exact ⟨nofun, rfl⟩
      · rintro ⟨-, rfl⟩
        rfl
    | some known =>
      simp only [Option.some.injEq, forall_eq', Option.getD_some, Account.withPublicKey_eq_self hx]
      split
      · next h => simp [h, eq_comm]
      · next h => simp [h]

theorem checkSignature_eq_ok {text : String} :
    checkSignature a text = .ok () ↔ ∃ b bs, Hex.decode text = .ok (b :: bs) := by
  unfold checkSignature
  cases hd : Hex.decode text with
  | error f => simp
  | ok bytes => cases bytes <;> simp

theorem signed_eq_ok_iff :
    signed x a g = .ok y ↔ ∃ key, Accepts a g x key ∧ y = signedWith x key := by
  unfold signed
  rw [guard_eq_ok, guard_eq_ok, Decidable.not_not, Decidable.not_not]
  constructor
  · rintro ⟨hn, hs, h⟩
    obtain ⟨z, hz, h⟩ := bind_eq_ok.mp h
    obtain ⟨⟨⟩, hc, h⟩ := bind_eq_ok.mp h
    obtain ⟨key, hk, ha, hr, rfl⟩ := withKey_eq_ok_iff.mp hz
    cases h
    refine ⟨key, ⟨hn, hs, hk, ha, hr, checkSignature_eq_ok.mp hc⟩, ?_⟩
    cases x <;> rfl
  · rintro ⟨key, h, rfl⟩
    refine ⟨h.number, h.sequence, ?_⟩
    rw [withKey_eq_ok_iff.mpr ⟨key, h.names, h.address, h.recorded, rfl⟩]
    simp only [bind, Except.bind, checkSignature_eq_ok.mpr h.signature]
    cases x <;> rfl

end Admission
end Appchain
