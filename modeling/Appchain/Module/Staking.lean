import Appchain.Module.Bank

/-!
# Staking

A bond takes coins of one denomination out of an account and counts them as
power. The key is that of the first bond; unbonding gives everything back at
once. The bonds are the validators of the chain.
-/

namespace Appchain

open Fields (field)

structure Validator where
  publicKey : String
  power : UInt64
  deriving DecidableEq, Repr

def Validator.wire : Wire Validator :=
  (field "pub_key" .text ++ field "power" .word).record
    (fun (publicKey, power) => ⟨publicKey, power⟩) fun v => (v.publicKey, v.power)

structure Bond where
  holder : Address
  publicKey : String
  power : UInt64
  deriving DecidableEq

namespace Bond

def wire : Wire Bond :=
  (field "address" Address.wire ++ field "pub_key" .text ++ field "power" .word).record
    (fun ((holder, publicKey), power) => ⟨holder, publicKey, power⟩)
    fun b => ((b.holder, b.publicKey), b.power)

def validator (b : Bond) : Validator := ⟨b.publicKey, b.power⟩

end Bond

namespace Staking

/-- The denomination that can be bonded. -/
def denom : String := "steak"

def get? (a : Address) : Exec (Option Bond) := Exec.load .bonds Bond.wire.binary a.bytes

def put (b : Bond) : Exec Unit := Exec.save .bonds Bond.wire.binary b.holder.bytes b

/-- Bonds coins and returns the new power. -/
def bond (a : Address) (publicKey : String) (stake : Coin) : Exec UInt64 := do
  if stake.denom ≠ denom then throw (.invalidCoins (.notBondable denom stake.denom))
  else
    let _ ← Bank.subtract a (.single denom stake.amount)
    let b := (← get? a).getD ⟨a, publicKey, 0⟩
    match Word.add? b.power stake.amount with
    | none => throw (.invalidCoins .powerOverflow)
    | some power =>
      put { b with power }
      return power

/-- Gives a bond back and returns it. -/
def unbond (a : Address) : Exec Bond := do
  match ← get? a with
  | none => throw (.invalidMessage (.noBond a))
  | some b =>
    Exec.erase .bonds a.bytes
    let _ ← Bank.add a (.single denom b.power)
    return b

/-- The bonds in the order of their addresses. -/
def all : Exec (List Bond) := do
  (← Exec.scan .bonds []).mapM fun e => Exec.decoded (Bond.wire.binary.decode e.2)

def validators : Exec (List Validator) := return (← all).map Bond.validator

def handle : Message → Exec Unit
  | .bond m => do let _ ← bond m.holder m.publicKey m.stake
  | .unbond m => do let _ ← unbond m.holder
  | m => throw (.unknownRequest "simplestaking" m.tag)

end Staking
end Appchain
