import Appchain.Context
import Appchain.Wire.Values

/-!
# Collected fees

The fees that transactions have paid add up to one coin set.
-/

namespace Appchain.Fees

def key : Bytes := Bytes.ofString "collectedFees"

def collected : Exec Coins := return (← Exec.load .fees Coins.wire.binary key).getD .empty

def set (c : Coins) : Exec Unit := Exec.save .fees Coins.wire.binary key c

/-- Adds a fee and returns the new total. -/
def add (fee : Coins) : Exec Coins := do
  match (← collected).add? fee with
  | some total =>
    set total
    return total
  | none => throw (.invalidCoins .feesOverflow)

def clear : Exec Unit := set .empty

end Appchain.Fees
