import Appchain.Wire

/-!
# Encodings of addresses, coins and coin sets

An address is encoded as its hexadecimal text and a coin set as the list of its
coins. What is read is checked the way the types check it, after all of the
underlying text or list has been read.
-/

namespace Appchain

open Fields (field)

def Address.wire : Wire Address :=
  Wire.text.refine Address.hex fun s => (Address.parse s).mapError .invalidAddress

def Coin.wire : Wire Coin :=
  (field "denom" .text ++ field "amount" .word).record
    (fun (denom, amount) => ⟨denom, amount⟩) fun c => (c.denom, c.amount)

def Coins.wire : Wire Coins :=
  Coin.wire.list.refine Coins.toList fun cs => (Coins.ofList cs).mapError .invalidCoins

theorem Address.check_hex (a : Address) :
    (Address.parse a.hex).mapError Fault.invalidAddress = .ok a := by
  rw [Address.parse_hex]
  rfl

end Appchain
