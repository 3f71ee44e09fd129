import Appchain.Tagged
import Appchain.Wire.Values

/-!
# Accounts

An account holds the coins of an address, its number, the sequence of its next
transaction, and the public key once one has been seen. A named account carries
a display name as well; new accounts are named ones with an empty name.
-/

namespace Appchain

open Fields (field)

structure BaseAccount where
  address : Address
  coins : Coins
  /-- In hexadecimal. -/
  publicKey : Option String
  number : UInt64
  sequence : UInt64
  deriving DecidableEq

namespace BaseAccount

def new (a : Address) : BaseAccount := ⟨a, .empty, none, 0, 0⟩

def wire : Wire BaseAccount :=
  (field "address" Address.wire ++ field "coins" Coins.wire ++
    field "pub_key" (.optional .text) (.optional none) ++ field "account_number" .word ++
    field "sequence" .word).record
    (fun ((((address, coins), publicKey), number), sequence) =>
      ⟨address, coins, publicKey, number, sequence⟩)
    fun a => ((((a.address, a.coins), a.publicKey), a.number), a.sequence)

end BaseAccount

structure NamedAccount where
  name : String
  base : BaseAccount
  deriving DecidableEq

def NamedAccount.wire : Wire NamedAccount :=
  (field "name" .text ++ field "base" BaseAccount.wire).record
    (fun (name, base) => ⟨name, base⟩) fun a => (a.name, a.base)

inductive Account where
  | plain (base : BaseAccount)
  | named (account : NamedAccount)
  deriving DecidableEq

namespace Account

/-- A new account without coins. -/
def new (a : Address) : Account := named ⟨"", .new a⟩

def base : Account → BaseAccount
  | plain b => b
  | named n => n.base

/-- Changes the base and keeps the name. -/
def modify (f : BaseAccount → BaseAccount) : Account → Account
  | plain b => plain (f b)
  | named n => named { n with base := f n.base }

def address (a : Account) : Address := a.base.address

def coins (a : Account) : Coins := a.base.coins

def publicKey (a : Account) : Option String := a.base.publicKey

def number (a : Account) : UInt64 := a.base.number

def sequence (a : Account) : UInt64 := a.base.sequence

def withCoins (c : Coins) : Account → Account := modify fun b => { b with coins := c }

def withPublicKey (key : String) : Account → Account :=
  modify fun b => { b with publicKey := some key }

def withNumber (n : UInt64) : Account → Account := modify fun b => { b with number := n }

def withSequence (n : UInt64) : Account → Account := modify fun b => { b with sequence := n }

def tag : Account → String
  | plain _ => "auth/Account"
  | named _ => "xpx-cosmos/Account"

def body : Account → Body
  | plain b => BaseAccount.wire.body b
  | named n => NamedAccount.wire.body n

def reader? : String → Option (Reader Account)
  | "auth/Account" => some (BaseAccount.wire.reader plain)
  | "xpx-cosmos/Account" => some (NamedAccount.wire.reader named)
  | _ => none

instance : Tagged Account := ⟨"Account", tag, body, reader?⟩

@[simp] theorem base_modify (f : BaseAccount → BaseAccount) (a : Account) :
    (a.modify f).base = f a.base := by cases a <;> rfl

@[simp] theorem address_withCoins (c : Coins) (a : Account) :
    (a.withCoins c).address = a.address := by simp [withCoins, address]

@[simp] theorem coins_withCoins (c : Coins) (a : Account) : (a.withCoins c).coins = c := by
  simp [withCoins, coins]

end Account
end Appchain
