import Appchain.Module.Parameters
import Appchain.TypeRegistry

/-!
# Stored accounts

Accounts are filed under their address. Each new account takes the next account
number, which is counted from then on even if the account is not stored.
-/

namespace Appchain

structure AuthParameters where
  maximumMemo : UInt64
  maximumSignatures : UInt64
  deriving DecidableEq, Repr

namespace AuthParameters

open Fields (field)

/-- What holds where nothing has been set. -/
def initial : AuthParameters := ⟨256, 7⟩

def fields : Fields AuthParameters :=
  (field "max_memo_characters" .word ++ field "tx_sig_limit" .word).iso
    (fun (memo, signatures) => ⟨memo, signatures⟩) fun p => (p.maximumMemo, p.maximumSignatures)

def wire : Wire AuthParameters := fields.wire

end AuthParameters

namespace Accounts

def root : Bytes := Bytes.ofString "addr:"

def key (a : Address) : Bytes := root ++ a.bytes

def counterKey : Bytes := Bytes.ofString "globalAccountNumber"

def ofBytes (b : Bytes) : Exec Account := Exec.lift ((TypeRegistry.standard.ofBytes b).mapError .codec)

def get? (a : Address) : Exec (Option Account) := do
  match ← Exec.read .accounts (key a) with
  | some b => some <$> ofBytes b
  | none => return none

def put (a : Account) : Exec Unit := do
  Exec.write .accounts (key a.address) (← Exec.lift ((TypeRegistry.standard.toBytes a).mapError .codec))

def remove (a : Address) : Exec Unit := Exec.erase .accounts (key a)

/-- Takes the next account number. -/
def nextNumber : Exec UInt64 := do
  let n := (← Exec.load .accounts .word counterKey).getD 0
  Exec.save .accounts .word counterKey (n + 1)
  return n

/-- A new account, not yet stored. -/
def create (a : Address) : Exec Account := return (Account.new a).withNumber (← nextNumber)

def getOrCreate (a : Address) : Exec Account := do
  match ← get? a with
  | some account => return account
  | none => create a

/-- The accounts in the order of their addresses. -/
def all : Exec (List Account) := do
  (← Exec.scan .accounts root).mapM fun e => ofBytes e.2

/-- The first `n` accounts. The ones after them are not looked at. -/
def first (n : Nat) : Exec (List Account) := do
  ((← Exec.scan .accounts root).take n).mapM fun e => ofBytes e.2

def coins (a : Address) : Exec Coins := do
  match ← get? a with
  | some account => return account.coins
  | none => return .empty

def setCoins (a : Address) (c : Coins) : Exec Unit := do
  put ((← getOrCreate a).withCoins c)

def sequence? (a : Address) : Exec (Option UInt64) := return (← get? a).map Account.sequence

def subspace : Subspace := ⟨"auth"⟩

def memoKey : String := "max_memo_characters"

def signaturesKey : String := "tx_sig_limit"

def parameters : Exec AuthParameters := do
  let memo ← subspace.get? .word memoKey
  let signatures ← subspace.get? .word signaturesKey
  return ⟨memo.getD AuthParameters.initial.maximumMemo,
    signatures.getD AuthParameters.initial.maximumSignatures⟩

def setParameters (p : AuthParameters) : Exec Unit := do
  subspace.set .word memoKey p.maximumMemo
  subspace.set .word signaturesKey p.maximumSignatures

end Accounts
end Appchain
