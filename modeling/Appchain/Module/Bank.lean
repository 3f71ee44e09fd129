import Appchain.Module.Accounts

/-!
# Moving coins

A balance is the coin set of an account. A transfer works out both accounts
before it stores either, so one that fails leaves every balance as it was.
-/

namespace Appchain.Bank

/-- Whether an address holds at least the given coins. -/
def has (a : Address) (amount : Coins) : Exec Bool := return (← Accounts.coins a).covers amount

/-- The account after it has paid, not yet stored. -/
def afterPaying (a : Address) (amount : Coins) : Exec Account := do
  match ← Accounts.get? a with
  | none => throw (.insufficientFunds a .empty amount)
  | some account =>
    match account.coins.sub? amount with
    | none => throw (.insufficientFunds a account.coins amount)
    | some rest => return account.withCoins rest

/-- The account after it has been paid, not yet stored. -/
def afterReceiving (a : Address) (amount : Coins) : Exec Account := do
  let account ← Accounts.getOrCreate a
  match account.coins.add? amount with
  | none => throw (.invalidCoins (.balanceOverflow a))
  | some total => return account.withCoins total

/-- Takes coins and returns the new balance. -/
def subtract (a : Address) (amount : Coins) : Exec Coins := do
  let account ← afterPaying a amount
  Accounts.put account
  return account.coins

/-- Gives coins, to a new account if need be, and returns the new balance. -/
def add (a : Address) (amount : Coins) : Exec Coins := do
  let account ← afterReceiving a amount
  Accounts.put account
  return account.coins

/-- Moves coins. Sending to oneself only has to be affordable. -/
def send (source target : Address) (amount : Coins) : Exec Unit := do
  let sender ← afterPaying source amount
  if source = target then return ()
  else
    let recipient ← afterReceiving target amount
    Accounts.put sender
    Accounts.put recipient

def handle : Message → Exec Unit
  | .send m => send m.sender m.recipient m.amount
  | m => throw (.unknownRequest "bank" m.tag)

end Appchain.Bank
