import Appchain.Module.Fees
import Appchain.Module.Accounts
import Appchain.Transaction

/-!
# Admission of transactions

Before its messages run, a transaction has to keep to the limits, to carry a
signature of every signer in the signers' order, and to pay its fee, which the
first signer owes. A signature names the number and the sequence of the signer's
account, and its key has to be the one whose digest is the address. Signature
bytes must be there but are not verified.
-/

namespace Appchain.Admission

/-- Equal up to the case of ASCII letters. -/
def sameHex (s t : String) : Bool := s.map Char.toLower = t.map Char.toLower

/-- The account with the signer's key, which is recorded when it is the first one. -/
def withKey (account : Account) (signer : Address) (key : String) : Except TxError Account :=
  match Hex.decode key with
  | .error f => .error (.invalidPublicKey (.notHex f))
  | .ok bytes =>
    if Address.ofPublicKey bytes ≠ signer then .error (.invalidPublicKey (.foreign signer))
    else
      match account.publicKey with
      | none => .ok (account.withPublicKey (Hex.encode bytes))
      | some known =>
        if sameHex known key then .ok account else .error (.invalidPublicKey (.changed signer))

def checkSignature (signer : Address) (signature : String) : Except TxError Unit :=
  match Hex.decode signature with
  | .error f => .error (.unauthorized (.malformedSignature f))
  | .ok [] => .error (.unauthorized (.emptySignature signer))
  | .ok _ => .ok ()

/-- The account after its next transaction, if the signature is good for it. -/
def signed (account : Account) (signer : Address) (s : Signature) : Except TxError Account :=
  if s.accountNumber ≠ account.number then
    .error (.unauthorized (.accountNumber signer account.number s.accountNumber))
  else if s.sequence ≠ account.sequence then
    .error (.invalidSequence account.sequence s.sequence)
  else do
    let account ← withKey account signer s.publicKey
    checkSignature signer s.signature
    return account.withSequence (account.sequence + 1)

def account (a : Address) : Exec Account := do
  match ← Accounts.get? a with
  | some account => return account
  | none => throw (.unknownAddress a)

def authorize (signer : Address) (s : Signature) : Exec Unit := do
  Accounts.put (← Exec.lift (signed (← account signer) signer s))

/-- Moves a fee from the payer to the collected fees. -/
def charge (payer : Address) (fee : Coins) : Exec Unit := do
  if fee.isEmpty then return ()
  else
    let account ← account payer
    match account.coins.sub? fee with
    | none => throw (.insufficientFunds payer account.coins fee)
    | some rest =>
      Accounts.put (account.withCoins rest)
      let _ ← Fees.add fee

/-- The limits that a transaction has to keep, and one signature for each signer. -/
def checkLimits (p : AuthParameters) (t : Transaction) : Except TxError Unit :=
  if p.maximumMemo.toNat < t.memo.length then
    .error (.memoTooLarge p.maximumMemo t.memo.length)
  else if t.signatures.length ≠ t.signers.length then
    .error (.unauthorized (.signatureCount t.signers.length t.signatures.length))
  else if p.maximumSignatures.toNat < t.signatures.length then
    .error (.tooManySignatures p.maximumSignatures t.signatures.length)
  else .ok ()

def screen (t : Transaction) : Exec Unit := do
  Exec.lift (checkLimits (← Accounts.parameters) t)
  (t.signers.zip t.signatures).forM fun e => authorize e.1 e.2
  match t.signers.head? with
  | some payer => charge payer t.fee.amount
  | none => return ()

end Appchain.Admission
