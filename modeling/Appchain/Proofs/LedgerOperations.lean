import Appchain.Proofs.Ledger

/-!
# Operations on ledgers

What the modules do to the stores, as functions of the ledger. An operation
answers with the ledger that it leaves, or with the error that it reports.
-/

namespace Appchain.Ledger

/-- Stores an account under its address. -/
def put (l : Ledger) (a : Account) : Ledger := { l with accounts := l.accounts.insert a.address a }

/-- A new account with the next number, not yet stored. -/
def create (l : Ledger) (a : Address) : Account × Ledger :=
  ((Account.new a).withNumber (l.counter.getD 0), { l with counter := some (l.counter.getD 0 + 1) })

def getOrCreate (l : Ledger) (a : Address) : Account × Ledger :=
  match l.accounts.get? a with
  | some account => (account, l)
  | none => l.create a

/-- The account after it has paid. -/
def paying (l : Ledger) (a : Address) (amount : Coins) : Except TxError Account :=
  match l.accounts.get? a with
  | none => .error (.insufficientFunds a .empty amount)
  | some account =>
    match account.coins.sub? amount with
    | none => .error (.insufficientFunds a account.coins amount)
    | some rest => .ok (account.withCoins rest)

/-- The account after it has been paid, and what is left of its creation. -/
def receiving (l : Ledger) (a : Address) (amount : Coins) : Except TxError (Account × Ledger) :=
  match (l.getOrCreate a).1.coins.add? amount with
  | none => .error (.invalidCoins (.balanceOverflow a))
  | some total => .ok ((l.getOrCreate a).1.withCoins total, (l.getOrCreate a).2)

def debit (l : Ledger) (a : Address) (amount : Coins) : Except TxError Ledger :=
  (l.paying a amount).map l.put

def credit (l : Ledger) (a : Address) (amount : Coins) : Except TxError Ledger :=
  (l.receiving a amount).map fun r => r.2.put r.1

def send (l : Ledger) (source target : Address) (amount : Coins) : Except TxError Ledger := do
  let payer ← l.paying source amount
  if source = target then return l
  else
    let r ← l.receiving target amount
    return (r.2.put payer).put r.1

/-- The number of packets ever sent to a chain. -/
def length (l : Ledger) (chain : String) : UInt64 := (l.lengths.get? ⟨chain⟩).getD 0

/-- The sequence of the next packet from a chain. -/
def nextSequence (l : Ledger) (chain : String) : UInt64 := (l.sequences.get? ⟨chain⟩).getD 0

/-- Puts a packet at the end of its queue. -/
def post (l : Ledger) (p : Packet) : Ledger :=
  { l with
    packets := fun c i =>
      if c = p.destination ∧ i = l.length p.destination then some p else l.packets c i
    lengths := l.lengths.insert ⟨p.destination⟩ (l.length p.destination + 1) }

def setSequence (l : Ledger) (chain : String) (n : UInt64) : Ledger :=
  { l with sequences := l.sequences.insert ⟨chain⟩ n }

def transfer (l : Ledger) (m : Transfer) : Except TxError Ledger := do
  let l ← l.debit m.packet.sender m.packet.coins
  return l.post m.packet

def receive (l : Ledger) (m : Receive) : Except TxError Ledger :=
  if m.sequence ≠ l.nextSequence m.packet.source then
    .error (.invalidSequence (l.nextSequence m.packet.source) m.sequence)
  else do
    let n ← l.credit m.packet.recipient m.packet.coins
    return n.setSequence m.packet.source (l.nextSequence m.packet.source + 1)

def putBond (l : Ledger) (b : Bond) : Ledger := { l with bonds := l.bonds.insert b.holder b }

/-- The bond of an address, to which a first stake adds. -/
def bondOf (l : Ledger) (m : BondStake) : Bond :=
  (l.bonds.get? m.holder).getD ⟨m.holder, m.publicKey, 0⟩

def addStake (l : Ledger) (m : BondStake) : Except TxError Ledger :=
  match Word.add? (l.bondOf m).power m.stake.amount with
  | none => .error (.invalidCoins .powerOverflow)
  | some power => .ok (l.putBond { l.bondOf m with power })

def bond (l : Ledger) (m : BondStake) : Except TxError Ledger :=
  if m.stake.denom ≠ Staking.denom then
    .error (.invalidCoins (.notBondable Staking.denom m.stake.denom))
  else do
    let l ← l.debit m.holder (.single Staking.denom m.stake.amount)
    l.addStake m

def unbond (l : Ledger) (a : Address) : Except TxError Ledger :=
  match l.bonds.get? a with
  | none => .error (.invalidMessage (.noBond a))
  | some b => credit { l with bonds := l.bonds.erase a } a (.single Staking.denom b.power)

/-- A value that has to have been set. -/
def require (name : String) : Option UInt64 → Except TxError UInt64
  | some n => .ok n
  | none => .error (.internal (.missing name))

/-- The next work, if that is what is claimed. -/
def nextWork (l : Ledger) (claimed : Mining.State) : Except TxError Mining.State := do
  let difficulty ← require Mining.difficultyName l.difficulty
  let count ← require Mining.countName l.count
  if claimed.count ≠ Word.succ count then
    .error (.invalidMessage (.wrongCount (Word.succ count) claimed.count))
  else if claimed.difficulty ≠ Word.succ difficulty then
    .error (.invalidMessage (.wrongDifficulty (Word.succ difficulty) claimed.difficulty))
  else return ⟨Word.succ difficulty, Word.succ count⟩

def setWork (l : Ledger) (s : Mining.State) : Ledger :=
  { l with difficulty := some s.difficulty, count := some s.count }

/-- Pays one coin if it may be listed. -/
def reward (l : Ledger) (a : Address) (coin : Coin) : Except TxError Ledger := do
  let paid ← (Coins.ofList [coin]).mapError fun f => .invalidCoins (.notCoins f)
  l.credit a paid

def mine (l : Ledger) (m : Mine) : Except TxError Ledger := do
  let next ← l.nextWork ⟨m.difficulty, m.count⟩
  let l ← l.reward m.sender Mining.reward
  return l.setWork next

def setTrend (l : Ledger) (trend : String) : Ledger := { l with trend := some trend }

def quiz (l : Ledger) (mode : Mode) (m : Quiz) : Except TxError Ledger :=
  if l.trend.getD "" = m.answer then
    if mode = .check then .ok l else l.reward m.sender ⟨m.answer, Trend.reward⟩
  else .error (.invalidMessage .wrongAnswer)

/-- Carries out a message. -/
def apply (l : Ledger) (mode : Mode) : Message → Except TxError Ledger
  | .send m => l.send m.sender m.recipient m.amount
  | .transfer m => l.transfer m
  | .receive m => l.receive m
  | .bond m => l.bond m
  | .unbond m => l.unbond m.holder
  | .mine m => l.mine m
  | .setTrend m => .ok (l.setTrend m.trend)
  | .quiz m => l.quiz mode m

def account (l : Ledger) (a : Address) : Except TxError Account :=
  match l.accounts.get? a with
  | some account => .ok account
  | none => .error (.unknownAddress a)

def authorize (l : Ledger) (signer : Address) (s : Signature) : Except TxError Ledger := do
  let account ← l.account signer
  return l.put (← Admission.signed account signer s)

def addFee (l : Ledger) (fee : Coins) : Except TxError Ledger :=
  match (l.fees.getD .empty).add? fee with
  | some total => .ok { l with fees := some total }
  | none => .error (.invalidCoins .feesOverflow)

def charge (l : Ledger) (payer : Address) (fee : Coins) : Except TxError Ledger :=
  if fee.isEmpty then .ok l
  else do
    let account ← l.account payer
    match account.coins.sub? fee with
    | none => .error (.insufficientFunds payer account.coins fee)
    | some rest => (l.put (account.withCoins rest)).addFee fee

def parameters (l : Ledger) : AuthParameters :=
  ⟨l.memoLimit.getD AuthParameters.initial.maximumMemo,
    l.signatureLimit.getD AuthParameters.initial.maximumSignatures⟩

def screen (l : Ledger) (t : Transaction) : Except TxError Ledger := do
  Admission.checkLimits l.parameters t
  let l ← (t.signers.zip t.signatures).foldlM (fun l e => l.authorize e.1 e.2) l
  match t.signers.head? with
  | some payer => l.charge payer t.fee.amount
  | none => return l

/-- Carries out a transaction. -/
def execute (l : Ledger) (mode : Mode) (t : Transaction) : Except TxError Ledger := do
  t.check
  let l ← l.screen t
  t.messages.foldlM (fun l m => l.apply mode m) l

end Appchain.Ledger
