import Appchain.Proofs.LedgerOperations

/-!
# Ledgers and genesis documents

`ofGenesis` is the ledger that a document starts a chain with, if every section
of it is acceptable, and `genesis` is the document that a ledger amounts to.
-/

namespace Appchain.Ledger

/-- A section that is not acceptable. -/
def reject (moduleName : String) (fault : SectionFault) : Except GenesisError Ledger :=
  .error (.rejected moduleName fault)

def loadParameters (l : Ledger) (p : AuthParameters) : Except GenesisError Ledger :=
  if p.maximumSignatures = 0 then reject AuthParameters.moduleName .zeroSignatureLimit
  else .ok { l with memoLimit := some p.maximumMemo, signatureLimit := some p.maximumSignatures }

def loadFees (l : Ledger) (fees : Coins) : Ledger :=
  if fees.isEmpty then l else { l with fees := some fees }

/-- Adds an account with the next number. -/
def enroll (l : Ledger) (a : GenesisAccount) : Ledger :=
  (l.create a.holder).2.put ((l.create a.holder).1.withCoins a.coins)

def loadAccounts (l : Ledger) : List Address → List GenesisAccount → Except GenesisError Ledger
  | _, [] => .ok l
  | seen, a :: rest =>
    if a.holder ∈ seen then reject GenesisAccount.moduleName (.duplicateAccount a.holder)
    else (l.enroll a).loadAccounts (a.holder :: seen) rest

def loadWork (l : Ledger) (s : Mining.State) : Except GenesisError Ledger :=
  if s.difficulty = 0 then reject Mining.State.moduleName .zeroDifficulty else .ok (l.setWork s)

def loadTrend (l : Ledger) (s : TrendState) : Except GenesisError Ledger :=
  if s.trend = "" then reject TrendState.moduleName .emptyTrend else .ok (l.setTrend s.trend)

def checkChain (chain : String) : Except GenesisError Unit :=
  (checkChainId chain).mapError fun e => .rejected ChannelState.moduleName (.chainId e)

def loadPacket (chain : String) (l : Ledger) (p : Packet) : Except GenesisError Ledger :=
  if p.destination ≠ chain then reject ChannelState.moduleName (.strayPacket p.destination chain)
  else .ok (l.post p)

def loadQueues (l : Ledger) : List String → List PacketQueue → Except GenesisError Ledger
  | _, [] => .ok l
  | seen, q :: rest => do
    checkChain q.chain
    if q.chain ∈ seen then reject ChannelState.moduleName (.duplicateQueue q.chain)
    else
      let l ← q.packets.foldlM (loadPacket q.chain) l
      l.loadQueues (q.chain :: seen) rest

def loadSequences (l : Ledger) : List String → List ChainSequence → Except GenesisError Ledger
  | _, [] => .ok l
  | seen, c :: rest => do
    checkChain c.chain
    if c.chain ∈ seen then reject ChannelState.moduleName (.duplicateSequence c.chain)
    else (l.setSequence c.chain c.sequence).loadSequences (c.chain :: seen) rest

def loadBond (l : Ledger) (b : Bond) : Except GenesisError Ledger :=
  if b.power = 0 then reject StakingState.moduleName (.zeroPower b.holder)
  else if (l.bonds.get? b.holder).isSome then
    reject StakingState.moduleName (.duplicateBond b.holder)
  else .ok (l.putBond b)

/-- The ledger that a genesis document starts with. -/
def ofGenesis (g : Genesis) : Except GenesisError Ledger := do
  let l ← Ledger.empty.loadParameters g.auth.parameters
  let l ← (l.loadFees g.auth.collectedFees).loadAccounts [] g.accounts
  let l ← l.loadWork g.mining
  let l ← l.loadTrend g.trend
  let l ← l.loadQueues [] g.channels.queues
  let l ← l.loadSequences [] g.channels.sequences
  g.staking.bonds.foldlM loadBond l

/-- The next `n` packets of a queue from an index on. -/
def packetsFrom (l : Ledger) (chain : String) : Nat → UInt64 → List Packet
  | 0, _ => []
  | n + 1, i => (l.packets chain i).toList ++ l.packetsFrom chain n (i + 1)

def queue (l : Ledger) (chain : String) : PacketQueue :=
  ⟨chain, l.packetsFrom chain (l.length chain).toNat 0⟩

def channels (l : Ledger) : ChannelState where
  queues := l.lengths.entries.map fun e => l.queue e.1.text
  sequences := l.sequences.entries.map fun e => ⟨e.1.text, e.2⟩

def work (l : Ledger) : Except TxError Mining.State := do
  let difficulty ← require Mining.difficultyName l.difficulty
  let count ← require Mining.countName l.count
  return ⟨difficulty, count⟩

/-- The genesis document that the ledger amounts to. -/
def genesis (l : Ledger) : Except GenesisError Genesis := do
  let mining ← l.work.mapError (.failed Mining.State.moduleName)
  return {
    accounts := l.accounts.entries.map fun e => .ofAccount e.2
    mining
    trend := ⟨l.trend.getD ""⟩
    auth := ⟨l.parameters, l.fees.getD .empty⟩
    channels := l.channels
    staking := ⟨l.bonds.entries.map Prod.snd⟩ }

end Appchain.Ledger
