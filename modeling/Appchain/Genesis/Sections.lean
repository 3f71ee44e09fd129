import Appchain.Genesis.Document

/-!
# Genesis sections and stores

Every section is loaded into the stores of its module and read back from them.
Loading checks what the types of a section leave open, entry by entry, and stops
at the first entry that is not acceptable.
-/

namespace Appchain

/-- Operations that load or read a genesis section. -/
abbrev GenesisExec := ExecWith GenesisError

namespace GenesisExec

variable {α : Type}

/-- An operation of a module, whose failure is laid to it. -/
def within (moduleName : String) (x : Exec α) : GenesisExec α := x.adapt (.failed moduleName)

def reject (moduleName : String) (fault : SectionFault) : GenesisExec α :=
  throw (.rejected moduleName fault)

end GenesisExec

open GenesisExec

namespace AuthParameters

def moduleName : String := "auth"

def load (p : AuthParameters) : GenesisExec Unit :=
  if p.maximumSignatures = 0 then reject moduleName .zeroSignatureLimit
  else within moduleName (Accounts.setParameters p)

def stored : GenesisExec AuthParameters := within moduleName Accounts.parameters

end AuthParameters

namespace Fees

def moduleName : String := "auth"

/-- No entry is made for no fees. -/
def load (fees : Coins) : GenesisExec Unit :=
  if fees.isEmpty then return () else within moduleName (set fees)

def stored : GenesisExec Coins := within moduleName collected

end Fees

namespace GenesisAccount

def moduleName : String := "accounts"

def loadOne (a : GenesisAccount) : Exec Unit := do
  Accounts.put ((← Accounts.create a.holder).withCoins a.coins)

/-- Loads the accounts with their numbers in the order of the list; `seen` are the holders so far. -/
def loadAll : List Address → List GenesisAccount → GenesisExec Unit
  | _, [] => return ()
  | seen, a :: rest => do
    if a.holder ∈ seen then reject moduleName (.duplicateAccount a.holder)
    else
      within moduleName a.loadOne
      loadAll (a.holder :: seen) rest

def ofAccount (a : Account) : GenesisAccount := ⟨a.address, a.coins⟩

def stored : GenesisExec (List GenesisAccount) :=
  return (← within moduleName Accounts.all).map ofAccount

end GenesisAccount

namespace Mining.State

def moduleName : String := "pow"

def load (s : State) : GenesisExec Unit :=
  if s.difficulty = 0 then reject moduleName .zeroDifficulty
  else within moduleName do
    setDifficulty s.difficulty
    setCount s.count

def stored : GenesisExec State := within moduleName do return ⟨← Mining.difficulty, ← Mining.count⟩

end Mining.State

namespace TrendState

def moduleName : String := "cool"

def load (s : TrendState) : GenesisExec Unit :=
  if s.trend = "" then reject moduleName .emptyTrend else within moduleName (Trend.set s.trend)

def stored : GenesisExec TrendState := return ⟨← within moduleName Trend.current⟩

end TrendState

namespace ChannelState

def moduleName : String := "ibc"

def requireChainId (chain : String) : GenesisExec Unit :=
  match checkChainId chain with
  | .ok () => return ()
  | .error e => reject moduleName (.chainId e)

def loadPacket (queue : String) (p : Packet) : GenesisExec Unit := do
  if p.destination ≠ queue then reject moduleName (.strayPacket p.destination queue)
  else
    let _ ← within moduleName (Channels.post p)

def loadQueues : List String → List PacketQueue → GenesisExec Unit
  | _, [] => return ()
  | seen, q :: rest => do
    requireChainId q.chain
    if q.chain ∈ seen then reject moduleName (.duplicateQueue q.chain)
    else
      q.packets.forM (loadPacket q.chain)
      loadQueues (q.chain :: seen) rest

def loadSequences : List String → List ChainSequence → GenesisExec Unit
  | _, [] => return ()
  | seen, s :: rest => do
    requireChainId s.chain
    if s.chain ∈ seen then reject moduleName (.duplicateSequence s.chain)
    else
      within moduleName (Channels.setNextSequence s.chain s.sequence)
      loadSequences (s.chain :: seen) rest

def load (s : ChannelState) : GenesisExec Unit := do
  loadQueues [] s.queues
  loadSequences [] s.sequences

def storedQueue (chain : String) : Exec PacketQueue := do
  let n ← Channels.length chain
  return ⟨chain, ← Channels.packets chain n.toNat 0⟩

def storedSequence (chain : String) : Exec ChainSequence :=
  return ⟨chain, ← Channels.nextSequence chain⟩

def stored : GenesisExec ChannelState := within moduleName do
  let queues ← (← Channels.chains Channels.lengthRoot).mapM storedQueue
  let sequences ← (← Channels.chains Channels.sequenceRoot).mapM storedSequence
  return ⟨queues, sequences⟩

end ChannelState

namespace StakingState

def moduleName : String := "staking"

def loadBond (b : Bond) : GenesisExec Unit := do
  if b.power = 0 then reject moduleName (.zeroPower b.holder)
  else if (← within moduleName (Staking.get? b.holder)).isSome then
    reject moduleName (.duplicateBond b.holder)
  else within moduleName (Staking.put b)

def load (s : StakingState) : GenesisExec Unit := s.bonds.forM loadBond

def stored : GenesisExec StakingState := return ⟨← within moduleName Staking.all⟩

end StakingState

namespace Genesis

/-- Loads the sections in the order in which later ones may build on earlier ones. -/
def load (g : Genesis) : GenesisExec Unit := do
  g.auth.parameters.load
  Fees.load g.auth.collectedFees
  GenesisAccount.loadAll [] g.accounts
  g.mining.load
  g.trend.load
  g.channels.load
  g.staking.load

def stored : GenesisExec Genesis := do
  let parameters ← AuthParameters.stored
  let fees ← Fees.stored
  let accounts ← GenesisAccount.stored
  let mining ← Mining.State.stored
  let trend ← TrendState.stored
  let channels ← ChannelState.stored
  let staking ← StakingState.stored
  return ⟨accounts, mining, trend, ⟨parameters, fees⟩, channels, staking⟩

/-- Decodes a document and loads all of it. -/
def take (document : Bytes) : GenesisExec Genesis := do
  match decode document with
  | .ok g =>
    g.load
    return g
  | .error e => throw e

/-- Loads a document into a chain that has none. -/
def start (phase : Phase) (document : Bytes) : GenesisExec Genesis :=
  if phase = .uninitialized then take document else throw (.wrongPhase .uninitialized phase)

/-- The document that the stores of a chain amount to. -/
def snapshot (phase : Phase) : GenesisExec Genesis :=
  if phase = .ready then stored else throw (.wrongPhase .ready phase)

end Genesis
end Appchain
