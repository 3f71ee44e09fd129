import Appchain.Module.Channels
import Appchain.Module.Fees
import Appchain.Module.Mining
import Appchain.Module.Staking
import Appchain.Module.Trend

/-!
# Genesis documents

A document has a section for every module that keeps state. Accounts, mining and
trend have to be there, the other sections may be left out. A document with any
other section is refused.
-/

namespace Appchain

open Fields (field)
open Json

structure GenesisAccount where
  holder : Address
  coins : Coins
  deriving DecidableEq

def GenesisAccount.wire : Wire GenesisAccount :=
  (field "address" Address.wire ++ field "coins" Coins.wire).record
    (fun (holder, coins) => ⟨holder, coins⟩) fun a => (a.holder, a.coins)

/-- The packets that wait for one chain. -/
structure PacketQueue where
  chain : String
  packets : List Packet
  deriving DecidableEq

def PacketQueue.wire : Wire PacketQueue :=
  (field "chain_id" .text ++ field "packets" Packet.wire.list).record
    (fun (chain, packets) => ⟨chain, packets⟩) fun q => (q.chain, q.packets)

/-- The sequence of the next packet from one chain. -/
structure ChainSequence where
  chain : String
  sequence : UInt64
  deriving DecidableEq, Repr

def ChainSequence.wire : Wire ChainSequence :=
  (field "chain_id" .text ++ field "sequence" .word).record
    (fun (chain, sequence) => ⟨chain, sequence⟩) fun s => (s.chain, s.sequence)

structure ChannelState where
  queues : List PacketQueue
  sequences : List ChainSequence
  deriving DecidableEq

namespace ChannelState

def empty : ChannelState := ⟨[], []⟩

def wire : Wire ChannelState :=
  (field "egress" PacketQueue.wire.list (.defaulted []) ++
    field "ingress" ChainSequence.wire.list (.defaulted [])).record
    (fun (queues, sequences) => ⟨queues, sequences⟩) fun s => (s.queues, s.sequences)

end ChannelState

structure TrendState where
  trend : String
  deriving DecidableEq, Repr

def TrendState.wire : Wire TrendState :=
  (field "trend" .text).record (fun trend => ⟨trend⟩) TrendState.trend

structure StakingState where
  bonds : List Bond
  deriving DecidableEq

namespace StakingState

def empty : StakingState := ⟨[]⟩

def wire : Wire StakingState :=
  (field "bonds" Bond.wire.list (.defaulted [])).record (fun bonds => ⟨bonds⟩) StakingState.bonds

def validators (s : StakingState) : List Validator := s.bonds.map Bond.validator

end StakingState

/-- The parameters of the auth module and the fees that it has collected. -/
structure AuthState where
  parameters : AuthParameters
  collectedFees : Coins
  deriving DecidableEq

namespace AuthState

def initial : AuthState := ⟨.initial, .empty⟩

/-- The section inside `depth` containers. The parameters are members of the section itself. -/
def shape (depth : Nat) : Shape AuthState :=
  (Members.flatten depth AuthParameters.fields.members
    (.field "collected_fees" Coins.wire.json (.defaulted .empty))).iso
    (fun (parameters, fees) => (⟨parameters, fees⟩ : AuthState))
    (fun s => (s.parameters, s.collectedFees)) |>.shape

end AuthState

structure Genesis where
  accounts : List GenesisAccount
  mining : Mining.State
  trend : TrendState
  auth : AuthState
  channels : ChannelState
  staking : StakingState
  deriving DecidableEq

namespace Genesis

def shape : Shape Genesis :=
  (Members.field "accounts" GenesisAccount.wire.json.list ++
    Members.field "pow" Mining.State.wire.json ++
    Members.field "cool" TrendState.wire.json ++
    Members.field "auth" (AuthState.shape 1) (.defaulted .initial) ++
    Members.field "ibc" ChannelState.wire.json (.defaulted .empty) ++
    Members.field "staking" StakingState.wire.json (.defaulted .empty)).iso
    (fun (((((accounts, mining), trend), auth), channels), staking) =>
      (⟨accounts, mining, trend, auth, channels, staking⟩ : Genesis))
    (fun g => (((((g.accounts, g.mining), g.trend), g.auth), g.channels), g.staking))
    |>.strictShape

def decode (document : Bytes) : Except GenesisError Genesis :=
  (shape.decode document).mapError .malformed

/-- The document, indented. -/
def document (g : Genesis) : Bytes := (shape.write g).pretty 0

end Genesis
end Appchain
