import Appchain.Wire.Values
import Appchain.Error

/-!
# Packets

A packet carries coins from an address on one chain to an address on another. A
chain id is a text that is not empty and has no slash, so ids can be put between
slashes in store keys.
-/

namespace Appchain

open Fields (field)

def isChainId (chain : String) : Bool := chain ≠ "" && !chain.toList.contains '/'

def checkChainId (chain : String) : Except TxError Unit :=
  if isChainId chain then .ok () else .error (.invalidMessage (.chainId chain))

structure Packet where
  sender : Address
  recipient : Address
  coins : Coins
  source : String
  destination : String
  deriving DecidableEq

namespace Packet

def wire : Wire Packet :=
  (field "src_addr" Address.wire ++ field "dest_addr" Address.wire ++ field "coins" Coins.wire ++
    field "src_chain" .text ++ field "dest_chain" .text).record
    (fun ((((sender, recipient), coins), source), destination) =>
      ⟨sender, recipient, coins, source, destination⟩)
    fun p => ((((p.sender, p.recipient), p.coins), p.source), p.destination)

def check (p : Packet) : Except TxError Unit := do
  checkChainId p.source
  checkChainId p.destination
  if p.source = p.destination then .error (.invalidMessage .sameChain)
  else if p.coins.isEmpty then .error (.invalidCoins .emptyPacket)
  else .ok ()

end Packet
end Appchain
