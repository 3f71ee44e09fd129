import Appchain.Module.Bank

/-!
# Packets between chains

Packets to a chain queue up in the order in which they were sent, and their
number is kept beside them. Packets from a chain have to arrive in order: the
sequence of the next one is kept. Chain ids have no slash, so the keys of one
chain are never those of another.
-/

namespace Appchain.Channels

def queueKey (chain : String) (index : UInt64) : Bytes :=
  Bytes.ofString ("egress/" ++ chain ++ "/") ++ Bytes.ofUInt64BE index

def lengthRoot : String := "egress_len/"

def lengthKey (chain : String) : Bytes := Bytes.ofString (lengthRoot ++ chain)

def sequenceRoot : String := "ingress/"

def sequenceKey (chain : String) : Bytes := Bytes.ofString (sequenceRoot ++ chain)

def readWord (k : Bytes) : Exec UInt64 := return (← Exec.load .packets .word k).getD 0

/-- The number of packets ever sent to a chain. -/
def length (chain : String) : Exec UInt64 := readWord (lengthKey chain)

def packet? (chain : String) (index : UInt64) : Exec (Option Packet) :=
  Exec.load .packets Packet.wire.binary (queueKey chain index)

/-- The sequence of the next packet from a chain. -/
def nextSequence (chain : String) : Exec UInt64 := readWord (sequenceKey chain)

def setNextSequence (chain : String) (n : UInt64) : Exec Unit :=
  Exec.save .packets .word (sequenceKey chain) n

/-- Puts a packet at the end of its queue and returns its index. -/
def post (p : Packet) : Exec UInt64 := do
  let index ← length p.destination
  Exec.save .packets Packet.wire.binary (queueKey p.destination index) p
  Exec.save .packets .word (lengthKey p.destination) (index + 1)
  return index

/-- The chains that have an entry below a root, in key order. -/
def chains (root : String) : Exec (List String) := do
  let root := Bytes.ofString root
  (← Exec.scan .packets root).mapM fun e =>
    match Bytes.toString? (e.1.drop root.length) with
    | some chain => return chain
    | none => throw (.internal .corruptChainId)

/-- The next `n` packets of a queue from an index on; indices without a packet are passed over. -/
def packets (chain : String) : Nat → UInt64 → Exec (List Packet)
  | 0, _ => return []
  | n + 1, index => do
    let p ← packet? chain index
    return p.toList ++ (← packets chain n (index + 1))

def transfer (m : Transfer) : Exec Unit := do
  let _ ← Bank.subtract m.packet.sender m.packet.coins
  let _ ← post m.packet

def receive (m : Receive) : Exec Unit := do
  let next ← nextSequence m.packet.source
  if m.sequence ≠ next then throw (.invalidSequence next m.sequence)
  else
    let _ ← Bank.add m.packet.recipient m.packet.coins
    setNextSequence m.packet.source (next + 1)

def handle : Message → Exec Unit
  | .transfer m => transfer m
  | .receive m => receive m
  | m => throw (.unknownRequest "ibc" m.tag)

end Appchain.Channels
