import Appchain.Packet
import Appchain.Tagged
import Appchain.Work

/-!
# Messages

A message asks one module for one action on behalf of its signer. `check` is
what can be said about a message without looking at any store; the first rule
that is broken is the one reported.
-/

namespace Appchain

open Fields (field)

/-- Moves coins from one account to another. -/
structure Send where
  sender : Address
  recipient : Address
  amount : Coins
  deriving DecidableEq

namespace Send

def wire : Wire Send :=
  (field "from_address" Address.wire ++ field "to_address" Address.wire ++
    field "amount" Coins.wire).record
    (fun ((sender, recipient), amount) => ⟨sender, recipient, amount⟩)
    fun m => ((m.sender, m.recipient), m.amount)

def check (m : Send) : Except TxError Unit :=
  if m.sender.isEmpty then .error (.invalidAddress (.empty "sender"))
  else if m.recipient.isEmpty then .error (.invalidAddress (.empty "recipient"))
  else if m.amount.isEmpty then .error (.invalidCoins .emptySend)
  else .ok ()

end Send

/-- Sends a packet to another chain. -/
structure Transfer where
  packet : Packet
  deriving DecidableEq

def Transfer.wire : Wire Transfer :=
  (field "packet" Packet.wire).record (fun packet => ⟨packet⟩) Transfer.packet

/-- Delivers a packet that another chain has sent. -/
structure Receive where
  packet : Packet
  relayer : Address
  sequence : UInt64
  deriving DecidableEq

namespace Receive

def wire : Wire Receive :=
  (field "packet" Packet.wire ++ field "relayer" Address.wire ++ field "sequence" .word).record
    (fun ((packet, relayer), sequence) => ⟨packet, relayer, sequence⟩)
    fun m => ((m.packet, m.relayer), m.sequence)

def check (m : Receive) : Except TxError Unit :=
  if m.relayer.isEmpty then .error (.invalidAddress (.empty "relayer")) else m.packet.check

end Receive

/-- Locks coins as voting power. -/
structure BondStake where
  holder : Address
  stake : Coin
  /-- In hexadecimal. -/
  publicKey : String
  deriving DecidableEq

namespace BondStake

def wire : Wire BondStake :=
  (field "address" Address.wire ++ field "stake" Coin.wire ++ field "pub_key" .text).record
    (fun ((holder, stake), publicKey) => ⟨holder, stake, publicKey⟩)
    fun m => ((m.holder, m.stake), m.publicKey)

def check (m : BondStake) : Except TxError Unit :=
  if m.holder.isEmpty then .error (.invalidAddress (.empty "bonder"))
  else if m.stake.amount = 0 then .error (.invalidCoins .emptyStake)
  else
    match Hex.decode m.publicKey with
    | .ok [] => .error (.invalidPublicKey .emptyValidatorKey)
    | .ok _ => .ok ()
    | .error f => .error (.invalidPublicKey (.notHex f))

end BondStake

/-- Releases the whole bond of an address. -/
structure Unbond where
  holder : Address
  deriving DecidableEq

namespace Unbond

def wire : Wire Unbond :=
  (field "address" Address.wire).record (fun holder => ⟨holder⟩) Unbond.holder

def check (m : Unbond) : Except TxError Unit :=
  if m.holder.isEmpty then .error (.invalidAddress (.empty "bonder")) else .ok ()

end Unbond

/-- Presents work for a reward. -/
structure Mine where
  sender : Address
  difficulty : UInt64
  count : UInt64
  nonce : UInt64
  proof : String
  deriving DecidableEq

namespace Mine

def wire : Wire Mine :=
  (field "sender" Address.wire ++ field "difficulty" .word ++ field "count" .word ++
    field "nonce" .word ++ field "proof" .text).record
    (fun ((((sender, difficulty), count), nonce), proof) =>
      ⟨sender, difficulty, count, nonce, proof⟩)
    fun m => ((((m.sender, m.difficulty), m.count), m.nonce), m.proof)

def check (m : Mine) : Except TxError Unit :=
  if m.sender.isEmpty then .error (.invalidAddress (.empty "miner"))
  else if m.difficulty = 0 then .error (.invalidMessage .zeroDifficulty)
  else if Work.proof m.sender m.count m.nonce ≠ m.proof then .error (.invalidMessage .foreignProof)
  else if !Work.meets m.sender m.difficulty m.count m.nonce then
    .error (.invalidMessage (.aboveTarget m.difficulty))
  else .ok ()

/-- Searches the least nonce. A difficulty of zero is taken as one. -/
def search? (sender : Address) (difficulty count : UInt64) : Option Mine :=
  let difficulty := max difficulty 1
  (Work.nonce? sender difficulty count).map fun nonce =>
    ⟨sender, difficulty, count, nonce, Work.proof sender count nonce⟩

end Mine

/-- Replaces the trend. -/
structure SetTrend where
  sender : Address
  trend : String
  deriving DecidableEq

namespace SetTrend

def wire : Wire SetTrend :=
  (field "sender" Address.wire ++ field "cool" .text).record
    (fun (sender, trend) => ⟨sender, trend⟩) fun m => (m.sender, m.trend)

def check (m : SetTrend) : Except TxError Unit :=
  if m.sender.isEmpty then .error (.invalidAddress (.empty "sender"))
  else if m.trend = "" then .error (.invalidMessage .emptyTrend)
  else .ok ()

end SetTrend

/-- Guesses the trend. -/
structure Quiz where
  sender : Address
  answer : String
  deriving DecidableEq

namespace Quiz

def wire : Wire Quiz :=
  (field "sender" Address.wire ++ field "cool_answer" .text).record
    (fun (sender, answer) => ⟨sender, answer⟩) fun m => (m.sender, m.answer)

def check (m : Quiz) : Except TxError Unit :=
  if m.sender.isEmpty then .error (.invalidAddress (.empty "sender"))
  else if m.answer = "" then .error (.invalidMessage .emptyAnswer)
  else .ok ()

end Quiz

inductive Message where
  | send (m : Send)
  | transfer (m : Transfer)
  | receive (m : Receive)
  | bond (m : BondStake)
  | unbond (m : Unbond)
  | mine (m : Mine)
  | setTrend (m : SetTrend)
  | quiz (m : Quiz)
  deriving DecidableEq

namespace Message

def tag : Message → String
  | send _ => "cosmos-sdk/Send"
  | transfer _ => "cosmos-sdk/IBCTransferMsg"
  | receive _ => "cosmos-sdk/IBCReceiveMsg"
  | bond _ => "simplestaking/BondMsg"
  | unbond _ => "simplestaking/UnbondMsg"
  | mine _ => "pow/Mine"
  | setTrend _ => "cool/SetTrend"
  | quiz _ => "cool/Quiz"

/-- The route of the module that handles the message. -/
def route : Message → String
  | send _ => "bank"
  | transfer _ | receive _ => "ibc"
  | bond _ | unbond _ => "simplestaking"
  | mine _ => "pow"
  | setTrend _ | quiz _ => "cool"

/-- Who has to sign a transaction with the message. -/
def signer : Message → Address
  | send m => m.sender
  | transfer m => m.packet.sender
  | receive m => m.relayer
  | bond m => m.holder
  | unbond m => m.holder
  | mine m => m.sender
  | setTrend m => m.sender
  | quiz m => m.sender

def check : Message → Except TxError Unit
  | send m => m.check
  | transfer m => m.packet.check
  | receive m => m.check
  | bond m => m.check
  | unbond m => m.check
  | mine m => m.check
  | setTrend m => m.check
  | quiz m => m.check

def body : Message → Body
  | send m => Send.wire.body m
  | transfer m => Transfer.wire.body m
  | receive m => Receive.wire.body m
  | bond m => BondStake.wire.body m
  | unbond m => Unbond.wire.body m
  | mine m => Mine.wire.body m
  | setTrend m => SetTrend.wire.body m
  | quiz m => Quiz.wire.body m

def reader? : String → Option (Reader Message)
  | "cosmos-sdk/Send" => some (Send.wire.reader send)
  | "cosmos-sdk/IBCTransferMsg" => some (Transfer.wire.reader transfer)
  | "cosmos-sdk/IBCReceiveMsg" => some (Receive.wire.reader receive)
  | "simplestaking/BondMsg" => some (BondStake.wire.reader bond)
  | "simplestaking/UnbondMsg" => some (Unbond.wire.reader unbond)
  | "pow/Mine" => some (Mine.wire.reader mine)
  | "cool/SetTrend" => some (SetTrend.wire.reader setTrend)
  | "cool/Quiz" => some (Quiz.wire.reader quiz)
  | _ => none

instance : Tagged Message := ⟨"Msg", tag, body, reader?⟩

end Message
end Appchain
