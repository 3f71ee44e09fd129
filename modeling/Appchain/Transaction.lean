import Appchain.TypeRegistry

/-!
# Transactions

A transaction is a list of messages with a fee, the signatures of the messages'
signers, and a memo. On the wire it is an envelope, and so is each message in
it. The tags of both are looked up before the values they belong to are read.
-/

namespace Appchain

open Fields (field)
open Json

structure Fee where
  amount : Coins
  gas : UInt64
  deriving DecidableEq

namespace Fee

def zero : Fee := ⟨.empty, 0⟩

def wire : Wire Fee :=
  (field "amount" Coins.wire ++ field "gas" .word (.defaulted 0)).record
    (fun (amount, gas) => ⟨amount, gas⟩) fun f => (f.amount, f.gas)

end Fee

/-- Key and signature are in hexadecimal. -/
structure Signature where
  publicKey : String
  signature : String
  accountNumber : UInt64
  sequence : UInt64
  deriving DecidableEq

def Signature.wire : Wire Signature :=
  (field "pub_key" .text ++ field "signature" .text ++ field "account_number" .word ++
    field "sequence" .word).record
    (fun (((publicKey, signature), accountNumber), sequence) =>
      ⟨publicKey, signature, accountNumber, sequence⟩)
    fun s => (((s.publicKey, s.signature), s.accountNumber), s.sequence)

/-- A transaction whose messages are of type `μ`. -/
structure TransactionOf (μ : Type) where
  messages : List μ
  fee : Fee
  signatures : List Signature
  memo : String
  deriving DecidableEq

abbrev Transaction := TransactionOf Message

namespace TransactionOf

variable {μ ν : Type}

def withMessages (t : TransactionOf μ) (messages : List ν) : TransactionOf ν :=
  { messages, fee := t.fee, signatures := t.signatures, memo := t.memo }

/-- Fee, signatures and memo may be left out. -/
def shape (s : Shape μ) : Shape (TransactionOf μ) :=
  (Members.field "msgs" s.list ++ Members.field "fee" Fee.wire.json (.defaulted .zero) ++
    Members.field "signatures" Signature.wire.json.list (.defaulted []) ++
    Members.field "memo" Shape.text (.defaulted "")).iso
    (fun (((messages, fee), signatures), memo) => (⟨messages, fee, signatures, memo⟩ : TransactionOf μ))
    (fun t => (((t.messages, t.fee), t.signatures), t.memo)) |>.shape

end TransactionOf

namespace Transaction

def interface : String := "Tx"

def tag : String := "auth/StdTx"

/-- Who has to sign, each once, in the order of first appearance. -/
def signers (t : Transaction) : List Address :=
  t.messages.foldl (fun seen m => if m.signer ∈ seen then seen else seen ++ [m.signer]) []

def check (t : Transaction) : Except TxError Unit :=
  if t.messages.isEmpty then .error (.invalidMessage .noMessages)
  else t.messages.forM Message.check

/-- Reads the messages out of their envelopes. -/
def unpack (r : TypeRegistry) (t : TransactionOf Envelope) : Except CodecError Transaction := do
  return t.withMessages (← t.messages.mapM r.ofEnvelope)

/-- Puts the messages into their envelopes. -/
def pack (r : TypeRegistry) (t : Transaction) : Except CodecError (TransactionOf Envelope) := do
  return t.withMessages (← t.messages.mapM r.toEnvelope)

def decode (r : TypeRegistry) (text : Bytes) : Except CodecError Transaction := do
  let e ← (Envelope.shape.decode text).mapError .decode
  r.ensure interface e.tag
  if e.tag = tag then
    let t ← ((TransactionOf.shape Envelope.shape).read e.value.toDoc).mapError .decode
    unpack r t
  else .error (.unknownType interface e.tag)

def encode (r : TypeRegistry) (t : Transaction) : Except CodecError Bytes := do
  let t ← pack r t
  r.ensure interface tag
  let value := (TransactionOf.shape Envelope.shape).write t
  return Envelope.shape.encode ⟨tag, value.sorted⟩

end Transaction
end Appchain
