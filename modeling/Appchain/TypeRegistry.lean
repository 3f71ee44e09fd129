import Appchain.Account
import Appchain.Message
import Appchain.Registration

/-!
# Type registries

A registry says which tags belong to which interface. A tag belongs to one
interface at most. Values are written and read under a registry: a value whose
tag is not registered under its interface is neither written nor read, whatever
its contents are. A sealed registry does not change any more.
-/

namespace Appchain

/-- A tagged value as JSON. The members of the value's objects ascend by name. -/
structure Envelope where
  tag : String
  value : Json

namespace Envelope

open Json in
def shape : Shape Envelope :=
  (Members.field "type" Shape.text ++ Members.field "value" (Shape.any 1)).iso
    (fun (tag, value) => (⟨tag, value⟩ : Envelope)) (fun e => (e.tag, e.value)) |>.shape

end Envelope

/-- A tagged value as bytes. -/
def taggedBytes : Layout (String × Bytes) := Layout.text ++ Layout.sized

structure TypeRegistry where
  /-- The tags of each interface. -/
  interfaces : OrderedMap String (OrderedMap String Unit)
  /-- The interface of each tag. -/
  owners : OrderedMap String String
  isSealed : Bool

namespace TypeRegistry

def empty : TypeRegistry := ⟨∅, ∅, false⟩

def registerInterface (name : String) : Registration TypeRegistry Unit := do
  let r ← get
  if r.isSealed then throw (.isSealed .typeRegistry)
  else if r.interfaces.contains name then throw (.duplicateInterface name)
  else set { r with interfaces := r.interfaces.insert name ∅ }

/-- Both tables are written to, the one after the other. -/
def registerTag (interface tag : String) : Registration TypeRegistry Unit := do
  let r ← get
  if r.isSealed then throw (.isSealed .typeRegistry)
  else if r.owners.contains tag then throw (.duplicateTypeTag tag)
  else
    match r.interfaces.get? interface with
    | none => throw (.unknownInterface interface)
    | some tags =>
      modify fun r => { r with interfaces := r.interfaces.insert interface (tags.insert tag ()) }
      modify fun r => { r with owners := r.owners.insert tag interface }

theorem registerInterface_answer (name : String) (r : TypeRegistry) :
    (registerInterface name).answer r =
      if r.isSealed then (.error (.isSealed .typeRegistry), r)
      else if r.interfaces.contains name then (.error (.duplicateInterface name), r)
      else (.ok (), { r with interfaces := r.interfaces.insert name ∅ }) := by
  change (if r.isSealed then _ else _ : Registration TypeRegistry Unit).answer r = _
  split
  · rfl
  · split <;> rfl

theorem registerTag_answer (interface tag : String) (r : TypeRegistry) :
    (registerTag interface tag).answer r =
      if r.isSealed then (.error (.isSealed .typeRegistry), r)
      else if r.owners.contains tag then (.error (.duplicateTypeTag tag), r)
      else
        match r.interfaces.get? interface with
        | none => (.error (.unknownInterface interface), r)
        | some tags =>
          (.ok (), { r with
            interfaces := r.interfaces.insert interface (tags.insert tag ())
            owners := r.owners.insert tag interface }) := by
  change (if r.isSealed then _ else _ : Registration TypeRegistry Unit).answer r = _
  split
  · rfl
  · split
    · rfl
    · cases r.interfaces.get? interface <;> rfl

def addInterface (r : TypeRegistry) (name : String) : Except ConfigError TypeRegistry :=
  (registerInterface name).granted r

def addTag (r : TypeRegistry) (interface tag : String) : Except ConfigError TypeRegistry :=
  (registerTag interface tag).granted r

def close (r : TypeRegistry) : TypeRegistry := { r with isSealed := true }

/-- The tags of an interface in ascending order. -/
def tags (r : TypeRegistry) (interface : String) : List String :=
  ((r.interfaces.get? interface).getD ∅).keys

def isRegistered (r : TypeRegistry) (interface tag : String) : Bool :=
  r.owners.get? tag = some interface

def ensure (r : TypeRegistry) (interface tag : String) : Except CodecError Unit :=
  if r.isRegistered interface tag then .ok () else .error (.unknownType interface tag)

section Tagged

variable {α : Type} [Tagged α]

/-- The value's encodings, if its tag is registered. -/
def body (r : TypeRegistry) (a : α) : Except CodecError Body :=
  if r.isRegistered (Tagged.interface α) (Tagged.tag a) then .ok (Tagged.body a)
  else .error (.unregistered (Tagged.tag a))

/-- The reader of the shape with this tag, if the tag is registered. -/
def reader (r : TypeRegistry) (tag : String) : Except CodecError (Reader α) := do
  r.ensure (Tagged.interface α) tag
  match Tagged.reader? tag with
  | some reader => .ok reader
  | none => .error (.unknownType (Tagged.interface α) tag)

def toEnvelope (r : TypeRegistry) (a : α) : Except CodecError Envelope := do
  let body ← r.body a
  return ⟨Tagged.tag a, body.json.sorted⟩

def ofEnvelope (r : TypeRegistry) (e : Envelope) : Except CodecError α := do
  let reader ← r.reader e.tag
  (reader.ofDoc e.value.toDoc).mapError .decode

def toBytes (r : TypeRegistry) (a : α) : Except CodecError Bytes := do
  let body ← r.body a
  return taggedBytes.write (Tagged.tag a, body.bytes)

def ofBytes (r : TypeRegistry) (b : Bytes) : Except CodecError α := do
  let (tag, payload) ← (taggedBytes.decode b).mapError .decode
  let reader ← r.reader tag
  (reader.ofBytes payload).mapError .decode

end Tagged

/-- The tags of the transactions, accounts and messages, with their interfaces. -/
def standardTags : List (String × String) := [
  ("auth/Account", "Account"), ("xpx-cosmos/Account", "Account"),
  ("cosmos-sdk/Send", "Msg"),
  ("cosmos-sdk/IBCTransferMsg", "Msg"), ("cosmos-sdk/IBCReceiveMsg", "Msg"),
  ("simplestaking/BondMsg", "Msg"), ("simplestaking/UnbondMsg", "Msg"),
  ("pow/Mine", "Msg"),
  ("cool/SetTrend", "Msg"), ("cool/Quiz", "Msg"),
  ("auth/StdTx", "Tx")]

/-- The registry of the application. -/
def standard : TypeRegistry where
  interfaces := .ofList (["Account", "Msg", "Tx"].map fun i =>
    (i, .ofList ((standardTags.filter fun e => e.2 = i).map fun e => (e.1, ()))))
  owners := .ofList standardTags
  isSealed := true

theorem isRegistered_standard :
    ∀ e ∈ standardTags, standard.isRegistered e.2 e.1 = true := by decide

theorem isRegistered_account (a : Account) :
    standard.isRegistered "Account" (Tagged.tag a) = true := by
  cases a <;> exact isRegistered_standard (_, _) (by simp [standardTags, Tagged.tag, Account.tag])

theorem isRegistered_message (m : Message) : standard.isRegistered "Msg" (Tagged.tag m) = true := by
  cases m <;> exact isRegistered_standard (_, _) (by simp [standardTags, Tagged.tag, Message.tag])

end TypeRegistry
end Appchain
