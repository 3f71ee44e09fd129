import Appchain.Json.Record
import Appchain.Layout

/-!
# Wire descriptions

Every type that is stored or sent is described once, as JSON and as bytes. A
record is the list of its fields; both descriptions follow from it.
-/

namespace Appchain

/-- A type's two encodings. -/
structure Wire (α : Type) where
  json : Json.Shape α
  binary : Layout α

/-- The encodings of some fields of a record. -/
structure Fields (α : Type) : Type 1 where
  members : Json.Members α
  layout : Layout α

/-- The two encodings of one value. -/
inductive Format where
  | json
  | binary
  deriving DecidableEq, Repr

namespace Wire

variable {α β : Type}

def word : Wire UInt64 := ⟨.word, .word⟩

def text : Wire String := ⟨.text, .text⟩

def list (w : Wire α) : Wire (List α) := ⟨w.json.list, w.binary.list⟩

def optional (w : Wire α) : Wire (Option α) := ⟨w.json.optional, w.binary.optional⟩

/-- A type that is another one under a condition. -/
def refine (w : Wire α) (view : β → α) (check : α → Except Fault β) : Wire β :=
  ⟨w.json.refine view check, w.binary.refine view check⟩

def encode (w : Wire α) : Format → α → Bytes
  | .json => w.json.encode
  | .binary => w.binary.write

def decode (w : Wire α) : Format → Bytes → Except Fault α
  | .json => w.json.decode
  | .binary => w.binary.decode

end Wire

namespace Fields

variable {α β : Type}

def field (name : String) (w : Wire α) (presence : Json.Presence α := .required) : Fields α :=
  ⟨.field name w.json presence, w.binary⟩

instance : HAppend (Fields α) (Fields β) (Fields (α × β)) :=
  ⟨fun f g => ⟨f.members ++ g.members, f.layout ++ g.layout⟩⟩

def iso (f : Fields α) (make : α → β) (view : β → α) : Fields β :=
  ⟨f.members.iso make view, f.layout.iso make view⟩

def wire (f : Fields α) : Wire α := ⟨f.members.shape, f.layout⟩

/-- The record that is made of the fields. -/
def record (f : Fields α) (make : α → β) (view : β → α) : Wire β := (f.iso make view).wire

end Fields
end Appchain
