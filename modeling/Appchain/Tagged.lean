import Appchain.Wire

/-!
# Tagged types

A type may have several shapes. Each shape has a tag, which is stored and sent
together with the value so that a reader knows which shape follows.
-/

namespace Appchain

/-- The encodings of one value, without its tag. -/
structure Body where
  json : Json
  bytes : Bytes

/-- How the values of one shape are read. -/
structure Reader (α : Type) where
  ofDoc : Json.Doc → Except Fault α
  ofBytes : Bytes → Except Fault α

namespace Wire

variable {α β : Type}

def body (w : Wire α) (a : α) : Body := ⟨w.json.write a, w.binary.write a⟩

def reader (w : Wire α) (shape : α → β) : Reader β :=
  ⟨fun d => (w.json.read d).map shape, fun b => (w.binary.decode b).map shape⟩

end Wire

/-- A type whose values have tagged shapes. -/
class Tagged (α : Type) where
  /-- The name under which the tags are registered. -/
  interface : String
  tag : α → String
  body : α → Body
  /-- The reader of the shape with this tag, if there is one. -/
  reader? : String → Option (Reader α)

end Appchain
