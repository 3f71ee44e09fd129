import Appchain.Context

/-!
# Parameters

Modules keep their parameters in one store, each below a name of its own. A
parameter is encoded as JSON. Setting one marks it in a transient store, so the
mark says whether it was set since the last commit.
-/

namespace Appchain

/-- The parameters of one module. -/
structure Subspace where
  name : String

namespace Subspace

variable {α : Type}

def root (s : Subspace) : Bytes := Bytes.ofString (s.name ++ "/")

/-- The part of a store that belongs to the subspace. -/
def partition (s : Subspace) (v : View) : Partition := ⟨s.root, v⟩

def get? (s : Subspace) (shape : Json.Shape α) (key : String) : Exec (Option α) := do
  match (s.partition (← Exec.view .parameters)).get (Bytes.ofString key) with
  | some text => some <$> Exec.decoded (shape.decode text)
  | none => return none

def set (s : Subspace) (shape : Json.Shape α) (key : String) (a : α) : Exec Unit := do
  let put (value : Bytes) (v : View) : View := ((s.partition v).set (Bytes.ofString key) value).view
  Exec.change .parameters (put (shape.encode a))
  Exec.change .changedParameters (put [])

def isChanged (s : Subspace) (key : String) : Exec Bool := do
  return (s.partition (← Exec.view .changedParameters)).has (Bytes.ofString key)

end Subspace
end Appchain
