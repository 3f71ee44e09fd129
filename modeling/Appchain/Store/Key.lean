import Appchain.Registration

/-!
# Store keys

A store is named by its key. Keys are declared once, before the registry is
sealed, so no two modules share a store; one name is kept for the record of the
last commit. A persistent store survives commits and is hashed, a transient one
is emptied by every commit.
-/

namespace Appchain

inductive StoreKind where
  | persistent
  | transient
  deriving DecidableEq, Repr

def StoreKind.name : StoreKind → String
  | persistent => "Persistent"
  | transient => "Transient"

structure StoreKey where
  name : String
  kind : StoreKind
  deriving DecidableEq, Repr

namespace StoreKey

def isTransient (k : StoreKey) : Bool := k.kind = .transient

def describe (k : StoreKey) : String := "StoreKey(" ++ k.name ++ ", " ++ k.kind.name ++ ")"

end StoreKey

/-- The tree of the record of the last commit. -/
def metadataName : String := "__xpx_meta"

structure StoreRegistry where
  keys : List StoreKey
  isSealed : Bool

namespace StoreRegistry

def empty : StoreRegistry := ⟨[], false⟩

def insert (key : StoreKey) : Registration StoreRegistry Unit := do
  let r ← get
  if r.isSealed then throw (.isSealed .storeRegistry)
  else if key.name = metadataName ∨ r.keys.any (·.name = key.name) then
    throw (.duplicateStoreKey key.name)
  else set { r with keys := r.keys ++ [key] }

def declare (r : StoreRegistry) (key : StoreKey) : Except ConfigError StoreRegistry :=
  (insert key).granted r

def close (r : StoreRegistry) : StoreRegistry := { r with isSealed := true }

theorem insert_answer (key : StoreKey) (r : StoreRegistry) :
    (insert key).answer r =
      if r.isSealed then (.error (.isSealed .storeRegistry), r)
      else if key.name = metadataName ∨ r.keys.any (·.name = key.name) then
        (.error (.duplicateStoreKey key.name), r)
      else (.ok (), { r with keys := r.keys ++ [key] }) := by
  change (if r.isSealed then _ else _ : Registration StoreRegistry Unit).answer r = _
  split
  · rfl
  · split <;> rfl

end StoreRegistry

/-! The stores of the application, each owned by one module. -/

namespace StoreKey

def main : StoreKey := ⟨"main", .persistent⟩
def accounts : StoreKey := ⟨"acc", .persistent⟩
def work : StoreKey := ⟨"pow", .persistent⟩
def packets : StoreKey := ⟨"ibc", .persistent⟩
def bonds : StoreKey := ⟨"stake", .persistent⟩
def fees : StoreKey := ⟨"fee", .persistent⟩
def parameters : StoreKey := ⟨"params", .persistent⟩
def changedParameters : StoreKey := ⟨"transient_params", .transient⟩

/-- In mount order. -/
def application : List StoreKey :=
  [main, accounts, work, packets, bonds, fees, parameters, changedParameters]

end StoreKey
end Appchain
