import Appchain.Context
import Appchain.Message
import Appchain.Module.Channels
import Appchain.Module.Mining
import Appchain.Module.Staking
import Appchain.Module.Trend

/-!
# The router

A message goes to the handler that is registered under its route. Route names
are made of ASCII letters and digits and name one handler each. A sealed router
does not change any more.
-/

namespace Appchain

/-- Carries out the messages of one module. -/
abbrev Handler := Message → Exec Unit

structure Router where
  handlers : OrderedMap String Handler
  isSealed : Bool

namespace Router

def empty : Router := ⟨∅, false⟩

def validName (name : String) : Bool := name ≠ "" && name.toList.all Char.isAlphanum

def has (r : Router) (name : String) : Bool := r.handlers.contains name

def register (name : String) (h : Handler) : Registration Router Unit := do
  let r ← get
  if r.isSealed then throw (.isSealed .router)
  else if !validName name then throw (.invalidRouteName name)
  else if r.has name then throw (.duplicateRoute name)
  else set { r with handlers := r.handlers.insert name h }

def add (r : Router) (name : String) (h : Handler) : Except ConfigError Router :=
  (register name h).granted r

theorem register_answer (name : String) (h : Handler) (r : Router) :
    (register name h).answer r =
      if r.isSealed then (.error (.isSealed .router), r)
      else if !validName name then (.error (.invalidRouteName name), r)
      else if r.has name then (.error (.duplicateRoute name), r)
      else (.ok (), { r with handlers := r.handlers.insert name h }) := by
  change (if r.isSealed then _ else _ : Registration Router Unit).answer r = _
  split
  · rfl
  · split
    · rfl
    · split <;> rfl

def close (r : Router) : Router := { r with isSealed := true }

/-- The route names in ascending order. -/
def names (r : Router) : List String := r.handlers.keys

def dispatch (r : Router) (route : String) (m : Message) : Exec Unit :=
  match r.handlers.get? route with
  | some handle => handle m
  | none => throw (.unknownRoute route)

/-- The routes of the application. -/
def standardRoutes : List (String × Handler) := [
  ("bank", Bank.handle), ("ibc", Channels.handle), ("simplestaking", Staking.handle),
  ("pow", Mining.handle), ("cool", Trend.handle)]

/-- The router of the application. -/
def standard : Router where
  handlers := .ofList standardRoutes
  isSealed := true

theorem has_route_standard (m : Message) : standard.has m.route = true := by
  have : ∀ name ∈ ["bank", "ibc", "simplestaking", "pow", "cool"], standard.has name = true := by
    decide
  cases m <;> exact this _ (by simp [Message.route])

end Router
end Appchain
