import Appchain.Genesis.Sections
import Appchain.Module.Admission
import Appchain.Router

/-!
# The application

An application runs transactions over a multistore, one block after another. A
transaction runs in a context of its own, whose writes are kept only if it is
admitted and every message of it succeeds. What is wrong with a transaction is
answered by a response; what is wrong with the stores stops the application.
-/

namespace Appchain

/-- The outcome of a transaction. Code zero stands for success. -/
structure Response where
  code : Nat
  log : String
  /-- Route and tag of every message that ran. -/
  events : List (String × String)
  deriving DecidableEq, Repr

namespace Response

def accepted (events : List (String × String)) : Response := ⟨0, "", events⟩

def rejected (e : TxError) : Response := ⟨e.code, e.message, []⟩

def isOk (r : Response) : Bool := r.code = 0

end Response

structure App where
  store : MultiStore
  /-- What a transaction has to pass before its messages run. -/
  screen : Transaction → Exec Unit
  phase : Phase
  chain : String
  /-- The header of the current block, if one has begun. -/
  header : Option Header

namespace App

def name : String := "XpxCosmos"

def version : String := "0.1.0"

/-- Mounts and opens the application's stores. A chain with a commit has had its genesis. -/
def assemble (store : MultiStore) (screen : Transaction → Exec Unit := Admission.screen) :
    Except AppError App := do
  let mounted ← (store.mount StoreKey.application).mapError .config
  match mounted.load .main with
  | (.error e, _) => .error (.store e)
  | (.ok last, store) =>
    return {
      store := store.close
      screen
      phase := if 0 < last.version then .ready else .uninitialized
      chain := ""
      header := none }

def lastCommit (a : App) : CommitInfo := a.store.lastCommit

/-- The header of the current block, or of the next one if none has begun. -/
def currentHeader (a : App) : Header := a.header.getD ⟨a.chain, a.lastCommit.version + 1⟩

def context (a : App) (mode : Mode) : Context := .new a.store a.currentHeader mode

def readingContext (a : App) : Context := a.context .query

/-- Gives up a document that is being loaded. -/
def abort (a : App) : App := { a with phase := .uninitialized }

/-- Loads a genesis document. It is given up if it is not acceptable, or if its writes cannot be
taken over. -/
def load (a : App) (chain : String) (document : Bytes) : Except AppError (List Validator) × App :=
  match (Genesis.take document).run.run (.new a.store ⟨chain, 0⟩ .initChain) with
  | (.error e, _) => (.error (.genesis e), a.abort)
  | (.ok g, context) =>
    match a.store.write context.writes with
    | .error e => (.error (.store e), a.abort)
    | .ok store => (.ok g.staking.validators, { a with store, phase := .ready, chain })

/-- Starts a chain with a genesis document, unless it has one. It is `initializing` meanwhile. -/
def attempt (a : App) (chain : String) (document : Bytes) : Except AppError (List Validator) × App :=
  if a.phase = .uninitialized then { a with phase := .initializing }.load chain document
  else (.error (.genesis (.wrongPhase .uninitialized a.phase)), a)

/-- The validators and what the application has become, if a genesis document is accepted. -/
def initChain (a : App) (chain : String) (document : Bytes) : Except AppError (List Validator × App) :=
  let (validators, b) := a.attempt chain document
  validators.map (·, b)

def beginBlock (a : App) (header : Header) : App := { a with chain := header.chain, header }

/-- Runs a transaction that has been decoded and returns the events of its messages. -/
def execute (a : App) (t : Transaction) : Exec (List (String × String)) := do
  Exec.lift t.check
  match t.messages.find? fun m => !Router.standard.has m.route with
  | some m => throw (.unknownRoute m.route)
  | none =>
    a.screen t
    t.messages.mapM fun m => do
      Router.standard.dispatch m.route m
      return (m.route, m.tag)

/-- Runs a transaction and returns its writes if it succeeds. -/
def run (a : App) (mode : Mode) (text : Bytes) : Except AppError (Response × Option Writes) :=
  if a.phase ≠ .ready then .error (.genesis (.wrongPhase .ready a.phase))
  else
    match Transaction.decode .standard text with
    | .error e => .ok (.rejected (.codec e), none)
    | .ok t =>
      match (a.execute t).run.run (a.context mode) with
      | (.ok events, context) => .ok (.accepted events, context.writes)
      | (.error (.store e), _) => .error (.store e)
      | (.error e, _) => .ok (.rejected e, none)

/-- Runs a transaction and drops its writes. -/
def check (a : App) (text : Bytes) : Except AppError Response := Prod.fst <$> a.run .check text

/-- Runs a transaction and keeps its writes if it succeeds. -/
def deliver (a : App) (text : Bytes) : Except AppError (Response × App) := do
  match ← a.run .deliver text with
  | (response, none) => return (response, a)
  | (response, some writes) =>
    let store ← (a.store.write writes).mapError .store
    return (response, { a with store })

def commit (a : App) : Except AppError (CommitInfo × App) := do
  let (commit, store) ← a.store.commit.mapError .store
  return (commit, { a with store, header := none })

/-- The genesis document of the current state, and the validators. -/
def exportState (a : App) : Except AppError (Bytes × List Validator) :=
  let snapshot : GenesisExec (Bytes × List Validator) := do
    let g ← Genesis.snapshot a.phase
    let validators ← GenesisExec.within StakingState.moduleName Staking.validators
    return (g.document, validators)
  (snapshot.run.run a.readingContext).1.mapError .genesis

end App
end Appchain
