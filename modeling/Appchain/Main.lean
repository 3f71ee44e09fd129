import Appchain.Arguments
import Appchain.Store.Disk

/-!
# The program

Reads the arguments, the file that the command needs and the database of the
home directory, runs the command, and writes what it leaves.
-/

namespace Appchain.CommandLine

def ioMessage : IO.Error → String
  | .noFileOrDirectory .. => "No such file or directory (os error 2)"
  | e => toString e

def readFile (path : String) : IO (Except String Bytes) := do
  try return .ok (← IO.FS.readBinFile path).data.toList
  catch e => return .error (ioMessage e)

def writeFile (path : String) (b : Bytes) : IO Unit := IO.FS.writeBinFile path ⟨b.toArray⟩

/-- The directory of the database. -/
def dataDirectory (home : String) : String := home ++ "/data"

def databasePath (home : String) : String := dataDirectory home ++ "/stores"

/-- The database of a home directory; without one it is empty. -/
def readDatabase (home : String) : IO (Except Failure Database) := do
  match ← readFile (databasePath home) with
  | .error _ => return .ok ∅
  | .ok b =>
    return (Database.layout.decode b).mapError fun f =>
      ⟨"failed to open database at " ++ dataDirectory home, [f.message]⟩

def writeOutcome (home : String) (o : Outcome) : IO (Except Failure Unit) := do
  IO.FS.createDirAll (dataDirectory home)
  writeFile (databasePath home) (Database.layout.write o.database)
  match o.file with
  | none => return .ok ()
  | some (path, b) =>
    try
      writeFile path b
      return .ok ()
    catch e => return .error ⟨"failed to write " ++ path, [ioMessage e]⟩

def perform (i : Invocation) : IO (Except Failure Unit) := do
  let source ← match i.command.source? with
    | some path => readFile path
    | none => pure (.ok [])
  match ← readDatabase i.home with
  | .error f => return .error f
  | .ok d =>
    match run (fun _ => source) d i with
    | .error f => return .error f
    | .ok o =>
      match ← (if i.command = .version then pure (.ok ()) else writeOutcome i.home o) with
      | .error f => return .error f
      | .ok () =>
        (← IO.getStdout).write ⟨o.output.toArray⟩
        return .ok ()

/-- The value of an environment variable, or another text. -/
def environment (name fallback : String) : IO String := return (← IO.getEnv name).getD fallback

end Appchain.CommandLine

open Appchain.CommandLine in
def main (arguments : List String) : IO UInt32 := do
  let user ← environment "HOME" ""
  let home ← environment "XPX_HOME" (user ++ "/" ++ defaultHome)
  let chain ← environment "XPX_CHAIN_ID" defaultChain
  match Arguments.invocation? home chain arguments with
  | none =>
    IO.eprint usage
    return 2
  | some i =>
    match ← perform i with
    | .ok () => return 0
    | .error f =>
      IO.eprint f.message
      return 1
