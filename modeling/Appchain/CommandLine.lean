import Appchain.App

/-!
# The command line

Every command opens the application over the database of its home directory,
does one thing and answers with a text. A command that fails leaves the database
as it was and says what it was doing and what that was caused by.
-/

namespace Appchain.CommandLine

inductive Command where
  | init (genesis : String)
  | deliver (transactions : String) (metrics : Bool)
  | exportState (output : Option String)
  | version
  deriving DecidableEq, Repr

structure Invocation where
  home : String
  chain : String
  command : Command
  deriving DecidableEq, Repr

def defaultChain : String := "xpx-chain"

/-- The home directory, in the user's own one. -/
def defaultHome : String := ".xpx-cosmos-d"

/-- What a command leaves. -/
structure Outcome where
  database : Database
  output : Bytes
  /-- A file to be written. -/
  file : Option (String × Bytes) := none

/-- What a command was doing, and what made it fail, outermost first. -/
structure Failure where
  doing : String
  causes : List String
  deriving DecidableEq, Repr

namespace Failure

def ofApp (doing : String) (e : AppError) : Failure := ⟨doing, e.chain⟩

/-- A text whose further lines stand under the first one. -/
def hang (first rest text : String) : String := first ++ ("\n" ++ rest).intercalate (text.splitOn "\n")

def padded (n : Nat) : String :=
  let digits := toString n
  String.ofList (List.replicate (5 - digits.length) ' ') ++ digits

/-- Several causes are numbered. -/
def listed : List String → String
  | [] => ""
  | [c] => "\n\nCaused by:\n" ++ hang "    " "    " c
  | cs =>
    let item (c : String) (i : Nat) : String := "\n" ++ hang (padded i ++ ": ") "       " c
    "\n\nCaused by:" ++ String.join (cs.zipIdx.map fun e => item e.1 e.2)

def message (f : Failure) : String := "Error: " ++ f.doing ++ listed f.causes ++ "\n"

end Failure

/-- The files that a command reads, or why they cannot be read. -/
abbrev Files := String → Except String Bytes

def application (d : Database) : Except Failure App :=
  (App.assemble (.ofDatabase d)).mapError (.ofApp "failed to assemble application")

def lines (ls : List String) : Bytes := Bytes.ofString (String.join (ls.map (· ++ "\n")))

/-- What is printed of a chain that has been initialized. -/
def initialReport (home chain : String) (commit : CommitInfo) : Bytes :=
  lines [
    "Chain initialized.",
    "  Home     : " ++ home,
    "  Chain id : " ++ chain,
    "  Version  : " ++ toString commit.version,
    "  App hash : " ++ commit.appHash.hex]

def initChain (files : Files) (d : Database) (home chain path : String) : Except Failure Outcome := do
  let document ← (files path).mapError fun e => ⟨"failed to read genesis document " ++ path, [e]⟩
  let app ← application d
  let (_, app) ← (app.initChain chain document).mapError (.ofApp ("genesis " ++ path ++ " rejected"))
  let (commit, app) ← app.commit.mapError (.ofApp "failed to commit genesis")
  return { database := app.store.database, output := initialReport home chain commit }

def isSpace (c : Char) : Bool :=
  let n := c.toNat
  (9 ≤ n && n ≤ 13) || n = 0x20 || n = 0x85 || n = 0xa0 || n = 0x1680 ||
    (0x2000 ≤ n && n ≤ 0x200a) || n = 0x2028 || n = 0x2029 || n = 0x202f || n = 0x205f || n = 0x3000

def trim (s : String) : String :=
  String.ofList (((s.toList.dropWhile isSpace).reverse.dropWhile isSpace).reverse)

def linesOf (text : String) : List String := (text.toList.splitOn '\n').map String.ofList

/-- The transactions of a text with their line numbers, blank lines left out. -/
def transactions (text : String) : List (Nat × Bytes) :=
  ((linesOf text).zipIdx 1).filterMap fun (l, i) =>
    let l := trim l
    if l = "" then none else some (i, Bytes.ofString l)

/-- How many transactions of a block were kept and how many were rejected. -/
structure Tally where
  delivered : Nat
  rejected : Nat
  deriving DecidableEq, Repr

/-- Counts one more transaction. -/
def Tally.count (t : Tally) (kept : Bool) : Tally :=
  if kept then { t with delivered := t.delivered + 1 } else { t with rejected := t.rejected + 1 }

def deliverOne (s : App × Tally) (t : Nat × Bytes) : Except Failure (App × Tally) := do
  let (response, app) ← (s.1.deliver t.2).mapError
    (.ofApp ("transaction on line " ++ toString t.1 ++ " halted the chain"))
  return (app, s.2.count response.isOk)

/-- One metric with its description. -/
def metric (name help kind : String) (value : Nat) : List String := [
  "# HELP xpx_" ++ name ++ " " ++ help,
  "# TYPE xpx_" ++ name ++ " " ++ kind,
  "xpx_" ++ name ++ " " ++ toString value]

/-- A gauge is a signed word, and stays at the greatest one. -/
def gauge (n : UInt64) : Nat := min n.toNat 0x7fffffffffffffff

def metrics (commit : CommitInfo) (tally : Tally) : List String :=
  metric "block_height" "Latest committed version" "gauge" (gauge commit.version) ++
  metric "blocks_committed_total" "Blocks committed" "counter" 1 ++
  metric "txs_delivered_total" "Transactions delivered and kept" "counter" tally.delivered ++
  metric "txs_rejected_total" "Transactions rejected with a non-zero code" "counter" tally.rejected

/-- What is printed of a block. -/
def report (commit : CommitInfo) (tally : Tally) (withMetrics : Bool) : Bytes :=
  let summary := "Block " ++ toString commit.version ++ " committed: " ++
    toString tally.delivered ++ " delivered, " ++ toString tally.rejected ++
    " rejected, app hash " ++ commit.appHash.hex
  lines (summary :: if withMetrics then metrics commit tally else [])

/-- Delivers the transactions as one block. -/
def block (app : App) (chain : String) (ts : List (Nat × Bytes)) :
    Except Failure (CommitInfo × Tally × App) := do
  let app := app.beginBlock ⟨chain, app.lastCommit.version + 1⟩
  let (app, tally) ← ts.foldlM deliverOne (app, ⟨0, 0⟩)
  let (commit, app) ← app.commit.mapError (.ofApp "failed to commit block")
  return (commit, tally, app)

def deliver (files : Files) (d : Database) (home chain path : String) (withMetrics : Bool) :
    Except Failure Outcome := do
  let unreadable (e : String) : Failure := ⟨"failed to read transactions from " ++ path, [e]⟩
  match Bytes.toString? (← (files path).mapError unreadable) with
  | none => throw (unreadable "stream did not contain valid UTF-8")
  | some text =>
    let app ← application d
    if app.phase ≠ .ready then
      throw ⟨"chain under " ++ home ++ " is not initialized; run \x60xpxd init\x60 first", []⟩
    else
      let (commit, tally, app) ← block app chain (transactions text)
      return { database := app.store.database, output := report commit tally withMetrics }

def exportState (d : Database) (output : Option String) : Except Failure Outcome := do
  let app ← application d
  let (document, _) ← app.exportState.mapError (.ofApp "failed to export state")
  match output with
  | some path => return { database := d, output := [], file := some (path, document) }
  | none => return { database := d, output := document ++ [10] }

def run (files : Files) (d : Database) (i : Invocation) : Except Failure Outcome :=
  match i.command with
  | .init genesis => initChain files d i.home i.chain genesis
  | .deliver transactions metrics => deliver files d i.home i.chain transactions metrics
  | .exportState output => exportState d output
  | .version =>
    .ok { database := d, output := lines ["xpxd " ++ App.version, "app  " ++ App.name] }

end Appchain.CommandLine
