import Appchain.CommandLine

/-!
# Command line arguments

Options stand anywhere among the arguments, as `--name value` or `--name=value`.
What is left over is the command.
-/

namespace Appchain.CommandLine

structure Arguments where
  options : List (String × String) := []
  metrics : Bool := false
  words : List String := []
  deriving DecidableEq, Repr

namespace Arguments

/-- The long names of the options that take a value. -/
def optionName? (argument : String) : Option String :=
  match argument with
  | "-g" => some "genesis"
  | "-t" => some "txs"
  | "-o" => some "output"
  | _ =>
    ["home", "chain-id", "log-format", "genesis", "txs", "output"].find? fun n => "--" ++ n = argument

/-- The two sides of an argument with an equals sign. -/
def splitEquals (argument : String) : Option (String × String) :=
  match argument.splitOn "=" with
  | name :: value :: rest => some (name, "=".intercalate (value :: rest))
  | _ => none

def read (a : Arguments) : List String → Option Arguments
  | [] => some a
  | "--print-metrics" :: rest => read { a with metrics := true } rest
  | argument :: rest =>
    match optionName? argument with
    | some name =>
      match rest with
      | value :: rest => read { a with options := a.options ++ [(name, value)] } rest
      | [] => none
    | none =>
      match (splitEquals argument).bind fun e => (optionName? e.1).map (·, e.2) with
      | some option => read { a with options := a.options ++ [option] } rest
      | none =>
        if argument.startsWith "-" then none
        else read { a with words := a.words ++ [argument] } rest

def option? (a : Arguments) (name : String) : Option String :=
  (a.options.find? fun e => e.1 = name).map Prod.snd

def command? (a : Arguments) : Option Command :=
  match a.words with
  | ["init"] => (a.option? "genesis").map .init
  | ["deliver"] => (a.option? "txs").map fun path => .deliver path a.metrics
  | ["export"] => some (.exportState (a.option? "output"))
  | ["version"] => some .version
  | _ => none

/-- What the arguments ask for, where `home` and `chain` are used unless they say otherwise. -/
def invocation? (home chain : String) (arguments : List String) : Option Invocation := do
  let a ← read {} arguments
  let command ← a.command?
  return ⟨(a.option? "home").getD home, (a.option? "chain-id").getD chain, command⟩

end Arguments

/-- The file that a command reads. -/
def Command.source? : Command → Option String
  | init genesis => some genesis
  | deliver transactions _ => some transactions
  | _ => none

def usage : String :=
  "Usage: xpxd [--home <HOME>] [--chain-id <CHAIN_ID>] [--log-format <LOG_FORMAT>] <COMMAND>\n\n" ++
  "Commands:\n" ++
  "  init --genesis <GENESIS>\n" ++
  "  deliver --txs <TXS> [--print-metrics]\n" ++
  "  export [--output <OUTPUT>]\n" ++
  "  version\n"

end Appchain.CommandLine
