import FpgaRouting.Cli.Grammar
import FpgaRouting.Connections.Basic
import FpgaRouting.Text.Numeral

/-!
# Cli/Invocation — what a command line asks for

    ARCH [--gz] build [--threads N] [--no-stamp] [--json FILE]
    ARCH [--gz] query X Y FROM TO TRACK

`Invocation.parse` reads the arguments.  Numbers are unsigned words, sides go by their names or
letters.
-/

namespace FpgaRouting.Cli

inductive Command
  | build (workers : Nat) (stamp : Bool) (json : Option String)
  | query (key : Key)
deriving DecidableEq, Repr

structure Invocation where
  architecture : String
  compressed : Bool
  command : Command
deriving DecidableEq, Repr

/-- The value that a text spells. -/
def value {α : Type} (what : String) (parse? : String → Option α) (text : String) :
    Except Detour α :=
  match parse? text with
  | some a => .ok a
  | none => .error (.usage (.malformed what text))

def word (what : String) : String → Except Detour Nat :=
  value what fun text => Text.word? text.toList

def side (what : String) : String → Except Detour Side := value what Side.ofText?

namespace Command

def ofBuildArguments (args : List String) : Except Detour Command := do
  let given ← Grammar.read { flags := ["no-stamp"], options := ["threads", "json"] } {} args
  let threads ← given.option? "threads"
  return build (← word "--threads" (threads.getD "1")) (!(← given.flag "no-stamp"))
    (← given.option? "json")

def ofQueryArguments (args : List String) : Except Detour Command := do
  let given ← Grammar.read { operands := 5 } {} args
  match given.operands with
  | [x, y, enter, leave, track] =>
    return query ⟨← word "X" x, ← word "Y" y, ← side "FROM" enter, ← side "TO" leave,
      ← word "TRACK" track⟩
  | _ => .error (.usage (.missing "an argument of query"))

end Command

namespace Invocation

def subcommands : List String := ["build", "query", "help"]

/-- Help is asked for by name, for the whole line or for a subcommand. -/
def help : List String → Detour
  | [] => .help
  | [name] => if name ∈ subcommands then .help else .usage (.unexpected name)
  | name :: next :: _ => .usage (.unexpected (if name ∈ subcommands then next else name))

def parse (args : List String) : Except Detour Invocation := do
  let given ← Grammar.read
    { flags := ["gz"], operands := 1, subcommands, versioned := true } {} args
  match given.subcommand with
  | none => .error (.usage (.missing "a subcommand"))
  | some ("help", names) => .error (help names)
  | some (name, rest) =>
    let command ←
      if name = "build" then Command.ofBuildArguments rest else Command.ofQueryArguments rest
    let compressed ← given.flag "gz"
    match given.operands with
    | [architecture] => return { architecture, compressed, command }
    | _ => .error (.usage (.missing "ARCH"))

/-- How the command line is used. -/
def usage (program : String) : String :=
  "FPGA switchblock connectivity generator\n\n"
    ++ "USAGE:\n"
    ++ "    " ++ program ++ " [OPTIONS] <ARCH> build [OPTIONS]\n"
    ++ "    " ++ program ++ " [OPTIONS] <ARCH> query <X> <Y> <FROM> <TO> <TRACK>\n\n"
    ++ "ARGS:\n"
    ++ "    <ARCH>     Architecture records (YAML or JSON)\n"
    ++ "    <X> <Y>    Tile coordinates\n"
    ++ "    <FROM>     Side the source track enters from: top, right, bottom, left\n"
    ++ "               (or t, r, b, l)\n"
    ++ "    <TO>       Side the connection leaves through\n"
    ++ "    <TRACK>    Source track index\n\n"
    ++ "OPTIONS:\n"
    ++ "        --gz         Architecture file is gzip-compressed\n"
    ++ "    -h, --help       Print help information\n"
    ++ "    -V, --version    Print version information\n\n"
    ++ "OPTIONS of build:\n"
    ++ "        --threads <THREADS>    Number of threads to be used for building the connection\n"
    ++ "                               map [default: 1]\n"
    ++ "        --no-stamp             Compute every tile instead of stamping the periodic ones\n"
    ++ "        --json <JSON>          Export the connection map to a JSON file\n"
    ++ "                               (.gz to compress)\n"

end Invocation

end FpgaRouting.Cli
