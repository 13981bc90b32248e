/-!
# Cli/Grammar — flags, options and operands

Arguments are read from left to right: `--name` is a flag, `--name value` and `--name=value` an
option, `--` ends both, and all else is an operand.  What an argument can be wrong in by itself ends
the reading at once, and so does a call for help; **what only the whole line can be wrong in
(something missing, repeated or ill-formed) is left to the end.**
-/

namespace FpgaRouting.Cli

inductive UsageError
  | unexpected (argument : String)
  | missing (what : String)
  | repeated (what : String)
  | malformed (what value : String)
deriving DecidableEq, Repr

def UsageError.message : UsageError → String
  | unexpected argument => "unexpected argument '" ++ argument ++ "'"
  | missing what => what ++ " is missing"
  | repeated what => what ++ " is given more than once"
  | malformed what value => what ++ " can't be '" ++ value ++ "'"

/-- What a line asks for instead of a command. -/
inductive Detour
  | help
  | version
  | usage (error : UsageError)
deriving DecidableEq, Repr

/-- An argument by its form. -/
inductive Argument
  /-- `--`, after which all arguments are operands. -/
  | endOfOptions
  | long (name : String) (value : Option String)
  | short (letter : Char)
  | operand
deriving DecidableEq, Repr

def Argument.of (text : String) : Argument :=
  match text.toList with
  | ['-', '-'] => endOfOptions
  | '-' :: '-' :: cs =>
    let name := String.ofList (cs.takeWhile (· ≠ '='))
    match cs.dropWhile (· ≠ '=') with
    | [] => long name none
    | _ :: value => long name (some (String.ofList value))
  | '-' :: c :: _ => short c
  | _ => operand

/-- What may be given to a command. -/
structure Grammar where
  flags : List String := []
  /-- The flags that take a value. -/
  options : List String := []
  /-- How many operands there are at most. -/
  operands : Nat := 0
  subcommands : List String := []
  /-- Whether there is a version to ask for. -/
  versioned : Bool := false

/-- What was given, each in its order.  An option whose value is missing has none. -/
structure Given where
  flags : List String := []
  options : List (String × Option String) := []
  operands : List String := []
  /-- The subcommand with the arguments after it. -/
  subcommand : Option (String × List String) := none
deriving DecidableEq, Repr

namespace Grammar

def operand (g : Grammar) (given : Given) (text : String) : Except Detour Given :=
  if given.operands.length < g.operands then
    .ok { given with operands := given.operands ++ [text] }
  else .error (.usage (.unexpected text))

/-- A flag without a value. -/
def flag (g : Grammar) (given : Given) (name : String) : Except Detour Given :=
  if name = "help" then .error .help
  else if name = "version" ∧ g.versioned then .error .version
  else if name ∈ g.flags then .ok { given with flags := given.flags ++ [name] }
  else .error (.usage (.unexpected ("--" ++ name)))

def letter (g : Grammar) (c : Char) : Detour :=
  if c = 'h' then .help
  else if c = 'V' ∧ g.versioned then .version
  else .usage (.unexpected ("-" ++ c.toString))

def option (given : Given) (name : String) (value : Option String) : Given :=
  { given with options := given.options ++ [(name, value)] }

/-- Reads arguments.  **The name of a subcommand is never an operand.** -/
def read (g : Grammar) (given : Given) : List String → Except Detour Given
  | [] => .ok given
  | text :: rest =>
    if text ∈ g.subcommands then .ok { given with subcommand := some (text, rest) }
    else
      match Argument.of text with
      | .endOfOptions => rest.foldlM g.operand given
      | .short c => .error (g.letter c)
      | .operand => do g.read (← g.operand given text) rest
      | .long name value =>
        if name ∈ g.options then
          match value, rest with
          | some v, rest => g.read (option given name (some v)) rest
          | none, [] => .ok (option given name none)
          | none, next :: rest' =>
            if Argument.of next = .operand then
              g.read (option given name (some next)) rest'
            else g.read (option given name none) (next :: rest')
        else
          match value with
          | none => do g.read (← g.flag given name) rest
          | some _ => .error (.usage (.unexpected text))

end Grammar

namespace Given

/-- Whether a flag is given. -/
def flag (given : Given) (name : String) : Except Detour Bool :=
  match given.flags.filter (· = name) with
  | [] => .ok false
  | [_] => .ok true
  | _ => .error (.usage (.repeated ("--" ++ name)))

/-- The value of an option that may be left out. -/
def option? (given : Given) (name : String) : Except Detour (Option String) :=
  match given.options.filter (·.1 = name) with
  | [] => .ok none
  | [(_, some value)] => .ok (some value)
  | [(_, none)] => .error (.usage (.missing ("the value of --" ++ name)))
  | _ => .error (.usage (.repeated ("--" ++ name)))

end Given

end FpgaRouting.Cli
