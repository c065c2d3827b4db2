/-!
# Command line arguments

The first argument that is no option names a command, and what follows it are the options and
operands of that command, in any order. Arguments are taken one after the other, and the first one
that is out of place, or asks for help or the version, settles the outcome.
-/

namespace ResourceQuery.CommandLine

inductive Command where
  | parse
  | check
  | merge
  | docs
  | doc
  deriving DecidableEq, Repr

/-- An option without a value, which may be given once. -/
inductive Flag where
  | normalized
  | json
  | pretty
  | noDecode
  | noConsolidate
  deriving DecidableEq, Repr

namespace Command

def names : List (String × Command) :=
  [("parse", parse), ("check", check), ("merge", merge), ("docs", docs), ("doc", doc)]

/-- The command works on queries and takes the options about them. -/
def takesQueries : Command → Bool
  | parse | check | merge => true
  | docs | doc => false

def fewestOperands : Command → Nat
  | parse | check | docs => 0
  | merge => 2
  | doc => 1

def mostOperands : Command → Nat
  | docs => 0
  | parse | check | doc => 1
  | merge => 2

end Command

namespace Flag

def ofName? (name : String) : Option Flag :=
  [("normalized", normalized), ("json", json), ("pretty", pretty), ("no-decode", noDecode),
    ("no-consolidate", noConsolidate)].lookup name

def ofLetter? (letter : Char) : Option Flag :=
  [('n', normalized), ('j', json), ('p', pretty)].lookup letter

end Flag

/-- What was given to a command. -/
structure Arguments where
  flags : List Flag
  offset : Option String
  operands : List String

/-- What the arguments ask for. -/
inductive Request where
  | run (command : Command) (arguments : Arguments)
  | help
  | version
  | misuse

/-- A reading that ends early, with the request that settles it. -/
abbrev Reading := Except Request

/-- The form of an argument. -/
inductive Form where
  | long (name : String) (value : Option String)
  | short (letters : List Char)
  | operand

/-- A name of two hyphens may carry a value behind `=`; a single hyphen alone is an operand. -/
def Form.of (argument : String) : Form :=
  match argument.toList with
  | '-' :: '-' :: text =>
    let name := String.ofList (text.takeWhile (· != '='))
    match text.dropWhile (· != '=') with
    | [] => .long name none
    | _ :: value => .long name (some (String.ofList value))
  | '-' :: c :: letters => .short (c :: letters)
  | _ => .operand

namespace Arguments

def none : Arguments := ⟨[], Option.none, []⟩

def addFlag (arguments : Arguments) (flag : Flag) : Reading Arguments :=
  if arguments.flags.contains flag then throw .misuse
  else return { arguments with flags := arguments.flags ++ [flag] }

def addOffset (arguments : Arguments) (offset : String) : Reading Arguments :=
  if arguments.offset.isSome then throw .misuse
  else return { arguments with offset := some offset }

def addOperand (command : Command) (arguments : Arguments) (operand : String) :
    Reading Arguments :=
  if arguments.operands.length < command.mostOperands then
    return { arguments with operands := arguments.operands ++ [operand] }
  else throw .misuse

/-- A flag that the command does not take is refused. -/
def addAllowed (command : Command) (arguments : Arguments) (flag : Option Flag) :
    Reading Arguments :=
  match flag with
  | some flag => if command.takesQueries then arguments.addFlag flag else throw .misuse
  | Option.none => throw .misuse

def addLetter (command : Command) (arguments : Arguments) (letter : Char) : Reading Arguments :=
  if letter = 'h' then throw .help
  else if letter = 'v' then return arguments
  else arguments.addAllowed command (Flag.ofLetter? letter)

def addName (command : Command) (arguments : Arguments) (name : String) : Reading Arguments :=
  if name = "help" then throw .help
  else if name = "verbose" then return arguments
  else arguments.addAllowed command (Flag.ofName? name)

/-- The argument behind `--offset`, which has to be its value. -/
def addAwaited (arguments : Arguments) (argument : String) : Reading Arguments :=
  match Form.of argument with
  | .operand => arguments.addOffset argument
  | _ => throw .misuse

/-- Reads the arguments of a command. The value of `--offset` may be an argument of its own, which
is then awaited, and behind `--` every argument is an operand. -/
def read (command : Command) (awaitsOffset : Bool) (arguments : Arguments) :
    List String → Reading Arguments
  | [] => if awaitsOffset then throw .misuse else return arguments
  | argument :: rest => do
    if awaitsOffset then read command false (← arguments.addAwaited argument) rest
    else if argument = "--" then rest.foldlM (addOperand command) arguments
    else
      match Form.of argument with
      | .operand => read command false (← arguments.addOperand command argument) rest
      | .short letters => read command false (← letters.foldlM (addLetter command) arguments) rest
      | .long name value =>
        if name = "offset" && command.takesQueries then
          match value with
          | some value => read command false (← arguments.addOffset value) rest
          | Option.none => read command true arguments rest
        else if value.isSome then throw .misuse
        else read command false (← arguments.addName command name) rest

end Arguments

namespace Request

/-- An option in front of the command. -/
def globalLetter (letter : Char) : Reading Unit :=
  if letter = 'h' then throw .help
  else if letter = 'V' then throw .version
  else if letter = 'v' then return ()
  else throw .misuse

def globalName (name : String) : Reading Unit :=
  if name = "help" then throw .help
  else if name = "version" then throw .version
  else if name = "verbose" then return ()
  else throw .misuse

/-- Help is about the program, about a command, or about help itself. -/
def ofHelp : List String → Request
  | [] => .help
  | [topic] => if topic = "help" || (Command.names.lookup topic).isSome then .help else .misuse
  | _ => .misuse

def ofCommand (command : Command) (rest : List String) : Reading Request := do
  let arguments ← Arguments.none.read command false rest
  if arguments.operands.length < command.fewestOperands then return .misuse
  else return .run command arguments

def read : List String → Reading Request
  | [] => return .misuse
  | argument :: rest =>
    match Form.of argument with
    | .short letters => do
      letters.forM globalLetter
      read rest
    | .long name Option.none => do
      globalName name
      read rest
    | .long _ (some _) => return .misuse
    | .operand =>
      if argument = "help" then return ofHelp rest
      else
        match Command.names.lookup argument with
        | some command => ofCommand command rest
        | Option.none => return .misuse

def ofArguments (arguments : List String) : Request :=
  match read arguments with
  | .ok request | .error request => request

end Request

end ResourceQuery.CommandLine
