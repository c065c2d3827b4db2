import ResourceQuery.CommandLine.Arguments
import ResourceQuery.CommandLine.Manual
import ResourceQuery.Query.Json
import ResourceQuery.Query.Merge
import ResourceQuery.Query.Printer
import ResourceQuery.Query.Source

/-!
# The command line

The commands read queries and show them as text or JSON, or show a page of the manual. `run` maps
the arguments and the standard input to what the program writes and its exit code; nothing else is
read.
-/

namespace ResourceQuery.CommandLine

inductive CommandError where
  | query (error : QueryError)
  | invalidOffset (text : String)
  | unknownTopic (name : String)

def CommandError.message : CommandError → String
  | query error => s!"Query error: {error.message}"
  | invalidOffset text =>
    s!"Invalid offset: '{text}' (expected a value such as +02:00 or -05:30)"
  | unknownTopic name =>
    s!"Unknown category: '{name}'\nRun 'rql docs' to see available categories."

abbrev Outcome := Except CommandError

/-- How a command shows a query. -/
inductive Display where
  | verdict
  | text (style : Style)
  | json
  deriving DecidableEq, Repr

/-- What a command shows. -/
inductive Shown where
  | valid
  | text (content : String)
  | json (document : Json)

def Shown.print (pretty : Bool) : Shown → String
  | valid => "Query is valid"
  | text content => content
  | json document => if pretty then document.pretty else document.compact

def Display.show (display : Display) (query : Query) : Shown :=
  match display with
  | verdict => .valid
  | text style => .text (query.print style)
  | json => .json query.json

def readQuery (options : ReadOptions) (text : String) : Outcome Query :=
  (Query.read options text).mapError .query

def check (display : Display) (options : ReadOptions) (text : String) : Outcome Shown :=
  (readQuery options text).map display.show

def merge (display : Display) (options : ReadOptions) (left right : String) : Outcome Shown := do
  let a ← readQuery options left
  let b ← readQuery options right
  return display.show (← (a.merge b).mapError .query)

def readOffset (text : String) : Outcome UtcOffset :=
  match UtcOffset.read? text.toList with
  | some offset => .ok offset
  | none => .error (.invalidOffset text)

def topic (name : String) : Outcome Manual.Topic :=
  match Manual.Topic.ofName? name with
  | some topic => .ok topic
  | none => .error (.unknownTopic name)

namespace Arguments

def display (arguments : Arguments) : Display :=
  if arguments.flags.contains .json then .json
  else .text (if arguments.flags.contains .normalized then .normalized else .standard)

def readOptions (arguments : Arguments) : Outcome ReadOptions := do
  let localOffset ← arguments.offset.elim (.ok .utc) readOffset
  return {
    localOffset
    percentDecode := !arguments.flags.contains .noDecode
    consolidate := !arguments.flags.contains .noConsolidate }

def print (arguments : Arguments) (shown : Shown) : String :=
  shown.print (arguments.flags.contains .pretty) ++ "\n"

end Arguments

/-- What the program leaves behind when it ends. -/
structure Ending where
  code : UInt32
  output : String
  errors : String

def Ending.success (output : String) : Ending :=
  ⟨0, output, ""⟩

/-- The query is the operand, or else the standard input without the blanks at its end. -/
def queryText (arguments : Arguments) (input : String) : String :=
  arguments.operands.headD (String.ofList (Text.trimEnd input.toList))

def runCheck (display : Display) (arguments : Arguments) (input : String) : Outcome String := do
  let options ← arguments.readOptions
  return arguments.print (← check display options (queryText arguments input))

def runMerge (arguments : Arguments) : Outcome String := do
  let options ← arguments.readOptions
  match arguments.operands with
  | left :: right :: _ => return arguments.print (← merge arguments.display options left right)
  | _ => return ""

def runCommand (arguments : Arguments) (input : String) : Command → Outcome String
  | .parse => runCheck arguments.display arguments input
  | .check => runCheck .verdict arguments input
  | .merge => runMerge arguments
  | .docs => return Manual.overview
  | .doc => return Manual.text (← topic (arguments.operands.headD ""))

def versionText : String := "rql 0.1.0\n"

def run (arguments : List String) (input : String) : Ending :=
  match Request.ofArguments arguments with
  | .run command arguments =>
    match runCommand arguments input command with
    | .ok output => .success output
    | .error error => ⟨1, "", error.message ++ "\n"⟩
  | .help => .success Manual.usage
  | .version => .success versionText
  | .misuse => ⟨2, "", Manual.usage⟩

end ResourceQuery.CommandLine
