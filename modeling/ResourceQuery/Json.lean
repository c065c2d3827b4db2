import ResourceQuery.Text.Digits

/-!
# JSON

A JSON document and its text, on one line or indented by two spaces. The members of an object are
written in the order of their names. Only control characters, quotes and backslashes are escaped.
-/

namespace ResourceQuery

inductive Json where
  | null
  | bool (value : Bool)
  /-- A number by its text. -/
  | number (text : String)
  | string (text : String)
  | array (items : List Json)
  | object (members : List (String × Json))

namespace Json

def shortEscape? : Char → Option Char
  | '"' => some '"'
  | '\\' => some '\\'
  | '\x08' => some 'b'
  | '\x0c' => some 'f'
  | '\n' => some 'n'
  | '\r' => some 'r'
  | '\t' => some 't'
  | _ => none

def escape (c : Char) : List Char :=
  match shortEscape? c with
  | some letter => ['\\', letter]
  | none => if c.toNat < 0x20 then '\\' :: 'u' :: Text.hexadecimal 4 c.toNat else [c]

def quote (text : String) : String :=
  String.ofList ('"' :: text.toList.flatMap escape ++ ['"'])

/-- Inserts a member so that names stay in order. -/
def insert (name : String) (text : String) : List (String × String) → List (String × String)
  | [] => [(name, text)]
  | (other, held) :: rest =>
    if name < other then (name, text) :: (other, held) :: rest
    else (other, held) :: insert name text rest

/-- How the items of an array or an object are set out. -/
inductive Layout where
  | compact
  | indented (depth : Nat)

namespace Layout

/-- The layout of what is inside. -/
def inner : Layout → Layout
  | compact => compact
  | indented depth => indented (depth + 1)

def newline : Layout → String
  | compact => ""
  | indented depth => "\n" ++ String.ofList (List.replicate (2 * depth) ' ')

def colon : Layout → String
  | compact => ":"
  | indented _ => ": "

/-- Items between brackets; an empty list stays on one line. -/
def enclose (layout : Layout) (opening closing : String) (items : List String) : String :=
  if items.isEmpty then opening ++ closing
  else
    let lead := layout.inner.newline
    opening ++ lead ++ ("," ++ lead).intercalate items ++ layout.newline ++ closing

end Layout

mutual

def printIn (layout : Layout) : Json → String
  | null => "null"
  | bool value => if value then "true" else "false"
  | number text => text
  | string text => quote text
  | array items => layout.enclose "[" "]" (printItems layout.inner items)
  | object members =>
    layout.enclose "\x7b" "\x7d" <|
      (printMembers layout.inner members).map fun (name, text) ↦
        quote name ++ layout.colon ++ text

def printItems (layout : Layout) : List Json → List String
  | [] => []
  | item :: rest => printIn layout item :: printItems layout rest

def printMembers (layout : Layout) : List (String × Json) → List (String × String)
  | [] => []
  | (name, item) :: rest => insert name (printIn layout item) (printMembers layout rest)

end

def compact (json : Json) : String :=
  printIn .compact json

def pretty (json : Json) : String :=
  printIn (.indented 0) json

end Json

end ResourceQuery
