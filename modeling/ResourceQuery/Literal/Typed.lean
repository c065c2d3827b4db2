import ResourceQuery.Literal.Guid
import ResourceQuery.Literal.Moment
import ResourceQuery.Literal.Number
import ResourceQuery.Literal.Quoted

/-!
# Literals after a type prefix

A word and a colon name the type of the literal that follows. Most types can be written bare or
between double quotes; the quoted form of a date or a time span has to be used up by it, blanks at
its ends aside.
-/

namespace ResourceQuery

/-- A type that can be named in front of a literal. -/
inductive LiteralType where
  | number (type : NumberType)
  | bool
  | char
  | string
  | guid
  | binary
  | uri
  | moment (anchor : Anchor)
  | span
  deriving DecidableEq, Repr

namespace LiteralType

def names : List (String × LiteralType) :=
  [("byte", .number (.integer .uint8)), ("uint8", .number (.integer .uint8)),
    ("sbyte", .number (.integer .int8)), ("int8", .number (.integer .int8)),
    ("short", .number (.integer .int16)), ("int16", .number (.integer .int16)),
    ("ushort", .number (.integer .uint16)), ("uint16", .number (.integer .uint16)),
    ("int", .number (.integer .int32)), ("int32", .number (.integer .int32)),
    ("integer", .number (.integer .int32)),
    ("uint", .number (.integer .uint32)), ("uint32", .number (.integer .uint32)),
    ("long", .number (.integer .int64)), ("int64", .number (.integer .int64)),
    ("ulong", .number (.integer .uint64)), ("uint64", .number (.integer .uint64)),
    ("float", .number .float), ("single", .number .float), ("double", .number .double),
    ("decimal", .number .decimal),
    ("bool", .bool), ("boolean", .bool), ("char", .char), ("string", .string),
    ("guid", .guid), ("uuid", .guid), ("bin", .binary), ("binary", .binary),
    ("uri", .uri), ("url", .uri), ("date", .moment .local), ("datetime", .moment .local),
    ("utc", .moment .utc), ("time", .span), ("timespan", .span)]

/-- The type that a word names, in any case of its letters. -/
def ofWord? (word : List Char) : Option LiteralType :=
  names.lookup (String.ofList (Text.lowerAscii word))

end LiteralType

namespace Literal

/-- A truth value by its word. -/
def bool? (word : List Char) : Option Bool :=
  let word := String.ofList (Text.lowerAscii word)
  if ["true", "1", "yes", "y"].contains word then some true
  else if ["false", "0", "no", "n"].contains word then some false
  else none

def isBase64Char (c : Char) : Bool :=
  Text.isLetter c || Text.isDigit c || c == '+' || c == '/' || c == '='

/-- A reference runs up to a blank or a character with a meaning in queries. -/
def isUriChar (c : Char) : Bool :=
  !(Text.isBlank c || ['(', ')', ',', '&', '|', '"', '\'', '<', '>'].contains c)

def scanUri : Scan String :=
  return String.ofList (← Scan.readWhile isUriChar)

/-- The next character is a double quote. -/
def quoteAhead : Scan Bool :=
  Scan.nextIs (· == '"')

/-- Reads a quoted body, or a bare word. -/
def scanBody : Scan (List Char) := do
  if ← quoteAhead then Quoted.scan '"'
  else
    let word ← Scan.readWhile isWordChar
    if word.isEmpty then throw .noValue
    return word

/-- Runs a scanner over a quoted body, which it has to use up. -/
def within {α : Type} (body : List Char) (scanner : Scan α) : Scan α :=
  match scanner (Cursor.start (Text.trim body)) with
  | .ok value cursor =>
    if cursor.atEnd then return value else throw (.trailing (String.ofList body))
  | .error fault _ => throw fault

/-- Reads with a scanner, in place or within a quoted body. -/
def bareOrWithin {α : Type} (scanner : Scan α) : Scan α := do
  if ← quoteAhead then within (← Quoted.scan '"') scanner else scanner

def scanBool (mark : Nat) : Scan Bool := do
  match bool? (← scanBody) with
  | some value => return value
  | none => Scan.failFrom mark .notBool

/-- Reads the body of a text, which single quotes may enclose as well. -/
def scanText : Scan (List Char) := do
  if ← Scan.nextIs (· == '\'') then Quoted.scan '\'' else scanBody

def scanTypedChar (mark : Nat) : Scan Char := do
  if ← Scan.nextIs (· == '\'') then Quoted.scanChar
  else
    match Quoted.single? (← scanBody) with
    | some c => return c
    | none => Scan.failFrom mark .notOneCharacter

def scanTypedGuid : Scan Guid := do
  if ← quoteAhead then Guid.ofText (← Quoted.scan '"') else Guid.scan

def scanPayload : Scan (List Char) := do
  if ← quoteAhead then Quoted.scan '"' else Scan.readWhile isBase64Char

def scanBinary : Scan (List UInt8) := do
  let payload ← scanPayload
  match Base64.decode (Text.trim payload) with
  | .ok bytes => return bytes
  | .error fault => throw (.base64 (String.ofList payload) fault)

def scanTypedUri (mark : Nat) : Scan String := do
  if ← quoteAhead then return String.ofList (← Quoted.scan '"')
  else
    let uri ← scanUri
    if uri.isEmpty then Scan.failFrom mark .emptyUri
    return uri

/-- Reads the literal of a type after its prefix; `mark` is where the prefix began. -/
def scanTyped (localOffset : UtcOffset) (mark : Nat) : LiteralType → Scan Value
  | .number type => Number.scanTyped type
  | .bool => return .bool (← scanBool mark)
  | .char => return .char (← scanTypedChar mark)
  | .string => return .string (String.ofList (← scanText))
  | .guid => return .guid (← scanTypedGuid)
  | .binary => return .binary (← scanBinary)
  | .uri => return .uri (← scanTypedUri mark)
  | .moment anchor => return .moment (← bareOrWithin (Moment.scan anchor localOffset))
  | .span => return .span (← bareOrWithin TimeSpan.scan)

/-- `http` or `https`, which with `//` after the colon begins a reference. -/
def isWebScheme (word : List Char) : Bool :=
  ["http", "https"].contains (String.ofList (Text.lowerAscii word))

/-- Reads the literal that begins with `word` and a colon, on which the cursor stands. -/
def scanAfterWord (localOffset : UtcOffset) (mark : Nat) (word : List Char) : Scan Value := do
  if isWebScheme word && (← Scan.peekAt 1) == some '/' && (← Scan.peekAt 2) == some '/' then
    Scan.moveTo mark
    return .uri (← scanUri)
  else
    match LiteralType.ofWord? word with
    | none => throw (.unknownPrefix (String.ofList word))
    | some type =>
      Scan.skip 1
      scanTyped localOffset mark type

end Literal

end ResourceQuery
