import ResourceQuery.Literal.Typed
import ResourceQuery.QueryError
import ResourceQuery.Token

/-!
# Cutting a query into tokens

A lexer is a cursor in the text of a query and what it has to remember between tokens. The text of
a token is always what lies between its position and the place where scanning stopped, so the
tokens and the blanks between them make up the query. A run of digits is tried as the most
committed kind of literal first; a run that is none of them is a word, from which a leading sign
is split off.
-/

namespace ResourceQuery

/-- What has been recognised at a place, before its text is cut out. -/
inductive Lexeme where
  | plain (symbol : Symbol)
  | literal (value : Value)
  /-- A sign in front of a word that begins like a number. -/
  | splitSign (order : SortOrder)

namespace Lexeme

def symbol : Lexeme → Symbol
  | plain symbol => symbol
  | literal _ => .literal
  | splitSign order => .direction order

def value? : Lexeme → Option Value
  | literal value => some value
  | plain _ | splitSign _ => none

def token (lexeme : Lexeme) (text : String) (position : Nat) : Token :=
  ⟨lexeme.symbol, lexeme.value?, text, position⟩

/-- The symbols of a single character that has no other use. -/
def single? : Char → Option Symbol
  | '(' => some .openParen
  | ')' => some .closeParen
  | ',' => some .comma
  | '&' => some (.joiner .and)
  | '|' => some (.joiner .or)
  | _ => none

/-- A comparison sign other than `=`, with its length. -/
def comparison? (c : Char) (next : Option Char) : Option (Comparison × Nat) :=
  let doubled := next == some '='
  match c with
  | '!' => if doubled then some (.ne, 2) else none
  | '<' => some (if doubled then (.le, 2) else (.lt, 1))
  | '>' => some (if doubled then (.ge, 2) else (.gt, 1))
  | _ => none

/-- A run of digits begins here, with or without a sign. -/
def beginsDigits (c : Char) (next : Option Char) : Bool :=
  Text.isDigit c || (c == '.' && next.any Text.isDigit) ||
    (isSign c && next.any fun d ↦ Text.isDigit d || d == '.')

def orderOfSign? : Char → Option SortOrder
  | '+' => some .ascending
  | '-' => some .descending
  | _ => none

def scanPlain (symbol : Symbol) (length : Nat) : Scan Lexeme := do
  Scan.skip length
  return .plain symbol

/-- The comparison that a word between two equals signs names. -/
def wordComparison? (word : List Char) : Option Comparison :=
  Comparison.all.find? fun op ↦ op.name.toList == Text.lowerAscii word

/-- Reads `=`, or a word of two letters between two of them. -/
def scanEquals : Scan Lexeme := do
  Scan.skip 1
  let mark ← Scan.position
  let word ← Scan.readAtMost 2 Text.isLetter
  match wordComparison? word with
  | some op =>
    if ← Scan.accept '=' then return .plain (.comparison op)
  | none => pure ()
  Scan.moveTo mark
  return .plain (.comparison .eq)

/-- Reads a run that begins with digits but is no literal: a word, or the sign in front of one. -/
def scanDigitWord : Scan Lexeme := do
  match (← Scan.peek).bind orderOfSign? with
  | some order =>
    Scan.skip 1
    return .splitSign order
  | none =>
    let _ ← Scan.readWhile isWordChar
    return .plain .property

def scanDigits (localOffset : UtcOffset) : Scan Lexeme := do
  let cursor ← get
  if Guid.ahead cursor then return .literal (.guid (← Guid.scan))
  else if ← Number.hexAhead then return .literal (← Number.scanHex)
  else if TimeSpan.ahead cursor then return .literal (.span (← TimeSpan.scan))
  else if Moment.ahead cursor then return .literal (.moment (← Moment.scan .local localOffset))
  else
    match ← Number.scan? with
    | some value => return .literal value
    | none =>
      Scan.moveTo cursor.position
      scanDigitWord

/-- An opening parenthesis comes next, blanks aside. -/
def parenFollows (cursor : Cursor) : Bool :=
  (cursor.ahead.dropWhile Text.isBlank).head? == some '('

/-- What a word means by itself: a constant, or the name of a property. -/
def ofWord (word : List Char) : Lexeme :=
  match String.ofList (Text.lowerAscii word) with
  | "null" => .literal .null
  | "true" => .literal (.bool true)
  | "false" => .literal (.bool false)
  | _ => .plain .property

/-- The reserved word that a word is, in any case of its letters. -/
def keyword? (word : List Char) : Option Keyword :=
  Keyword.ofName? (String.ofList (Text.lowerAscii word))

def scanWord (localOffset : UtcOffset) : Scan Lexeme := do
  let cursor ← get
  if Guid.ahead cursor then return .literal (.guid (← Guid.scan))
  else
    let word ← Scan.readWhile isWordChar
    if ← Scan.nextIs (· == ':') then
      return .literal (← Literal.scanAfterWord localOffset cursor.position word)
    else if parenFollows (← get) then
      match keyword? word with
      | some keyword => return .plain (.function keyword)
      | none => return ofWord word
    else return ofWord word

/-- A slash continues a path when it stands right behind a word or an unquoted literal. -/
def continuesPath (last : Option Symbol) (previous : Option Char) : Bool :=
  (last == some .property || last == some .literal) && previous.any isWordChar

/-- Recognises what begins with `c`, the next character. -/
def scan (localOffset : UtcOffset) (last : Option Symbol) (c : Char) : Scan Lexeme := do
  let cursor ← get
  let next := cursor.peekAt 1
  if let some symbol := single? c then scanPlain symbol 1
  else if c == '=' then scanEquals
  else if let some (op, length) := comparison? c next then scanPlain (.comparison op) length
  else if c == '!' then throw .loneBang
  else if c == '"' then return .literal (.string (String.ofList (← Quoted.scan '"')))
  else if c == '\'' then return .literal (.char (← Quoted.scanChar))
  else if c == '/' then
    if continuesPath last cursor.previous then scanPlain .slash 1
    else return .literal (.uri (← Literal.scanUri))
  else if beginsDigits c next then scanDigits localOffset
  else if let some order := orderOfSign? c then scanPlain (.direction order) 1
  else if c == ':' then throw .loneColon
  else scanWord localOffset

end Lexeme

structure Lexer where
  cursor : Cursor
  localOffset : UtcOffset
  /-- The symbol of the token read last. -/
  last : Option Symbol
  /-- A sign has just been split off the word that comes next. -/
  afterSplitSign : Bool

namespace Lexer

def start (text : List Char) (localOffset : UtcOffset) : Lexer :=
  ⟨Cursor.start text, localOffset, none, false⟩

def scanLexeme (lexer : Lexer) (c : Char) : Scan Lexeme :=
  if lexer.afterSplitSign then do
    let _ ← Scan.readWhile isWordChar
    return .plain .property
  else Lexeme.scan lexer.localOffset lexer.last c

/-- Reads one token. After an error, reading goes on from where it stopped. -/
def next (lexer : Lexer) : Except QueryError Token × Lexer :=
  let cursor := (lexer.cursor.readWhile Text.isBlank).2
  let mark := cursor.position
  match cursor.peek with
  | none => (.ok (.stop mark), { lexer with cursor, last := some .stop })
  | some c =>
    match lexer.scanLexeme c cursor with
    | .ok lexeme cursor =>
      let token := lexeme.token (String.ofList (cursor.textFrom mark)) mark
      let split := lexeme matches .splitSign _
      (.ok token, { lexer with cursor, last := some token.symbol, afterSplitSign := split })
    | .error fault cursor =>
      (.error (.lexical mark fault), { lexer with cursor, afterSplitSign := false })

/-- The tokens up to the end of the query, of which there are at most `limit` before the end. -/
def drain : (limit : Nat) → Lexer → Except QueryError (List Token)
  | limit, lexer => do
    let (token, rest) := lexer.next
    let token ← token
    match limit with
    | 0 => return [token]
    | limit + 1 =>
      if token.symbol = .stop then return [token] else return token :: (← drain limit rest)

/-- All tokens of a query; the last is the end. Every other token takes up at least one character.
-/
def scan (text : List Char) (localOffset : UtcOffset) : Except QueryError TokenQueue :=
  (drain text.length (start text localOffset)).map TokenQueue.mk

end Lexer

end ResourceQuery
