import ResourceQuery.Literal.Scan

/-!
# Quoted literals

The body of a text between quotes, and its escapes. `decode` reads a body up to and including the
closing quote and counts the characters it used; `encode` writes a body so that it reads back,
with a percent sign escaped so that the text also survives percent-decoding.
-/

namespace ResourceQuery.Quoted

def simpleEscape? : Char → Option Char
  | 'r' => some '\r'
  | 'n' => some '\n'
  | 't' => some '\t'
  | 'b' => some '\x08'
  | '\\' => some '\\'
  | '\'' => some '\''
  | '"' => some '"'
  | _ => none

def ofCode? (digits : List Char) : Option Char :=
  let code := Text.ofHexDigits digits
  if code.isValidChar then some (Char.ofNat code) else none

abbrev Outcome := Except QuotedFault (List Char) × Nat

/-- One more character of the body, read from `count` characters of the text. -/
def Outcome.push (c : Char) (count : Nat) : Outcome → Outcome
  | (body, used) => (body.map (c :: ·), used + count)

def decode (quote : Char) : List Char → Outcome
  | [] => (.error (.unterminated quote), 0)
  | ['\\'] => (.error .endAfterBackslash, 1)
  | '\\' :: 'u' :: rest =>
    match rest with
    | a :: b :: c :: d :: rest =>
      let digits := [a, b, c, d].takeWhile Text.isHexDigit
      if digits.length = 4 then
        match ofCode? digits with
        | some ch => (decode quote rest).push ch 6
        | none => (.error (.noSuchCharacter (String.ofList digits)), 6)
      else (.error .shortUnicodeEscape, 2 + digits.length)
    | short => (.error .shortUnicodeEscape, 2 + (short.takeWhile Text.isHexDigit).length)
  | '\\' :: e :: rest =>
    match simpleEscape? e with
    | some ch => (decode quote rest).push ch 2
    | none => (.error (.unknownEscape e), 2)
  | c :: rest => if c = quote then (.ok [], 1) else (decode quote rest).push c 1

/-- Reads the quoted text at the cursor, which stands on the opening quote. -/
def scan (quote : Char) : Scan (List Char) := do
  let mark ← Scan.position
  let (body, used) := decode quote ((← get).ahead.drop 1)
  Scan.skip (used + 1)
  match body with
  | .ok body => return body
  | .error fault => Scan.failFrom mark (.quoted · fault)

/-- The only character of a body. -/
def single? : List Char → Option Char
  | [c] => some c
  | _ => none

/-- Reads a character between single quotes. -/
def scanChar : Scan Char := do
  let mark ← Scan.position
  match single? (← scan '\'') with
  | some c => return c
  | none => Scan.failFrom mark .notOneCharacter

def escape (quote c : Char) : List Char :=
  if c = '\\' then ['\\', '\\']
  else if c = '%' then '\\' :: 'u' :: Text.hexadecimal 4 c.toNat
  else if c = '\n' then ['\\', 'n']
  else if c = '\r' then ['\\', 'r']
  else if c = '\t' then ['\\', 't']
  else if c = '\x08' then ['\\', 'b']
  else if c = quote then ['\\', c]
  else if Text.isControl c then '\\' :: 'u' :: Text.hexadecimal 4 c.toNat
  else [c]

/-- The text between quotes. -/
def encode (quote : Char) (text : List Char) : List Char :=
  quote :: text.flatMap (escape quote) ++ [quote]

end ResourceQuery.Quoted
