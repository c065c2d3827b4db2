import ResourceQuery.Data.Base64
import ResourceQuery.Data.Guid
import ResourceQuery.Number.ScaledDecimal

/-!
# Lexical faults

Everything that can be wrong with a single token or with the encoding of the whole text. A fault
about a literal carries the text read up to the point where it became clear.
-/

namespace ResourceQuery

/-- A part that a date or time has to have next. -/
inductive DatePart where
  | separator (c : Char)
  | month | day | year
  | hour | minute | second
  | offsetHours | offsetMinutes

def DatePart.describe : DatePart → String
  | .separator c => c.toString
  | .month => "month"
  | .day => "day"
  | .year => "four-digit year"
  | .hour => "hour"
  | .minute => "two-digit minute"
  | .second => "two-digit second"
  | .offsetHours => "two-digit offset hours"
  | .offsetMinutes => "two-digit offset minutes"

inductive DateFault where
  | missing (part : DatePart)
  | stray (c : Char)
  | noSeparator
  | unknownOrder
  | noSuchDay (year month day : Nat)
  | timeOutOfRange
  | offsetOutOfRange

def DateFault.message (lexeme : String) : DateFault → String
  | .missing part => s!"invalid date/time {lexeme}: expecting {part.describe}"
  | .stray c => s!"invalid date/time {lexeme}: unexpected '{c}'"
  | .noSeparator => s!"invalid date {lexeme}: expecting - or /"
  | .unknownOrder => s!"invalid date {lexeme}: expecting year-month-day or month/day/year"
  | .noSuchDay year month day =>
    let digits width n := String.ofList (Text.decimalPadded width n)
    let date := digits 4 year ++ "-" ++ digits 2 month ++ "-" ++ digits 2 day
    s!"invalid date {lexeme}: no such day {date}"
  | .timeOutOfRange => s!"invalid time {lexeme}: out of range"
  | .offsetOutOfRange => s!"invalid offset in {lexeme}"

/-- A part that a time span has to have next. -/
inductive SpanPart where
  | hours | colon | minutes | secondColon | seconds | stop

inductive SpanFault where
  | missing (part : SpanPart)
  | sixtyOrMore

def SpanPart.describe : SpanPart → String
  | .hours => "hours"
  | .colon => ":"
  | .minutes => "two-digit minutes"
  | .secondColon => ":SS"
  | .seconds => "two-digit seconds"
  | .stop => "end of time span"

def SpanFault.message (lexeme : String) : SpanFault → String
  | .missing part => s!"invalid time span {lexeme}: expecting {part.describe}"
  | .sixtyOrMore => s!"invalid time span {lexeme}: minutes and seconds must be below 60"

inductive NumberFault where
  | outOfRange (target : String)
  | suffixNeedsInteger (suffix : String)
  | decimal (fault : ScaledDecimal.Fault)
  | noHexDigits
  | tooManyHexDigits
  | hexTrailing

def NumberFault.message (lexeme : String) : NumberFault → String
  | .outOfRange target => s!"numeric literal {lexeme} is out of range for {target}"
  | .suffixNeedsInteger suffix =>
    s!"invalid numeric literal {lexeme}: suffix '{suffix}' requires an integer"
  | .decimal fault => s!"invalid decimal literal {lexeme}: {fault.message}"
  | .noHexDigits => s!"invalid hex literal {lexeme}: expecting hex digits"
  | .tooManyHexDigits => s!"invalid hex literal {lexeme}: more than 16 hex digits"
  | .hexTrailing => s!"invalid hex literal {lexeme}: unexpected trailing characters"

/-- Why a number does not suit the type named before it. -/
inductive TypedNumberFault where
  | notANumber
  | notAnInteger
  | hexTrailing
  | hexNeedsInteger
  | hexTooWide (bits : Nat)

def TypedNumberFault.message (type lexeme : String) : TypedNumberFault → String
  | .notANumber => s!"invalid {type} literal '{lexeme}': expecting a number"
  | .notAnInteger => s!"invalid {type} literal {lexeme}: expecting an integer"
  | .hexTrailing => s!"invalid {type} literal {lexeme}: unexpected trailing characters"
  | .hexNeedsInteger => s!"invalid {type} literal {lexeme}: hex notation requires an integer type"
  | .hexTooWide bits =>
    let digits := bits / 4
    s!"invalid {type} literal {lexeme}: more than {digits} hex digits for a {bits}-bit value"

inductive QuotedFault where
  | unterminated (quote : Char)
  | shortUnicodeEscape
  | noSuchCharacter (digits : String)
  | unknownEscape (c : Char)
  | endAfterBackslash

def QuotedFault.message (lexeme : String) : QuotedFault → String
  | .unterminated quote =>
    let kind := if quote = '"' then "string" else "char"
    s!"unterminated {kind} literal {lexeme}: expecting closing {quote}"
  | .shortUnicodeEscape => s!"invalid unicode escape in {lexeme}: expecting 4 hex digits"
  | .noSuchCharacter digits => s!"invalid unicode escape \\u{digits} in {lexeme}"
  | .unknownEscape c => s!"invalid escape sequence \\{c} in {lexeme}"
  | .endAfterBackslash => s!"unexpected end of input after backslash in {lexeme}"

inductive GuidFault where
  | noHyphen
  | shortGroup (group width : Nat)
  | trailing
  | malformed (fault : Guid.Fault)

def GuidFault.message (lexeme : String) : GuidFault → String
  | .noHyphen => s!"invalid GUID {lexeme}: expecting -"
  | .shortGroup group width =>
    s!"invalid GUID {lexeme}: expecting {width} hex digits in group {group}"
  | .trailing => s!"invalid GUID {lexeme}: unexpected trailing characters"
  | .malformed fault => s!"invalid GUID {lexeme}: {fault.message}"

inductive LexicalFault where
  | percentEncoding (fault : Text.Utf8.Fault)
  | loneBang
  | loneColon
  | unknownPrefix (word : String)
  | noValue
  | notBool (lexeme : String)
  | notOneCharacter (lexeme : String)
  | emptyUri (lexeme : String)
  | base64 (payload : String) (fault : Base64.Fault)
  | trailing (body : String)
  | quoted (lexeme : String) (fault : QuotedFault)
  | guid (lexeme : String) (fault : GuidFault)
  | number (lexeme : String) (fault : NumberFault)
  | typedNumber (type lexeme : String) (fault : TypedNumberFault)
  | date (lexeme : String) (fault : DateFault)
  | span (lexeme : String) (fault : SpanFault)

def LexicalFault.message : LexicalFault → String
  | .percentEncoding fault => s!"invalid percent-encoding: {fault.message}"
  | .loneBang => "unexpected '!': expecting !="
  | .loneColon => "unexpected ':': expecting a type prefix before it"
  | .unknownPrefix word => s!"unknown type prefix '{word}:'"
  | .noValue => "expecting a value after the type prefix"
  | .notBool lexeme =>
    s!"invalid bool literal {lexeme}: expecting true, false, yes, no, y, n, 1 or 0"
  | .notOneCharacter lexeme => s!"invalid char literal {lexeme}: expecting exactly one character"
  | .emptyUri lexeme => s!"invalid uri literal {lexeme}: expecting a uri"
  | .base64 payload fault => s!"invalid base64 payload {payload}: {fault.message}"
  | .trailing body => s!"unexpected trailing characters in \"{body}\""
  | .quoted lexeme fault => fault.message lexeme
  | .guid lexeme fault => fault.message lexeme
  | .number lexeme fault => fault.message lexeme
  | .typedNumber type lexeme fault => fault.message type lexeme
  | .date lexeme fault => fault.message lexeme
  | .span lexeme fault => fault.message lexeme

end ResourceQuery
