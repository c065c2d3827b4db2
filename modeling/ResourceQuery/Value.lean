import ResourceQuery.Data.Guid
import ResourceQuery.Number.FloatingPoint
import ResourceQuery.Number.Integer
import ResourceQuery.Number.ScaledDecimal
import ResourceQuery.Text.Case
import ResourceQuery.Time.Moment
import ResourceQuery.Time.Span

/-!
# Values

The typed scalars that a query compares with. Width, signedness and kind are kept as written, so
values of two types are never equal. Within a type `==` is equality of what the value denotes: of
numbers for floats and decimals, of instants for moments. `sameIgnoringCase` relaxes it for texts
and characters.

Floats and doubles are finite, as is every number that a text can denote. An infinity, or what is
not a number, can therefore not be put into a query here, and what is proved of all queries says
nothing about a query that holds one.
-/

namespace ResourceQuery

inductive Value where
  | null
  | bool (value : Bool)
  | char (value : Char)
  | string (text : String)
  | integer (number : SizedInteger)
  | float (number : FloatingPoint .binary32)
  | double (number : FloatingPoint .binary64)
  | decimal (number : ScaledDecimal)
  | moment (moment : Moment)
  | span (span : TimeSpan)
  | guid (guid : Guid)
  | binary (bytes : List UInt8)
  | uri (text : String)
  deriving DecidableEq

namespace Value

/-- The name of the type, as a type prefix spells it. -/
def typeName : Value → String
  | null => "null"
  | bool _ => "bool"
  | char _ => "char"
  | string _ => "string"
  | integer number => number.type.name
  | float _ => "float"
  | double _ => "double"
  | decimal _ => "decimal"
  | moment _ => "datetime"
  | span _ => "timespan"
  | guid _ => "guid"
  | binary _ => "binary"
  | uri _ => "uri"

def integer? : Value → Option Int
  | integer number => some number.value
  | _ => none

/-- The content of a string or a reference. -/
def text? : Value → Option String
  | string text | uri text => some text
  | _ => none

instance : BEq Value where
  beq
    | float x, float y => x == y
    | double x, double y => x == y
    | decimal x, decimal y => x == y
    | moment a, moment b => a == b
    | a, b => decide (a = b)

def sameIgnoringCase : Value → Value → Bool
  | string a, string b | uri a, uri b => Text.foldCase a == Text.foldCase b
  | char a, char b => Text.lowerChar a == Text.lowerChar b
  | a, b => a == b

end Value

end ResourceQuery
