import ResourceQuery.Data.Base64
import ResourceQuery.Literal.Quoted
import ResourceQuery.Number.Shortest
import ResourceQuery.Value

/-!
# Printing values

Every value is written so that it reads back with its type: a 32-bit integer is bare, and every
other type has a suffix or a prefix of its own.
-/

namespace ResourceQuery

/-- What is written in front of an integer and behind it. -/
def IntegerType.marks : IntegerType → String × String
  | int8 => ("int8:", "")
  | int16 => ("int16:", "")
  | int32 => ("", "")
  | int64 => ("", "L")
  | uint8 => ("byte:", "")
  | uint16 => ("uint16:", "")
  | uint32 => ("", "U")
  | uint64 => ("", "UL")

def SizedInteger.print (number : SizedInteger) : List Char :=
  number.type.marks.1.toList ++ Text.decimalInt number.value ++ number.type.marks.2.toList

namespace Value

def printChars : Value → List Char
  | null => "null".toList
  | bool value => (if value then "true" else "false").toList
  | char c => Quoted.encode '\'' [c]
  | string text => Quoted.encode '"' text.toList
  | integer number => number.print
  | float number => number.plain ++ ['F']
  | double number => number.plain ++ ['D']
  | decimal number => number.print ++ ['M']
  | moment instant =>
    (match instant.anchor with | .utc => "utc:".toList | .local => []) ++ instant.print
  | span length => length.print
  | guid id => id.print
  | binary bytes => "bin:".toList ++ Base64.encode bytes
  | uri text => "uri:".toList ++ Quoted.encode '"' text.toList

def print (value : Value) : String :=
  String.ofList value.printChars

end Value

end ResourceQuery
