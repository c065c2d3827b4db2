import ResourceQuery.Json
import ResourceQuery.Query
import ResourceQuery.Value.Printer

/-!
# Queries as JSON

A node is an object tagged with its operation, and a value an object with its type. Numbers that
JSON can hold are numbers; decimals, moments, spans and binary data are written as in a query,
which keeps them exact.
-/

namespace ResourceQuery

/-- A finite number by its shortest text; `null` if there is no such number. -/
def FloatingPoint.json (number : Option (FloatingPoint .binary64)) : Json :=
  number.elim .null fun x ↦ .number (String.ofList x.scientific)

/-- The same number with the precision and range of `binary64`. -/
def FloatingPoint.widen (x : FloatingPoint .binary32) : Option (FloatingPoint .binary64) :=
  FloatingPoint.ofRatio? x.negative (x.significand * twoTo x.exponent.toNat)
    (twoTo (-x.exponent).toNat)

namespace Value

def content : Value → Json
  | null => .null
  | bool value => .bool value
  | char c => .string c.toString
  | string text | uri text => .string text
  | integer number => .number (String.ofList (Text.decimalInt number.value))
  | float number => FloatingPoint.json number.widen
  | double number => FloatingPoint.json (some number)
  | guid id => .string (String.ofList id.print)
  | decimal number => .string (print (decimal number))
  | moment instant => .string (print (moment instant))
  | span length => .string (print (span length))
  | binary bytes => .string (print (binary bytes))

def json (value : Value) : Json :=
  .object [("type", .string value.typeName), ("value", value.content)]

end Value

def Property.json (property : Property) : Json :=
  .string property.path

def SortKey.json (key : SortKey) : Json :=
  .object [("property", key.property.json),
    ("order", .string (match key.order with | .ascending => "asc" | .descending => "desc"))]

namespace Query

def numberJson (n : UInt64) : Json :=
  .number (String.ofList (Text.decimal n.toNat))

mutual

def json (query : Query) : Json :=
  .object (("op", .string query.operation.name) ::
    match query with
    | noop | distinct | first | one => []
    | limit range =>
      (range.start.map fun n ↦ ("start", numberJson n)).toList ++
        [("count", numberJson range.count)]
    | select properties => [("properties", .array (properties.map (·.json)))]
    | sort keys => [("keys", .array (keys.map (·.json)))]
    | group _ terms => [("nodes", .array (jsonAll terms))]
    | compare _ property value | pattern _ property value =>
      [("property", property.json), ("value", value.json)]
    | membership _ property entries =>
      [("property", property.json), ("values", .array (entries.map (·.json)))]
    | count property => (property.map fun p ↦ ("property", p.json)).toList
    | values property | summary _ property => [("property", property.json)]
    | aggregate groups functions =>
      [("groups", .array (groups.map (·.json))), ("functions", .array (jsonAll functions))])

def jsonAll : List Query → List Json
  | [] => []
  | query :: rest => json query :: jsonAll rest

end

end Query

end ResourceQuery
