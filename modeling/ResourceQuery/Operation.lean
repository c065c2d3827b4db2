/-!
# Operations

The operations of the query language, by family. A `Keyword` is an operation that a query can name
as a function; besides these there is only the empty query.
-/

namespace ResourceQuery

inductive Comparison where
  | eq | ne | lt | le | gt | ge
  deriving DecidableEq, Repr

inductive PatternOp where
  | like | contains | excludes
  deriving DecidableEq, Repr

inductive MembershipOp where
  | among | outside
  deriving DecidableEq, Repr

inductive SummaryOp where
  | sum | min | max | mean
  deriving DecidableEq, Repr

inductive Joiner where
  | and | or
  deriving DecidableEq, Repr

inductive Keyword where
  | limit | select | sort
  | group (joiner : Joiner)
  | compare (op : Comparison)
  | pattern (op : PatternOp)
  | membership (op : MembershipOp)
  | distinct | first | one
  | count | values
  | summary (op : SummaryOp)
  | aggregate
  deriving DecidableEq, Repr

inductive Operation where
  | noop
  | clause (keyword : Keyword)
  deriving DecidableEq, Repr

namespace Comparison

def name : Comparison → String
  | eq => "eq"
  | ne => "ne"
  | lt => "lt"
  | le => "le"
  | gt => "gt"
  | ge => "ge"

/-- The sign between a property and a value. -/
def sign : Comparison → String
  | eq => "="
  | ne => "!="
  | lt => "<"
  | le => "<="
  | gt => ">"
  | ge => ">="

def all : List Comparison := [eq, ne, lt, le, gt, ge]

end Comparison

namespace Joiner

def name : Joiner → String
  | and => "and"
  | or => "or"

/-- The character between two joined terms. -/
def sign : Joiner → Char
  | and => '&'
  | or => '|'

end Joiner

namespace Keyword

def name : Keyword → String
  | limit => "limit"
  | select => "select"
  | sort => "sort"
  | group joiner => joiner.name
  | compare op => op.name
  | pattern .like => "like"
  | pattern .contains => "contains"
  | pattern .excludes => "excludes"
  | membership .among => "in"
  | membership .outside => "out"
  | distinct => "distinct"
  | first => "first"
  | one => "one"
  | count => "count"
  | values => "values"
  | summary .sum => "sum"
  | summary .min => "min"
  | summary .max => "max"
  | summary .mean => "mean"
  | aggregate => "aggregate"

def all : List Keyword :=
  [limit, select, sort, group .and, group .or] ++ Comparison.all.map compare ++
    [pattern .like, pattern .contains, pattern .excludes, membership .among, membership .outside,
      distinct, first, one, count, values, summary .sum, summary .min, summary .max, summary .mean,
      aggregate]

def ofName? (name : String) : Option Keyword :=
  all.find? (·.name == name)

theorem ofName?_name (keyword : Keyword) : ofName? keyword.name = some keyword := by
  rcases keyword with _ | _ | _ | joiner | op | op | op | _ | _ | _ | _ | _ | op | _ <;>
    first | rfl | (cases joiner <;> rfl) | (cases op <;> rfl)

theorem mem_all (keyword : Keyword) : keyword ∈ all :=
  List.mem_of_find?_eq_some (ofName?_name keyword)

end Keyword

namespace Operation

def name : Operation → String
  | noop => "noop"
  | clause keyword => keyword.name

def ofName? (name : String) : Option Operation :=
  if name = "noop" then some noop else (Keyword.ofName? name).map clause

instance : Coe Keyword Operation := ⟨clause⟩

end Operation

end ResourceQuery
