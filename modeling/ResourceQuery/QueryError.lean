import ResourceQuery.LexicalFault
import ResourceQuery.Operation
import ResourceQuery.Property

/-!
# Query errors

The ways in which a query can be refused: a token that cannot be read, a token out of place,
clauses that contradict each other, and a node given something it has no place for.
-/

namespace ResourceQuery

/-- What a place in the grammar calls for. -/
inductive Expected where
  | property
  | value
  | comma
  | openParen
  | closeParen
  | comparison
  | joinerOrStop
  | count
  | groupOrFunction
  deriving DecidableEq, Repr

def Expected.describe : Expected → String
  | property => "PROPERTY"
  | value => "VALUE"
  | comma => ","
  | openParen => "("
  | closeParen => "closing )"
  | comparison => "= != < <= > or >="
  | joinerOrStop => "& or | or end of input"
  | count => "a non-negative integer"
  | groupOrFunction => "PROPERTY or an aggregate function"

/-- Something that a node has no place for. -/
inductive ShapeFault where
  | countIsFull
  | limitIsFull
  | notACount (typeName : String)
  | groupAfterFunction (property : Property)
  | notASummary (operation : Operation)
  | complete (operation : Operation) (child : String)
  | refused (operation : Operation) (child : String)
  | notFoldable (operation : Operation)
  deriving DecidableEq, Repr

def ShapeFault.message : ShapeFault → String
  | countIsFull => "count accepts at most one property"
  | limitIsFull => "limit accepts at most two values"
  | notACount typeName => s!"limit expects a non-negative integer, got {typeName} value"
  | groupAfterFunction property => s!"aggregate property {property.path} may not follow a function"
  | notASummary operation =>
    s!"aggregate accepts only sum, min, max, mean or count, not {operation.name}"
  | complete operation child =>
    s!"{operation.name} already has its property and value, cannot add {child}"
  | refused operation child => s!"{operation.name} does not accept a {child}"
  | notFoldable operation =>
    s!"cannot consolidate {operation.name} nodes; only select, sort, in and out lists combine"

inductive SyntaxFault where
  | unexpected (found : String) (expected : Expected)
  | mixedJoiners (found : String) (joiner : Joiner)
  | notAPattern (typeName : String)
  | shape (fault : ShapeFault)
  deriving DecidableEq, Repr

def SyntaxFault.message : SyntaxFault → String
  | unexpected found expected => s!"unexpected {found} expecting {expected.describe}"
  | mixedJoiners found joiner =>
    s!"unexpected {found} after {joiner.sign}: group mixed & and | with parentheses"
  | notAPattern typeName => s!"like expects a string pattern, got {typeName} value"
  | shape fault => fault.message

/-- Clauses that cannot stand in one query, or a property that a query may not use. -/
inductive Conflict where
  | sharedTarget (property : Property)
  | repeated (keyword : Keyword)
  | selectWithValues
  | ungroupedFunction
  | limitedSummary
  | malformedMember (path : String)
  | unknownMember (property : Property)
  deriving DecidableEq, Repr

def Conflict.message : Conflict → String
  | sharedTarget property =>
    s!"aggregate target {property.path} is used by more than one function"
  | repeated keyword => s!"only one {keyword.name} clause is allowed"
  | selectWithValues => "select and values cannot be combined"
  | ungroupedFunction => "aggregate functions must be inside aggregate when aggregate is present"
  | limitedSummary => "limit cannot be combined with count, sum, min, max, mean or aggregate"
  | malformedMember path => s!"invalid member path '{path}'"
  | unknownMember property => s!"unknown member '{property.path}'"

inductive QueryError where
  | lexical (position : Nat) (fault : LexicalFault)
  | syntactic (position : Nat) (fault : SyntaxFault)
  | conflict (cause : Conflict)
  | shape (fault : ShapeFault)

namespace QueryError

/-- What is wrong, without the kind of error and its place. -/
def detail : QueryError → String
  | lexical _ fault => fault.message
  | syntactic _ fault => fault.message
  | conflict cause => cause.message
  | shape fault => fault.message

def position? : QueryError → Option Nat
  | lexical position _ | syntactic position _ => some position
  | conflict _ | shape _ => none

def message (error : QueryError) : String :=
  match error with
  | lexical position _ => s!"lexical error at position {position}: {error.detail}"
  | syntactic position _ => s!"syntax error at position {position}: {error.detail}"
  | conflict _ => s!"invalid query: {error.detail}"
  | shape _ => s!"invalid node: {error.detail}"

end QueryError

end ResourceQuery
