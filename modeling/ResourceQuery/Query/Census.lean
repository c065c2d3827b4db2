import ResourceQuery.Query
import ResourceQuery.QueryError

/-!
# Clauses that cannot stand together

The rules on a whole tree: some clauses may appear once only, some exclude each other, and no two
functions may work on one property. `conflict?` is the first rule that a tree breaks; each rule is
stated by how often something occurs among the nodes.
-/

namespace ResourceQuery.Query

/-- How many of the nodes, at any depth, have an operation. -/
def occurrences (query : Query) (keyword : Keyword) : Nat :=
  query.preorder.countP fun node ↦ node.operation == .clause keyword

/-- A count of all items, not of a property. -/
def isBareCount : Query → Bool
  | count none => true
  | _ => false

def bareCounts (query : Query) : Nat :=
  query.preorder.countP isBareCount

/-- The properties that functions work on, at any depth. -/
def targets (query : Query) : List Property :=
  query.preorder.filterMap target?

/-- How many functions of a property stand outside every aggregate. -/
def ungroupedFunctions (query : Query) : Nat :=
  query.outer.countP (·.target?.isSome)

/-- The first property that is equal to one before it, or to one of `seen`. -/
def firstRepeated (seen : List Property) : List Property → Option Property
  | [] => none
  | property :: rest =>
    if seen.contains property then some property else firstRepeated (property :: seen) rest

/-- The clauses that may appear once. A count of a property is no such clause. -/
def singletons (query : Query) : List (Nat × Keyword) :=
  [Keyword.limit, .distinct, .one, .first, .values, .aggregate].map
      (fun keyword ↦ (query.occurrences keyword, keyword)) ++
    [(query.bareCounts, .count)]

def repeated? (query : Query) : Option Keyword :=
  (query.singletons.find? fun (number, _) ↦ 1 < number).map (·.2)

def conflict? (query : Query) : Option Conflict :=
  if let some property := firstRepeated [] query.targets then some (.sharedTarget property)
  else if let some keyword := query.repeated? then some (.repeated keyword)
  else if 0 < query.occurrences .select && 0 < query.occurrences .values then
    some .selectWithValues
  else if 0 < query.occurrences .aggregate && 0 < query.ungroupedFunctions then
    some .ungroupedFunction
  else if 0 < query.occurrences .limit &&
      0 < query.ungroupedFunctions + query.occurrences .aggregate + query.bareCounts then
    some .limitedSummary
  else none

def validate (query : Query) : Except QueryError Unit :=
  match query.conflict? with
  | some conflict => .error (.conflict conflict)
  | none => .ok ()

end ResourceQuery.Query
