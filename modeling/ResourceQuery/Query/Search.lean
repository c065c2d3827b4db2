import ResourceQuery.Query

/-!
# Searching a query

Nodes by their operation, and the use of properties. All searches go through the nodes in pre-order.
-/

namespace ResourceQuery.Query

def find (query : Query) (operation : Operation) : Option Query :=
  query.preorder.find? (·.operation == operation)

def findAll (query : Query) (operation : Operation) : List Query :=
  query.preorder.filter (·.operation == operation)

def contains (query : Query) (operation : Operation) : Bool :=
  query.preorder.any (·.operation == operation)

/-- All properties that are held anywhere. -/
def allProperties (query : Query) : List Property :=
  query.preorder.flatMap properties

/-- A property anywhere in the query begins with the path. -/
def references (query : Query) (path : Property) (caseSensitive : Bool) : Bool :=
  query.allProperties.any (·.startsWith caseSensitive path)

def selectClause? (query : Query) : Option Query :=
  query.find (.clause .select)

def limitClause? (query : Query) : Option Query :=
  query.find (.clause .limit)

/-- The first select clause names the path, a part of it, or something below it. -/
def selects (query : Query) (path : Property) : Bool :=
  match query.selectClause? with
  | some (select properties) =>
    properties.any fun property ↦ property.startsWith false path || path.startsWith false property
  | _ => false

theorem contains_iff_find (query : Query) (operation : Operation) :
    query.contains operation = (query.find operation).isSome := by
  rw [contains, find, Bool.eq_iff_iff, List.find?_isSome, List.any_eq_true]

theorem references_iff (query : Query) (path : Property) (caseSensitive : Bool) :
    query.references path caseSensitive = true ↔
      ∃ node ∈ query.preorder, ∃ property ∈ node.properties,
        property.startsWith caseSensitive path = true := by
  simp [references, allProperties, List.any_flatMap]

end ResourceQuery.Query
