import ResourceQuery.Operation
import ResourceQuery.Property
import ResourceQuery.Value

/-!
# Queries

A query is a tree. Its leaves are conditions on a record and clauses that shape the answer; groups
join conditions, and an aggregate holds functions. Two queries are equal (`==`) when they have the
same form, with properties and texts compared without regard to case. Searches run over
`preorder`, the list of all nodes with parents first, or over `outer`, which leaves out what is
inside an aggregate.
-/

namespace ResourceQuery

/-- The part of the answer to return: at most `count` items, from the one at `start` on. -/
structure Limit where
  start : Option UInt64
  count : UInt64
  deriving DecidableEq

inductive Query where
  | noop
  | limit (range : Limit)
  | select (properties : List Property)
  | sort (keys : List SortKey)
  | group (joiner : Joiner) (terms : List Query)
  | compare (op : Comparison) (property : Property) (value : Value)
  | pattern (op : PatternOp) (property : Property) (value : Value)
  | membership (op : MembershipOp) (property : Property) (entries : List Value)
  | distinct
  | first
  | one
  | count (property : Option Property)
  | values (property : Property)
  | summary (op : SummaryOp) (property : Property)
  | aggregate (groups : List Property) (functions : List Query)

namespace Query

def operation : Query → Operation
  | noop => .noop
  | limit _ => .clause .limit
  | select _ => .clause .select
  | sort _ => .clause .sort
  | group joiner _ => .clause (.group joiner)
  | compare op _ _ => .clause (.compare op)
  | pattern op _ _ => .clause (.pattern op)
  | membership op _ _ => .clause (.membership op)
  | distinct => .clause .distinct
  | first => .clause .first
  | one => .clause .one
  | count _ => .clause .count
  | values _ => .clause .values
  | summary op _ => .clause (.summary op)
  | aggregate _ _ => .clause .aggregate

def isNoop : Query → Bool
  | noop => true
  | _ => false

/-- The node is a condition on records. -/
def isConditional : Query → Bool
  | group _ _ | compare _ _ _ | pattern _ _ _ | membership _ _ _ => true
  | _ => false

/-- The node shapes the answer. -/
def isShaping (query : Query) : Bool :=
  !query.isConditional && !query.isNoop

/-- The property that an aggregate function works on. -/
def target? : Query → Option Property
  | summary _ property | count (some property) => some property
  | _ => none

/-- The nodes directly below. -/
def nodes : Query → List Query
  | group _ terms => terms
  | aggregate _ functions => functions
  | _ => []

/-- The properties that the node itself holds. -/
def properties : Query → List Property
  | select properties => properties
  | sort keys => keys.map (·.property)
  | compare _ property _ | pattern _ property _ | membership _ property _ | values property
  | summary _ property | count (some property) => [property]
  | aggregate groups _ => groups
  | noop | limit _ | group _ _ | distinct | first | one | count none => []

mutual

/-- The node and all nodes below it, each before the nodes below it. -/
def preorder : Query → List Query
  | group joiner terms => group joiner terms :: preorderAll terms
  | aggregate groups functions => aggregate groups functions :: preorderAll functions
  | leaf => [leaf]

def preorderAll : List Query → List Query
  | [] => []
  | query :: rest => preorder query ++ preorderAll rest

end

mutual

/-- The nodes that are not inside an aggregate, in the same order. -/
def outer : Query → List Query
  | group joiner terms => group joiner terms :: outerAll terms
  | leaf => [leaf]

def outerAll : List Query → List Query
  | [] => []
  | query :: rest => outer query ++ outerAll rest

end

/-- Joins terms; one term needs no group, and no terms are the empty query. -/
def join (joiner : Joiner) : List Query → Query
  | [] => noop
  | [query] => query
  | terms => group joiner terms

/-- The terms that a query joins by `and`. -/
def conjuncts : Query → List Query
  | noop => []
  | group .and terms => terms
  | query => [query]

/-- Two lists of values agree place by place. -/
def sameValues : List Value → List Value → Bool
  | [], [] => true
  | v :: vs, w :: ws => v.sameIgnoringCase w && sameValues vs ws
  | _, _ => false

mutual

def same : Query → Query → Bool
  | noop, noop | distinct, distinct | first, first | one, one => true
  | limit a, limit b => a == b
  | select ps, select qs => ps == qs
  | sort ks, sort ls => ks == ls
  | group j ts, group k us => j == k && sameAll ts us
  | compare o p v, compare o' q w => o == o' && p == q && v.sameIgnoringCase w
  | pattern o p v, pattern o' q w => o == o' && p == q && v.sameIgnoringCase w
  | membership o p vs, membership o' q ws => o == o' && p == q && sameValues vs ws
  | count p, count q => p == q
  | values p, values q => p == q
  | summary o p, summary o' q => o == o' && p == q
  | aggregate ps fs, aggregate qs gs => ps == qs && sameAll fs gs
  | _, _ => false

def sameAll : List Query → List Query → Bool
  | [], [] => true
  | q :: qs, r :: rs => same q r && sameAll qs rs
  | _, _ => false

end

instance : BEq Query where
  beq := same

theorem mem_preorder_self (query : Query) : query ∈ query.preorder := by
  cases query <;> simp [preorder]

theorem preorderAll_eq_flatMap (queries : List Query) :
    preorderAll queries = queries.flatMap preorder := by
  induction queries with
  | nil => rfl
  | cons query rest ih => simp [preorderAll, ih]

theorem preorder_eq_cons (query : Query) :
    query.preorder = query :: query.nodes.flatMap preorder := by
  cases query <;> simp [preorder, nodes, preorderAll_eq_flatMap]

theorem outerAll_eq_flatMap (queries : List Query) :
    outerAll queries = queries.flatMap outer := by
  induction queries with
  | nil => rfl
  | cons query rest ih => simp [outerAll, ih]

end Query

end ResourceQuery
