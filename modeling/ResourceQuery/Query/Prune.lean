import ResourceQuery.Query

/-!
# Pruning

`prune` takes all nodes of one operation out of a query. A group that loses terms is joined anew,
so that no empty query is left inside and no group is left with a single term.
-/

namespace ResourceQuery.Query

mutual

def prune (operation : Operation) (query : Query) : Query :=
  if query.operation = operation then noop
  else
    match query with
    | group joiner terms => join joiner (pruneAll operation terms)
    | aggregate groups functions => aggregate groups (pruneAll operation functions)
    | leaf => leaf

/-- What is left of each query, without the empty ones. -/
def pruneAll (operation : Operation) : List Query → List Query
  | [] => []
  | query :: rest =>
    let pruned := prune operation query
    if pruned.isNoop then pruneAll operation rest else pruned :: pruneAll operation rest

end

theorem pruneAll_eq_filter (operation : Operation) (queries : List Query) :
    pruneAll operation queries = (queries.map (prune operation)).filter (!·.isNoop) := by
  induction queries with
  | nil => simp [pruneAll]
  | cons query rest ih =>
    by_cases h : (prune operation query).isNoop <;> simp [pruneAll, h, ih]

end ResourceQuery.Query
