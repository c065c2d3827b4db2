import ResourceQuery.Proofs.Conflicts

/-!
# The census of a tree

The rules on a tree can be checked on one walk through it, which counts the clauses that it comes by
and keeps the properties that functions work on. The walk stops at a function whose property it has
met before; at its end the counts are held against the rules. What it has counted by then is how
often each clause occurs among the nodes, so that it refuses the same trees as `validate`, and each
for the same reason.
-/

namespace ResourceQuery

open Query

/-- What has been counted on the way through a tree. Functions are grouped inside an aggregate; of
the properties that functions work on, the last one met comes first. -/
@[ext]
structure Census where
  limits : Nat := 0
  distincts : Nat := 0
  ones : Nat := 0
  firsts : Nat := 0
  values : Nat := 0
  aggregates : Nat := 0
  bareCounts : Nat := 0
  selects : Nat := 0
  ungroupedFunctions : Nat := 0
  targets : List Property := []

namespace Census

/-- Counts a function of a property. -/
def addFunction (grouped : Bool) (census : Census) (property : Property) :
    Except Conflict Census :=
  let ungrouped := if grouped then 0 else 1
  if census.targets.contains property then throw (.sharedTarget property)
  else return { census with
    ungroupedFunctions := census.ungroupedFunctions + ungrouped
    targets := property :: census.targets }

mutual

/-- Counts a node and all nodes below it. -/
def visit (grouped : Bool) (census : Census) : Query → Except Conflict Census
  | .limit _ => return { census with limits := census.limits + 1 }
  | .distinct => return { census with distincts := census.distincts + 1 }
  | .one => return { census with ones := census.ones + 1 }
  | .first => return { census with firsts := census.firsts + 1 }
  | .values _ => return { census with values := census.values + 1 }
  | .select _ => return { census with selects := census.selects + 1 }
  | .count none => return { census with bareCounts := census.bareCounts + 1 }
  | .count (some property) | .summary _ property => census.addFunction grouped property
  | .aggregate _ functions =>
    visitAll true { census with aggregates := census.aggregates + 1 } functions
  | .group _ terms => visitAll grouped census terms
  | .noop | .sort _ | .compare _ _ _ | .pattern _ _ _ | .membership _ _ _ => return census

def visitAll (grouped : Bool) (census : Census) : List Query → Except Conflict Census
  | [] => return census
  | query :: rest => do visitAll grouped (← visit grouped census query) rest

end

/-- The clauses that may appear once, with their numbers. -/
def singletons (census : Census) : List (Nat × Keyword) :=
  [(census.limits, .limit), (census.distincts, .distinct), (census.ones, .one),
    (census.firsts, .first), (census.values, .values), (census.aggregates, .aggregate),
    (census.bareCounts, .count)]

/-- Refuses the first clause with more than one occurrence. -/
def checkSingletons (singletons : List (Nat × Keyword)) : Except Conflict Unit := do
  for (number, keyword) in singletons do
    if 1 < number then throw (.repeated keyword)

/-- Holds the counts against the rules. -/
def check (census : Census) : Except Conflict Unit := do
  checkSingletons census.singletons
  if 0 < census.selects && 0 < census.values then throw .selectWithValues
  else if 0 < census.aggregates && 0 < census.ungroupedFunctions then throw .ungroupedFunction
  else if 0 < census.limits &&
      0 < census.ungroupedFunctions + census.aggregates + census.bareCounts then
    throw .limitedSummary

/-! ### The walk -/

/-- The census with more nodes counted, of which some functions are not grouped. -/
def tally (census : Census) (nodes ungrouped : List Query) : Census where
  limits := census.limits + nodes.countP (·.operation == .clause .limit)
  distincts := census.distincts + nodes.countP (·.operation == .clause .distinct)
  ones := census.ones + nodes.countP (·.operation == .clause .one)
  firsts := census.firsts + nodes.countP (·.operation == .clause .first)
  values := census.values + nodes.countP (·.operation == .clause .values)
  aggregates := census.aggregates + nodes.countP (·.operation == .clause .aggregate)
  bareCounts := census.bareCounts + nodes.countP isBareCount
  selects := census.selects + nodes.countP (·.operation == .clause .select)
  ungroupedFunctions := census.ungroupedFunctions + ungrouped.countP (·.target?.isSome)
  targets := (nodes.filterMap target?).reverse ++ census.targets

/-- The census with more nodes counted, unless one of them works on a property met before. -/
def gather (census : Census) (nodes ungrouped : List Query) : Except Conflict Census :=
  match firstRepeated census.targets (nodes.filterMap target?) with
  | some property => throw (.sharedTarget property)
  | none => return census.tally nodes ungrouped

theorem tally_append (census : Census) (nodes more ungrouped others : List Query) :
    census.tally (nodes ++ more) (ungrouped ++ others) =
      (census.tally nodes ungrouped).tally more others := by
  ext <;> simp [tally, Nat.add_assoc]

theorem gather_append (census : Census) (nodes more ungrouped others : List Query) :
    census.gather (nodes ++ more) (ungrouped ++ others) =
      census.gather nodes ungrouped >>= fun census ↦ census.gather more others := by
  rw [gather, List.filterMap_append, firstRepeated_append, gather]
  cases firstRepeated census.targets (nodes.filterMap target?) with
  | some property => rfl
  | none =>
    show _ = gather (census.tally nodes ungrouped) more others
    rw [gather, tally_append]
    rfl

theorem gather_function {census : Census} {nodes ungrouped : List Query} {property : Property}
    (h : nodes.filterMap target? = [property]) :
    census.gather nodes ungrouped =
      if census.targets.contains property then throw (.sharedTarget property)
      else return census.tally nodes ungrouped := by
  rw [gather, h, firstRepeated]
  cases census.targets.contains property <;> rfl

/-- The nodes of a tree that are not inside an aggregate, unless the whole tree is. -/
def outside : Bool → Query → List Query
  | true, _ => []
  | false, query => query.outer

theorem outside_group (grouped : Bool) (joiner : Joiner) (terms : List Query) :
    outside grouped (group joiner terms) =
      (if grouped then [] else [group joiner terms]) ++ terms.flatMap (outside grouped) := by
  cases grouped with
  | true => simp [outside]
  | false => exact congrArg _ (outerAll_eq_flatMap terms)

theorem outside_aggregate (grouped : Bool) (groups : List Property) (functions : List Query) :
    outside grouped (aggregate groups functions) =
      (if grouped then [] else [aggregate groups functions]) ++
        functions.flatMap (outside true) := by
  cases grouped <;> simp [outside, outer]

theorem visitAll_eq_gather {queries : List Query} (h : ∀ query ∈ queries, ∀ grouped census,
      visit grouped census query = census.gather query.preorder (outside grouped query))
    (grouped : Bool) (census : Census) :
    visitAll grouped census queries =
      census.gather (queries.flatMap preorder) (queries.flatMap (outside grouped)) := by
  induction queries generalizing census with
  | nil => rfl
  | cons query rest ih =>
    obtain ⟨hquery, hrest⟩ := List.forall_mem_cons.mp h
    rw [List.flatMap_cons, List.flatMap_cons, gather_append, ← hquery, visitAll]
    exact congrArg _ (funext fun census ↦ ih hrest census)

/-- The walk counts each node once. -/
theorem visit_eq_gather (query : Query) (grouped : Bool) (census : Census) :
    visit grouped census query = census.gather query.preorder (outside grouped query) := by
  induction query using nodes_induction generalizing grouped census with
  | h query ih =>
    cases query with
    | group joiner terms =>
      rw [outside_group, preorder_eq_cons, ← List.singleton_append, gather_append]
      cases grouped <;> exact visitAll_eq_gather ih _ _
    | aggregate groups functions =>
      rw [outside_aggregate, preorder_eq_cons, ← List.singleton_append, gather_append]
      cases grouped <;> exact visitAll_eq_gather ih _ _
    | summary op property =>
      rw [visit, addFunction, gather_function rfl]
      cases grouped <;> rfl
    | count property =>
      cases property with
      | some property =>
        rw [visit, addFunction, gather_function rfl]
        cases grouped <;> rfl
      | none => cases grouped <;> rfl
    | _ => cases grouped <;> rfl

/-! ### The rules -/

theorem checkSingletons_eq (singletons : List (Nat × Keyword)) :
    checkSingletons singletons =
      match (singletons.find? fun (number, _) ↦ 1 < number).map (·.2) with
      | some keyword => throw (.repeated keyword)
      | none => return := by
  induction singletons with
  | nil => rfl
  | cons entry rest ih =>
    rw [checkSingletons, List.forIn_cons, List.find?_cons]
    cases hnumber : decide (1 < entry.1) with
    | true =>
      simp only [of_decide_eq_true hnumber]
      rfl
    | false =>
      simp only [of_decide_eq_false hnumber]
      exact ih

/-- What the walk has counted at its end is what the rules are stated by. -/
theorem tally_walk (query : Query) :
    tally {} query.preorder query.outer =
      { limits := query.occurrences .limit
        distincts := query.occurrences .distinct
        ones := query.occurrences .one
        firsts := query.occurrences .first
        values := query.occurrences .values
        aggregates := query.occurrences .aggregate
        bareCounts := query.bareCounts
        selects := query.occurrences .select
        ungroupedFunctions := query.ungroupedFunctions
        targets := query.targets.reverse } := by
  simp [tally, occurrences, Query.bareCounts, Query.ungroupedFunctions, Query.targets]

theorem singletons_tally_walk (query : Query) :
    (tally {} query.preorder query.outer).singletons = query.singletons := by
  rw [tally_walk]
  rfl

/-- The walk and the check at its end refuse the same trees as `validate`, for the same reasons. -/
theorem check_visit_eq_validate (query : Query) :
    (do check (← visit false {} query)).mapError QueryError.conflict = query.validate := by
  have htargets : firstRepeated (targets {}) (query.preorder.filterMap target?) =
      firstRepeated [] query.targets := rfl
  rw [visit_eq_gather, validate, conflict?, gather, htargets]
  cases firstRepeated [] query.targets with
  | some property => rfl
  | none =>
    change Except.mapError _ (check (tally {} query.preorder query.outer)) = _
    rw [check, singletons_tally_walk, checkSingletons_eq, ← repeated?, tally_walk]
    cases query.repeated? with
    | some keyword => rfl
    | none =>
      change Except.mapError _ (ite _ _ _) = _
      split
      · rfl
      · split
        · rfl
        · split <;> rfl

end Census

end ResourceQuery
