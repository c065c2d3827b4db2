import ResourceQuery.Proofs.MergeGrouping

/-!
# What pruning leaves

Pruning takes out the nodes of an operation with all that is below them, and nothing else. What is
left is joined anew, so that no empty query stands inside the tree and no group has fewer than two
terms; and in such a tree without nodes of the operation there is nothing more to prune.
-/

namespace ResourceQuery.Query

variable {operation : Operation} {query : Query}

/-! ### Nodes that are spared -/

mutual

/-- The nodes that are neither of the operation nor below such a node, in their order. -/
def spared (operation : Operation) (query : Query) : List Query :=
  if query.operation = operation then []
  else
    match query with
    | group joiner terms => group joiner terms :: sparedAll operation terms
    | aggregate groups functions => aggregate groups functions :: sparedAll operation functions
    | leaf => [leaf]

def sparedAll (operation : Operation) : List Query → List Query
  | [] => []
  | query :: rest => spared operation query ++ sparedAll operation rest

end

theorem sparedAll_eq_flatMap (operation : Operation) (queries : List Query) :
    sparedAll operation queries = queries.flatMap (spared operation) := by
  induction queries with
  | nil => simp [sparedAll]
  | cons query rest ih => simp [sparedAll, ih]

theorem spared_of_eq (h : query.operation = operation) : query.spared operation = [] := by
  unfold spared
  rw [if_pos h]

theorem spared_of_ne (h : query.operation ≠ operation) :
    query.spared operation = query :: query.nodes.flatMap (spared operation) := by
  unfold spared
  rw [if_neg h]
  cases query <;> simp [nodes, sparedAll_eq_flatMap]

/-- An aggregate keeps its groups, and its functions that are not of the operation. -/
def withoutFunctions (operation : Operation) : Query → Query
  | aggregate groups functions => aggregate groups (functions.filter (·.operation != operation))
  | query => query

theorem OnlyFunctions.of_mem_nodes {node : Query} (h : query.OnlyFunctions)
    (hnode : node ∈ query.nodes) : node.OnlyFunctions := by
  intro groups functions hmem
  refine h groups functions ?_
  rw [preorder_eq_cons]
  exact List.mem_cons_of_mem _ (List.mem_flatMap.mpr ⟨node, hnode, hmem⟩)

theorem OnlyFunctions.functions {groups : List Property} {functions : List Query}
    (h : (aggregate groups functions).OnlyFunctions) :
    ∀ function ∈ functions, function.isFunction = true :=
  h groups functions (mem_preorder_self _)

theorem prune_of_eq (h : query.operation = operation) : query.prune operation = noop := by
  unfold prune
  rw [if_pos h]

theorem prune_group {joiner : Joiner} {terms : List Query}
    (h : (group joiner terms).operation ≠ operation) :
    (group joiner terms).prune operation = join joiner (pruneAll operation terms) := by
  unfold prune
  exact if_neg h

theorem prune_aggregate {groups : List Property} {functions : List Query}
    (h : (aggregate groups functions).operation ≠ operation) :
    (aggregate groups functions).prune operation =
      aggregate groups (pruneAll operation functions) := by
  unfold prune
  exact if_neg h

theorem prune_leaf (h : query.operation ≠ operation)
    (hgroup : ∀ joiner terms, query ≠ group joiner terms)
    (haggregate : ∀ groups functions, query ≠ aggregate groups functions) :
    query.prune operation = query := by
  unfold prune
  rw [if_neg h]
  split
  · exact absurd rfl (hgroup _ _)
  · exact absurd rfl (haggregate _ _)
  · rfl

theorem prune_eq_self_of_isFunction (h : query.isFunction = true)
    (hne : query.operation ≠ operation) : query.prune operation = query := by
  cases query with
  | summary op property => exact prune_leaf hne (by simp) (by simp)
  | count property => exact prune_leaf hne (by simp) (by simp)
  | _ => cases h

/-- Of functions pruning leaves those that are not of the operation. -/
theorem pruneAll_of_isFunction {functions : List Query}
    (h : ∀ function ∈ functions, function.isFunction = true) :
    pruneAll operation functions = functions.filter (·.operation != operation) := by
  induction functions with
  | nil => simp [pruneAll]
  | cons function rest ih =>
    rw [List.forall_mem_cons] at h
    rw [pruneAll, ih h.2]
    by_cases hoperation : function.operation = operation
    · simp [prune_of_eq hoperation, isNoop, hoperation]
    · have hnoop : function.isNoop = false := by
        cases function <;> first | rfl | cases h.1
      simp [prune_eq_self_of_isFunction h.1 hoperation, hnoop, hoperation]

/-! ### Leaves -/

/-- What is collected from a tree comes, after pruning, from the pruned terms. -/
theorem Gathers.flatMap_pruneAll {β : Type} {collect : Query → List β} (h : Gathers collect)
    (operation : Operation) (terms : List Query) :
    (pruneAll operation terms).flatMap collect =
      terms.flatMap fun term ↦ collect (prune operation term) := by
  rw [pruneAll_eq_filter, h.filter_isNoop, List.flatMap_map]

theorem filter_isLeaf_of_isFunction (h : query.isFunction = true) :
    query.preorder.filter isLeaf = [query] := by
  cases query <;> first | rfl | cases h

theorem filter_isLeaf_functions {functions : List Query}
    (h : ∀ function ∈ functions, function.isFunction = true) :
    functions.flatMap (fun function ↦ function.preorder.filter isLeaf) = functions := by
  induction functions with
  | nil => rfl
  | cons function rest ih =>
    rw [List.forall_mem_cons] at h
    rw [List.flatMap_cons, filter_isLeaf_of_isFunction h.1, ih h.2, List.singleton_append]

theorem withoutFunctions_of_isFunction (h : query.isFunction = true) :
    query.withoutFunctions operation = query := by
  cases query <;> first | rfl | cases h

theorem spared_of_isFunction (h : query.isFunction = true) :
    query.spared operation = if query.operation = operation then [] else [query] := by
  unfold spared
  cases query <;> first | rfl | cases h

/-- The functions that are spared are those that are not of the operation. -/
theorem spared_functions {functions : List Query}
    (h : ∀ function ∈ functions, function.isFunction = true) :
    functions.flatMap (spared operation) = functions.filter (·.operation != operation) := by
  induction functions with
  | nil => rfl
  | cons function rest ih =>
    rw [List.forall_mem_cons] at h
    rw [List.flatMap_cons, spared_of_isFunction h.1, ih h.2]
    by_cases hoperation : function.operation = operation <;> simp [hoperation]

theorem isLeaf_of_isFunction (h : query.isFunction = true) : query.isLeaf = true := by
  cases query <;> first | rfl | cases h

theorem gathers_leaves : Gathers fun query ↦ query.preorder.filter isLeaf :=
  gathers_filter isWalk_preorder rfl fun _ _ ↦ rfl

/-- The leaves of a pruned tree are those that were spared, aggregates without their functions of
the operation. -/
theorem leaves_prune (h : query.OnlyFunctions) :
    (query.prune operation).preorder.filter isLeaf =
      ((query.spared operation).filter isLeaf).map (withoutFunctions operation) := by
  induction query using nodes_induction with
  | h query ih =>
    by_cases hoperation : query.operation = operation
    · rw [prune_of_eq hoperation, spared_of_eq hoperation]
      rfl
    · rw [spared_of_ne hoperation]
      cases query with
      | group joiner terms =>
        have hterms (term : Query) (hmem : term ∈ terms) :=
          ih term hmem (h.of_mem_nodes hmem)
        rw [prune_group hoperation, gathers_leaves.join, gathers_leaves.flatMap_pruneAll,
          List.flatMap_congr hterms, List.filter_cons_of_neg (by simp [isLeaf]),
          List.filter_flatMap, List.map_flatMap]
        rfl
      | aggregate groups functions =>
        have hfunctions := h.functions
        have hkept : ∀ function ∈ functions.filter (·.operation != operation),
            function.isFunction = true := fun function hmem ↦
          hfunctions function (List.mem_filter.mp hmem).1
        have hleaves : (functions.filter (·.operation != operation)).filter isLeaf =
            functions.filter (·.operation != operation) :=
          List.filter_eq_self.mpr fun function hmem ↦ isLeaf_of_isFunction (hkept function hmem)
        have hmap : (functions.filter (·.operation != operation)).map (withoutFunctions operation) =
            functions.filter (·.operation != operation) :=
          (List.map_congr_left fun function hmem ↦
            withoutFunctions_of_isFunction (hkept function hmem)).trans (List.map_id _)
        rw [prune_aggregate hoperation, pruneAll_of_isFunction hfunctions, nodes,
          isWalk_preorder.of_aggregate, List.filter_cons_of_pos rfl, List.filter_flatMap,
          filter_isLeaf_functions hkept, spared_functions hfunctions,
          List.filter_cons_of_pos rfl, hleaves, List.map_cons, hmap]
        rfl
      | _ =>
        rw [prune_leaf hoperation (by simp) (by simp)]
        rfl

/-! ### Trees in which nothing is left to prune -/

/-- The node is not of the operation, is not the empty query, and joins no fewer than two terms. -/
structure IsTrimmed (operation : Operation) (node : Query) : Prop where
  operation_ne : node.operation ≠ operation
  isNoop : node.isNoop = false
  two_le (joiner : Joiner) (terms : List Query) (h : node = group joiner terms) : 2 ≤ terms.length

/-- All nodes of the tree are trimmed. -/
def Trimmed (operation : Operation) (query : Query) : Prop :=
  ∀ node ∈ query.preorder, node.IsTrimmed operation

theorem trimmed_iff : query.Trimmed operation ↔
    query.IsTrimmed operation ∧ ∀ node ∈ query.nodes, node.Trimmed operation := by
  simp only [Trimmed]
  rw [preorder_eq_cons, List.forall_mem_cons, List.forall_mem_flatMap]

theorem isTrimmed_of_nodes_eq_nil (hoperation : query.operation ≠ operation)
    (hnoop : query.isNoop = false) (hgroup : ∀ joiner terms, query ≠ group joiner terms) :
    query.IsTrimmed operation :=
  ⟨hoperation, hnoop, fun joiner terms heq ↦ absurd heq (hgroup joiner terms)⟩

theorem trimmed_of_isFunction (h : query.isFunction = true) (hne : query.operation ≠ operation) :
    query.Trimmed operation := by
  rw [trimmed_iff]
  cases query with
  | summary op property => exact ⟨isTrimmed_of_nodes_eq_nil hne rfl (by simp), by simp [nodes]⟩
  | count property => exact ⟨isTrimmed_of_nodes_eq_nil hne rfl (by simp), by simp [nodes]⟩
  | _ => cases h

/-- Trimmed terms are joined to a trimmed tree, or to the empty query if there are none. -/
theorem trimmed_join {joiner : Joiner} {terms : List Query}
    (hne : Operation.clause (.group joiner) ≠ operation)
    (h : ∀ term ∈ terms, term.Trimmed operation) :
    join joiner terms = noop ∨ (join joiner terms).Trimmed operation := by
  rcases terms with _ | ⟨term, _ | ⟨second, rest⟩⟩
  · exact .inl rfl
  · exact .inr (h term List.mem_cons_self)
  · refine .inr (trimmed_iff.mpr ⟨⟨hne, rfl, ?_⟩, h⟩)
    rintro _ _ ⟨rfl, rfl⟩
    simp

/-- Pruning leaves nothing, or a trimmed tree. -/
theorem trimmed_prune (operation : Operation) (h : query.OnlyFunctions) :
    query.prune operation = noop ∨ (query.prune operation).Trimmed operation := by
  induction query using nodes_induction with
  | h query ih =>
    by_cases hoperation : query.operation = operation
    · exact .inl (prune_of_eq hoperation)
    · cases query with
      | noop => exact .inl (prune_leaf hoperation (by simp) (by simp))
      | group joiner terms =>
        rw [prune_group hoperation]
        refine trimmed_join hoperation fun term hmem ↦ ?_
        obtain ⟨⟨whole, hwhole, rfl⟩, hnoop⟩ := mem_pruneAll.mp hmem
        refine (ih whole hwhole (h.of_mem_nodes hwhole)).resolve_left fun heq ↦ ?_
        simp [heq, isNoop] at hnoop
      | aggregate groups functions =>
        rw [prune_aggregate hoperation, pruneAll_of_isFunction h.functions]
        refine .inr (trimmed_iff.mpr ⟨isTrimmed_of_nodes_eq_nil hoperation rfl (by simp), ?_⟩)
        intro function hmem
        obtain ⟨hmem, hne⟩ := List.mem_filter.mp hmem
        exact trimmed_of_isFunction (h.functions function hmem) (by simpa using hne)
      | _ =>
        rw [prune_leaf hoperation (by simp) (by simp)]
        exact .inr (trimmed_iff.mpr
          ⟨isTrimmed_of_nodes_eq_nil hoperation rfl (by simp), by simp [nodes]⟩)

theorem pruneAll_eq_self {queries : List Query}
    (h : ∀ query ∈ queries, query.prune operation = query ∧ query.isNoop = false) :
    pruneAll operation queries = queries := by
  induction queries with
  | nil => simp [pruneAll]
  | cons query rest ih =>
    rw [List.forall_mem_cons] at h
    rw [pruneAll, h.1.1, h.1.2, ih h.2]
    rfl

/-- A trimmed tree is pruned already. -/
theorem Trimmed.prune_eq_self (h : query.Trimmed operation) : query.prune operation = query := by
  induction query using nodes_induction with
  | h query ih =>
    obtain ⟨⟨hoperation, -, htwo⟩, hnodes⟩ := trimmed_iff.mp h
    have hself : pruneAll operation query.nodes = query.nodes :=
      pruneAll_eq_self fun node hmem ↦
        ⟨ih node hmem (hnodes node hmem), (trimmed_iff.mp (hnodes node hmem)).1.isNoop⟩
    cases query with
    | group joiner terms =>
      have hlength := htwo joiner terms rfl
      rw [nodes] at hself
      rw [prune_group hoperation, hself]
      rcases terms with _ | ⟨term, _ | ⟨second, rest⟩⟩
      · cases hlength
      · cases Nat.le_of_succ_le_succ hlength
      · rfl
    | aggregate groups functions =>
      rw [nodes] at hself
      rw [prune_aggregate hoperation, hself]
    | _ => exact prune_leaf hoperation (by simp) (by simp)

/-! ### The pruned tree -/

/-- Pruning takes the nodes of an operation out, and all that is below them, and keeps every other
leaf; a root of the operation leaves nothing. The groups that are left have at least two terms, the
empty query stands alone if at all, and a second pruning changes nothing. -/
theorem prune_takes_out (operation : Operation) (h : query.OnlyFunctions) :
    (query.operation = operation → query.prune operation = noop) ∧
    (operation ≠ .noop → ∀ node ∈ (query.prune operation).preorder, node.operation ≠ operation) ∧
    (∀ joiner terms, group joiner terms ∈ (query.prune operation).preorder → 2 ≤ terms.length) ∧
    (noop ∈ (query.prune operation).preorder → query.prune operation = noop) ∧
    (query.prune operation).preorder.filter isLeaf =
      ((query.spared operation).filter isLeaf).map (withoutFunctions operation) ∧
    (query.prune operation).prune operation = query.prune operation := by
  refine ⟨prune_of_eq, ?_, ?_, ?_, leaves_prune h, ?_⟩ <;>
    obtain hnoop | htrimmed := trimmed_prune operation h
  · rw [hnoop]
    rintro hne node hmem rfl
    obtain rfl := List.mem_singleton.mp hmem
    exact hne rfl
  · exact fun _ node hmem ↦ (htrimmed node hmem).operation_ne
  · rw [hnoop]
    intro joiner terms hmem
    cases List.mem_singleton.mp hmem
  · exact fun joiner terms hmem ↦ (htrimmed _ hmem).two_le joiner terms rfl
  · exact fun _ ↦ hnoop
  · intro hmem
    cases (htrimmed noop hmem).isNoop
  · rw [hnoop]
    exact ite_self noop
  · exact htrimmed.prune_eq_self

/-- A disjunction goes, a conjunction that loses its other term gives way to an aggregate, and that
loses a function. -/
theorem prune_takes_out_nested :
    let query := group .and [group .and [count none, aggregate [⟨["a"]⟩] [count none,
      summary .sum ⟨["b"]⟩]], group .or [count (some ⟨["c"]⟩)]]
    let pruned := aggregate [⟨["a"]⟩] [summary .sum ⟨["b"]⟩]
    query.prune (.clause .count) = pruned ∧ pruned.prune (.clause .count) = pruned ∧
      pruned.preorder.filter isLeaf =
        ((query.spared (.clause .count)).filter isLeaf).map
          (withoutFunctions (.clause .count)) := by
  intro query pruned
  have honly : query.OnlyFunctions := by
    intro groups functions hmem
    simp only [query, preorder, preorderAll, List.mem_cons, List.mem_append, List.not_mem_nil,
      reduceCtorEq, aggregate.injEq, false_or, or_false] at hmem
    simp [hmem.2, isFunction]
  have hpruned := prune_takes_out (.clause .count) honly
  have heq : query.prune (.clause .count) = pruned := rfl
  rw [heq] at hpruned
  exact ⟨heq, hpruned.2.2.2.2.2, hpruned.2.2.2.2.1⟩

end ResourceQuery.Query
