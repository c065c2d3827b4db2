import ResourceQuery.Proofs.SpineFolding

/-!
# Reading without looking at local dates

The parser and what follows it ask of a value for its type, for the number it is and whether it is
a text, and for nothing that sets one local date apart from another. So the tree of tokens whose
local dates are blanked is the tree of the tokens, with its local dates blanked.
-/

namespace ResourceQuery

/-- The value, or one and the same moment for every local date. -/
def Value.undated : Value → Value
  | moment instant =>
    .moment (if instant.anchor = .local then ⟨.local, 0, 0, .utc⟩ else instant)
  | value => value

namespace Value

@[simp]
theorem typeName_undated (value : Value) : value.undated.typeName = value.typeName := by
  cases value <;> rfl

@[simp]
theorem integer?_undated (value : Value) : value.undated.integer? = value.integer? := by
  cases value <;> rfl

@[simp]
theorem isText_undated (value : Value) : Parse.isText value.undated = Parse.isText value := by
  cases value <;> rfl

end Value

def Token.undated (token : Token) : Token :=
  { token with value := token.value.map Value.undated }

@[simp]
theorem Token.symbol_undated (token : Token) : token.undated.symbol = token.symbol := rfl

def TokenStream.undated (stream : TokenStream) : TokenStream :=
  { stream with tokens := stream.tokens.map Token.undated }

@[simp]
theorem TokenStream.length_undated (stream : TokenStream) :
    stream.undated.tokens.length = stream.tokens.length :=
  List.length_map _

namespace Query

mutual

def undated : Query → Query
  | group joiner terms => group joiner (undatedAll terms)
  | compare op property value => compare op property value.undated
  | pattern op property value => pattern op property value.undated
  | membership op property entries => membership op property (entries.map Value.undated)
  | aggregate groups functions => aggregate groups (undatedAll functions)
  | query => query

def undatedAll : List Query → List Query
  | [] => []
  | query :: rest => query.undated :: undatedAll rest

end

theorem undatedAll_eq_map (queries : List Query) : undatedAll queries = queries.map undated := by
  induction queries with
  | nil => rfl
  | cons query rest ih => rw [undatedAll, ih, List.map_cons]

@[simp]
theorem undated_group (joiner : Joiner) (terms : List Query) :
    (group joiner terms).undated = group joiner (terms.map undated) := by
  rw [undated, undatedAll_eq_map]

@[simp]
theorem undated_aggregate (groups : List Property) (functions : List Query) :
    (aggregate groups functions).undated = aggregate groups (functions.map undated) := by
  rw [undated, undatedAll_eq_map]

theorem operation_undated (query : Query) : query.undated.operation = query.operation := by
  cases query <;> rfl

theorem isFunction_undated (query : Query) : query.undated.isFunction = query.isFunction := by
  cases query <;> rfl

end Query

def Child.undated : Child → Child
  | node query => node query.undated
  | value v => value v.undated
  | child => child

/-! ### Steps of the parser -/

namespace Parse

open Run

variable {α β : Type} {f : α → α} {g : β → β} {parser parser' : Parse α}
  {next next' : α → Parse β}

/-- On the stream without local dates the second parser does what the first does on the stream:
it fails alike, or finds what is left of the same without local dates, which `f` makes. -/
def Mirrors (f : α → α) (parser parser' : Parse α) : Prop :=
  ∀ stream : TokenStream, parser' stream.undated =
    match parser stream with
    | .ok a rest => .ok (f a) rest.undated
    | .error error rest => .error error rest.undated

theorem Mirrors.bind (h : Mirrors f parser parser')
    (hnext : ∀ a, Mirrors g (next a) (next' (f a))) :
    Mirrors g (parser >>= next) (parser' >>= next') := by
  intro stream
  have hfirst := h stream
  cases hparser : parser stream with
  | ok a middle =>
    rw [hparser] at hfirst
    rw [bind_ok hfirst, bind_ok hparser]
    exact hnext a middle
  | error error middle =>
    rw [hparser] at hfirst
    rw [bind_error hfirst, bind_error hparser]

theorem mirrors_pure (a : α) : Mirrors f (pure a) (pure (f a)) := fun _ ↦ rfl

theorem Mirrors.map {k k' : α → β} (h : Mirrors f parser parser') (hk : ∀ a, k' (f a) = g (k a)) :
    Mirrors g (do return k (← parser)) (do return k' (← parser')) := by
  refine h.bind fun a ↦ ?_
  rw [hk]
  exact mirrors_pure (k a)

theorem mirrors_ite {p : Prop} [Decidable p] {yes no yes' no' : Parse α}
    (hyes : Mirrors f yes yes') (hno : Mirrors f no no') :
    Mirrors f (if p then yes else no) (if p then yes' else no') := by
  split
  · exact hyes
  · exact hno

theorem mirrors_fail (place : Nat) (fault : SyntaxFault) :
    Mirrors f (fail place fault : Parse α) (fail place fault) := fun _ ↦ rfl

theorem mirrors_unexpected (token : Token) (expected : Expected) :
    Mirrors f (unexpected token expected : Parse α) (unexpected token.undated expected) :=
  mirrors_fail _ _

theorem mirrors_get : Mirrors TokenStream.undated get get := fun _ ↦ rfl

theorem mirrors_advance : Mirrors Token.undated advance advance := by
  rintro ⟨_ | ⟨token, tokens⟩, stop⟩ <;> rfl

theorem mirrors_skip : Mirrors id skip skip := mirrors_advance.bind fun _ ↦ mirrors_pure ()

theorem mirrors_peek : Mirrors id peek peek := by
  rintro ⟨_ | ⟨token, tokens⟩, stop⟩ <;> rfl

theorem mirrors_nextIs (symbol : Symbol) : Mirrors id (nextIs symbol) (nextIs symbol) :=
  mirrors_peek.bind fun _ ↦ mirrors_pure _

theorem mirrors_position : Mirrors id position position := by
  rintro ⟨_ | ⟨token, tokens⟩, stop⟩ <;> rfl

theorem mirrors_expect (symbol : Symbol) (expected : Expected) :
    Mirrors Token.undated (expect symbol expected) (expect symbol expected) :=
  mirrors_advance.bind fun token ↦
    mirrors_ite (mirrors_pure token) (mirrors_unexpected token expected)

theorem mirrors_shaped {f : α → α} (place : Nat) {shape shape' : Except ShapeFault α}
    (h : shape' = shape.map f) : Mirrors f (shaped place shape) (shaped place shape') := by
  subst h
  cases shape with
  | ok a => exact mirrors_pure a
  | error fault => exact mirrors_fail place _

theorem mirrors_itemsAfter {separator : Symbol} (h : Mirrors f parser parser') (limit : Nat) :
    Mirrors (List.map f) (itemsAfter separator parser limit)
      (itemsAfter separator parser' limit) := by
  induction limit with
  | zero => exact mirrors_pure []
  | succ limit ih =>
    refine (mirrors_nextIs separator).bind fun seen ↦ mirrors_ite ?_ (mirrors_pure [])
    refine mirrors_skip.bind fun _ ↦ h.bind fun a ↦ ih.map fun _ ↦ ?_
    rfl

theorem mirrors_items {separator : Symbol} (h : Mirrors f parser parser') :
    Mirrors (List.map f) (items separator parser) (items separator parser') := by
  refine h.bind fun _ ↦ mirrors_get.bind fun stream ↦ ?_
  rw [TokenStream.length_undated]
  refine (mirrors_itemsAfter h _).map fun _ ↦ ?_
  rfl

/-! ### The parser -/

theorem segments?_undated (token : Token) : segments? token.undated = segments? token := by
  obtain ⟨symbol, value, text, position⟩ := token
  cases symbol <;> try rfl
  obtain _ | value := value
  · rfl
  · cases value <;> rfl

theorem mirrors_segment : Mirrors id segment segment := by
  refine mirrors_advance.bind fun token ↦ ?_
  rw [segments?_undated]
  cases segments? token with
  | some segments => exact mirrors_pure segments
  | none => exact mirrors_unexpected token .property

theorem mirrors_path : Mirrors id path path := by
  refine (mirrors_expect _ _).bind fun token ↦ mirrors_get.bind fun stream ↦ ?_
  rw [TokenStream.length_undated]
  refine (mirrors_itemsAfter mirrors_segment _).map fun more ↦ ?_
  rw [List.map_id]
  rfl

theorem mirrors_property : Mirrors id property property := by
  refine (mirrors_nextIs _).bind fun compound ↦ mirrors_ite ?_ mirrors_path
  refine mirrors_skip.bind fun _ ↦ (mirrors_items mirrors_path).bind fun parts ↦ ?_
  rw [List.map_id]
  refine (mirrors_expect _ _).map fun _ ↦ ?_
  rfl

theorem mirrors_list_property : Mirrors id (list property) (list property) := by
  have h : Mirrors (List.map id) (list property) (list property) := mirrors_items mirrors_property
  rwa [List.map_id_fun] at h

theorem slashedWords_undated : ∀ tokens : List Token,
    slashedWords (tokens.map Token.undated) =
      ((slashedWords tokens).1, (slashedWords tokens).2.map Token.undated)
  | slash :: word :: rest => by
    have ih := slashedWords_undated rest
    rw [List.map_cons, List.map_cons, slashedWords, slashedWords, Token.symbol_undated,
      Token.symbol_undated, ih]
    split <;> rfl
  | [_] => rfl
  | [] => rfl

theorem mirrors_bareText (head : String) : Mirrors id (bareText head) (bareText head) := by
  rintro ⟨tokens, stop⟩
  change EStateM.Result.ok _ _ = EStateM.Result.ok _ _
  dsimp only [TokenStream.undated]
  rw [slashedWords_undated]
  rfl

theorem mirrors_value : Mirrors Value.undated value value := by
  refine mirrors_advance.bind fun token ↦ ?_
  obtain ⟨symbol, found, text, place⟩ := token
  cases symbol with
  | literal =>
    cases found with
    | none => exact mirrors_pure Value.null
    | some value => exact mirrors_pure value
  | property =>
    refine (mirrors_bareText text).map fun _ ↦ ?_
    rfl
  | direction order =>
    refine (mirrors_nextIs _).bind fun bare ↦ mirrors_ite ?_ (mirrors_unexpected _ .value)
    refine mirrors_advance.bind fun word ↦ (mirrors_bareText _).map fun _ ↦ ?_
    rfl
  | _ => exact mirrors_unexpected _ .value

theorem mirrors_infixTail (property : Property) :
    Mirrors Query.undated (infixTail property) (infixTail property) := by
  refine mirrors_advance.bind fun token ↦ ?_
  obtain ⟨symbol, found, text, place⟩ := token
  cases symbol with
  | comparison op =>
    refine mirrors_value.map fun value ↦ ?_
    rw [Query.undated]
  | _ => exact mirrors_unexpected _ .comparison

theorem mirrors_subject : Mirrors id subject subject := by
  refine mirrors_property.bind fun property ↦ (mirrors_expect _ _).map fun _ ↦ ?_
  rfl

theorem limitArgument_undated (value : Value) :
    Query.limitArgument value.undated = Query.limitArgument value := by
  rw [Query.limitArgument, Query.limitArgument, Value.integer?_undated, Value.typeName_undated]

theorem mirrors_limitNumber : Mirrors id limitNumber limitNumber := by
  refine mirrors_advance.bind fun token ↦ ?_
  obtain ⟨symbol, found, text, place⟩ := token
  cases symbol with
  | literal =>
    cases found with
    | none => exact mirrors_unexpected ⟨.literal, none, text, place⟩ .count
    | some value =>
      refine mirrors_shaped place ?_
      rw [limitArgument_undated, Except.map_id]
      rfl
  | _ => exact mirrors_unexpected _ .count

theorem mirrors_limit : Mirrors id limit limit := by
  refine mirrors_limitNumber.bind fun number ↦ (mirrors_nextIs _).bind fun paged ↦ ?_
  refine mirrors_ite (mirrors_skip.bind fun _ ↦ mirrors_limitNumber.map fun _ ↦ ?_)
    (mirrors_pure _)
  rfl

theorem mirrors_sortKey : Mirrors id sortKey sortKey := by
  refine mirrors_peek.bind fun symbol ↦ ?_
  have hplain : Mirrors id (do return (⟨.ascending, ← property⟩ : SortKey))
      (do return (⟨.ascending, ← property⟩ : SortKey)) := mirrors_property.map fun _ ↦ by rfl
  cases symbol with
  | direction order =>
    refine mirrors_skip.bind fun _ ↦ mirrors_property.map fun _ ↦ ?_
    rfl
  | _ => exact hplain

theorem mirrors_pattern (op : PatternOp) :
    Mirrors Query.undated (pattern op) (pattern op) := by
  refine mirrors_subject.bind fun property ↦ mirrors_position.bind fun place ↦ ?_
  refine mirrors_value.bind fun value ↦ ?_
  rw [Value.isText_undated, Value.typeName_undated]
  exact mirrors_ite (mirrors_fail _ _) (mirrors_pure (Query.pattern op property value))

theorem mirrors_count : Mirrors Query.undated count count := by
  refine (mirrors_nextIs _).bind fun bare ↦ mirrors_ite (mirrors_pure _) ?_
  refine mirrors_property.map fun _ ↦ ?_
  rfl

theorem mirrors_call (h : Mirrors f parser parser') : Mirrors f (call parser) (call parser') := by
  refine mirrors_skip.bind fun _ ↦ (mirrors_expect _ _).bind fun _ ↦ h.bind fun a ↦ ?_
  refine (mirrors_expect _ _).map fun _ ↦ ?_
  rfl

theorem mirrors_aggregateItem : Mirrors Child.undated aggregateItem aggregateItem := by
  refine mirrors_peek.bind fun symbol ↦ ?_
  have hgroup : Mirrors Child.undated (do return Child.property (← property))
      (do return Child.property (← property)) := mirrors_property.map fun _ ↦ by rfl
  have hother : Mirrors Child.undated (do unexpected (← advance) .groupOrFunction)
      (do unexpected (← advance) .groupOrFunction) :=
    mirrors_advance.bind fun token ↦ mirrors_unexpected token _
  cases symbol with
  | property => exact hgroup
  | openParen => exact hgroup
  | function keyword =>
    cases keyword with
    | summary op =>
      have hcall : Mirrors Query.undated (call (.summary op <$> property))
          (call (.summary op <$> property)) := mirrors_call (mirrors_property.map fun _ ↦ by rfl)
      exact hcall.map fun _ ↦ by rfl
    | count => exact (mirrors_call mirrors_count).map fun _ ↦ by rfl
    | _ => exact hother
  | _ => exact hother

theorem describe_undated (child : Child) : child.undated.describe = child.describe := by
  cases child with
  | node query => cases query <;> rfl
  | value value => rw [Child.undated, Child.describe, Value.typeName_undated]; rfl
  | _ => rfl

theorem add_function_undated (groups : List Property) (functions : List Query) (function : Query) :
    (Query.aggregate groups (functions.map Query.undated)).add (.node function.undated) =
      ((Query.aggregate groups functions).add (.node function)).map Query.undated := by
  rw [Query.add_node, Query.add_node, Query.isFunction_undated, Query.operation_undated]
  split
  · change _ = Except.ok (Query.aggregate groups (functions ++ [function])).undated
    rw [Query.undated_aggregate, List.map_append, List.map_singleton]
  · rfl

theorem add_undated (query : Query) (child : Child) :
    query.undated.add child.undated = (query.add child).map Query.undated := by
  have hrefused (fault : String → ShapeFault) :
      (throw (fault child.undated.describe) : Except ShapeFault Query) =
        (throw (fault child.describe) : Except ShapeFault Query).map Query.undated := by
    rw [describe_undated]
    rfl
  cases query with
  | select properties =>
    cases child with
    | property => rfl
    | _ => exact hrefused _
  | sort keys =>
    cases child with
    | sortKey => rfl
    | _ => exact hrefused _
  | group joiner terms =>
    rw [Query.undated_group]
    cases child with
    | node term =>
      change Except.ok (Query.group joiner (terms.map Query.undated ++ [term.undated])) =
        Except.ok (Query.group joiner (terms ++ [term])).undated
      rw [Query.undated_group, List.map_append, List.map_singleton]
    | _ => exact hrefused _
  | membership op property entries =>
    cases child with
    | value value =>
      change Except.ok (Query.membership op property
          (entries.map Value.undated ++ [value.undated])) =
        Except.ok (Query.membership op property ((entries ++ [value]).map Value.undated))
      rw [List.map_append, List.map_singleton]
    | _ => exact hrefused _
  | count counted =>
    cases counted <;> cases child with
    | property => rfl
    | _ => exact hrefused _
  | limit range =>
    obtain ⟨_ | start, count⟩ := range
    · cases child with
      | value value =>
        change (Query.limitArgument value.undated >>= fun n ↦ pure (.limit ⟨some count, n⟩)) =
          (Query.limitArgument value >>= fun n ↦ pure (.limit ⟨some count, n⟩)).map Query.undated
        rw [limitArgument_undated]
        cases Query.limitArgument value <;> rfl
      | _ => exact hrefused _
    · cases child with
      | value => rfl
      | _ => exact hrefused _
  | aggregate groups functions =>
    rw [Query.undated_aggregate]
    cases child with
    | property => cases functions <;> rfl
    | node function => exact add_function_undated groups functions function
    | _ => cases functions <;> exact hrefused _
  | _ => exact hrefused _

theorem mirrors_addItem (query : Query) :
    Mirrors Query.undated (addItem query) (addItem query.undated) := by
  refine mirrors_position.bind fun place ↦ mirrors_aggregateItem.bind fun item ↦ ?_
  exact mirrors_shaped place (add_undated query item)

theorem mirrors_addItems (query : Query) (limit : Nat) :
    Mirrors Query.undated (addItems query limit) (addItems query.undated limit) := by
  induction limit generalizing query with
  | zero => exact mirrors_pure query
  | succ limit ih =>
    refine (mirrors_nextIs _).bind fun seen ↦ mirrors_ite ?_ (mirrors_pure query)
    exact mirrors_skip.bind fun _ ↦ (mirrors_addItem query).bind ih

theorem mirrors_aggregate : Mirrors Query.undated aggregate aggregate := by
  refine (mirrors_addItem (.aggregate [] [])).bind fun query ↦ mirrors_get.bind fun stream ↦ ?_
  rw [TokenStream.length_undated]
  exact mirrors_addItems query _

theorem mirrors_arguments {inner : Parse Query} (h : Mirrors Query.undated inner inner)
    (keyword : Keyword) : Mirrors Query.undated (arguments inner keyword)
      (arguments inner keyword) := by
  cases keyword with
  | limit => exact mirrors_limit.map fun _ ↦ by rfl
  | select => exact mirrors_list_property.map fun _ ↦ by rfl
  | sort =>
    have hkeys : Mirrors (List.map id) (list sortKey) (list sortKey) :=
      mirrors_items mirrors_sortKey
    rw [List.map_id_fun] at hkeys
    exact hkeys.map fun _ ↦ by rfl
  | group joiner => exact (mirrors_items h).map fun _ ↦ (Query.undated_group _ _).symm
  | compare op =>
    refine mirrors_subject.bind fun property ↦ mirrors_value.map fun value ↦ ?_
    rfl
  | pattern op => exact mirrors_pattern op
  | membership op =>
    refine mirrors_subject.bind fun property ↦ (mirrors_items mirrors_value).map fun entries ↦ ?_
    rfl
  | distinct => exact mirrors_pure Query.distinct
  | first => exact mirrors_pure Query.first
  | one => exact mirrors_pure Query.one
  | count => exact mirrors_count
  | values => exact mirrors_property.map fun _ ↦ by rfl
  | summary op => exact mirrors_property.map fun _ ↦ by rfl
  | aggregate => exact mirrors_aggregate

theorem afterSegments_undated : ∀ tokens : List Token,
    afterSegments (tokens.map Token.undated) = (afterSegments tokens).map Token.undated
  | slash :: token :: rest => by
    have ih := afterSegments_undated rest
    rw [List.map_cons, List.map_cons, afterSegments, afterSegments, Token.symbol_undated,
      Token.symbol_undated, ih]
    split <;> rfl
  | [_] => rfl
  | [] => rfl

theorem beginsCompound_undated (stream : TokenStream) :
    beginsCompound stream.undated.tokens = beginsCompound stream.tokens := by
  obtain ⟨_ | ⟨opening, _ | ⟨word, rest⟩⟩, stop⟩ := stream
  · rfl
  · rfl
  · change (word.symbol == .property &&
      (afterSegments (rest.map Token.undated)).head?.any fun token ↦
        token.symbol == .comma || token.symbol == .closeParen) = _
    rw [afterSegments_undated, List.head?_map, Option.any_map]
    rfl

theorem mirrors_term {inner : Parse Query} (h : Mirrors Query.undated inner inner) :
    Mirrors Query.undated (term inner) (term inner) := by
  have hcomparison : Mirrors Query.undated (property >>= infixTail) (property >>= infixTail) :=
    mirrors_property.bind mirrors_infixTail
  have hother : Mirrors Query.undated (do unexpected (← advance) .property)
      (do unexpected (← advance) .property) :=
    mirrors_advance.bind fun token ↦ mirrors_unexpected token _
  refine mirrors_peek.bind fun symbol ↦ ?_
  cases symbol with
  | openParen =>
    refine mirrors_get.bind fun stream ↦ ?_
    rw [beginsCompound_undated]
    refine mirrors_ite hcomparison (mirrors_skip.bind fun _ ↦ h.bind fun query ↦ ?_)
    exact (mirrors_expect _ _).map fun _ ↦ by rfl
  | function keyword => exact mirrors_call (mirrors_arguments h keyword)
  | property => exact hcomparison
  | _ => exact hother

theorem mirrors_noOtherJoiner (joiner : Joiner) :
    Mirrors id (noOtherJoiner joiner) (noOtherJoiner joiner) := by
  refine mirrors_peek.bind fun symbol ↦ ?_
  cases symbol with
  | joiner other => exact mirrors_advance.bind fun token ↦ mirrors_fail token.position _
  | _ => exact mirrors_pure ()

theorem mirrors_terms (depth : Nat) : Mirrors Query.undated (terms depth) (terms depth) := by
  induction depth with
  | zero => exact mirrors_advance.bind fun token ↦ mirrors_unexpected token _
  | succ depth ih =>
    refine (mirrors_term ih).bind fun head ↦ mirrors_peek.bind fun symbol ↦ ?_
    cases symbol with
    | joiner joiner =>
      refine mirrors_get.bind fun stream ↦ ?_
      rw [TokenStream.length_undated]
      refine (mirrors_itemsAfter (mirrors_term ih) _).bind fun rest ↦ ?_
      refine (mirrors_noOtherJoiner joiner).map fun _ ↦ ?_
      rw [Query.undated_group]
      rfl
    | _ => exact mirrors_pure head

theorem mirrors_query : Mirrors Query.undated Parse.query Parse.query := by
  refine (mirrors_nextIs _).bind fun empty ↦ mirrors_ite (mirrors_pure Query.noop) ?_
  refine mirrors_get.bind fun stream ↦ ?_
  rw [TokenStream.length_undated]
  refine (mirrors_terms _).bind fun query ↦ (mirrors_expect _ _).map fun _ ↦ ?_
  rfl

end Parse

/-! ### What follows the parser -/

namespace Query

theorem nodes_undated (query : Query) : query.undated.nodes = query.nodes.map undated := by
  cases query with
  | group joiner terms => rw [undated_group]; rfl
  | aggregate groups functions => rw [undated_aggregate]; rfl
  | _ => rfl

theorem target?_undated (query : Query) : query.undated.target? = query.target? := by
  cases query with
  | count property => cases property <;> rfl
  | _ => rfl

theorem isBareCount_undated (query : Query) : query.undated.isBareCount = query.isBareCount := by
  rw [isBareCount_eq, isBareCount_eq, operation_undated, target?_undated]

theorem isNoop_undated (query : Query) : query.undated.isNoop = query.isNoop := by
  cases query <;> rfl

/-- What is gone through node by node. -/
theorem flatMap_nodes_undated {walk : Query → List Query} (query : Query)
    (h : ∀ node ∈ query.nodes, walk node.undated = (walk node).map undated) :
    query.undated.nodes.flatMap walk = (query.nodes.flatMap walk).map undated := by
  rw [nodes_undated, List.flatMap_map, List.map_flatMap]
  exact List.flatMap_congr h

theorem preorder_undated (query : Query) :
    query.undated.preorder = query.preorder.map undated := by
  induction query using nodes_induction with
  | h query ih =>
    rw [preorder_eq_cons, preorder_eq_cons query, List.map_cons, flatMap_nodes_undated query ih]

theorem outer_undated (query : Query) : query.undated.outer = query.outer.map undated := by
  induction query using nodes_induction with
  | h query ih =>
    rw [outer_eq_cons, outer_eq_cons query, List.map_cons, operation_undated,
      flatMap_nodes_undated query ih]
    split <;> rfl

theorem spine_undated (query : Query) : query.undated.spine = query.spine.map undated := by
  induction query using nodes_induction with
  | h query ih =>
    rw [spine_eq, spine_eq query, operation_undated, flatMap_nodes_undated query ih]
    split <;> rfl

theorem occurrences_undated (query : Query) (keyword : Keyword) :
    query.undated.occurrences keyword = query.occurrences keyword := by
  rw [occurrences, preorder_undated, List.countP_map]
  exact List.countP_congr fun node _ ↦ by rw [Function.comp_apply, operation_undated]

theorem bareCounts_undated (query : Query) : query.undated.bareCounts = query.bareCounts := by
  rw [bareCounts, preorder_undated, List.countP_map]
  exact List.countP_congr fun node _ ↦ by rw [Function.comp_apply, isBareCount_undated]

theorem ungroupedFunctions_undated (query : Query) :
    query.undated.ungroupedFunctions = query.ungroupedFunctions := by
  rw [ungroupedFunctions, outer_undated, List.countP_map]
  exact List.countP_congr fun node _ ↦ by rw [Function.comp_apply, target?_undated]

theorem targets_undated (query : Query) : query.undated.targets = query.targets := by
  rw [targets, preorder_undated, List.filterMap_map]
  exact List.filterMap_congr fun node _ ↦ target?_undated node

theorem conflict?_undated (query : Query) : query.undated.conflict? = query.conflict? := by
  simp only [conflict?, repeated?, singletons, targets_undated, occurrences_undated,
    bareCounts_undated, ungroupedFunctions_undated]

theorem join_undated (joiner : Joiner) (queries : List Query) :
    join joiner (queries.map undated) = (join joiner queries).undated := by
  match queries with
  | [] => rfl
  | [query] => rfl
  | a :: b :: rest => exact (undated_group joiner (a :: b :: rest)).symm

theorem sameKind_undated (a b : Query) : a.undated.sameKind b.undated = a.sameKind b := by
  cases a <;> cases b <;> rfl

theorem takeKind_undated (clause : Query) (pending : List Query) :
    takeKind clause.undated (pending.map undated) =
      (takeKind clause pending).map fun (found, others) ↦ (found.undated, others.map undated) := by
  induction pending with
  | nil => rfl
  | cons held rest ih =>
    rw [List.map_cons, takeKind, takeKind, sameKind_undated, ih]
    split
    · rfl
    · cases takeKind clause rest <;> rfl

def Folding.undated (folding : Folding) : Folding :=
  ⟨folding.kept.map Query.undated, folding.pending.map Query.undated, folding.dropped⟩

theorem foldSpine_of_ne {operation : Operation} {query : Query}
    (h : ∀ terms, query ≠ group .and terms) : query.foldSpine operation = query := by
  unfold foldSpine
  split
  · exact absurd rfl (h _)
  · rfl

theorem undated_ne_group_and {query : Query} (h : ∀ terms, query ≠ group .and terms)
    (terms : List Query) : query.undated ≠ group .and terms := by
  intro heq
  cases query with
  | group joiner terms =>
    rw [undated_group] at heq
    cases heq
    exact h terms rfl
  | aggregate =>
    rw [undated_aggregate] at heq
    cases heq
  | _ => cases heq

theorem fold_undated_of_ne {operation : Operation} {pending : List Query} {query : Query}
    (h : ∀ terms, query ≠ group .and terms) :
    fold operation (pending.map undated) query.undated =
      (fold operation pending query).undated := by
  rw [fold_of_ne h, fold_of_ne (undated_ne_group_and h), operation_undated, takeKind_undated]
  split
  · cases takeKind query pending <;> rfl
  · rfl

mutual

theorem fold_undated (operation : Operation) (pending : List Query) (query : Query) :
    fold operation (pending.map undated) query.undated =
      (fold operation pending query).undated := by
  cases query with
  | group joiner terms =>
    cases joiner with
    | and =>
      have hinner := foldAll_undated operation pending terms
      rcases hfolding : foldAll operation pending terms with ⟨kept, left, dropped⟩
      rw [hfolding] at hinner
      rw [undated_group, fold, fold, hinner, hfolding]
      cases dropped with
      | true =>
        have htest : (!·.isNoop) ∘ undated = (!·.isNoop) :=
          funext fun node ↦ by rw [Function.comp_apply, isNoop_undated]
        change Folding.mk ([join .and (kept.map undated)].filter (!·.isNoop)) (left.map undated) _ =
          ⟨([join .and kept].filter (!·.isNoop)).map undated, left.map undated, true⟩
        rw [join_undated, ← List.map_singleton, List.filter_map, htest]
      | false =>
        change Folding.mk [group .and (kept.map undated)] (left.map undated) _ =
          ⟨[(group .and kept).undated], left.map undated, false⟩
        rw [undated_group]
    | or => exact fold_undated_of_ne (by simp)
  | _ => exact fold_undated_of_ne (by simp)

theorem foldAll_undated (operation : Operation) (pending terms : List Query) :
    foldAll operation (pending.map undated) (terms.map undated) =
      (foldAll operation pending terms).undated := by
  cases terms with
  | nil => rfl
  | cons query rest =>
    have hfirst := fold_undated operation pending query
    have hrest := foldAll_undated operation (fold operation pending query).pending rest
    rw [List.map_cons, foldAll, foldAll, hfirst]
    dsimp only [Folding.undated] at hrest ⊢
    rw [hrest, List.map_append]

end

variable {operation : Operation}

/-- The clauses of the operation hold no values. -/
def IsUnvalued (operation : Operation) : Prop :=
  operation = .clause .select ∨ operation = .clause .sort

theorem IsUnvalued.map_undated (h : IsUnvalued operation) {queries : List Query}
    (hqueries : ∀ query ∈ queries, query.operation = operation) :
    queries.map undated = queries := by
  have hsame (query : Query) (hmem : query ∈ queries) : query.undated = query := by
    have hquery := hqueries query hmem
    obtain rfl | rfl := h
    · cases query <;> first | rfl | cases hquery
    · cases query <;> first | rfl | cases hquery
  exact (List.map_congr_left hsame).trans (List.map_id queries)

theorem IsUnvalued.spineUnion_undated (h : IsUnvalued operation) (query : Query) :
    query.undated.spineUnion operation = (query.spineUnion operation).map undated := by
  have hclauses : (query.spine.filter (·.operation == operation)).map undated =
      query.spine.filter (·.operation == operation) :=
    h.map_undated fun clause hmem ↦ eq_of_beq (List.mem_filter.mp hmem).2
  have htest : ((·.operation == operation) ∘ undated) = (·.operation == operation) :=
    funext fun node ↦ by rw [Function.comp_apply, operation_undated]
  rw [spineUnion, spine_undated, List.filter_map, htest, hclauses,
    h.map_undated fun _ ↦ operation_of_mem_spineUnion, spineUnion]

theorem IsUnvalued.foldSpine_undated (h : IsUnvalued operation) (query : Query) :
    query.undated.foldSpine operation = (query.foldSpine operation).undated := by
  by_cases hgroup : ∃ terms, query = group .and terms
  · obtain ⟨terms, rfl⟩ := hgroup
    have hfolding := foldAll_undated operation ((group .and terms).spineUnion operation) terms
    rw [← h.spineUnion_undated, undated_group] at hfolding
    rw [undated_group, foldSpine, foldSpine, hfolding, apply_ite undated, undated_group,
      ← join_undated]
    rfl
  · have hleaf (terms : List Query) : query ≠ group .and terms := fun heq ↦ hgroup ⟨terms, heq⟩
    rw [foldSpine_of_ne hleaf, foldSpine_of_ne (undated_ne_group_and hleaf)]

theorem finish_undated (options : ReadOptions) (query : Query) :
    finish options query.undated = (finish options query).map undated := by
  rw [finish, finish, validate, validate, conflict?_undated]
  cases query.conflict? with
  | some conflict => rfl
  | none =>
    have hselect : IsUnvalued (.clause .select) := .inl rfl
    have hsort : IsUnvalued (.clause .sort) := .inr rfl
    cases options.consolidate with
    | false => rfl
    | true =>
      change Except.ok ((query.undated.foldSpine _).foldSpine _) =
        Except.ok ((query.foldSpine _).foldSpine _).undated
      rw [hselect.foldSpine_undated, hsort.foldSpine_undated]

theorem ofTokens_undated (options : ReadOptions) (tokens : List Token) :
    ofTokens options ⟨tokens.map Token.undated⟩ = (ofTokens options ⟨tokens⟩).map undated := by
  have hstream : TokenStream.ofQueue ⟨tokens.map Token.undated⟩ =
      (TokenStream.ofQueue ⟨tokens⟩).undated := by
    rw [TokenStream.ofQueue, TokenStream.ofQueue, TokenStream.undated, List.getLast?_map]
    cases tokens.getLast? <;> rfl
  have hquery := Parse.mirrors_query (.ofQueue ⟨tokens⟩)
  rw [ofTokens, ofTokens, next, next, hstream, hquery]
  cases Parse.query (.ofQueue ⟨tokens⟩) with
  | ok query rest => exact finish_undated options query
  | error error rest => rfl

end Query

end ResourceQuery
