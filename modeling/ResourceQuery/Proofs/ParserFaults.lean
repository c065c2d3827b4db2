import ResourceQuery.Proofs.ParserSound

/-!
# Parsing only fails by syntax

The faults of lexing, of shape and of conflicting clauses belong to other steps of reading a query:
whatever the parser itself fails with is a fault of syntax at some place of the text.
-/

namespace ResourceQuery.Parse

open Run

variable {α β : Type} {parser : Parse α} {next : α → Parse β}

/-- Whatever the parser fails with is a fault of syntax. -/
def FailsBySyntax (parser : Parse α) : Prop :=
  ∀ stream error rest, parser stream = .error error rest →
    ∃ place fault, error = .syntactic place fault

theorem FailsBySyntax.bind (hparser : FailsBySyntax parser) (hnext : ∀ a, FailsBySyntax (next a)) :
    FailsBySyntax (parser >>= next) := by
  intro stream error rest h
  cases hfirst : parser stream with
  | ok a middle =>
    rw [bind_ok hfirst] at h
    exact hnext a middle error rest h
  | error error' middle =>
    rw [bind_error hfirst] at h
    cases h
    exact hparser stream _ _ hfirst

theorem failsBySyntax_pure (a : α) : FailsBySyntax (pure a) := fun _ _ _ h ↦ nomatch h

theorem FailsBySyntax.map {f : α → β} (hparser : FailsBySyntax parser) :
    FailsBySyntax (f <$> parser) := hparser.bind fun _ ↦ failsBySyntax_pure _

theorem failsBySyntax_fail (place : Nat) (fault : SyntaxFault) :
    FailsBySyntax (fail place fault : Parse α) := by
  intro stream error rest h
  cases h
  exact ⟨place, fault, rfl⟩

theorem failsBySyntax_unexpected (token : Token) (expected : Expected) :
    FailsBySyntax (unexpected token expected : Parse α) := failsBySyntax_fail _ _

theorem failsBySyntax_get : FailsBySyntax (get : Parse TokenStream) := fun _ _ _ h ↦ nomatch h

theorem failsBySyntax_advance : FailsBySyntax advance := fun _ _ _ h ↦ nomatch h

theorem failsBySyntax_skip : FailsBySyntax skip := fun _ _ _ h ↦ nomatch h

theorem failsBySyntax_peek : FailsBySyntax peek := fun _ _ _ h ↦ nomatch h

theorem failsBySyntax_nextIs (symbol : Symbol) : FailsBySyntax (nextIs symbol) :=
  fun _ _ _ h ↦ nomatch h

theorem failsBySyntax_position : FailsBySyntax position := fun _ _ _ h ↦ nomatch h

theorem failsBySyntax_bareText (head : String) : FailsBySyntax (bareText head) :=
  fun _ _ _ h ↦ nomatch h

theorem failsBySyntax_expect (symbol : Symbol) (expected : Expected) :
    FailsBySyntax (expect symbol expected) := by
  refine failsBySyntax_advance.bind fun token ↦ ?_
  split
  · exact failsBySyntax_pure token
  · exact failsBySyntax_unexpected token expected

theorem failsBySyntax_shaped (place : Nat) (shape : Except ShapeFault α) :
    FailsBySyntax (shaped place shape) := by
  cases shape with
  | ok a => exact failsBySyntax_pure a
  | error fault => exact failsBySyntax_fail place _

theorem failsBySyntax_itemsAfter {separator : Symbol} (hparser : FailsBySyntax parser)
    (limit : Nat) : FailsBySyntax (itemsAfter separator parser limit) := by
  induction limit with
  | zero => exact failsBySyntax_pure []
  | succ limit ih =>
    refine (failsBySyntax_nextIs separator).bind fun seen ↦ ?_
    split
    · exact failsBySyntax_skip.bind fun _ ↦ hparser.bind fun _ ↦ ih.map
    · exact failsBySyntax_pure []

theorem failsBySyntax_items {separator : Symbol} (hparser : FailsBySyntax parser) :
    FailsBySyntax (items separator parser) :=
  hparser.bind fun _ ↦ failsBySyntax_get.bind fun _ ↦ (failsBySyntax_itemsAfter hparser _).map

theorem failsBySyntax_segment : FailsBySyntax segment := by
  refine failsBySyntax_advance.bind fun token ↦ ?_
  split
  · exact failsBySyntax_pure _
  · exact failsBySyntax_unexpected token .property

theorem failsBySyntax_path : FailsBySyntax path := by
  refine (failsBySyntax_expect _ _).bind fun token ↦ failsBySyntax_get.bind fun stream ↦ ?_
  exact (failsBySyntax_itemsAfter failsBySyntax_segment _).map

theorem failsBySyntax_property : FailsBySyntax property := by
  refine (failsBySyntax_nextIs _).bind fun compound ↦ ?_
  split
  · refine failsBySyntax_skip.bind fun _ ↦ (failsBySyntax_items failsBySyntax_path).bind fun _ ↦ ?_
    exact (failsBySyntax_expect _ _).map
  · exact failsBySyntax_path

theorem failsBySyntax_value : FailsBySyntax value := by
  refine failsBySyntax_advance.bind fun token ↦ ?_
  split
  · exact failsBySyntax_pure _
  · exact (failsBySyntax_bareText _).map
  · refine (failsBySyntax_nextIs _).bind fun bare ↦ ?_
    split
    · exact failsBySyntax_advance.bind fun _ ↦ (failsBySyntax_bareText _).map
    · exact failsBySyntax_unexpected token .value
  · exact failsBySyntax_unexpected token .value

theorem failsBySyntax_infixTail (property : Property) : FailsBySyntax (infixTail property) := by
  refine failsBySyntax_advance.bind fun token ↦ ?_
  split
  · exact failsBySyntax_value.map
  · exact failsBySyntax_unexpected token .comparison

theorem failsBySyntax_subject : FailsBySyntax subject :=
  failsBySyntax_property.bind fun _ ↦ (failsBySyntax_expect _ _).map

theorem failsBySyntax_limitNumber : FailsBySyntax limitNumber := by
  refine failsBySyntax_advance.bind fun token ↦ ?_
  split
  · exact failsBySyntax_shaped _ _
  · exact failsBySyntax_unexpected token .count

theorem failsBySyntax_limit : FailsBySyntax limit := by
  refine failsBySyntax_limitNumber.bind fun number ↦ (failsBySyntax_nextIs _).bind fun paged ↦ ?_
  split
  · exact failsBySyntax_skip.bind fun _ ↦ failsBySyntax_limitNumber.map
  · exact failsBySyntax_pure _

theorem failsBySyntax_sortKey : FailsBySyntax sortKey := by
  refine failsBySyntax_peek.bind fun symbol ↦ ?_
  split
  · exact failsBySyntax_skip.bind fun _ ↦ failsBySyntax_property.map
  · exact failsBySyntax_property.map

theorem failsBySyntax_pattern (op : PatternOp) : FailsBySyntax (pattern op) := by
  refine failsBySyntax_subject.bind fun property ↦ failsBySyntax_position.bind fun place ↦ ?_
  refine failsBySyntax_value.bind fun value ↦ ?_
  split
  · exact failsBySyntax_fail place _
  · exact failsBySyntax_pure _

theorem failsBySyntax_count : FailsBySyntax count := by
  refine (failsBySyntax_nextIs _).bind fun bare ↦ ?_
  split
  · exact failsBySyntax_pure _
  · exact failsBySyntax_property.map

theorem failsBySyntax_call (hparser : FailsBySyntax parser) : FailsBySyntax (call parser) := by
  refine failsBySyntax_skip.bind fun _ ↦ (failsBySyntax_expect _ _).bind fun _ ↦ ?_
  exact hparser.bind fun _ ↦ (failsBySyntax_expect _ _).map

theorem failsBySyntax_aggregateItem : FailsBySyntax aggregateItem := by
  refine failsBySyntax_peek.bind fun symbol ↦ ?_
  split
  · exact (failsBySyntax_call failsBySyntax_property.map).map
  · exact (failsBySyntax_call failsBySyntax_count).map
  · exact failsBySyntax_property.map
  · exact failsBySyntax_property.map
  · exact failsBySyntax_advance.bind fun token ↦ failsBySyntax_unexpected token _

theorem failsBySyntax_addItem (query : Query) : FailsBySyntax (addItem query) :=
  failsBySyntax_position.bind fun place ↦ failsBySyntax_aggregateItem.bind fun _ ↦
    failsBySyntax_shaped place _

theorem failsBySyntax_addItems (query : Query) (limit : Nat) :
    FailsBySyntax (addItems query limit) := by
  induction limit generalizing query with
  | zero => exact failsBySyntax_pure query
  | succ limit ih =>
    refine (failsBySyntax_nextIs _).bind fun seen ↦ ?_
    split
    · exact failsBySyntax_skip.bind fun _ ↦ (failsBySyntax_addItem query).bind ih
    · exact failsBySyntax_pure query

theorem failsBySyntax_arguments {inner : Parse Query} (hinner : FailsBySyntax inner)
    (keyword : Keyword) : FailsBySyntax (arguments inner keyword) := by
  cases keyword with
  | limit => exact failsBySyntax_limit.map
  | select => exact (failsBySyntax_items failsBySyntax_property).map
  | sort => exact (failsBySyntax_items failsBySyntax_sortKey).map
  | group joiner => exact (failsBySyntax_items hinner).map
  | compare op => exact failsBySyntax_subject.bind fun _ ↦ failsBySyntax_value.map
  | pattern op => exact failsBySyntax_pattern op
  | membership op =>
    exact failsBySyntax_subject.bind fun _ ↦ (failsBySyntax_items failsBySyntax_value).map
  | distinct => exact failsBySyntax_pure _
  | first => exact failsBySyntax_pure _
  | one => exact failsBySyntax_pure _
  | count => exact failsBySyntax_count
  | values => exact failsBySyntax_property.map
  | summary op => exact failsBySyntax_property.map
  | aggregate =>
    exact (failsBySyntax_addItem _).bind fun query ↦ failsBySyntax_get.bind fun _ ↦
      failsBySyntax_addItems query _

theorem failsBySyntax_term {inner : Parse Query} (hinner : FailsBySyntax inner) :
    FailsBySyntax (term inner) := by
  have hcomparison : FailsBySyntax (property >>= infixTail) :=
    failsBySyntax_property.bind failsBySyntax_infixTail
  refine failsBySyntax_peek.bind fun symbol ↦ ?_
  split
  · refine failsBySyntax_get.bind fun stream ↦ ?_
    split
    · exact hcomparison
    · exact failsBySyntax_skip.bind fun _ ↦ hinner.bind fun _ ↦ (failsBySyntax_expect _ _).map
  · exact failsBySyntax_call (failsBySyntax_arguments hinner _)
  · exact hcomparison
  · exact failsBySyntax_advance.bind fun token ↦ failsBySyntax_unexpected token _

theorem failsBySyntax_noOtherJoiner (joiner : Joiner) : FailsBySyntax (noOtherJoiner joiner) := by
  refine failsBySyntax_peek.bind fun symbol ↦ ?_
  split
  · exact failsBySyntax_advance.bind fun token ↦ failsBySyntax_fail token.position _
  · exact failsBySyntax_pure ()

theorem failsBySyntax_terms (depth : Nat) : FailsBySyntax (terms depth) := by
  induction depth with
  | zero => exact failsBySyntax_advance.bind fun token ↦ failsBySyntax_unexpected token _
  | succ depth ih =>
    refine (failsBySyntax_term ih).bind fun head ↦ failsBySyntax_peek.bind fun symbol ↦ ?_
    split
    · refine failsBySyntax_get.bind fun stream ↦ ?_
      refine (failsBySyntax_itemsAfter (failsBySyntax_term ih) _).bind fun rest ↦ ?_
      exact (failsBySyntax_noOtherJoiner _).map
    · exact failsBySyntax_pure head

theorem failsBySyntax_query : FailsBySyntax Parse.query := by
  refine (failsBySyntax_nextIs _).bind fun empty ↦ ?_
  split
  · exact failsBySyntax_pure _
  · refine failsBySyntax_get.bind fun stream ↦ (failsBySyntax_terms _).bind fun _ ↦ ?_
    exact (failsBySyntax_expect _ _).map

end ResourceQuery.Parse
