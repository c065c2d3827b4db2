import Mathlib.Data.List.Forall2
import ResourceQuery.Proofs.ParserSound

/-!
# The shape of queries

What the trees have in common that parsing makes: their lists are not empty, and nothing stands
where its kind has no place.
-/

namespace ResourceQuery

open Grammar

namespace Query

/-- The lists that must not be empty are not, functions are where they must be, and no node is the
empty query. -/
inductive WellFormed : Query → Prop
  | limit (range : Limit) : WellFormed (limit range)
  | select {properties : List Property} (hne : properties ≠ []) : WellFormed (select properties)
  | sort {keys : List SortKey} (hne : keys ≠ []) : WellFormed (sort keys)
  | group {joiner : Joiner} {terms : List Query} (hne : terms ≠ [])
      (hterms : ∀ term ∈ terms, WellFormed term) : WellFormed (group joiner terms)
  | compare (op : Comparison) (property : Property) (value : Value) :
      WellFormed (compare op property value)
  | pattern {op : PatternOp} {value : Value} (property : Property)
      (hpattern : op = .like → IsText value) : WellFormed (pattern op property value)
  | membership {entries : List Value} (op : MembershipOp) (property : Property)
      (hne : entries ≠ []) : WellFormed (membership op property entries)
  | distinct : WellFormed distinct
  | first : WellFormed first
  | one : WellFormed one
  | count (property : Option Property) : WellFormed (count property)
  | values (property : Property) : WellFormed (values property)
  | summary (op : SummaryOp) (property : Property) : WellFormed (summary op property)
  | aggregate {groups : List Property} {functions : List Query}
      (hne : groups.map Child.property ++ functions.map Child.node ≠ [])
      (hfunctions : ∀ function ∈ functions, function.isFunction = true) :
      WellFormed (aggregate groups functions)

theorem WellFormed.of_group {joiner : Joiner} {terms : List Query}
    (h : (Query.group joiner terms).WellFormed) : terms ≠ [] ∧ ∀ term ∈ terms, term.WellFormed := by
  cases h with
  | group hne hterms => exact ⟨hne, hterms⟩

end Query

/-! ### Sentences mean well-formed trees -/

namespace Grammar

variable {tokens : List Token} {query : Query}

theorem Separated.ne_nil {α : Type} {separator : Symbol} {item : Phrase α} {items : List α}
    (h : Separated separator item tokens items) : items ≠ [] := by
  obtain ⟨_, _, a, more, -, rfl, -⟩ := h.uncons
  exact List.cons_ne_nil a more

theorem Arguments.wellFormed {keyword : Keyword} (h : Arguments keyword tokens query) :
    query.WellFormed := by
  cases h with
  | limit => exact .limit _
  | select hproperties => exact .select hproperties.ne_nil
  | sort hkeys => exact .sort hkeys.ne_nil
  | compare => exact .compare _ _ _
  | pattern _ _ _ hpattern => exact .pattern _ hpattern
  | membership _ _ hentries => exact .membership _ _ hentries.ne_nil
  | distinct => exact .distinct
  | first => exact .first
  | one => exact .one
  | count => exact .count _
  | values => exact .values _
  | summary => exact .summary _ _
  | @aggregate _ groups functions hitems =>
    have hshape := hitems.forall fun _ _ ↦ AggregateItem.shape
    refine .aggregate hitems.ne_nil fun function hmem ↦ ?_
    have hchild : Child.node function ∈ groups.map .property ++ functions.map .node :=
      List.mem_append_right _ (List.mem_map_of_mem hmem)
    obtain ⟨property, hproperty⟩ | ⟨other, hother, hfunction⟩ := hshape _ hchild
    · cases hproperty
    · cases hother
      exact hfunction

section Trees

variable {P : Query → Prop} {Q : Token → Prop}
  (hgroup : ∀ joiner queries, queries ≠ [] → (∀ query ∈ queries, P query) →
    P (.group joiner queries))
  (hcomparison : ∀ first second op property value, (∀ token ∈ first ++ second, Q token) →
    Subject first property → Operand second value → P (.compare op property value))
  (harguments : ∀ keyword tokens query, (∀ token ∈ tokens, Q token) →
    Arguments keyword tokens query → P query)

include hgroup hcomparison harguments

/-- What holds of the trees that the clauses inside of a term mean holds of its own. -/
theorem Term.holds_of_inner
    (hinner : ∀ inner query, inner.length < tokens.length → (∀ token ∈ inner, Q token) →
      Clauses inner query → P query)
    (htokens : ∀ token ∈ tokens, Q token) (h : Term tokens query) : P query := by
  cases h with
  | @within opening closing inner _ hopening hclauses hclosing =>
    refine hinner inner query ?_ (fun token hmem ↦ htokens token (by simp [hmem])) hclauses
    rw [List.length_append, List.length_cons]
    omega
  | comparison hsubject _ hoperand =>
    refine hcomparison _ _ _ _ _ (List.forall_mem_append.mpr ?_) hsubject hoperand
    exact ⟨fun token hmem ↦ htokens token (by simp [hmem]),
      fun token hmem ↦ htokens token (by simp [hmem])⟩
  | function hcall =>
    obtain ⟨hname, hopening, hcalled, hclosing⟩ := hcall
    exact harguments _ _ _ (fun token hmem ↦ htokens token (by simp [hmem])) hcalled
  | @group name opening closing joiner inner pieces queries hname hopening hpieces hqueries =>
    have hseparated : Separated .comma Clauses inner queries := ⟨pieces, hpieces, hqueries⟩
    refine hgroup _ _ hseparated.ne_nil (hseparated.inside.forall fun piece query h ↦ ?_)
    refine hinner piece query ?_ (fun token hmem ↦ ?_) h.1
    · have hlength := h.2.length_le
      rw [List.length_append, List.length_cons, List.length_cons]
      omega
    · exact htokens token (by simp [h.2.subset hmem])

/-- What holds of groups of trees that it holds of, and of all comparisons and functions whose
tokens have a property, holds of all trees that clauses of such tokens mean. -/
theorem Clauses.holds (htokens : ∀ token ∈ tokens, Q token) (h : Clauses tokens query) :
    P query := by
  induction hlength : tokens.length using Nat.strongRecOn generalizing tokens query with
  | ind length ih =>
    have hterm (piece : List Token) (query : Query)
        (h : Term piece query ∧ piece.Sublist tokens) : P query := by
      refine h.1.holds_of_inner hgroup hcomparison harguments ?_
        fun token hmem ↦ htokens token (h.2.subset hmem)
      intro inner query hinner hall hclauses
      have hbound := h.2.length_le
      exact ih inner.length (by omega) hall hclauses rfl
    cases h with
    | term hone => exact hterm tokens query ⟨hone, .refl _⟩
    | joined hpieces hterms hmany =>
      have hseparated : Separated _ Term tokens _ := ⟨_, hpieces, hterms⟩
      exact hgroup _ _ hseparated.ne_nil (hseparated.inside.forall hterm)

end Trees

theorem Clauses.wellFormed (h : Clauses tokens query) : query.WellFormed := by
  have hgroup (joiner : Joiner) (queries : List Query) (hne : queries ≠ [])
      (hqueries : ∀ query ∈ queries, query.WellFormed) :
      (Query.group joiner queries).WellFormed := .group hne hqueries
  exact h.holds hgroup (fun _ _ _ _ _ _ _ _ ↦ .compare _ _ _) (fun _ _ _ _ h ↦ h.wellFormed)
    fun _ _ ↦ trivial

end Grammar

/-- What parsing makes of tokens is the empty query, or what clauses at their front mean. -/
theorem Parse.clauses_of_query_eq_ok {stream rest : TokenStream} {query : Query}
    (h : Parse.query stream = .ok query rest) (hvalued : LiteralsValued stream.tokens) :
    query = .noop ∨ ∃ front behind, stream.tokens = front ++ behind ∧ Clauses front query := by
  rw [Parse.query, nextIs_bind] at h
  split at h
  · obtain ⟨rfl, -⟩ := Run.pure_eq_ok.mp h
    exact .inl rfl
  · rw [get_bind] at h
    obtain ⟨parsed, middle, hterms, h⟩ := Run.bind_eq_ok.mp h
    obtain ⟨last, after, -, h⟩ := Run.bind_eq_ok.mp h
    obtain ⟨rfl, rfl⟩ := Run.pure_eq_ok.mp h
    obtain ⟨front, htokens, hclauses⟩ := sound_terms _ _ parsed middle hterms hvalued
    exact .inr ⟨front, middle.tokens, htokens, hclauses⟩

theorem Parse.wellFormed_of_query_eq_ok {stream rest : TokenStream} {query : Query}
    (h : Parse.query stream = .ok query rest) (hvalued : LiteralsValued stream.tokens) :
    query = .noop ∨ query.WellFormed :=
  (clauses_of_query_eq_ok h hvalued).imp_right fun ⟨_, _, _, hclauses⟩ ↦ hclauses.wellFormed

end ResourceQuery
