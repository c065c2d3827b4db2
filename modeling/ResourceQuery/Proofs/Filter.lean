import Mathlib.Logic.Basic
import ResourceQuery.Query

/-!
# The filter that a query is

A query read as a filter on records: which records it accepts, given the truth of the single
conditions for a record. Clauses that shape the answer, aggregates among them, do not filter, and a
term without any condition is passed over wherever it stands; so a disjunction of such terms
accepts every record. A root-level list is an `in` clause that is the whole query or a term of the
conjunction at its root.
-/

namespace ResourceQuery.Query

/-- The truth of conditions for one record. Membership respects that properties and texts are
compared without regard to case; the other conditions are never rewritten. -/
structure Reading where
  compares : Comparison → Property → Value → Bool
  fits : PatternOp → Property → Value → Bool
  member : Property → Value → Bool
  member_property : ∀ {p q : Property} (v : Value), (p == q) = true → member p v = member q v
  member_value : ∀ (p : Property) {v w : Value}, v.sameIgnoringCase w = true →
    member p v = member p w

mutual

/-- There is a condition in the query. -/
def bears : Query → Bool
  | group _ terms => bearsAny terms
  | query => query.isConditional

def bearsAny : List Query → Bool
  | [] => false
  | query :: rest => bears query || bearsAny rest

end

mutual

/-- The record that the reading is about passes the filter. -/
def accepts (reading : Reading) : Query → Bool
  | group .and terms => acceptsAll reading terms
  | group .or terms => !bearsAny terms || acceptsAny reading terms
  | compare op property value => reading.compares op property value
  | pattern op property value => reading.fits op property value
  | membership .among property entries => entries.any (reading.member property)
  | membership .outside property entries => !entries.any (reading.member property)
  | _ => true

/-- All terms with a condition accept. -/
def acceptsAll (reading : Reading) : List Query → Bool
  | [] => true
  | query :: rest => (!bears query || accepts reading query) && acceptsAll reading rest

/-- Any term with a condition accepts. -/
def acceptsAny (reading : Reading) : List Query → Bool
  | [] => false
  | query :: rest => bears query && accepts reading query || acceptsAny reading rest

end

/-- The property and the values of an `in` clause. -/
def list? : Query → Option (Property × List Value)
  | membership .among property entries => some (property, entries)
  | _ => none

/-- The root-level lists of a query. -/
def rootLists : Query → List (Property × List Value)
  | group .and terms => terms.filterMap list?
  | query => query.list?.toList

/-- The query without its root-level lists. -/
def withoutRootLists : Query → Query
  | group .and terms => group .and (terms.filter (·.list?.isNone))
  | query => if query.list?.isNone then query else noop

/-- All the values that some lists hold for a property. -/
def listedValues (property : Property) (lists : List (Property × List Value)) : List Value :=
  (lists.filter (·.1 == property)).flatMap (·.2)

/-- The list is the only one of some lists for its property. -/
def StandsAlone (list : Property × List Value) (lists : List (Property × List Value)) : Prop :=
  lists.filter (·.1 == list.1) = [list]

/-- What holds of a record whose every condition holds, and whose properties are all `true`. -/
def Reading.allTrue : Reading where
  compares _ _ _ := true
  fits _ _ _ := true
  member _ v := decide (v = .bool true)
  member_property _ _ := rfl
  member_value _ v w h := by
    rw [decide_eq_decide]
    constructor
    · rintro rfl
      have hdecide : decide (Value.bool true = w) = true := by cases w <;> exact h
      exact (of_decide_eq_true hdecide).symm
    · rintro rfl
      have hdecide : decide (v = Value.bool true) = true := by cases v <;> exact h
      exact of_decide_eq_true hdecide

theorem list?_eq_some_iff {query : Query} {property : Property} {entries : List Value} :
    query.list? = some (property, entries) ↔ query = membership .among property entries := by
  cases query with
  | membership op p vs => cases op <;> simp [list?]
  | _ => simp [list?]

variable {reading : Reading}

theorem bearsAny_iff {queries : List Query} :
    bearsAny queries = true ↔ ∃ query ∈ queries, query.bears = true := by
  induction queries with
  | nil => simp [bearsAny]
  | cons query rest ih => simp [bearsAny, ih]

theorem acceptsAll_of_bearsAny_eq_false {queries : List Query} (h : bearsAny queries = false) :
    acceptsAll reading queries = true := by
  induction queries with
  | nil => rfl
  | cons query rest ih =>
    rw [bearsAny, Bool.or_eq_false_iff] at h
    rw [acceptsAll, h.1, ih h.2]
    rfl

/-- A query without a condition accepts every record. -/
theorem accepts_of_bears_eq_false {query : Query} (h : query.bears = false) :
    query.accepts reading = true := by
  cases query with
  | group joiner terms =>
    cases joiner with
    | and => exact acceptsAll_of_bearsAny_eq_false h
    | or =>
      have hterms : bearsAny terms = false := h
      rw [accepts, hterms]
      rfl
  | compare op property value => cases h
  | pattern op property value => cases h
  | membership op property entries => cases h
  | _ => rfl

theorem acceptsAll_iff {queries : List Query} :
    acceptsAll reading queries = true ↔ ∀ query ∈ queries, query.accepts reading = true := by
  induction queries with
  | nil => simp [acceptsAll]
  | cons query rest ih =>
    rw [acceptsAll, Bool.and_eq_true, ih, List.forall_mem_cons]
    apply and_congr_left'
    cases hbears : query.bears with
    | true => simp
    | false => simp [accepts_of_bears_eq_false hbears]

theorem acceptsAny_iff {queries : List Query} :
    acceptsAny reading queries = true ↔
      ∃ query ∈ queries, query.bears = true ∧ query.accepts reading = true := by
  induction queries with
  | nil => simp [acceptsAny]
  | cons query rest ih => simp [acceptsAny, ih]

theorem accepts_and {terms : List Query} :
    (group .and terms).accepts reading = true ↔ ∀ term ∈ terms, term.accepts reading = true :=
  acceptsAll_iff

theorem accepts_or {terms : List Query} :
    (group .or terms).accepts reading = true ↔
      ((∃ term ∈ terms, term.bears = true) →
        ∃ term ∈ terms, term.bears = true ∧ term.accepts reading = true) := by
  rw [accepts, Bool.or_eq_true, acceptsAny_iff, Bool.not_eq_true', ← Bool.not_eq_true, bearsAny_iff]
  exact imp_iff_not_or.symm

theorem accepts_of_isShaping {query : Query} (h : query.isShaping = true) :
    query.accepts reading = true := by
  apply accepts_of_bears_eq_false
  cases query <;> first | rfl | cases h

theorem accepts_of_isNoop {query : Query} (h : query.isNoop = true) :
    query.accepts reading = true := by
  cases query <;> first | rfl | cases h

theorem accepts_join_and {terms : List Query} :
    (join .and terms).accepts reading = true ↔ ∀ term ∈ terms, term.accepts reading = true := by
  rcases terms with _ | ⟨head, _ | ⟨second, rest⟩⟩
  · simp [join, accepts]
  · simp [join]
  · exact accepts_and

theorem accepts_join_or {terms : List Query} :
    (join .or terms).accepts reading = (group .or terms).accepts reading := by
  rcases terms with _ | ⟨head, _ | ⟨second, rest⟩⟩
  · rfl
  · cases hbears : head.bears with
    | true => simp [join, accepts, acceptsAny, bearsAny, hbears]
    | false =>
      rw [join, accepts_of_bears_eq_false hbears]
      simp [accepts, bearsAny, hbears]
  · rfl

theorem forall_conjuncts_accepts {query : Query} :
    (∀ term ∈ query.conjuncts, term.accepts reading = true) ↔ query.accepts reading = true := by
  cases query with
  | noop => simp [conjuncts, accepts]
  | group joiner terms =>
    cases joiner with
    | and => exact accepts_and.symm
    | or => simp [conjuncts]
  | _ => simp [conjuncts]

/-- Terms that shape the answer can be left out of a disjunction. -/
theorem accepts_or_filter {terms : List Query} :
    (group .or (terms.filter (!·.isShaping))).accepts reading =
      (group .or terms).accepts reading := by
  have hbears (term : Query) (h : term.bears = true) : term.isShaping = false := by
    cases term <;> first | rfl | cases h
  have hmem (term : Query) (h : term.bears = true) :
      term ∈ terms.filter (!·.isShaping) ↔ term ∈ terms := by
    simp [List.mem_filter, hbears term h]
  have hexists (P : Query → Prop) (hP : ∀ term, P term → term.bears = true) :
      (∃ term ∈ terms.filter (!·.isShaping), P term) ↔ ∃ term ∈ terms, P term := by
    apply exists_congr
    intro term
    exact and_congr_left fun h ↦ hmem term (hP term h)
  rw [Bool.eq_iff_iff, accepts_or, accepts_or, hexists _ fun _ h ↦ h, hexists _ fun _ h ↦ h.1]

theorem accepts_iff_list? {query : Query} :
    query.accepts reading = true ↔
      (query.list? = none → query.accepts reading = true) ∧
        ∀ list, query.list? = some list → list.2.any (reading.member list.1) = true := by
  cases hlist : query.list? with
  | none => simp
  | some list =>
    rw [list?_eq_some_iff.mp hlist]
    simp [accepts]

/-- A query accepts what it accepts without its root-level lists and what these accept too. -/
theorem accepts_iff_withoutRootLists {query : Query} :
    query.accepts reading = true ↔ query.withoutRootLists.accepts reading = true ∧
      ∀ list ∈ query.rootLists, list.2.any (reading.member list.1) = true := by
  have hleaf (h : query.rootLists = query.list?.toList)
      (hwithout : query.withoutRootLists = if query.list?.isNone then query else noop) :
      query.accepts reading = true ↔ query.withoutRootLists.accepts reading = true ∧
        ∀ list ∈ query.rootLists, list.2.any (reading.member list.1) = true := by
    rw [h, hwithout, accepts_iff_list?]
    cases hlist : query.list? with
    | none => simp
    | some list => simp [accepts]
  cases query with
  | group joiner terms =>
    cases joiner with
    | and =>
      have hterms : (group .and terms).accepts reading = true ↔
          ∀ term ∈ terms, (term.list? = none → term.accepts reading = true) ∧
            ∀ list, term.list? = some list → list.2.any (reading.member list.1) = true :=
        accepts_and.trans (forall₂_congr fun _ _ ↦ accepts_iff_list?)
      rw [hterms, withoutRootLists, accepts_and]
      simp only [rootLists, List.mem_filterMap, List.mem_filter, Option.isNone_iff_eq_none]
      constructor
      · intro h
        refine ⟨fun term hmem ↦ (h term hmem.1).1 hmem.2, ?_⟩
        rintro list ⟨term, hmem, hlist⟩
        exact (h term hmem).2 list hlist
      · rintro ⟨hothers, hlists⟩ term hmem
        constructor
        · exact fun hlist ↦ hothers term ⟨hmem, hlist⟩
        · exact fun list hlist ↦ hlists list ⟨term, hmem, hlist⟩
    | or => exact hleaf rfl rfl
  | _ => exact hleaf rfl rfl

end ResourceQuery.Query
