import Mathlib
import ResourceQuery.Proofs.Conflicts
import ResourceQuery.Proofs.Filter
import ResourceQuery.Proofs.Uniting
import ResourceQuery.Query.Merge
import ResourceQuery.Query.Source

/-!
# What a merged query accepts

Merging takes both queries apart and puts their pieces together anew. The pieces of one query accept
what the query accepts, root-level lists aside. Root-level lists of one property are made into one
list, which accepts what any of them accepts; everything else is conjoined.
-/

namespace ResourceQuery.Query

variable {reading : Reading}

/-! ### Taking a query apart -/

theorem kept_append (a b : Parts) : (a ++ b).kept = a.kept ++ b.kept := rfl

theorem clauses_append (a b : Parts) : (a ++ b).clauses = a.clauses ++ b.clauses := rfl

/-- A term that is no conjunction goes to one side or the other. -/
theorem part_of_ne {query : Query} (h : ∀ terms, query ≠ group .and terms) :
    part query = if query.isShaping then ⟨[], [query]⟩ else ⟨[query], []⟩ := by
  cases query with
  | group joiner terms =>
    cases joiner with
    | and => exact absurd rfl (h terms)
    | or => rfl
  | _ => rfl

theorem isShaping_of_mem_leaf {query clause : Query} (h : ∀ terms, query ≠ group .and terms)
    (hmem : clause ∈ (part query).clauses) : clause.isShaping = true := by
  rw [part_of_ne h] at hmem
  cases hshaping : query.isShaping with
  | true =>
    rw [hshaping, if_pos rfl, List.mem_singleton] at hmem
    rw [hmem, hshaping]
  | false => simp [hshaping] at hmem

theorem forall_kept_leaf {query : Query} (h : ∀ terms, query ≠ group .and terms) :
    (∀ term ∈ (part query).kept, term.accepts reading = true) ↔ query.accepts reading = true := by
  rw [part_of_ne h]
  cases hshaping : query.isShaping with
  | true => simp [accepts_of_isShaping hshaping]
  | false => simp

/-- Leaving out an empty query changes nothing. -/
theorem forall_filter_isNoop {queries : List Query} :
    (∀ query ∈ queries.filter (!·.isNoop), query.accepts reading = true) ↔
      ∀ query ∈ queries, query.accepts reading = true := by
  constructor
  · intro h query hmem
    cases hnoop : query.isNoop with
    | true => exact accepts_of_isNoop hnoop
    | false => exact h query (List.mem_filter.mpr ⟨hmem, by simp [hnoop]⟩)
  · exact fun h query hmem ↦ h query (List.mem_filter.mp hmem).1

mutual

/-- Only clauses that shape the answer are taken out of a term. -/
theorem isShaping_of_mem_part {query clause : Query} (h : clause ∈ (part query).clauses) :
    clause.isShaping = true := by
  cases query with
  | group joiner terms =>
    cases joiner with
    | and => exact isShaping_of_mem_partAll h
    | or => exact isShaping_of_mem_leaf (by simp) h
  | _ => exact isShaping_of_mem_leaf (by simp) h

theorem isShaping_of_mem_partAll {queries : List Query} {clause : Query}
    (h : clause ∈ (partAll queries).clauses) : clause.isShaping = true := by
  cases queries with
  | nil => cases h
  | cons query rest =>
    rw [partAll, clauses_append, List.mem_append] at h
    cases h with
    | inl h => exact isShaping_of_mem_part h
    | inr h => exact isShaping_of_mem_partAll h

end

mutual

/-- What is kept of a term accepts what the term accepts. -/
theorem forall_kept_part {query : Query} :
    (∀ term ∈ (part query).kept, term.accepts reading = true) ↔ query.accepts reading = true := by
  cases query with
  | group joiner terms =>
    cases joiner with
    | and =>
      rw [part, forall_filter_isNoop, List.forall_mem_singleton, accepts_join_and,
        forall_kept_partAll, accepts_and]
    | or => exact forall_kept_leaf (by simp)
  | _ => exact forall_kept_leaf (by simp)

theorem forall_kept_partAll {queries : List Query} :
    (∀ term ∈ (partAll queries).kept, term.accepts reading = true) ↔
      ∀ query ∈ queries, query.accepts reading = true := by
  cases queries with
  | nil => simp [partAll]
  | cons query rest =>
    rw [partAll, kept_append, List.forall_mem_append, forall_kept_part, forall_kept_partAll,
      List.forall_mem_cons]

end

/-- The conditions that are kept and the clauses that are no `in` lists all accept. -/
def Parts.Accept (reading : Reading) (parts : Parts) : Prop :=
  (∀ term ∈ parts.kept, term.accepts reading = true) ∧
    ∀ clause ∈ parts.clauses, clause.list? = none → clause.accepts reading = true

theorem Parts.accept_append (a b : Parts) :
    (a ++ b).Accept reading ↔ a.Accept reading ∧ b.Accept reading := by
  rw [Accept, Accept, Accept, kept_append, clauses_append, List.forall_mem_append,
    List.forall_mem_append]
  exact and_and_and_comm

theorem list?_of_isShaping {query : Query} (h : query.isShaping = true) : query.list? = none := by
  cases query <;> first | rfl | cases h

/-- A part out of which only shaping clauses were taken accepts what it kept. -/
theorem Parts.accept_iff {parts : Parts} (h : ∀ clause ∈ parts.clauses, clause.isShaping = true) :
    parts.Accept reading ↔ ∀ term ∈ parts.kept, term.accepts reading = true :=
  and_iff_left fun clause hmem _ ↦ accepts_of_isShaping (h clause hmem)

theorem accept_part {query : Query} :
    (part query).Accept reading ↔ query.accepts reading = true :=
  (Parts.accept_iff fun _ ↦ isShaping_of_mem_part).trans forall_kept_part

theorem accept_partTerm {query : Query} :
    (partTerm query).Accept reading ↔ (query.list? = none → query.accepts reading = true) := by
  cases query with
  | membership op property entries => simp [partTerm, Parts.Accept]
  | noop => simp [partTerm, Parts.Accept, accepts]
  | _ => exact accept_part.trans (by simp [list?])

theorem filterMap_list?_partTerm (query : Query) :
    (partTerm query).clauses.filterMap list? = query.list?.toList := by
  cases query with
  | membership op property entries => cases op <;> rfl
  | noop => rfl
  | _ => exact List.filterMap_eq_nil_iff.mpr fun _ h ↦ list?_of_isShaping (isShaping_of_mem_part h)

/-- The parts of several terms of a conjunction at the root. -/
def partTerms (terms : List Query) : Parts :=
  (terms.map partTerm).foldr (· ++ ·) ⟨[], []⟩

theorem accept_partTerms {terms : List Query} :
    (partTerms terms).Accept reading ↔
      ∀ term ∈ terms, term.list? = none → term.accepts reading = true := by
  induction terms with
  | nil => simp [partTerms, Parts.Accept]
  | cons term rest ih =>
    rw [List.forall_mem_cons, ← accept_partTerm, ← ih]
    exact Parts.accept_append _ _

theorem filterMap_list?_partTerms (terms : List Query) :
    (partTerms terms).clauses.filterMap list? = terms.filterMap list? := by
  induction terms with
  | nil => rfl
  | cons term rest ih =>
    have hcons : (partTerms (term :: rest)).clauses.filterMap list? =
        term.list?.toList ++ rest.filterMap list? := by
      rw [← ih, ← filterMap_list?_partTerm, ← List.filterMap_append]
      rfl
    rw [hcons, List.filterMap_cons]
    cases term.list? <;> rfl

/-- A query that is no group is parted like a term at the root. -/
theorem partRoot_of_ne {query : Query} (h : ∀ joiner terms, query ≠ group joiner terms) :
    query.partRoot = partTerm query := by
  cases query with
  | group joiner terms => exact absurd rfl (h joiner terms)
  | _ => rfl

theorem accepts_withoutRootLists_of_ne {query : Query}
    (h : ∀ joiner terms, query ≠ group joiner terms) :
    query.withoutRootLists.accepts reading = true ↔
      (query.list? = none → query.accepts reading = true) := by
  cases query with
  | group joiner terms => exact absurd rfl (h joiner terms)
  | membership op property entries => cases op <;> simp [withoutRootLists, list?, accepts]
  | _ => simp [withoutRootLists, list?]

/-- The parts of a query accept what the query accepts without its root-level lists. -/
theorem accept_partRoot {query : Query} :
    query.partRoot.Accept reading ↔ query.withoutRootLists.accepts reading = true := by
  cases query with
  | group joiner terms =>
    cases joiner with
    | and =>
      have hkept : (∀ term ∈ (group .and terms).partRoot.kept, term.accepts reading = true) ↔
          ∀ term ∈ (partTerms terms).kept, term.accepts reading = true :=
        forall_conjuncts_accepts.trans accepts_join_and
      have haccept : (group .and terms).partRoot.Accept reading ↔
          (partTerms terms).Accept reading := and_congr_left' hkept
      rw [haccept, accept_partTerms, withoutRootLists, accepts_and]
      simp
    | or =>
      have hclauses (clause : Query) (h : clause ∈ (group .or terms).partRoot.clauses) :
          clause.isShaping = true := (List.mem_filter.mp h).2
      rw [Parts.accept_iff hclauses]
      change (∀ term ∈ (join .or _).conjuncts, _) ↔ (group .or terms).accepts reading = true
      rw [forall_conjuncts_accepts, accepts_join_or, accepts_or_filter]
  | _ =>
    rw [partRoot_of_ne (by simp), accepts_withoutRootLists_of_ne (by simp)]
    exact accept_partTerm

/-- The root-level lists are all taken out of a query, and no other list is. -/
theorem filterMap_list?_partRoot (query : Query) :
    query.partRoot.clauses.filterMap list? = query.rootLists := by
  cases query with
  | group joiner terms =>
    cases joiner with
    | and => exact filterMap_list?_partTerms terms
    | or =>
      apply List.filterMap_eq_nil_iff.mpr
      intro clause h
      exact list?_of_isShaping (List.mem_filter.mp h).2
  | _ =>
    rw [partRoot_of_ne (by simp)]
    exact filterMap_list?_partTerm _

/-! ### Lists of one property -/

/-- The clause is an `in` list of the property. -/
def ListsFor (property : Property) (query : Query) : Prop :=
  ∃ list, query.list? = some list ∧ (list.1 == property) = true

/-- The clause is an `in` list of the property, and one of its values is a member. -/
def Admits (reading : Reading) (property : Property) (query : Query) : Prop :=
  ∃ list, query.list? = some list ∧ (list.1 == property) = true ∧
    list.2.any (reading.member property) = true

/-- The clause is no `in` list, and does not accept. -/
def Refuses (reading : Reading) (query : Query) : Prop :=
  query.list? = none ∧ query.accepts reading = false

theorem any_member_congr {p q : Property} (h : (p == q) = true) (entries : List Value) :
    entries.any (reading.member p) = entries.any (reading.member q) := by
  have hmember : reading.member p = reading.member q :=
    funext fun v ↦ reading.member_property v h
  rw [hmember]

theorem any_union (p : Property) (held more : List Value) :
    (appendNew Value.sameIgnoringCase held more).any (reading.member p) =
      (held.any (reading.member p) || more.any (reading.member p)) :=
  any_appendNew (fun _ _ h ↦ reading.member_value p h) held more

/-- Two clauses of one kind are `in` lists of one property, or none of them is an `in` list. -/
theorem absorb_cases {a b : Query} (h : a.sameKind b = true) :
    (∃ p q held more, a = membership .among p held ∧ b = membership .among q more ∧
      (p == q) = true) ∨
    (a.list? = none ∧ b.list? = none ∧ (a.absorb b).list? = none ∧
      ∀ reading, (a.absorb b).accepts reading = (a.accepts reading && b.accepts reading)) := by
  unfold sameKind at h
  split at h
  · exact .inr ⟨rfl, rfl, rfl, fun _ ↦ rfl⟩
  · exact .inr ⟨rfl, rfl, rfl, fun _ ↦ rfl⟩
  · next op p held op' q more =>
    rw [Bool.and_eq_true, beq_iff_eq] at h
    obtain ⟨rfl, hpq⟩ := h
    cases op with
    | among => exact .inl ⟨p, q, held, more, rfl, rfl, hpq⟩
    | outside =>
      refine .inr ⟨rfl, rfl, rfl, fun reading ↦ ?_⟩
      rw [absorb, accepts, accepts, accepts, any_union, any_member_congr hpq more, Bool.not_or]
  · cases h

theorem listsFor_absorb {property : Property} {a b : Query} (h : a.sameKind b = true) :
    (a.absorb b).ListsFor property ↔ a.ListsFor property ∨ b.ListsFor property := by
  obtain ⟨p, q, held, more, rfl, rfl, hpq⟩ | ⟨ha, hb, hab, -⟩ := absorb_cases h
  · have hproperty (hq : (q == property) = true) : (p == property) = true := BEq.trans hpq hq
    simpa [ListsFor, absorb, list?] using hproperty
  · simp [ListsFor, ha, hb, hab]

theorem admits_absorb {property : Property} {a b : Query} (h : a.sameKind b = true) :
    (a.absorb b).Admits reading property ↔
      a.Admits reading property ∨ b.Admits reading property := by
  obtain ⟨p, q, held, more, rfl, rfl, hpq⟩ | ⟨ha, hb, hab, -⟩ := absorb_cases h
  · have hproperty : (q == property) = (p == property) :=
      Bool.eq_iff_iff.mpr ⟨BEq.trans hpq, BEq.trans (BEq.symm hpq)⟩
    simp only [Admits, absorb, list?, Option.some.injEq, exists_eq_left', hproperty, any_union,
      Bool.or_eq_true]
    exact and_or_left
  · simp [Admits, ha, hb, hab]

theorem refuses_absorb {a b : Query} (h : a.sameKind b = true) :
    (a.absorb b).Refuses reading ↔ a.Refuses reading ∨ b.Refuses reading := by
  obtain ⟨p, q, held, more, rfl, rfl, hpq⟩ | ⟨ha, hb, hab, haccepts⟩ := absorb_cases h
  · simp [Refuses, absorb, list?]
  · rw [Refuses, Refuses, Refuses, hab, ha, hb, haccepts, Bool.and_eq_false_iff]
    simp

/-- A united clause accepts, if it is an `in` list, just if it admits its property. -/
theorem accepts_iff_admits {query : Query} {property : Property} (h : query.ListsFor property) :
    query.accepts reading = true ↔ query.Admits reading property := by
  obtain ⟨⟨p, entries⟩, hlist, hproperty⟩ := h
  obtain rfl := list?_eq_some_iff.mp hlist
  rw [accepts, any_member_congr hproperty entries]
  simp [Admits, list?, hproperty]

/-- United clauses that are no `in` lists accept if the clauses before do. -/
theorem forall_uniteAll_others {clauses : List Query} :
    (∀ query ∈ uniteAll clauses, query.list? = none → query.accepts reading = true) ↔
      ∀ query ∈ clauses, query.list? = none → query.accepts reading = true := by
  have hrefuses : (∃ query ∈ uniteAll clauses, query.Refuses reading) ↔
      ∃ query ∈ clauses, query.Refuses reading := exists_mem_uniteAll fun _ _ ↦ refuses_absorb
  have hall (queries : List Query) :
      (∀ query ∈ queries, query.list? = none → query.accepts reading = true) ↔
        ¬∃ query ∈ queries, query.Refuses reading := by
    simp [Refuses]
  rw [hall, hall, hrefuses]

/-- Among united clauses there is one list for a property. -/
theorem eq_of_mem_uniteAll {clauses : List Query} {property : Property} {query other : Query}
    (hquery : query ∈ uniteAll clauses) (hother : other ∈ uniteAll clauses)
    (hlist : query.ListsFor property) (hlist' : other.ListsFor property) : query = other := by
  by_contra hne
  obtain ⟨⟨p, entries⟩, hentries, hp⟩ := hlist
  obtain ⟨⟨q, more⟩, hmore, hq⟩ := hlist'
  have hdiffers := (pairwise_uniteAll clauses).forall hquery hother hne
  rw [list?_eq_some_iff.mp hentries, list?_eq_some_iff.mp hmore] at hdiffers
  rw [Differs, sameKind, BEq.trans hp (BEq.symm hq)] at hdiffers
  cases hdiffers

theorem listsFor_of_admits {property : Property} {query : Query}
    (h : query.Admits reading property) : query.ListsFor property := by
  obtain ⟨list, hlist, hproperty, -⟩ := h
  exact ⟨list, hlist, hproperty⟩

/-- United clauses accept if the clauses that are no `in` lists do, and if of the lists for any one
property some list does. -/
theorem forall_uniteAll_accepts {clauses : List Query} :
    (∀ query ∈ uniteAll clauses, query.accepts reading = true) ↔
      (∀ query ∈ clauses, query.list? = none → query.accepts reading = true) ∧
        ∀ property, (∃ query ∈ clauses, query.ListsFor property) →
          ∃ query ∈ clauses, query.Admits reading property := by
  have hlists (property : Property) : (∃ query ∈ uniteAll clauses, query.ListsFor property) ↔
      ∃ query ∈ clauses, query.ListsFor property := exists_mem_uniteAll fun _ _ ↦ listsFor_absorb
  have hadmits (property : Property) :
      (∃ query ∈ uniteAll clauses, query.Admits reading property) ↔
        ∃ query ∈ clauses, query.Admits reading property :=
    exists_mem_uniteAll fun _ _ ↦ admits_absorb
  constructor
  · intro h
    refine ⟨forall_uniteAll_others.mp fun query hmem _ ↦ h query hmem, fun property hproperty ↦ ?_⟩
    obtain ⟨united, hunited, hfor⟩ := (hlists property).mpr hproperty
    exact (hadmits property).mp ⟨united, hunited, (accepts_iff_admits hfor).mp (h united hunited)⟩
  · rintro ⟨hothers, hproperties⟩ query hmem
    cases hlist : query.list? with
    | none => exact forall_uniteAll_others.mpr hothers query hmem hlist
    | some list =>
      have hfor : query.ListsFor list.1 := ⟨list, hlist, BEq.rfl⟩
      obtain ⟨other, hother, hadmitted⟩ :=
        (hadmits list.1).mpr (hproperties list.1 ((hlists list.1).mp ⟨query, hmem, hfor⟩))
      have hsame : query = other :=
        eq_of_mem_uniteAll hmem hother hfor (listsFor_of_admits hadmitted)
      rw [accepts_iff_admits hfor, hsame]
      exact hadmitted

/-! ### The conjunction -/

theorem exists_listsFor_iff {clauses : List Query} {property : Property} :
    (∃ query ∈ clauses, query.ListsFor property) ↔
      ∃ list ∈ clauses.filterMap list?, (list.1 == property) = true := by
  simp only [List.mem_filterMap, ListsFor]
  constructor
  · rintro ⟨query, hmem, list, hlist, hproperty⟩
    exact ⟨list, ⟨query, hmem, hlist⟩, hproperty⟩
  · rintro ⟨list, ⟨query, hmem, hlist⟩, hproperty⟩
    exact ⟨query, hmem, list, hlist, hproperty⟩

theorem exists_admits_iff {clauses : List Query} {property : Property} :
    (∃ query ∈ clauses, query.Admits reading property) ↔
      (listedValues property (clauses.filterMap list?)).any (reading.member property) = true := by
  rw [listedValues, List.any_flatMap, List.any_eq_true]
  simp only [List.mem_filter, List.mem_filterMap, Admits]
  constructor
  · rintro ⟨query, hmem, list, hlist, hproperty, hany⟩
    exact ⟨list, ⟨⟨query, hmem, hlist⟩, hproperty⟩, hany⟩
  · rintro ⟨list, ⟨⟨query, hmem, hlist⟩, hproperty⟩, hany⟩
    exact ⟨query, hmem, list, hlist, hproperty, hany⟩

theorem accepts_conjoin (a b : Query) :
    (conjoin a b).accepts reading = true ↔
      (a.withoutRootLists.accepts reading = true ∧ b.withoutRootLists.accepts reading = true) ∧
        ∀ property, (∃ list ∈ a.rootLists ++ b.rootLists, (list.1 == property) = true) →
          (listedValues property (a.rootLists ++ b.rootLists)).any
            (reading.member property) = true := by
  have hlists : (a.partRoot ++ b.partRoot).clauses.filterMap list? =
      a.rootLists ++ b.rootLists := by
    rw [clauses_append, List.filterMap_append, filterMap_list?_partRoot, filterMap_list?_partRoot]
  rw [conjoin, accepts_join_and, List.forall_mem_append, forall_uniteAll_accepts, ← and_assoc,
    ← accept_partRoot, ← accept_partRoot, ← Parts.accept_append]
  simp only [exists_listsFor_iff, exists_admits_iff, hlists]
  exact Iff.rfl

/-- Merging succeeds just if nothing conflicts in the conjunction, which is then the result. -/
theorem merge_eq_ok_iff {a b merged : Query} (ha : a.isNoop = false) (hb : b.isNoop = false) :
    merge a b = .ok merged ↔ (conjoin a b).conflict? = none ∧ merged = conjoin a b := by
  have hvalid : (conjoin a b).validate = .ok () ↔ (conjoin a b).conflict? = none :=
    validate_eq_ok_iff
  unfold merge
  rw [hb, ha, ← hvalid]
  cases hresult : (conjoin a b).validate <;> simp [hresult, eq_comm]

theorem merge_eq_ok {a b merged : Query} (ha : a.isNoop = false) (hb : b.isNoop = false)
    (h : merge a b = .ok merged) : merged = conjoin a b :=
  ((merge_eq_ok_iff ha hb).mp h).2

/-- A merged query accepts a record exactly if both queries do without their root-level lists, and
if for each property with such lists in either query, one list of all their values does. -/
theorem accepts_merge {a b merged : Query} (ha : a.isNoop = false) (hb : b.isNoop = false)
    (h : merge a b = .ok merged) (reading : Reading) :
    merged.accepts reading = true ↔
      (a.withoutRootLists.accepts reading = true ∧ b.withoutRootLists.accepts reading = true) ∧
        ∀ property, (∃ list ∈ a.rootLists ++ b.rootLists, (list.1 == property) = true) →
          (membership .among property
            (listedValues property (a.rootLists ++ b.rootLists))).accepts reading = true := by
  rw [merge_eq_ok ha hb h]
  exact accepts_conjoin a b

/-- Two lists for one property are one list in the merged query. -/
theorem accepts_merge_lists :
    (group .and [membership .among ⟨["a"]⟩ [.bool true], compare .eq ⟨["b"]⟩ .null]
      ).withoutRootLists.accepts .allTrue = true ∧
    (membership .among ⟨["A"]⟩ (listedValues ⟨["A"]⟩
      [(⟨["a"]⟩, [.bool true]), (⟨["A"]⟩, [.bool false])])).accepts .allTrue = true := by
  have hmerge : merge
      (group .and [membership .among ⟨["a"]⟩ [.bool true], compare .eq ⟨["b"]⟩ .null])
      (membership .among ⟨["A"]⟩ [.bool false]) =
        .ok (group .and [compare .eq ⟨["b"]⟩ .null,
          membership .among ⟨["a"]⟩ [.bool true, .bool false]]) := rfl
  have haccepts := (accepts_merge rfl rfl hmerge .allTrue).mp rfl
  exact ⟨haccepts.1.1, haccepts.2 ⟨["A"]⟩ ⟨_, List.mem_cons_self, rfl⟩⟩

/-- What a record accepted by a merged query has to meet, whether or not the queries are empty. -/
theorem meets_of_accepts_merge {a b merged : Query} (h : merge a b = .ok merged)
    (haccepts : merged.accepts reading = true) :
    (a.withoutRootLists.accepts reading = true ∧ b.withoutRootLists.accepts reading = true) ∧
      ∀ list ∈ a.rootLists ++ b.rootLists, ∃ other ∈ a.rootLists ++ b.rootLists,
        (other.1 == list.1) = true ∧ other.2.any (reading.member list.1) = true := by
  have hempty (query : Query) (hnoop : query.isNoop = true) : query = noop := by
    cases query <;> first | rfl | cases hnoop
  cases hb : b.isNoop with
  | true =>
    obtain rfl := hempty b hb
    cases h
    obtain ⟨hothers, hlists⟩ := accepts_iff_withoutRootLists.mp haccepts
    refine ⟨⟨hothers, rfl⟩, fun list hmem ↦ ⟨list, hmem, BEq.rfl, hlists list ?_⟩⟩
    simpa [rootLists, list?] using hmem
  | false =>
    cases ha : a.isNoop with
    | true =>
      obtain rfl := hempty a ha
      obtain rfl : b = merged := by
        rw [merge, hb] at h
        cases h
        rfl
      obtain ⟨hothers, hlists⟩ := accepts_iff_withoutRootLists.mp haccepts
      refine ⟨⟨rfl, hothers⟩, fun list hmem ↦ ⟨list, hmem, BEq.rfl, hlists list ?_⟩⟩
      simpa [rootLists, list?] using hmem
    | false =>
      rw [merge_eq_ok ha hb h, accepts_conjoin] at haccepts
      refine ⟨haccepts.1, fun list hmem ↦ ?_⟩
      have hany := haccepts.2 list.1 ⟨list, hmem, BEq.rfl⟩
      rw [listedValues, List.any_flatMap, List.any_eq_true] at hany
      obtain ⟨other, hother, hany⟩ := hany
      rw [List.mem_filter] at hother
      exact ⟨other, hother.1, hother.2, hany⟩

/-- Merging weakens nothing but root-level lists: of a record that the merged query accepts, each
query accepts the rest, some list for each listed property does, and a query whose lists stand
alone accepts the record. -/
theorem accepts_of_accepts_merge {a b merged : Query} (h : merge a b = .ok merged)
    (haccepts : merged.accepts reading = true) :
    (a.withoutRootLists.accepts reading = true ∧ b.withoutRootLists.accepts reading = true) ∧
    (∀ list ∈ a.rootLists ++ b.rootLists, ∃ other ∈ a.rootLists ++ b.rootLists,
      (other.1 == list.1) = true ∧ other.2.any (reading.member list.1) = true) ∧
    ((∀ list ∈ a.rootLists, StandsAlone list (a.rootLists ++ b.rootLists)) →
      a.accepts reading = true) ∧
    ((∀ list ∈ b.rootLists, StandsAlone list (a.rootLists ++ b.rootLists)) →
      b.accepts reading = true) := by
  obtain ⟨hothers, hlists⟩ := meets_of_accepts_merge h haccepts
  have halone (list : Property × List Value) (hmem : list ∈ a.rootLists ++ b.rootLists)
      (h : StandsAlone list (a.rootLists ++ b.rootLists)) :
      list.2.any (reading.member list.1) = true := by
    obtain ⟨other, hother, hproperty, hany⟩ := hlists list hmem
    have hfiltered : other ∈ (a.rootLists ++ b.rootLists).filter (·.1 == list.1) :=
      List.mem_filter.mpr ⟨hother, hproperty⟩
    rw [h, List.mem_singleton] at hfiltered
    exact hfiltered ▸ hany
  refine ⟨hothers, hlists, fun ha ↦ ?_, fun hb ↦ ?_⟩
  · exact accepts_iff_withoutRootLists.mpr ⟨hothers.1, fun list hmem ↦
      halone list (List.mem_append_left _ hmem) (ha list hmem)⟩
  · exact accepts_iff_withoutRootLists.mpr ⟨hothers.2, fun list hmem ↦
      halone list (List.mem_append_right _ hmem) (hb list hmem)⟩

/-- A list for another property stands alone. -/
theorem accepts_of_accepts_merge_alone :
    (membership .among ⟨["a"]⟩ [.bool true]).accepts .allTrue = true := by
  have hmerge : merge (membership .among ⟨["a"]⟩ [.bool true])
      (membership .among ⟨["b"]⟩ [.bool true, .bool false]) =
        .ok (group .and [membership .among ⟨["a"]⟩ [.bool true],
          membership .among ⟨["b"]⟩ [.bool true, .bool false]]) := rfl
  have haccepts : (group .and [membership .among ⟨["a"]⟩ [.bool true],
      membership .among ⟨["b"]⟩ [.bool true, .bool false]]).accepts .allTrue = true := rfl
  refine (accepts_of_accepts_merge hmerge haccepts).2.2.1 fun list hmem ↦ ?_
  rw [List.mem_singleton.mp hmem]
  rfl

/-- Two lists for one property are united, and the union accepts more than each of them. -/
theorem merge_accepts_more :
    ∃ a b merged, read {} "in(a,false)" = .ok a ∧ read {} "in(a,true)" = .ok b ∧
      merge a b = .ok merged ∧ merged.accepts .allTrue = true ∧ a.accepts .allTrue = false := by
  refine ⟨membership .among ⟨["a"]⟩ [.bool false], membership .among ⟨["a"]⟩ [.bool true],
    membership .among ⟨["a"]⟩ [.bool false, .bool true], ?_, ?_, rfl, rfl, rfl⟩
  · cbv
  · cbv

end ResourceQuery.Query
