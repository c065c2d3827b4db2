import Mathlib.Tactic.Tauto
import ResourceQuery.Proofs.Conservation
import ResourceQuery.Proofs.Reachable

/-!
# Merging three queries

Queries can be merged one after the other in two groupings. Both succeed or fail together, since the
rules only look at what is in all three queries. What the results accept may differ: a list that is
no root-level list of a query comes up to the root of the merged query when the groups around it
fall away, and is then united with the lists of the third query. The difference lies with such lists
only, and there is none if they share no property with a list that they are united with.
-/

namespace ResourceQuery.Query

variable {a b c query : Query} {reading : Reading}

/-! ### Conflicts in three queries -/

theorem SameCensus.refl (query : Query) : SameCensus query query :=
  ⟨fun _ ↦ rfl, rfl, rfl, Iff.rfl, .refl _⟩

theorem occurrences_pair {keyword : Keyword} (hmem : keyword ∈ onceOnly) (a b : Query) :
    (group .and [a, b]).occurrences keyword = a.occurrences keyword + b.occurrences keyword :=
  countP_pair isWalk_preorder (fun _ _ ↦ operation_of_mem_onceOnly hmem rfl) a b

theorem bareCounts_pair (a b : Query) :
    (group .and [a, b]).bareCounts = a.bareCounts + b.bareCounts :=
  countP_pair isWalk_preorder (fun _ _ ↦ rfl) a b

theorem ungroupedFunctions_pair (a b : Query) :
    (group .and [a, b]).ungroupedFunctions = a.ungroupedFunctions + b.ungroupedFunctions :=
  countP_pair isWalk_outer (fun _ _ ↦ rfl) a b

theorem SameCensus.pair {a' b' : Query} (ha : SameCensus a a') (hb : SameCensus b b') :
    SameCensus (group .and [a, b]) (group .and [a', b']) where
  occurrences hmem := by
    rw [occurrences_pair hmem, occurrences_pair hmem, ha.occurrences hmem, hb.occurrences hmem]
  bareCounts := by rw [bareCounts_pair, bareCounts_pair, ha.bareCounts, hb.bareCounts]
  ungroupedFunctions := by
    rw [ungroupedFunctions_pair, ungroupedFunctions_pair, ha.ungroupedFunctions,
      hb.ungroupedFunctions]
  selects := by rw [selects_pair, selects_pair, ha.selects, hb.selects]
  targets := by
    rw [targets_pair, targets_pair]
    exact ha.targets.append hb.targets

/-- How queries side by side are grouped makes no difference to what they hold. -/
theorem sameCensus_regroup (a b c : Query) :
    SameCensus (group .and [group .and [a, b], c]) (group .and [a, group .and [b, c]]) where
  occurrences hmem := by simp only [occurrences_pair hmem, Nat.add_assoc]
  bareCounts := by simp only [bareCounts_pair, Nat.add_assoc]
  ungroupedFunctions := by simp only [ungroupedFunctions_pair, Nat.add_assoc]
  selects := by simp only [selects_pair, or_assoc]
  targets := by simp only [targets_pair, List.append_assoc, List.Perm.refl]

/-- Both groupings of three queries break the same rules. -/
theorem conflict?_conjoin_conjoin_eq_none_iff (a b c : Query) :
    (conjoin (conjoin a b) c).conflict? = none ↔ (conjoin a (conjoin b c)).conflict? = none := by
  have hleft : SameCensus (conjoin (conjoin a b) c) (group .and [group .and [a, b], c]) :=
    (sameCensus_conjoin _ c).trans ((sameCensus_conjoin a b).pair (.refl c))
  have hright : SameCensus (conjoin a (conjoin b c)) (group .and [a, group .and [b, c]]) :=
    (sameCensus_conjoin a _).trans ((SameCensus.refl a).pair (sameCensus_conjoin b c))
  exact ((hleft.trans (sameCensus_regroup a b c)).trans hright.symm).conflict?_eq_none_iff

/-- A term holds no more than the group that it is in. -/
theorem lighter_of_mem {joiner : Joiner} {terms : List Query} (h : query ∈ terms) :
    Lighter query (group joiner terms) := by
  have hsublist {β : Type} {look : Query → Option β} {walk inside : Query → List Query}
      (hwalk : IsWalk walk inside) (hlook : IsShallow look) :
      ((walk query).filterMap look).Sublist ((walk (group joiner terms)).filterMap look) := by
    rw [hwalk.filterMap_group hlook,
      ← List.flatMap_singleton (fun term ↦ (walk term).filterMap look)]
    exact ((List.singleton_sublist.mpr h).flatMap _).trans (List.sublist_append_right _ _)
  exact lighter_of_sublist (hsublist isWalk_preorder) (hsublist isWalk_outer)

/-- What a conjunction is made of is free of conflicts if the conjunction is. -/
theorem conflict?_of_conjoin (h : (conjoin a b).conflict? = none) :
    a.conflict? = none ∧ b.conflict? = none := by
  rw [conflict?_conjoin_eq_none_iff] at h
  exact ⟨(lighter_of_mem (by simp)).conflict?_eq_none h,
    (lighter_of_mem (by simp)).conflict?_eq_none h⟩

/-! ### The shape of a conjunction -/

theorem Intact.isNoop_eq_false (h : query.Intact) : query.isNoop = false := by
  cases query with
  | noop => exact (intact_iff.mp h).1.elim
  | _ => rfl

/-- The node is neither a group nor the empty query. -/
def isLeaf : Query → Bool
  | noop | group _ _ => false
  | _ => true

theorem Intact.exists_isLeaf (h : query.Intact) : ∃ node ∈ query.preorder, node.isLeaf = true := by
  induction query using nodes_induction with
  | h query ih =>
    cases query with
    | noop => exact (intact_iff.mp h).1.elim
    | group joiner terms =>
      obtain ⟨hne, hterms⟩ := inherited_intact.group_iff.mp h
      obtain ⟨term, hmem⟩ := List.exists_mem_of_ne_nil terms hne
      obtain ⟨node, hnode, hleaf⟩ := ih term hmem (hterms term hmem)
      refine ⟨node, ?_, hleaf⟩
      rw [isWalk_preorder.of_group]
      exact List.mem_cons_of_mem _ (List.mem_flatMap.mpr ⟨term, hmem, hnode⟩)
    | _ => exact ⟨_, mem_preorder_self _, rfl⟩

/-- Something is left of a query that was taken apart. -/
theorem Intact.partRoot_ne_nil (h : query.Intact) :
    query.partRoot.kept ≠ [] ∨ query.partRoot.clauses ≠ [] := by
  obtain ⟨node, hnode, hleaf⟩ := h.exists_isLeaf
  have hgathers : Gathers fun query ↦ query.preorder.filter isLeaf :=
    gathers_filter isWalk_preorder rfl fun _ _ ↦ rfl
  by_contra! hnil
  have hperm := (hgathers.hold_partRoot query).perm
  rw [hnil.1, hnil.2] at hperm
  have hmem := hperm.symm.subset (List.mem_filter.mpr ⟨hnode, hleaf⟩)
  cases hmem

/-- The terms of the conjunction of two queries. -/
def mergedTerms (a b : Query) : List Query :=
  (a.partRoot ++ b.partRoot).kept ++ uniteAll (a.partRoot ++ b.partRoot).clauses

theorem conjoin_eq_join (a b : Query) : conjoin a b = join .and (mergedTerms a b) := rfl

/-- No united clause is a group. -/
theorem ne_group_of_mem_uniteAll {clauses : List Query}
    (h : ∀ clause ∈ clauses, ∀ joiner terms, clause ≠ group joiner terms) :
    ∀ united ∈ uniteAll clauses, ∀ joiner terms, united ≠ group joiner terms := by
  refine forall_uniteAll h fun held more hheld _ _ joiner terms ↦ ?_
  unfold absorb
  split
  · simp
  · simp
  · simp
  · exact hheld joiner terms

theorem ne_group_of_mem_clauses {clause : Query} (h : clause ∈ query.partRoot.clauses)
    (joiner : Joiner) (terms : List Query) : clause ≠ group joiner terms := by
  rintro rfl
  obtain hshaping | ⟨op, property, entries, hmembership⟩ := isShaping_or_membership h
  · cases hshaping
  · cases hmembership

/-- If there is a single term, it is a clause that was taken out. -/
theorem mergedTerms_cases (ha : a.Intact) (hb : b.Intact) :
    (∃ head second rest, mergedTerms a b = head :: second :: rest) ∨
      ∃ clause, mergedTerms a b = [clause] ∧ ∀ joiner terms, clause ≠ group joiner terms := by
  have hclauses (clause : Query) (hmem : clause ∈ (a.partRoot ++ b.partRoot).clauses) :
      ∀ joiner terms, clause ≠ group joiner terms := by
    rw [clauses_append] at hmem
    exact (List.mem_append.mp hmem).elim ne_group_of_mem_clauses ne_group_of_mem_clauses
  have hunited := ne_group_of_mem_uniteAll hclauses
  by_cases hnil : (a.partRoot ++ b.partRoot).clauses = []
  · obtain ⟨hnila, hnilb⟩ := List.append_eq_nil_iff.mp hnil
    obtain ⟨head, others, hfirst⟩ :=
      List.exists_cons_of_ne_nil (ha.partRoot_ne_nil.resolve_right (not_not_intro hnila))
    obtain ⟨second, rest, hsecond⟩ :=
      List.exists_cons_of_ne_nil (hb.partRoot_ne_nil.resolve_right (not_not_intro hnilb))
    have hterms : mergedTerms a b = head :: (others ++ second :: rest) := by
      rw [mergedTerms, hnil, kept_append, hfirst, hsecond]
      simp [uniteAll]
    cases others with
    | nil => exact .inl ⟨head, second, rest, hterms⟩
    | cons other others => exact .inl ⟨head, other, _, hterms⟩
  · obtain ⟨united, rest, hcons⟩ := List.exists_cons_of_ne_nil (uniteAll_ne_nil hnil)
    rw [mergedTerms, hcons]
    rw [hcons] at hunited
    rcases (a.partRoot ++ b.partRoot).kept with _ | ⟨head, _ | ⟨second, others⟩⟩
    · cases rest with
      | nil => exact .inr ⟨united, rfl, hunited united (by simp)⟩
      | cons other rest => exact .inl ⟨united, other, rest, rfl⟩
    · exact .inl ⟨head, united, rest, rfl⟩
    · exact .inl ⟨head, second, _, rfl⟩

theorem intact_conjoin (ha : a.Intact) (hb : b.Intact) : (conjoin a b).Intact := by
  have hparts := (inherited_intact.all_partRoot ha).append (inherited_intact.all_partRoot hb)
  have hunited := forall_uniteAll hparts.2 fun _ _ ha hb _ ↦ inherited_intact.absorb ha hb
  refine inherited_intact.join ?_ (List.forall_mem_append.mpr ⟨hparts.1, hunited⟩)
  change mergedTerms a b ≠ []
  obtain ⟨head, second, rest, hterms⟩ | ⟨clause, hterms, -⟩ := mergedTerms_cases ha hb
  · simp [hterms]
  · simp [hterms]

/-- All lists among the terms are root-level lists of the conjunction. -/
theorem rootLists_conjoin (ha : a.Intact) (hb : b.Intact) :
    (conjoin a b).rootLists = (mergedTerms a b).filterMap list? := by
  rw [conjoin_eq_join]
  obtain ⟨head, second, rest, hterms⟩ | ⟨clause, hterms, hne⟩ := mergedTerms_cases ha hb
  · rw [hterms]
    rfl
  · rw [hterms, join]
    cases clause with
    | group joiner terms => exact absurd rfl (hne joiner terms)
    | membership op property entries => cases op <;> rfl
    | _ => rfl

/-- Without the root-level lists, the conjunction is what is left of the terms. -/
theorem accepts_withoutRootLists_conjoin (ha : a.Intact) (hb : b.Intact) :
    (conjoin a b).withoutRootLists.accepts reading = true ↔
      ∀ term ∈ mergedTerms a b, term.list? = none → term.accepts reading = true := by
  rw [conjoin_eq_join]
  obtain ⟨head, second, rest, hterms⟩ | ⟨clause, hterms, hne⟩ := mergedTerms_cases ha hb
  · have hjoin : join .and (head :: second :: rest) = group .and (head :: second :: rest) := rfl
    rw [hterms, hjoin, withoutRootLists, accepts_and]
    simp only [List.mem_filter, Option.isNone_iff_eq_none, and_imp]
  · rw [hterms, join, accepts_withoutRootLists_of_ne hne, List.forall_mem_singleton]

/-! ### Lists that come up to the root -/

/-- The lists that are no root-level lists of a query and yet terms of its conjunction with another
one, because the groups that they are in fall away. -/
def surfacingLists (query : Query) : List (Property × List Value) :=
  query.partRoot.kept.filterMap list?

/-- The pieces of the query that are no lists accept. -/
def RestAccepts (reading : Reading) (query : Query) : Prop :=
  (∀ term ∈ query.partRoot.kept, term.list? = none → term.accepts reading = true) ∧
    ∀ clause ∈ query.partRoot.clauses, clause.list? = none → clause.accepts reading = true

/-- Some value of the list is a member. -/
def Meets (reading : Reading) (list : Property × List Value) : Prop :=
  list.2.any (reading.member list.1) = true

theorem accepts_withoutRootLists_iff :
    query.withoutRootLists.accepts reading = true ↔
      RestAccepts reading query ∧ ∀ list ∈ query.surfacingLists, Meets reading list := by
  have hkept : (∀ term ∈ query.partRoot.kept, term.accepts reading = true) ↔
      (∀ term ∈ query.partRoot.kept, term.list? = none → term.accepts reading = true) ∧
        ∀ list ∈ query.surfacingLists, Meets reading list := by
    simp only [surfacingLists, List.mem_filterMap, Meets]
    constructor
    · intro h
      refine ⟨fun term hmem _ ↦ h term hmem, ?_⟩
      rintro list ⟨term, hmem, hlist⟩
      exact (accepts_iff_list?.mp (h term hmem)).2 list hlist
    · rintro ⟨hrest, hlists⟩ term hmem
      exact accepts_iff_list?.mpr
        ⟨hrest term hmem, fun list hlist ↦ hlists list ⟨term, hmem, hlist⟩⟩
  rw [← accept_partRoot, Parts.Accept, hkept, RestAccepts]
  exact and_right_comm

theorem restAccepts_conjoin (ha : a.Intact) (hb : b.Intact) :
    (conjoin a b).withoutRootLists.accepts reading = true ↔
      RestAccepts reading a ∧ RestAccepts reading b := by
  rw [accepts_withoutRootLists_conjoin ha hb, mergedTerms, List.forall_mem_append,
    forall_uniteAll_others, kept_append, clauses_append, List.forall_mem_append,
    List.forall_mem_append]
  exact and_and_and_comm

/-! ### Unions of lists -/

section Lists

variable {lists others united : List (Property × List Value)}

/-- Of the lists for any one property, some list has a member. -/
def UnionMeets (reading : Reading) (lists : List (Property × List Value)) : Prop :=
  ∀ property, (∃ list ∈ lists, (list.1 == property) = true) →
    ∃ list ∈ lists, (list.1 == property) = true ∧ Meets reading list

theorem unionMeets_congr (h : ∀ list, list ∈ lists ↔ list ∈ others) :
    UnionMeets reading lists ↔ UnionMeets reading others := by
  simp only [UnionMeets, h]

theorem any_member_iff {list : Property × List Value} {property : Property}
    (h : (list.1 == property) = true) :
    list.2.any (reading.member property) = true ↔ Meets reading list := by
  rw [Meets, any_member_congr h]

theorem exists_admits_iff_meets {clauses : List Query} {property : Property} :
    (∃ query ∈ clauses, query.Admits reading property) ↔
      ∃ list ∈ clauses.filterMap list?, (list.1 == property) = true ∧ Meets reading list := by
  simp only [List.mem_filterMap, Admits]
  constructor
  · rintro ⟨query, hmem, list, hlist, hproperty, hany⟩
    exact ⟨list, ⟨query, hmem, hlist⟩, hproperty, (any_member_iff hproperty).mp hany⟩
  · rintro ⟨list, ⟨query, hmem, hlist⟩, hproperty, hmeets⟩
    exact ⟨query, hmem, list, hlist, hproperty, (any_member_iff hproperty).mpr hmeets⟩

theorem unionMeets_iff_listedValues :
    UnionMeets reading lists ↔ ∀ property, (∃ list ∈ lists, (list.1 == property) = true) →
      (listedValues property lists).any (reading.member property) = true := by
  refine forall_congr' fun property ↦ imp_congr_right fun _ ↦ ?_
  rw [listedValues, List.any_flatMap, List.any_eq_true]
  simp only [List.mem_filter, and_assoc]
  exact exists_congr fun list ↦ and_congr_right fun _ ↦ and_congr_right fun hproperty ↦
    (any_member_iff hproperty).symm

theorem accepts_conjoin_iff (a b : Query) :
    (conjoin a b).accepts reading = true ↔
      (a.withoutRootLists.accepts reading = true ∧ b.withoutRootLists.accepts reading = true) ∧
        UnionMeets reading (a.rootLists ++ b.rootLists) := by
  rw [accepts_conjoin, unionMeets_iff_listedValues]

/-- Lists that are united beforehand count like the lists themselves. -/
theorem unionMeets_uniteAll (clauses : List Query) :
    UnionMeets reading (lists ++ (uniteAll clauses).filterMap list?) ↔
      UnionMeets reading (lists ++ clauses.filterMap list?) := by
  have hlists (property : Property) :
      (∃ list ∈ (uniteAll clauses).filterMap list?, (list.1 == property) = true) ↔
        ∃ list ∈ clauses.filterMap list?, (list.1 == property) = true := by
    rw [← exists_listsFor_iff, ← exists_listsFor_iff]
    exact exists_mem_uniteAll fun _ _ ↦ listsFor_absorb
  have hadmits (property : Property) :
      (∃ list ∈ (uniteAll clauses).filterMap list?,
          (list.1 == property) = true ∧ Meets reading list) ↔
        ∃ list ∈ clauses.filterMap list?, (list.1 == property) = true ∧ Meets reading list := by
    rw [← exists_admits_iff_meets, ← exists_admits_iff_meets]
    exact exists_mem_uniteAll fun _ _ ↦ admits_absorb
  simp only [UnionMeets, List.mem_append, or_and_right, exists_or, hlists, hadmits]

/-- No list shares its property with a different one that it is united with. -/
def KeptApart (lists united : List (Property × List Value)) : Prop :=
  ∀ list ∈ lists, ∀ other ∈ lists ++ united, (other.1 == list.1) = true → other = list

/-- Lists that are kept apart from others accept on their own. -/
theorem KeptApart.unionMeets_iff (h : KeptApart lists united) :
    UnionMeets reading (lists ++ united) ↔
      (∀ list ∈ lists, Meets reading list) ∧ UnionMeets reading united := by
  constructor
  · intro hunion
    constructor
    · intro list hmem
      obtain ⟨other, hother, hproperty, hmeets⟩ :=
        hunion list.1 ⟨list, List.mem_append_left _ hmem, BEq.rfl⟩
      rwa [← h list hmem other hother hproperty]
    · rintro property ⟨list, hmem, hlist⟩
      obtain ⟨other, hother, hproperty, hmeets⟩ :=
        hunion property ⟨list, List.mem_append_right _ hmem, hlist⟩
      refine ⟨other, ?_, hproperty, hmeets⟩
      refine (List.mem_append.mp hother).elim (fun hmem' ↦ ?_) id
      rwa [← h other hmem' list (List.mem_append_right _ hmem)
        (BEq.trans hlist (BEq.symm hproperty))]
  · rintro ⟨hlists, hunion⟩ property ⟨list, hmem, hproperty⟩
    obtain hmem | hmem := List.mem_append.mp hmem
    · exact ⟨list, List.mem_append_left _ hmem, hproperty, hlists list hmem⟩
    · obtain ⟨other, hother, hboth⟩ := hunion property ⟨list, hmem, hproperty⟩
      exact ⟨other, List.mem_append_right _ hother, hboth⟩

end Lists

/-! ### What both groupings accept -/

/-- The lists of three queries that are united in either grouping. -/
def commonLists (a b c : Query) : List (Property × List Value) :=
  b.surfacingLists ++ (a.rootLists ++ b.rootLists ++ c.rootLists)

theorem unionMeets_conjoin (ha : a.Intact) (hb : b.Intact)
    (lists : List (Property × List Value)) :
    UnionMeets reading (lists ++ (conjoin a b).rootLists) ↔
      UnionMeets reading
        (lists ++ (a.surfacingLists ++ b.surfacingLists) ++ (a.rootLists ++ b.rootLists)) := by
  rw [rootLists_conjoin ha hb, mergedTerms, List.filterMap_append, ← List.append_assoc,
    unionMeets_uniteAll, clauses_append, List.filterMap_append, filterMap_list?_partRoot,
    filterMap_list?_partRoot, kept_append, List.filterMap_append]
  exact Iff.rfl

/-- With the first two queries merged first, lists that come up from the first one are united with
the others, and lists that come up from the third one are not. -/
theorem accepts_conjoin_left (ha : a.Intact) (hb : b.Intact) (c : Query) :
    (conjoin (conjoin a b) c).accepts reading = true ↔
      (RestAccepts reading a ∧ RestAccepts reading b ∧ RestAccepts reading c) ∧
        (∀ list ∈ c.surfacingLists, Meets reading list) ∧
          UnionMeets reading (a.surfacingLists ++ commonLists a b c) := by
  have hlists : UnionMeets reading ((conjoin a b).rootLists ++ c.rootLists) ↔
      UnionMeets reading (a.surfacingLists ++ commonLists a b c) := by
    rw [unionMeets_congr fun _ ↦ List.perm_append_comm.mem_iff, unionMeets_conjoin ha hb]
    refine unionMeets_congr fun list ↦ ?_
    simp only [commonLists, List.mem_append]
    tauto
  rw [accepts_conjoin_iff, restAccepts_conjoin ha hb, accepts_withoutRootLists_iff, hlists]
  tauto

/-- With the last two queries merged first it is the other way round. -/
theorem accepts_conjoin_right (hb : b.Intact) (hc : c.Intact) (a : Query) :
    (conjoin a (conjoin b c)).accepts reading = true ↔
      (RestAccepts reading a ∧ RestAccepts reading b ∧ RestAccepts reading c) ∧
        (∀ list ∈ a.surfacingLists, Meets reading list) ∧
          UnionMeets reading (c.surfacingLists ++ commonLists a b c) := by
  have hlists : UnionMeets reading (a.rootLists ++ (conjoin b c).rootLists) ↔
      UnionMeets reading (c.surfacingLists ++ commonLists a b c) := by
    rw [unionMeets_conjoin hb hc]
    refine unionMeets_congr fun list ↦ ?_
    simp only [commonLists, List.mem_append]
    tauto
  rw [accepts_conjoin_iff, restAccepts_conjoin hb hc, accepts_withoutRootLists_iff, hlists]
  tauto

theorem accepts_regroup (ha : a.Intact) (hb : b.Intact) (hc : c.Intact)
    (hfirst : KeptApart a.surfacingLists (commonLists a b c))
    (hlast : KeptApart c.surfacingLists (commonLists a b c)) :
    (conjoin (conjoin a b) c).accepts reading = (conjoin a (conjoin b c)).accepts reading := by
  rw [Bool.eq_iff_iff, accepts_conjoin_left ha hb, accepts_conjoin_right hb hc,
    hfirst.unionMeets_iff, hlast.unionMeets_iff]
  tauto

/-! ### Both groupings of a merge -/

theorem merge_noop_right (a : Query) : merge a noop = .ok a := rfl

theorem merge_noop_left (b : Query) : merge noop b = .ok b := by
  cases b <;> rfl

/-- Three queries can be merged, the first two of them first. -/
def MergesLeft (a b c merged : Query) : Prop :=
  ∃ inner, merge a b = .ok inner ∧ merge inner c = .ok merged

/-- Three queries can be merged, the last two of them first. -/
def MergesRight (a b c merged : Query) : Prop :=
  ∃ inner, merge b c = .ok inner ∧ merge a inner = .ok merged

theorem mergesLeft_iff (ha : a.Intact) (hb : b.Intact) (hc : c.Intact) {merged : Query} :
    MergesLeft a b c merged ↔
      (conjoin (conjoin a b) c).conflict? = none ∧ merged = conjoin (conjoin a b) c := by
  have hnoop := (intact_conjoin ha hb).isNoop_eq_false
  simp only [MergesLeft, merge_eq_ok_iff ha.isNoop_eq_false hb.isNoop_eq_false]
  constructor
  · rintro ⟨inner, ⟨-, rfl⟩, hmerged⟩
    exact (merge_eq_ok_iff hnoop hc.isNoop_eq_false).mp hmerged
  · intro h
    exact ⟨_, ⟨(conflict?_of_conjoin h.1).1, rfl⟩,
      (merge_eq_ok_iff hnoop hc.isNoop_eq_false).mpr h⟩

theorem mergesRight_iff (ha : a.Intact) (hb : b.Intact) (hc : c.Intact) {merged : Query} :
    MergesRight a b c merged ↔
      (conjoin a (conjoin b c)).conflict? = none ∧ merged = conjoin a (conjoin b c) := by
  have hnoop := (intact_conjoin hb hc).isNoop_eq_false
  simp only [MergesRight, merge_eq_ok_iff hb.isNoop_eq_false hc.isNoop_eq_false]
  constructor
  · rintro ⟨inner, ⟨-, rfl⟩, hmerged⟩
    exact (merge_eq_ok_iff ha.isNoop_eq_false hnoop).mp hmerged
  · intro h
    exact ⟨_, ⟨(conflict?_of_conjoin h.1).2, rfl⟩,
      (merge_eq_ok_iff ha.isNoop_eq_false hnoop).mpr h⟩

/-- With an empty query among the three there is only one merge. -/
theorem mergesLeft_iff_mergesRight (h : a = noop ∨ b = noop ∨ c = noop) {merged : Query} :
    MergesLeft a b c merged ↔ MergesRight a b c merged := by
  unfold MergesLeft MergesRight
  rcases h with rfl | rfl | rfl
  · simp [merge_noop_left]
  · simp [merge_noop_left, merge_noop_right]
  · simp [merge_noop_right]

/-- Both groupings of a merge of three queries succeed or fail together, and what they give accepts
the same records, unless a list that comes up to the root from the first or the last query shares
its property with a different list that it is united with. -/
theorem merge_regroup (ha : a.Reachable) (hb : b.Reachable) (hc : c.Reachable) :
    ((∃ left, MergesLeft a b c left) ↔ ∃ right, MergesRight a b c right) ∧
    ∀ left right, MergesLeft a b c left → MergesRight a b c right →
      KeptApart a.surfacingLists (commonLists a b c) →
      KeptApart c.surfacingLists (commonLists a b c) →
      ∀ reading, left.accepts reading = right.accepts reading := by
  by_cases hnoop : a = noop ∨ b = noop ∨ c = noop
  · refine ⟨exists_congr fun _ ↦ mergesLeft_iff_mergesRight hnoop, ?_⟩
    rintro left right hleft ⟨inner, hinner, hright⟩ - - reading
    obtain ⟨inner', hinner', hleft⟩ := (mergesLeft_iff_mergesRight hnoop).mp hleft
    rw [hinner] at hinner'
    cases hinner'
    rw [hright] at hleft
    cases hleft
    rfl
  · obtain ⟨hnea, hneb, hnec⟩ := by simpa only [not_or] using hnoop
    have hintacta := ha.holds.isSound.resolve_left hnea
    have hintactb := hb.holds.isSound.resolve_left hneb
    have hintactc := hc.holds.isSound.resolve_left hnec
    simp only [mergesLeft_iff hintacta hintactb hintactc,
      mergesRight_iff hintacta hintactb hintactc, exists_and_left, exists_eq, and_true]
    refine ⟨conflict?_conjoin_conjoin_eq_none_iff a b c, ?_⟩
    rintro left right ⟨-, rfl⟩ ⟨-, rfl⟩ hfirst hlast reading
    exact accepts_regroup hintacta hintactb hintactc hfirst hlast

/-- A list that comes up from the first query is kept apart from lists for other properties. -/
theorem merge_regroup_apart :
    let a := group .or [membership .among ⟨["p"]⟩ [.bool false]]
    let b := group .and [compare .eq ⟨["x"]⟩ .null, select [⟨["p"]⟩]]
    let c := membership .among ⟨["q"]⟩ [.bool true]
    ∃ left right, MergesLeft a b c left ∧ MergesRight a b c right ∧
      ∀ reading, left.accepts reading = right.accepts reading := by
  intro a b c
  have ha : read {} "or(in(p,false))" = .ok a := by cbv
  have hb : read {} "x=null&select(p)" = .ok b := by cbv
  have hc : read {} "in(q,true)" = .ok c := by cbv
  obtain ⟨left, hleft⟩ : ∃ left, MergesLeft a b c left := ⟨_, _, rfl, rfl⟩
  have hregroup := merge_regroup (.read ha) (.read hb) (.read hc)
  obtain ⟨right, hright⟩ := hregroup.1.mp ⟨left, hleft⟩
  have hlists : a.surfacingLists ++ commonLists a b c =
      [(⟨["p"]⟩, [.bool false]), (⟨["q"]⟩, [.bool true])] := rfl
  have hdiffer : ((⟨["q"]⟩ : Property) == ⟨["p"]⟩) = false := rfl
  refine ⟨left, right, hleft, hright, hregroup.2 left right hleft hright ?_ ?_⟩
  · intro list hlist other hother hproperty
    obtain rfl := List.mem_singleton.mp hlist
    rw [hlists, List.mem_cons, List.mem_singleton] at hother
    obtain rfl | rfl := hother
    · rfl
    · cases hdiffer.symm.trans hproperty
  · exact List.forall_mem_nil _

/-- A list that comes up from the first query may be united with one of the last. -/
theorem merge_grouping_matters :
    ∃ a b c left right, read {} "or(in(p,false))" = .ok a ∧ read {} "x=null" = .ok b ∧
      read {} "in(p,true)" = .ok c ∧ MergesLeft a b c left ∧ MergesRight a b c right ∧
      left.accepts .allTrue = true ∧ right.accepts .allTrue = false := by
  refine ⟨group .or [membership .among ⟨["p"]⟩ [.bool false]], compare .eq ⟨["x"]⟩ .null,
    membership .among ⟨["p"]⟩ [.bool true],
    group .and [compare .eq ⟨["x"]⟩ .null, membership .among ⟨["p"]⟩ [.bool false, .bool true]],
    group .and [membership .among ⟨["p"]⟩ [.bool false], compare .eq ⟨["x"]⟩ .null,
      membership .among ⟨["p"]⟩ [.bool true]], ?_, ?_, ?_, ⟨_, rfl, rfl⟩, ⟨_, rfl, rfl⟩, rfl, rfl⟩
  · cbv
  · cbv
  · cbv

end ResourceQuery.Query
