import Mathlib.Data.List.Perm.Basic
import ResourceQuery.Proofs.Conflicts
import ResourceQuery.Proofs.Merging

/-!
# What merging conserves

Merging takes two queries apart and puts the pieces together anew, and nothing is lost or doubled on
the way. Conditions stay as they are and in their order, clauses that are no lists are moved as they
are, and united lists hold what the lists before held. The rules on a tree cannot tell the merged
query from both queries side by side, so merging fails only if these are in conflict already.
-/

open scoped List

namespace ResourceQuery.Query

variable {a b : Query} {β : Type}

/-! ### Pieces of a list -/

/-- A list has been parted in two: both parts together are the list in some order, and as long as
nothing is taken out, what is kept is the list itself. -/
structure Splits (kept taken whole : List β) : Prop where
  perm : (kept ++ taken).Perm whole
  eq_of_nil (h : taken = []) : kept = whole

theorem Splits.keep (whole : List β) : Splits whole [] whole :=
  ⟨.of_eq (List.append_nil whole), fun _ ↦ rfl⟩

theorem Splits.take (whole : List β) : Splits [] whole whole :=
  ⟨.of_eq (List.nil_append whole), Eq.symm⟩

theorem Splits.append {kept taken whole kept' taken' whole' : List β}
    (h : Splits kept taken whole) (h' : Splits kept' taken' whole') :
    Splits (kept ++ kept') (taken ++ taken') (whole ++ whole') where
  perm := by
    have hswap : (kept' ++ (taken ++ taken')).Perm (taken ++ (kept' ++ taken')) :=
      List.perm_append_comm_assoc kept' taken taken'
    calc
      (kept ++ kept') ++ (taken ++ taken')
        = kept ++ (kept' ++ (taken ++ taken')) := List.append_assoc _ _ _
      _ ~ kept ++ (taken ++ (kept' ++ taken')) := hswap.append_left kept
      _ = (kept ++ taken) ++ (kept' ++ taken') := (List.append_assoc _ _ _).symm
      _ ~ whole ++ whole' := h.perm.append h'.perm
  eq_of_nil hnil := by
    obtain ⟨htaken, htaken'⟩ := List.append_eq_nil_iff.mp hnil
    rw [h.eq_of_nil htaken, h'.eq_of_nil htaken']

/-! ### Collecting from the pieces of a query -/

/-- What is collected from a tree comes from the terms of its groups, one after the other. -/
structure Gathers (collect : Query → List β) : Prop where
  noop : collect noop = []
  of_group (joiner : Joiner) (terms : List Query) :
    collect (group joiner terms) = terms.flatMap collect

section Gathers

variable {collect : Query → List β}

theorem Gathers.join (h : Gathers collect) (joiner : Joiner) (terms : List Query) :
    collect (Query.join joiner terms) = terms.flatMap collect := by
  unfold Query.join
  split
  · exact h.noop
  · exact (List.flatMap_singleton collect _).symm
  · exact h.of_group joiner _

theorem Gathers.conjuncts (h : Gathers collect) (query : Query) :
    query.conjuncts.flatMap collect = collect query := by
  unfold Query.conjuncts
  split
  · exact h.noop.symm
  · exact (h.of_group .and _).symm
  · exact List.flatMap_singleton collect _

theorem Gathers.filter_isNoop (h : Gathers collect) (queries : List Query) :
    (queries.filter (!·.isNoop)).flatMap collect = queries.flatMap collect := by
  induction queries with
  | nil => rfl
  | cons query rest ih =>
    cases query with
    | noop => rw [List.flatMap_cons, h.noop, List.nil_append, ← ih]; rfl
    | _ => rw [List.flatMap_cons, ← ih]; rfl

/-- The pieces hold what the whole holds. -/
def Parts.Hold (parts : Parts) (collect : Query → List β) (whole : List β) : Prop :=
  Splits (parts.kept.flatMap collect) (parts.clauses.flatMap collect) whole

theorem Parts.Hold.append {parts parts' : Parts} {whole whole' : List β}
    (h : parts.Hold collect whole) (h' : parts'.Hold collect whole') :
    (parts ++ parts').Hold collect (whole ++ whole') := by
  unfold Parts.Hold
  rw [kept_append, clauses_append, List.flatMap_append, List.flatMap_append]
  exact Splits.append h h'

theorem hold_keep (collect : Query → List β) (query : Query) :
    Parts.Hold ⟨[query], []⟩ collect (collect query) := by
  unfold Parts.Hold
  rw [List.flatMap_singleton]
  exact .keep _

theorem hold_take (collect : Query → List β) (query : Query) :
    Parts.Hold ⟨[], [query]⟩ collect (collect query) := by
  unfold Parts.Hold
  rw [List.flatMap_singleton]
  exact .take _

theorem hold_part_of_ne (collect : Query → List β) {query : Query}
    (hne : ∀ terms, query ≠ group .and terms) :
    (part query).Hold collect (collect query) := by
  rw [part_of_ne hne]
  split
  · exact hold_take collect query
  · exact hold_keep collect query

mutual

theorem Gathers.hold_part (h : Gathers collect) (query : Query) :
    (part query).Hold collect (collect query) := by
  cases query with
  | group joiner terms =>
    cases joiner with
    | and =>
      have hinner := h.hold_partAll terms
      have hkept : ([Query.join .and (partAll terms).kept].filter (!·.isNoop)).flatMap collect =
          (partAll terms).kept.flatMap collect := by
        rw [h.filter_isNoop, List.flatMap_singleton, h.join]
      unfold Parts.Hold
      rw [h.of_group, part, hkept]
      exact hinner
    | or => exact hold_part_of_ne collect (by simp)
  | _ => exact hold_part_of_ne collect (by simp)

theorem Gathers.hold_partAll (h : Gathers collect) (queries : List Query) :
    (partAll queries).Hold collect (queries.flatMap collect) := by
  cases queries with
  | nil => exact .keep []
  | cons query rest => exact (h.hold_part query).append (h.hold_partAll rest)

end

theorem Gathers.hold_partTerm (h : Gathers collect) (query : Query) :
    (partTerm query).Hold collect (collect query) := by
  unfold partTerm
  split
  · rw [h.noop]
    exact .keep []
  · exact hold_take collect _
  · exact h.hold_part _

theorem Gathers.hold_partTerms (h : Gathers collect) (terms : List Query) :
    (partTerms terms).Hold collect (terms.flatMap collect) := by
  induction terms with
  | nil => exact .keep []
  | cons term rest ih => exact (h.hold_partTerm term).append ih

/-- Terms go to one side or the other by a condition. -/
theorem splits_filter (collect : Query → List β) (isTaken : Query → Bool) (terms : List Query) :
    Splits ((terms.filter (!isTaken ·)).flatMap collect) ((terms.filter isTaken).flatMap collect)
      (terms.flatMap collect) := by
  induction terms with
  | nil => exact .keep []
  | cons term rest ih =>
    cases htaken : isTaken term with
    | true => simpa [htaken] using (Splits.take (collect term)).append ih
    | false => simpa [htaken] using (Splits.keep (collect term)).append ih

/-- A query has been parted without a loss. -/
theorem Gathers.hold_partRoot (h : Gathers collect) (query : Query) :
    query.partRoot.Hold collect (collect query) := by
  cases query with
  | group joiner terms =>
    cases joiner with
    | and =>
      have hterms := h.hold_partTerms terms
      unfold Parts.Hold at hterms ⊢
      rwa [h.of_group, partRoot, h.conjuncts, h.join]
    | or =>
      unfold Parts.Hold
      rw [h.of_group, partRoot, h.conjuncts, h.join]
      exact splits_filter collect isShaping terms
  | _ =>
    rw [partRoot_of_ne (by simp)]
    exact h.hold_partTerm _

/-- Uniting changes nothing of what is not collected from lists. -/
theorem flatMap_unite (hlists : ∀ {a b : Query}, a.sameKind b = true → collect a = [])
    (held : List Query) (clause : Query) :
    (unite held clause).flatMap collect = held.flatMap collect ++ collect clause := by
  induction held with
  | nil => rw [unite, List.flatMap_singleton, List.flatMap_nil, List.nil_append]
  | cons head rest ih =>
    rw [unite]
    split
    · next hkind =>
      have habsorb : (head.absorb clause).sameKind clause = true := by
        rwa [sameKind_absorb_left]
      rw [List.flatMap_cons, List.flatMap_cons, hlists habsorb, hlists hkind,
        hlists (sameKind_symm hkind), List.append_nil]
    · rw [List.flatMap_cons, List.flatMap_cons, ih, List.append_assoc]

theorem flatMap_uniteAll (hlists : ∀ {a b : Query}, a.sameKind b = true → collect a = [])
    (clauses : List Query) : (uniteAll clauses).flatMap collect = clauses.flatMap collect := by
  have hfold (held : List Query) : (clauses.foldl unite held).flatMap collect =
      held.flatMap collect ++ clauses.flatMap collect := by
    induction clauses generalizing held with
    | nil => exact (List.append_nil _).symm
    | cons clause rest ih =>
      rw [List.foldl_cons, ih, flatMap_unite hlists, List.flatMap_cons, List.append_assoc]
  exact hfold []

theorem Gathers.conjoin (h : Gathers collect) (a b : Query) :
    collect (conjoin a b) = (a.partRoot ++ b.partRoot).kept.flatMap collect ++
      (uniteAll (a.partRoot ++ b.partRoot).clauses).flatMap collect := by
  rw [Query.conjoin, h.join, List.flatMap_append]

/-- What is not collected from lists is collected from a conjunction as from both queries. -/
theorem Gathers.perm_conjoin (h : Gathers collect)
    (hlists : ∀ {a b : Query}, a.sameKind b = true → collect a = []) (a b : Query) :
    (collect (Query.conjoin a b)).Perm (collect a ++ collect b) := by
  have hparts := (h.hold_partRoot a).append (h.hold_partRoot b)
  rw [h.conjoin, flatMap_uniteAll hlists]
  exact hparts.perm

/-- It is collected in the same order if nothing of it is in a clause that was taken out. -/
theorem Gathers.conjoin_eq (h : Gathers collect)
    (hlists : ∀ {a b : Query}, a.sameKind b = true → collect a = [])
    (ha : ∀ clause ∈ a.partRoot.clauses, collect clause = [])
    (hb : ∀ clause ∈ b.partRoot.clauses, collect clause = []) :
    collect (Query.conjoin a b) = collect a ++ collect b := by
  have hparts := (h.hold_partRoot a).append (h.hold_partRoot b)
  have hnil : (a.partRoot ++ b.partRoot).clauses.flatMap collect = [] := by
    rw [clauses_append, List.flatMap_eq_nil_iff]
    exact List.forall_mem_append.mpr ⟨ha, hb⟩
  rw [h.conjoin, flatMap_uniteAll hlists, hnil, List.append_nil]
  exact hparts.eq_of_nil hnil

/-- What a united list has just if one of the lists before has it is found in a conjunction just if
it is found in one of the queries. -/
theorem Gathers.conjoin_ne_nil_iff (h : Gathers collect)
    (habsorb : ∀ {a b : Query}, a.sameKind b = true →
      (collect (a.absorb b) ≠ [] ↔ collect a ≠ [] ∨ collect b ≠ [])) (a b : Query) :
    collect (Query.conjoin a b) ≠ [] ↔ collect a ≠ [] ∨ collect b ≠ [] := by
  have hne (queries : List Query) :
      queries.flatMap collect ≠ [] ↔ ∃ query ∈ queries, collect query ≠ [] := by
    simp [List.flatMap_eq_nil_iff]
  have hunited (clauses : List Query) :
      (uniteAll clauses).flatMap collect ≠ [] ↔ clauses.flatMap collect ≠ [] := by
    rw [hne, hne]
    exact exists_mem_uniteAll fun _ _ ↦ habsorb
  have happend (xs ys : List β) : xs ++ ys ≠ [] ↔ xs ≠ [] ∨ ys ≠ [] := by
    rw [Ne, List.append_eq_nil_iff, not_and_or]
  have hparts := (h.hold_partRoot a).append (h.hold_partRoot b)
  have hnil (xs ys : List β) (hperm : xs.Perm ys) : xs ≠ [] ↔ ys ≠ [] := by
    rw [← List.length_pos_iff, ← List.length_pos_iff, hperm.length_eq]
  calc
    collect (Query.conjoin a b) ≠ []
      ↔ (a.partRoot ++ b.partRoot).kept.flatMap collect ≠ [] ∨
          (a.partRoot ++ b.partRoot).clauses.flatMap collect ≠ [] := by
        rw [h.conjoin, happend, hunited]
    _ ↔ collect a ++ collect b ≠ [] := by rw [← happend, hnil _ _ hparts.perm]
    _ ↔ collect a ≠ [] ∨ collect b ≠ [] := happend _ _

end Gathers

/-! ### Collecting on a walk -/

section Walk

variable {walk inside : Query → List Query}

theorem gathers_filterMap {look : Query → Option β} (hwalk : IsWalk walk inside)
    (hnoop : look noop = none) (hgroup : ∀ joiner terms, look (group joiner terms) = none) :
    Gathers fun query ↦ (walk query).filterMap look where
  noop := by rw [hwalk.of_leaf rfl, List.filterMap_cons_none hnoop, List.filterMap_nil]
  of_group joiner terms := by
    rw [hwalk.of_group, List.filterMap_cons_none (hgroup joiner terms), List.filterMap_flatMap]

theorem gathers_filter {test : Query → Bool} (hwalk : IsWalk walk inside)
    (hnoop : test noop = false) (hgroup : ∀ joiner terms, test (group joiner terms) = false) :
    Gathers fun query ↦ (walk query).filter test where
  noop := by rw [hwalk.of_leaf rfl]; simp [hnoop]
  of_group joiner terms := by
    rw [hwalk.of_group, List.filter_cons_of_neg (by simp [hgroup]), List.filter_flatMap]

end Walk

/-! ### Clauses that are moved as they are -/

/-- The node shapes the answer and is no list, so that it is never united with another one. -/
def isIndivisible : Query → Bool
  | limit _ | distinct | first | one | count _ | values _ | summary _ _ | aggregate _ _ => true
  | _ => false

theorem isIndivisible_of_sameKind {a b : Query} (h : a.sameKind b = true) :
    a.isIndivisible = false := by
  unfold sameKind at h
  split at h <;> first | rfl | cases h

section Indivisible

variable {walk inside : Query → List Query}

/-- What is only looked up at indivisible nodes is found as often as in both queries. -/
theorem perm_filterMap_conjoin {look : Query → Option β} (hwalk : IsWalk walk inside)
    (hlook : ∀ {query : Query}, query.isIndivisible = false → look query = none) (a b : Query) :
    ((walk (conjoin a b)).filterMap look).Perm
      ((walk a).filterMap look ++ (walk b).filterMap look) := by
  have hgathers := gathers_filterMap hwalk (hlook rfl) fun _ _ ↦ hlook rfl
  have hlists {a b : Query} (h : a.sameKind b = true) : (walk a).filterMap look = [] := by
    rw [hwalk.of_leaf (nodes_of_sameKind h).1,
      List.filterMap_cons_none (hlook (isIndivisible_of_sameKind h)), List.filterMap_nil]
  exact hgathers.perm_conjoin hlists a b

theorem perm_filter_conjoin {test : Query → Bool} (hwalk : IsWalk walk inside)
    (htest : ∀ {query : Query}, query.isIndivisible = false → test query = false) (a b : Query) :
    ((walk (conjoin a b)).filter test).Perm ((walk a).filter test ++ (walk b).filter test) := by
  have hguard {query : Query} (h : query.isIndivisible = false) :
      Option.guard test query = none := by
    rw [Option.guard_eq_none_iff, htest h]
  simpa only [List.filterMap_eq_filter] using perm_filterMap_conjoin hwalk hguard a b

/-- What is no group is counted side by side as in both queries. -/
theorem countP_pair {test : Query → Bool} (hwalk : IsWalk walk inside)
    (hgroup : ∀ joiner terms, test (group joiner terms) = false) (a b : Query) :
    (walk (group .and [a, b])).countP test = (walk a).countP test + (walk b).countP test := by
  rw [hwalk.of_group, List.countP_cons_of_neg (by simp [hgroup])]
  simp

/-- Nodes that are indivisible are counted as in both queries side by side. -/
theorem countP_conjoin {test : Query → Bool} (hwalk : IsWalk walk inside)
    (htest : ∀ {query : Query}, query.isIndivisible = false → test query = false) (a b : Query) :
    (walk (conjoin a b)).countP test = (walk (group .and [a, b])).countP test := by
  rw [countP_pair hwalk (fun _ _ ↦ htest rfl), List.countP_eq_length_filter,
    List.countP_eq_length_filter, List.countP_eq_length_filter, ← List.length_append]
  exact (perm_filter_conjoin hwalk htest a b).length_eq

end Indivisible

/-! ### The rules on a merged query -/

theorem Distinct.perm {ps qs : List Property} (h : ps.Perm qs) : Distinct ps ↔ Distinct qs := by
  apply h.pairwise_iff
  intro p q hpq
  rwa [BEq.comm]

theorem target?_of_isIndivisible_eq_false {query : Query} (h : query.isIndivisible = false) :
    query.target? = none := by
  cases query <;> first | rfl | cases h

theorem targets_pair (a b : Query) : (group .and [a, b]).targets = a.targets ++ b.targets := by
  have hgathers : Gathers targets := gathers_filterMap isWalk_preorder rfl fun _ _ ↦ rfl
  simpa using hgathers.of_group .and [a, b]

/-- What is found in a united list just if it is in one of the lists before is found in a
conjunction just if it is in one of the queries. -/
theorem any_conjoin {test : Query → Bool} (hnoop : test noop = false)
    (hgroup : ∀ joiner terms, test (group joiner terms) = false)
    (habsorb : ∀ {a b : Query}, a.sameKind b = true → test (a.absorb b) = (test a || test b))
    (a b : Query) :
    (conjoin a b).preorder.any test = (a.preorder.any test || b.preorder.any test) := by
  have hgathers := gathers_filter isWalk_preorder hnoop hgroup
  have hany (queries : List Query) : queries.filter test ≠ [] ↔ queries.any test = true := by
    simp [List.filter_eq_nil_iff]
  have hlists {a b : Query} (h : a.sameKind b = true) :
      (a.absorb b).preorder.any test = (a.preorder.any test || b.preorder.any test) := by
    have hunited : (a.absorb b).sameKind b = true := by rwa [sameKind_absorb_left]
    have hleaf {query : Query} (hnodes : query.nodes = []) :
        query.preorder.any test = test query := by
      rw [isWalk_preorder.of_leaf hnodes, List.any_cons, List.any_nil, Bool.or_false]
    rw [hleaf (nodes_of_sameKind hunited).1, hleaf (nodes_of_sameKind h).1,
      hleaf (nodes_of_sameKind h).2, habsorb h]
  rw [Bool.eq_iff_iff, Bool.or_eq_true, ← hany, ← hany, ← hany]
  apply hgathers.conjoin_ne_nil_iff
  intro a b h
  rw [hany, hany, hany, hlists h, Bool.or_eq_true]

theorem selects_pair (a b : Query) :
    0 < (group .and [a, b]).occurrences .select ↔
      0 < a.occurrences .select ∨ 0 < b.occurrences .select := by
  rw [occurrences, countP_pair isWalk_preorder (fun _ _ ↦ rfl)]
  exact Nat.add_pos_iff_pos_or_pos

theorem selects_conjoin (a b : Query) :
    0 < (conjoin a b).occurrences .select ↔ 0 < (group .and [a, b]).occurrences .select := by
  let isSelect : Query → Bool := (·.operation == .clause .select)
  have habsorb {a b : Query} (h : a.sameKind b = true) :
      isSelect (a.absorb b) = (isSelect a || isSelect b) := by
    have hunited : (a.absorb b).sameKind b = true := by rwa [sameKind_absorb_left]
    simp only [isSelect, operation_eq_of_sameKind hunited, operation_eq_of_sameKind h,
      Bool.or_self]
  have hany : (conjoin a b).preorder.any isSelect =
      (a.preorder.any isSelect || b.preorder.any isSelect) :=
    any_conjoin rfl (fun _ _ ↦ rfl) habsorb a b
  have hselects (query : Query) :
      0 < query.occurrences .select ↔ query.preorder.any isSelect = true := by
    rw [occurrences, List.countP_pos_iff, List.any_eq_true]
  rw [selects_pair, hselects, hselects, hselects, hany, Bool.or_eq_true]

/-- The clauses that may appear once, except for a count of all items. -/
abbrev onceOnly : List Keyword :=
  [.limit, .distinct, .one, .first, .values, .aggregate]

/-- Two queries hold as much of everything that there are rules about. Of select clauses it counts
only whether there are any. -/
structure SameCensus (a b : Query) : Prop where
  occurrences {keyword : Keyword} (hmem : keyword ∈ onceOnly) :
    a.occurrences keyword = b.occurrences keyword
  bareCounts : a.bareCounts = b.bareCounts
  ungroupedFunctions : a.ungroupedFunctions = b.ungroupedFunctions
  selects : 0 < a.occurrences .select ↔ 0 < b.occurrences .select
  targets : a.targets.Perm b.targets

theorem SameCensus.symm (h : SameCensus a b) : SameCensus b a :=
  ⟨fun hmem ↦ (h.occurrences hmem).symm, h.bareCounts.symm, h.ungroupedFunctions.symm,
    h.selects.symm, h.targets.symm⟩

theorem SameCensus.trans {c : Query} (h : SameCensus a b) (h' : SameCensus b c) :
    SameCensus a c :=
  ⟨fun hmem ↦ (h.occurrences hmem).trans (h'.occurrences hmem), h.bareCounts.trans h'.bareCounts,
    h.ungroupedFunctions.trans h'.ungroupedFunctions, h.selects.trans h'.selects,
    h.targets.trans h'.targets⟩

/-- The rules do not tell such queries apart. -/
theorem SameCensus.conflict?_eq_none_iff (h : SameCensus a b) :
    a.conflict? = none ↔ b.conflict? = none := by
  have honce : (∀ keyword ∈ onceOnly, a.occurrences keyword ≤ 1) ↔
      ∀ keyword ∈ onceOnly, b.occurrences keyword ≤ 1 :=
    forall₂_congr fun keyword hmem ↦ by rw [h.occurrences hmem]
  have hlimits : a.occurrences .limit = _ := h.occurrences (by simp)
  have hvalues : a.occurrences .values = _ := h.occurrences (by simp)
  have haggregates : a.occurrences .aggregate = _ := h.occurrences (by simp)
  rw [Query.conflict?_eq_none_iff, Query.conflict?_eq_none_iff, repeated?_eq_none_iff,
    repeated?_eq_none_iff, honce, hlimits, hvalues, haggregates, h.bareCounts,
    h.ungroupedFunctions, h.selects, Distinct.perm h.targets]

theorem operation_of_mem_onceOnly {keyword : Keyword} (hmem : keyword ∈ onceOnly)
    {query : Query} (h : query.isIndivisible = false) :
    (query.operation == .clause keyword) = false := by
  simp only [List.mem_cons, List.not_mem_nil, or_false] at hmem
  rcases hmem with rfl | rfl | rfl | rfl | rfl | rfl <;>
    cases query <;> first | rfl | cases h

theorem isBareCount_of_isIndivisible_eq_false {query : Query} (h : query.isIndivisible = false) :
    query.isBareCount = false := by
  cases query <;> first | rfl | cases h

theorem isSome_target?_of_isIndivisible_eq_false {query : Query}
    (h : query.isIndivisible = false) : query.target?.isSome = false := by
  rw [target?_of_isIndivisible_eq_false h, Option.isSome_none]

/-- A conjunction holds as much as both queries side by side. -/
theorem sameCensus_conjoin (a b : Query) : SameCensus (conjoin a b) (group .and [a, b]) where
  occurrences hmem := countP_conjoin isWalk_preorder (operation_of_mem_onceOnly hmem) a b
  bareCounts := countP_conjoin isWalk_preorder isBareCount_of_isIndivisible_eq_false a b
  ungroupedFunctions := countP_conjoin isWalk_outer isSome_target?_of_isIndivisible_eq_false a b
  selects := selects_conjoin a b
  targets := by
    rw [targets_pair]
    exact perm_filterMap_conjoin isWalk_preorder target?_of_isIndivisible_eq_false a b

theorem conflict?_conjoin_eq_none_iff (a b : Query) :
    (conjoin a b).conflict? = none ↔ (group .and [a, b]).conflict? = none :=
  (sameCensus_conjoin a b).conflict?_eq_none_iff

/-! ### Entries of lists -/

/-- What a list clause can hold: a property, selected or sorted by, or a value that a property is
to be among or outside of. -/
inductive Entry
  | selected (property : Property)
  | sorted (property : Property)
  | listed (op : MembershipOp) (property : Property) (value : Value)

/-- The node is a list that holds the entry, in whatever case of the letters. -/
def lists : Entry → Query → Bool
  | .selected property, select properties => properties.any (· == property)
  | .sorted property, sort keys => keys.any (·.property == property)
  | .listed op property value, membership op' property' entries =>
    op' == op && property' == property && entries.any (·.sameIgnoringCase value)
  | _, _ => false

theorem lists_absorb (entry : Entry) {a b : Query} (h : a.sameKind b = true) :
    lists entry (a.absorb b) = (lists entry a || lists entry b) := by
  unfold sameKind at h
  split at h
  · cases entry with
    | selected property =>
      exact any_appendNew (fun p q hpq ↦ BEq.congr_left hpq) _ _
    | _ => rfl
  · cases entry with
    | sorted property =>
      exact any_appendNew (fun k l hkl ↦ BEq.congr_left hkl) _ _
    | _ => rfl
  · next op p vs op' q ws =>
    cases entry with
    | listed op'' property value =>
      rw [Bool.and_eq_true, beq_iff_eq] at h
      obtain ⟨rfl, hpq⟩ := h
      have hagree (v w : Value) (hvw : v.sameIgnoringCase w = true) :
          v.sameIgnoringCase value = w.sameIgnoringCase value :=
        Value.sameIgnoringCase_congr hvw value
      have hunion : (appendNew Value.sameIgnoringCase vs ws).any (·.sameIgnoringCase value) =
          (vs.any (·.sameIgnoringCase value) || ws.any (·.sameIgnoringCase value)) :=
        any_appendNew hagree vs ws
      simp only [absorb, lists, hunion, BEq.congr_left hpq, Bool.and_or_distrib_left]
    | _ => rfl
  · cases h

/-- Somewhere in the tree there is a list that holds the entry. -/
def Carries (query : Query) (entry : Entry) : Prop :=
  ∃ node ∈ query.preorder, lists entry node = true

theorem carries_conjoin (entry : Entry) (a b : Query) :
    (conjoin a b).Carries entry ↔ a.Carries entry ∨ b.Carries entry := by
  have hcarries (query : Query) :
      query.Carries entry ↔ query.preorder.any (lists entry) = true := List.any_eq_true.symm
  have hnoop : lists entry noop = false := by cases entry <;> rfl
  have hgroup (joiner : Joiner) (terms : List Query) :
      lists entry (group joiner terms) = false := by cases entry <;> rfl
  rw [hcarries, hcarries, hcarries, any_conjoin hnoop hgroup (lists_absorb entry),
    Bool.or_eq_true]

/-! ### Comparisons in their order -/

/-- The node compares a property with a value or a pattern. -/
def isComparison : Query → Bool
  | compare _ _ _ | pattern _ _ _ => true
  | _ => false

/-- All that stands among the functions of aggregates are functions. -/
def OnlyFunctions (query : Query) : Prop :=
  ∀ groups functions, aggregate groups functions ∈ query.preorder →
    ∀ function ∈ functions, function.isFunction = true

/-- A clause that shapes the answer is taken out of the query as it is. -/
theorem mem_preorder_of_mem_clauses {query clause : Query}
    (hmem : clause ∈ query.partRoot.clauses) (hshaping : clause.isShaping = true) :
    clause ∈ query.preorder := by
  have hgathers : Gathers fun query ↦ query.preorder.filter isShaping :=
    gathers_filter isWalk_preorder rfl fun _ _ ↦ rfl
  have htaken : clause ∈ query.partRoot.clauses.flatMap fun query ↦
      query.preorder.filter isShaping :=
    List.mem_flatMap.mpr ⟨clause, hmem, List.mem_filter.mpr ⟨mem_preorder_self clause, hshaping⟩⟩
  have hwhole : clause ∈ query.preorder.filter isShaping :=
    (hgathers.hold_partRoot query).perm.subset (List.mem_append_right _ htaken)
  exact (List.mem_filter.mp hwhole).1

/-- What is taken out of a query shapes the answer or is a membership list. -/
theorem isShaping_or_membership {query clause : Query} (h : clause ∈ query.partRoot.clauses) :
    clause.isShaping = true ∨ ∃ op property entries, clause = membership op property entries := by
  have hterm {term : Query} (h : clause ∈ (partTerm term).clauses) :
      clause.isShaping = true ∨
        ∃ op property entries, clause = membership op property entries := by
    unfold partTerm at h
    split at h
    · cases h
    · exact .inr ⟨_, _, _, List.mem_singleton.mp h⟩
    · exact .inl (isShaping_of_mem_part h)
  have hterms {terms : List Query} (h : clause ∈ (partTerms terms).clauses) :
      clause.isShaping = true ∨
        ∃ op property entries, clause = membership op property entries := by
    induction terms with
    | nil => cases h
    | cons term rest ih => exact (List.mem_append.mp h).elim hterm ih
  cases query with
  | group joiner terms =>
    cases joiner with
    | and => exact hterms h
    | or => exact .inl (List.mem_filter.mp h).2
  | _ =>
    rw [partRoot_of_ne (by simp)] at h
    exact hterm h

theorem filter_isComparison_of_isFunction {query : Query} (h : query.isFunction = true) :
    query.preorder.filter isComparison = [] := by
  cases query <;> first | rfl | cases h

/-- No comparison is taken out of a query. -/
theorem filter_isComparison_of_mem_clauses {query clause : Query} (hquery : query.OnlyFunctions)
    (h : clause ∈ query.partRoot.clauses) : clause.preorder.filter isComparison = [] := by
  obtain hshaping | ⟨op, property, entries, rfl⟩ := isShaping_or_membership h
  · cases clause with
    | aggregate groups functions =>
      have hfunctions := hquery groups functions (mem_preorder_of_mem_clauses h hshaping)
      rw [isWalk_preorder.of_aggregate, List.filter_cons_of_neg (by simp [isComparison]),
        List.filter_flatMap, List.flatMap_eq_nil_iff]
      exact fun function hmem ↦ filter_isComparison_of_isFunction (hfunctions function hmem)
    | noop | group | compare | pattern | membership => cases hshaping
    | _ => rfl
  · rfl

theorem filter_isComparison_conjoin (ha : a.OnlyFunctions) (hb : b.OnlyFunctions) :
    (conjoin a b).preorder.filter isComparison =
      a.preorder.filter isComparison ++ b.preorder.filter isComparison := by
  have hgathers : Gathers fun query ↦ query.preorder.filter isComparison :=
    gathers_filter isWalk_preorder rfl fun _ _ ↦ rfl
  have hlists {a b : Query} (h : a.sameKind b = true) :
      a.preorder.filter isComparison = [] := by
    unfold sameKind at h
    split at h <;> first | rfl | cases h
  exact hgathers.conjoin_eq hlists (fun _ ↦ filter_isComparison_of_mem_clauses ha)
    fun _ ↦ filter_isComparison_of_mem_clauses hb

/-! ### The merged query -/

/-- Merging two queries that are not empty fails just if there is a conflict in both side by side.
Otherwise indivisible clauses occur as often as in both, comparisons occur in the order that they
have in one and then in the other, and lists of a kind hold the entries that they hold in both. -/
theorem merge_conserves (ha : a.isNoop = false) (hb : b.isNoop = false) (hfa : a.OnlyFunctions)
    (hfb : b.OnlyFunctions) :
    ((∃ merged, merge a b = .ok merged) ↔ (group .and [a, b]).validate = .ok ()) ∧
    ∀ merged, merge a b = .ok merged →
      (merged.preorder.filter isIndivisible).Perm
        (a.preorder.filter isIndivisible ++ b.preorder.filter isIndivisible) ∧
      merged.preorder.filter isComparison =
        a.preorder.filter isComparison ++ b.preorder.filter isComparison ∧
      ∀ entry, merged.Carries entry ↔ a.Carries entry ∨ b.Carries entry := by
  constructor
  · rw [validate_eq_ok_iff, ← conflict?_conjoin_eq_none_iff]
    constructor
    · rintro ⟨merged, hmerged⟩
      exact ((merge_eq_ok_iff ha hb).mp hmerged).1
    · intro hconflict
      exact ⟨conjoin a b, (merge_eq_ok_iff ha hb).mpr ⟨hconflict, rfl⟩⟩
  · intro merged hmerged
    obtain rfl : merged = conjoin a b := merge_eq_ok ha hb hmerged
    exact ⟨perm_filter_conjoin isWalk_preorder id a b, filter_isComparison_conjoin hfa hfb,
      fun entry ↦ carries_conjoin entry a b⟩

/-- A nested clause is taken out of its group, and another one of its kind is one too many. -/
theorem merge_conserves_nested :
    let a := group .and [group .and [one, compare .eq ⟨["x"]⟩ .null],
      aggregate [⟨["y"]⟩] [summary .max ⟨["z"]⟩]]
    let b := group .or [membership .among ⟨["y"]⟩ [.bool false], select [⟨["z"]⟩],
      pattern .contains ⟨["x"]⟩ .null]
    (∃ merged, merge a b = .ok merged ∧ merged.preorder.filter isComparison =
        [compare .eq ⟨["x"]⟩ .null, pattern .contains ⟨["x"]⟩ .null] ∧
      merged.Carries (.selected ⟨["Z"]⟩)) ∧
    ¬∃ merged, merge a one = .ok merged := by
  intro a b
  have ha : a.OnlyFunctions := by
    intro groups functions hmem
    simp only [a, preorder, preorderAll, List.mem_cons, List.mem_append, List.not_mem_nil,
      reduceCtorEq, aggregate.injEq, false_or, or_false] at hmem
    simp [hmem.2, isFunction]
  have hb : b.OnlyFunctions := by simp [OnlyFunctions, b, preorder, preorderAll]
  have hone : one.OnlyFunctions := by simp [OnlyFunctions, preorder]
  obtain ⟨merged, hmerged⟩ : ∃ merged, merge a b = .ok merged := ⟨_, rfl⟩
  have hconserved := (merge_conserves rfl rfl ha hb).2 merged hmerged
  have hselected : b.Carries (.selected ⟨["Z"]⟩) :=
    ⟨select [⟨["z"]⟩], .tail _ (.tail _ (.head _)), rfl⟩
  have hconflict : (group .and [a, one]).validate ≠ .ok () := by
    intro hvalid
    cases hvalid
  exact ⟨⟨merged, hmerged, hconserved.2.1, (hconserved.2.2 _).mpr (.inr hselected)⟩,
    (merge_conserves rfl rfl ha hone).1.not.mpr hconflict⟩

end ResourceQuery.Query
