import Mathlib.Data.List.Flatten
import ResourceQuery.Proofs.Conservation
import ResourceQuery.Proofs.Reachable
import ResourceQuery.Proofs.SpineFolding

/-!
# Select and sort clauses of a merged query

Merging takes every select and sort clause off the spine of both queries and unites them, so that
one of each is left. It does not look into what a disjunction is left with: if that is a single
conjunction, then this falls to the spine of the merged query with all the clauses that it holds.
The clauses on that spine are counted here, and with them it is known when a merged query is one
that a reader would have consolidated anyway.
-/

namespace ResourceQuery.Query

variable {operation : Operation} {a b query : Query} {terms : List Query}

/-- The clauses of the operation are lists of one kind that shape the answer. -/
structure IsListing (operation : Operation) : Prop where
  oneKind : OneKind operation
  isShaping {query : Query} (h : query.operation = operation) : query.isShaping = true

theorem isListing_select : IsListing (.clause .select) where
  oneKind := oneKind_select
  isShaping {query} h := by
    cases query <;> cases h
    rfl

theorem isListing_sort : IsListing (.clause .sort) where
  oneKind := oneKind_sort
  isShaping {query} h := by
    cases query <;> cases h
    rfl

/-- How many clauses of the operation are on the spine of some terms. -/
abbrev termsCount (operation : Operation) (terms : List Query) : Nat :=
  (terms.map (spineCount operation)).sum

/-- How many clauses of the operation were taken out. -/
def Parts.taken (operation : Operation) (parts : Parts) : Nat :=
  parts.clauses.countP (·.operation == operation)

theorem Parts.taken_append (a b : Parts) :
    (a ++ b).taken operation = a.taken operation + b.taken operation :=
  List.countP_append

theorem termsCount_append (terms others : List Query) :
    termsCount operation (terms ++ others) =
      termsCount operation terms + termsCount operation others := by
  rw [termsCount, List.map_append, List.sum_append]

/-! ### Terms of a conjunction -/

theorem spineCount_noop (hkind : OneKind operation) : spineCount operation noop = 0 := by
  rw [spineCount_leaf rfl]
  exact if_neg hkind.ne_noop

theorem spineCount_eq_zero (hlisting : IsListing operation)
    (hne : ∀ terms, query ≠ group .and terms) (h : query.isShaping = false) :
    spineCount operation query = 0 := by
  rw [spineCount_leaf (spine_of_ne hne)]
  refine if_neg fun hoperation ↦ ?_
  rw [hlisting.isShaping hoperation] at h
  cases h

theorem kept_part_of_ne (hlisting : IsListing operation)
    (hne : ∀ terms, query ≠ group .and terms) : termsCount operation (part query).kept = 0 := by
  rw [part_of_ne hne]
  cases hshaping : query.isShaping with
  | true => rfl
  | false => simp [termsCount, spineCount_eq_zero hlisting hne hshaping]

mutual

/-- No clause of the operation is left on the spine of what is kept. -/
theorem kept_part (hlisting : IsListing operation) (query : Query) :
    termsCount operation (part query).kept = 0 := by
  cases query with
  | group joiner terms =>
    cases joiner with
    | and =>
      rw [part, termsCount, spineCount_filter hlisting.oneKind, List.map_singleton,
        List.sum_singleton, spineCount_join hlisting.oneKind]
      exact kept_partAll hlisting terms
    | or => exact kept_part_of_ne hlisting (by simp)
  | _ => exact kept_part_of_ne hlisting (by simp)

theorem kept_partAll (hlisting : IsListing operation) (terms : List Query) :
    termsCount operation (partAll terms).kept = 0 := by
  cases terms with
  | nil => rfl
  | cons query rest =>
    rw [partAll, kept_append, termsCount_append, kept_part hlisting, kept_partAll hlisting]

end

theorem kept_partTerm (hlisting : IsListing operation) (query : Query) :
    termsCount operation (partTerm query).kept = 0 := by
  cases query with
  | noop | membership => rfl
  | _ => exact kept_part hlisting _

theorem kept_partTerms (hlisting : IsListing operation) (terms : List Query) :
    termsCount operation (partTerms terms).kept = 0 := by
  induction terms with
  | nil => rfl
  | cons query rest ih =>
    change termsCount operation (partTerm query ++ partTerms rest).kept = 0
    rw [kept_append, termsCount_append, kept_partTerm hlisting, ih]

theorem filter_clauses_of_ne (hlisting : IsListing operation) {query : Query}
    (hne : ∀ terms, query ≠ group .and terms) :
    (part query).clauses.filter (·.operation == operation) =
      query.spine.filter (·.operation == operation) := by
  rw [part_of_ne hne, spine_of_ne hne]
  cases hshaping : query.isShaping with
  | true => rfl
  | false =>
    have hoperation : query.operation ≠ operation := fun hoperation ↦ by
      rw [hlisting.isShaping hoperation] at hshaping
      cases hshaping
    exact (List.filter_cons_of_neg (by simpa using hoperation)).symm

mutual

/-- The clauses of the operation along the spine are taken out in their order. -/
theorem filter_clauses_part (hlisting : IsListing operation) (query : Query) :
    (part query).clauses.filter (·.operation == operation) =
      query.spine.filter (·.operation == operation) := by
  cases query with
  | group joiner terms =>
    cases joiner with
    | and =>
      rw [spine_group_and]
      exact filter_clauses_partAll hlisting terms
    | or => exact filter_clauses_of_ne hlisting (by simp)
  | _ => exact filter_clauses_of_ne hlisting (by simp)

theorem filter_clauses_partAll (hlisting : IsListing operation) (terms : List Query) :
    (partAll terms).clauses.filter (·.operation == operation) =
      (terms.flatMap spine).filter (·.operation == operation) := by
  cases terms with
  | nil => rfl
  | cons query rest =>
    rw [List.flatMap_cons, List.filter_append, partAll, clauses_append, List.filter_append,
      filter_clauses_part hlisting query, filter_clauses_partAll hlisting rest]

end

theorem filter_clauses_partTerm (hlisting : IsListing operation) (query : Query) :
    (partTerm query).clauses.filter (·.operation == operation) =
      query.spine.filter (·.operation == operation) := by
  cases query with
  | noop =>
    have hnoop := hlisting.oneKind.ne_noop
    exact (List.filter_cons_of_neg (by simpa [Query.operation] using hnoop)).symm
  | membership op property entries => rfl
  | _ => exact filter_clauses_part hlisting _

theorem filter_clauses_partTerms (hlisting : IsListing operation) (terms : List Query) :
    (partTerms terms).clauses.filter (·.operation == operation) =
      (terms.flatMap spine).filter (·.operation == operation) := by
  induction terms with
  | nil => rfl
  | cons query rest ih =>
    rw [List.flatMap_cons, List.filter_append, ← filter_clauses_partTerm hlisting query, ← ih,
      ← List.filter_append]
    rfl

theorem taken_eq_countP {parts : Parts} {nodes : List Query}
    (h : parts.clauses.filter (·.operation == operation) =
      nodes.filter (·.operation == operation)) :
    parts.taken operation = nodes.countP (·.operation == operation) := by
  rw [Parts.taken, List.countP_eq_length_filter, h, ← List.countP_eq_length_filter]

/-! ### Whole queries -/

/-- How many clauses of the operation are on the spine of what a disjunction at the root is left
with, if this is a single term. -/
def bared (operation : Operation) : Query → Nat
  | group .or terms =>
    match terms.filter (!·.isShaping) with
    | [term] => spineCount operation term
    | _ => 0
  | _ => 0

/-- How many clauses of the operation are on the spine, or are terms of a disjunction at the
root. -/
def outlying (operation : Operation) : Query → Nat
  | group .or terms => terms.countP (·.operation == operation)
  | query => spineCount operation query

theorem termsCount_conjuncts (hkind : OneKind operation) (query : Query) :
    termsCount operation query.conjuncts = spineCount operation query := by
  unfold conjuncts
  split
  · exact (spineCount_noop hkind).symm
  · rw [spineCount_group_and]
  · simp [termsCount]

theorem kept_partRoot (hlisting : IsListing operation) (query : Query) :
    termsCount operation query.partRoot.kept = bared operation query := by
  cases query with
  | group joiner terms =>
    cases joiner with
    | and =>
      change termsCount operation (join .and (partTerms terms).kept).conjuncts = 0
      rw [termsCount_conjuncts hlisting.oneKind, spineCount_join hlisting.oneKind]
      exact kept_partTerms hlisting terms
    | or =>
      rw [partRoot, termsCount_conjuncts hlisting.oneKind, bared]
      generalize terms.filter (!·.isShaping) = left
      rcases left with _ | ⟨term, _ | ⟨second, rest⟩⟩
      · exact spineCount_noop hlisting.oneKind
      · rfl
      · have hne (inner : List Query) : group .or (term :: second :: rest) ≠ group .and inner := by
          simp
        exact spineCount_eq_zero hlisting hne rfl
  | _ =>
    rw [partRoot_of_ne (by simp)]
    exact kept_partTerm hlisting _

theorem taken_partRoot (hlisting : IsListing operation) (query : Query) :
    query.partRoot.taken operation = outlying operation query := by
  cases query with
  | group joiner terms =>
    cases joiner with
    | and =>
      change (partTerms terms).taken operation = spineCount operation (group .and terms)
      rw [spineCount, spine_group_and]
      exact taken_eq_countP (filter_clauses_partTerms hlisting terms)
    | or =>
      rw [partRoot, Parts.taken, outlying, List.countP_filter]
      refine List.countP_congr fun term _ ↦ ?_
      rw [Bool.and_eq_true]
      exact and_iff_left_of_imp fun h ↦ hlisting.isShaping (eq_of_beq h)
  | _ =>
    rw [partRoot_of_ne (by simp)]
    exact taken_eq_countP (filter_clauses_partTerm hlisting _)

/-! ### United clauses -/

theorem operation_absorb_iff {held more : Query} (h : held.sameKind more = true) :
    (held.absorb more).operation = operation ↔
      held.operation = operation ∨ more.operation = operation := by
  rw [operation_absorb, operation_eq_of_sameKind h, or_self]

/-- One clause of the operation is left if there was any. -/
theorem countP_uniteAll (hkind : OneKind operation) (clauses : List Query) :
    (uniteAll clauses).countP (·.operation == operation) =
      min 1 (clauses.countP (·.operation == operation)) := by
  have hle : (uniteAll clauses).countP (·.operation == operation) ≤ 1 := by
    rw [List.countP_eq_length_filter, ← pairwise_differs_iff hkind fun clause hmem ↦
      eq_of_beq (List.mem_filter.mp hmem).2]
    exact (pairwise_uniteAll clauses).filter _
  have hpos : 0 < (uniteAll clauses).countP (·.operation == operation) ↔
      0 < clauses.countP (·.operation == operation) := by
    rw [List.countP_pos_iff, List.countP_pos_iff]
    simp only [beq_iff_eq]
    exact exists_mem_uniteAll fun _ _ ↦ operation_absorb_iff
  omega

theorem termsCount_eq_countP (hleaf : ∀ term ∈ terms, term.spine = [term]) :
    termsCount operation terms = terms.countP (·.operation == operation) := by
  induction terms with
  | nil => rfl
  | cons term rest ih =>
    rw [List.forall_mem_cons] at hleaf
    rw [termsCount, List.map_cons, List.sum_cons, spineCount_leaf hleaf.1, List.countP_cons,
      Nat.add_comm, ← ih hleaf.2]
    simp

theorem spine_of_mem_clauses {clause : Query} (h : clause ∈ query.partRoot.clauses) :
    clause.spine = [clause] := by
  refine spine_of_ne fun terms heq ↦ ?_
  obtain hshaping | ⟨op, property, entries, hmembership⟩ := isShaping_or_membership h
  · rw [heq] at hshaping
    cases hshaping
  · cases heq.symm.trans hmembership

theorem spine_absorb {held more : Query} (hkind : held.sameKind more = true) :
    (held.absorb more).spine = [held.absorb more] := by
  have habsorb : (held.absorb more).sameKind more = true := by rwa [sameKind_absorb_left]
  exact (spine_of_sameKind habsorb).1

/-- What is on the spine of a conjunction: the clauses that disjunctions at the root give free, and
one clause that all others are united to. -/
theorem spineCount_conjoin (hlisting : IsListing operation) (a b : Query) :
    spineCount operation (conjoin a b) =
      bared operation a + bared operation b +
        min 1 (outlying operation a + outlying operation b) := by
  have hleaf : ∀ clause ∈ uniteAll (a.partRoot ++ b.partRoot).clauses,
      clause.spine = [clause] := by
    refine forall_uniteAll (fun clause hmem ↦ ?_) fun _ _ _ _ hkind ↦ spine_absorb hkind
    rw [clauses_append] at hmem
    exact (List.mem_append.mp hmem).elim spine_of_mem_clauses spine_of_mem_clauses
  have htaken : (a.partRoot ++ b.partRoot).clauses.countP (·.operation == operation) =
      outlying operation a + outlying operation b := by
    rw [← taken_partRoot hlisting, ← taken_partRoot hlisting]
    exact Parts.taken_append _ _
  rw [conjoin, spineCount_join hlisting.oneKind]
  change termsCount operation (_ ++ _) = _
  rw [termsCount_append, kept_append, termsCount_append, kept_partRoot hlisting,
    kept_partRoot hlisting, termsCount_eq_countP hleaf, countP_uniteAll hlisting.oneKind, htaken]

/-! ### Merged queries that are consolidated -/

/-- The query has no more than one select and one sort clause on its spine. -/
def IsConsolidated (query : Query) : Prop :=
  spineCount (.clause .select) query ≤ 1 ∧ spineCount (.clause .sort) query ≤ 1

/-- Consolidation leaves a query as it is just if it has no more than one clause of the kind on its
spine. -/
theorem consolidate_eq_self_iff (hkind : OneKind operation)
    (hcombines : combines operation = true) :
    query.consolidate operation = .ok query ↔ spineCount operation query ≤ 1 := by
  rw [consolidate, if_pos hcombines]
  constructor
  · intro h
    have hself : query.foldSpine operation = query := Except.ok.inj h
    rw [← hself]
    exact spineCount_foldSpine_le hkind hcombines query
  · exact fun h ↦ congrArg Except.ok (foldSpine_eq_self hkind hcombines h)

theorem IsConsolidated.of_finish {options : ReadOptions} {finished : Query}
    (hconsolidate : options.consolidate = true) (h : finish options query = .ok finished) :
    finished.IsConsolidated := by
  obtain ⟨-, rfl⟩ := finish_eq_ok h
  rw [if_pos hconsolidate, IsConsolidated, spineCount_foldSpine_of_ne rfl rfl (by decide)]
  exact ⟨spineCount_foldSpine_le oneKind_select rfl query,
    spineCount_foldSpine_le oneKind_sort rfl _⟩

theorem IsConsolidated.of_read {options : ReadOptions} {text : String}
    (hconsolidate : options.consolidate = true) (h : read options text = .ok query) :
    query.IsConsolidated := by
  obtain ⟨parsed, hfinish, -⟩ := exists_finish_of_read h
  exact .of_finish hconsolidate hfinish

/-- A reader that consolidates leaves a query without conflicts as it is just if it is
consolidated. -/
theorem finish_eq_self_iff {options : ReadOptions} (hconsolidate : options.consolidate = true)
    (hconflict : query.conflict? = none) :
    finish options query = .ok query ↔ query.IsConsolidated :=
  ⟨.of_finish hconsolidate, fun h ↦ finish_eq_self hconflict (fun _ ↦ h.1) fun _ ↦ h.2⟩

/-- Two queries have no more than one clause of the operation between them that a merge leaves on
the spine. -/
def LeavesOne (operation : Operation) (a b : Query) : Prop :=
  bared operation a + bared operation b + min 1 (outlying operation a + outlying operation b) ≤ 1

/-- The merge of two consolidated queries is consolidated just if one of them is empty or they leave
one select and one sort clause on the spine. It is then a fixed point of both consolidations, and of
what a reader does with a parsed tree. -/
theorem isConsolidated_merge_iff {first second options : ReadOptions} {text other : String}
    {merged : Query} (ha : read first text = .ok a) (hb : read second other = .ok b)
    (hfirst : first.consolidate = true) (hsecond : second.consolidate = true)
    (hoptions : options.consolidate = true) (h : merge a b = .ok merged) :
    (merged.IsConsolidated ↔ a.isNoop = true ∨ b.isNoop = true ∨
      LeavesOne (.clause .select) a b ∧ LeavesOne (.clause .sort) a b) ∧
    (merged.IsConsolidated ↔ merged.consolidate (.clause .select) = .ok merged ∧
      merged.consolidate (.clause .sort) = .ok merged) ∧
    (merged.IsConsolidated ↔ finish options merged = .ok merged) := by
  have hconflict : merged.conflict? = none :=
    ((holds_of_read ha).merge (holds_of_read hb) h).conflict?
  refine ⟨?_, ?_, (finish_eq_self_iff hoptions hconflict).symm⟩
  · cases hnoopb : b.isNoop with
    | true =>
      rw [merge, if_pos hnoopb] at h
      cases h
      exact iff_of_true (.of_read hfirst ha) (.inr (.inl rfl))
    | false =>
      cases hnoopa : a.isNoop with
      | true =>
        rw [merge, hnoopb, hnoopa] at h
        cases h
        exact iff_of_true (.of_read hsecond hb) (.inl rfl)
      | false =>
        rw [merge_eq_ok hnoopa hnoopb h, IsConsolidated, spineCount_conjoin isListing_select,
          spineCount_conjoin isListing_sort]
        simp [LeavesOne]
  · rw [consolidate_eq_self_iff oneKind_select rfl, consolidate_eq_self_iff oneKind_sort rfl]
    exact Iff.rfl

/-- A disjunction of a single conjunction gives its select clause free beside the other one. -/
theorem isConsolidated_merge_iff_bared :
    let a := group .or [group .and [compare .eq ⟨["x"]⟩ .null, select [⟨["p"]⟩]]]
    let merged := group .and [compare .eq ⟨["x"]⟩ .null, select [⟨["p"]⟩], select [⟨["q"]⟩]]
    read {} "or(and(x=null,select(p)))" = .ok a ∧ read {} "select(q)" = .ok (select [⟨["q"]⟩]) ∧
      merge a (select [⟨["q"]⟩]) = .ok merged ∧ ¬merged.IsConsolidated ∧
      finish {} merged ≠ .ok merged := by
  intro a merged
  have ha : read {} "or(and(x=null,select(p)))" = .ok a := by cbv
  have hb : read {} "select(q)" = .ok (select [⟨["q"]⟩]) := by cbv
  have hmerged : merge a (select [⟨["q"]⟩]) = .ok merged := rfl
  have hoptions : ({} : ReadOptions).consolidate = true := rfl
  have hiff := isConsolidated_merge_iff ha hb rfl rfl hoptions hmerged
  have hleaves : ¬LeavesOne (.clause .select) a (select [⟨["q"]⟩]) := by
    rw [LeavesOne]
    decide
  have hnot : ¬merged.IsConsolidated := by
    rw [hiff.1]
    rintro (h | h | h)
    · cases h
    · cases h
    · exact hleaves h.1
  exact ⟨ha, hb, hmerged, hnot, fun h ↦ hnot (hiff.2.2.mpr h)⟩

end ResourceQuery.Query
