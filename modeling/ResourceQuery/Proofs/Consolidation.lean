import Mathlib.Algebra.GroupWithZero.Nat
import Mathlib.Data.List.Flatten
import ResourceQuery.Proofs.Conflicts
import ResourceQuery.Proofs.Shape
import ResourceQuery.Proofs.Uniting
import ResourceQuery.Query.Source

/-!
# What consolidation keeps

Folding adds nothing to a tree, and what holds of all terms of a conjunction holds of what is left
of it, so what was well-formed stays so. Both are read off `Folds`, which lists the steps that a
folding is made of.
-/

namespace ResourceQuery.Query

variable {operation : Operation} {terms pending : List Query} {query : Query} {folding : Folding}

/-! ### The steps of a folding -/

/-- A folding of some terms, step by step. -/
inductive Folds (operation : Operation) : List Query → List Query → Folding → Prop
  | nil (pending : List Query) : Folds operation [] pending ⟨[], pending, false⟩
  | cons {query : Query} {rest pending : List Query} {first others : Folding}
      (hfirst : Folds operation [query] pending first)
      (hrest : Folds operation rest first.pending others) :
      Folds operation (query :: rest) pending
        ⟨first.kept ++ others.kept, others.pending, first.dropped || others.dropped⟩
  | rejoined {terms pending kept left : List Query}
      (hinner : Folds operation terms pending ⟨kept, left, true⟩) :
      Folds operation [group .and terms] pending
        ⟨[join .and kept].filter (!·.isNoop), left, true⟩
  | unchanged {terms pending kept left : List Query}
      (hinner : Folds operation terms pending ⟨kept, left, false⟩) :
      Folds operation [group .and terms] pending ⟨[group .and kept], left, false⟩
  | other {query : Query} {pending : List Query} (hspine : query.spine = [query])
      (hoperation : query.operation ≠ operation) :
      Folds operation [query] pending ⟨[query], pending, false⟩
  | replaced {query clause : Query} {pending left : List Query} (hspine : query.spine = [query])
      (hoperation : query.operation = operation)
      (htake : takeKind query pending = some (clause, left)) :
      Folds operation [query] pending ⟨[clause], left, false⟩
  | dropped {query : Query} {pending : List Query} (hspine : query.spine = [query])
      (hoperation : query.operation = operation) (htake : takeKind query pending = none) :
      Folds operation [query] pending ⟨[], pending, true⟩

theorem spine_of_ne (h : ∀ terms, query ≠ group .and terms) : query.spine = [query] := by
  unfold spine
  split
  · exact absurd rfl (h _)
  · rfl

theorem fold_of_ne (h : ∀ terms, query ≠ group .and terms) :
    fold operation pending query =
      if query.operation = operation then
        match takeKind query pending with
        | some (clause, others) => ⟨[clause], others, false⟩
        | none => ⟨[], pending, true⟩
      else ⟨[query], pending, false⟩ := by
  unfold fold
  split
  · exact absurd rfl (h _)
  · rfl

/-- A term that is no conjunction is a step of its own. -/
theorem folds_leaf (hleaf : ∀ terms, query ≠ group .and terms) :
    Folds operation [query] pending (fold operation pending query) := by
  have hspine : query.spine = [query] := spine_of_ne hleaf
  rw [fold_of_ne hleaf]
  split
  · next hoperation =>
    split
    · next clause left htake => exact .replaced hspine hoperation htake
    · next htake => exact .dropped hspine hoperation htake
  · next hoperation => exact .other hspine hoperation

mutual

theorem folds_fold (operation : Operation) (pending : List Query) (query : Query) :
    Folds operation [query] pending (fold operation pending query) := by
  cases query with
  | group joiner terms =>
    cases joiner with
    | and =>
      have hinner := folds_foldAll operation pending terms
      rcases hfolding : foldAll operation pending terms with ⟨kept, left, dropped⟩
      rw [hfolding] at hinner
      rw [fold, hfolding]
      cases dropped with
      | true => exact .rejoined hinner
      | false => exact .unchanged hinner
    | or => exact folds_leaf (by simp)
  | _ => exact folds_leaf (by simp)

theorem folds_foldAll (operation : Operation) (pending terms : List Query) :
    Folds operation terms pending (foldAll operation pending terms) := by
  cases terms with
  | nil => exact .nil pending
  | cons query rest =>
    exact .cons (folds_fold operation pending query) (folds_foldAll operation _ rest)

end

theorem takeKind_eq_some {clause : Query} {left : List Query}
    (h : takeKind query pending = some (clause, left)) :
    clause.sameKind query = true ∧ pending.Perm (clause :: left) := by
  induction pending generalizing left with
  | nil => cases h
  | cons held rest ih =>
    rw [takeKind] at h
    split at h
    · next hkind =>
      cases h
      exact ⟨hkind, .refl _⟩
    · obtain ⟨⟨found, others⟩, htake, h⟩ := Option.map_eq_some_iff.mp h
      cases h
      obtain ⟨hkind, hperm⟩ := ih htake
      exact ⟨hkind, (hperm.cons held).trans (.swap _ _ _)⟩

/-- Without a drop there are as many terms as before. -/
theorem Folds.length_kept (h : Folds operation terms pending folding)
    (hdropped : folding.dropped = false) : folding.kept.length = terms.length := by
  induction h with
  | nil => rfl
  | cons _ _ ihfirst ihrest =>
    obtain ⟨hfirst, hrest⟩ := Bool.or_eq_false_iff.mp hdropped
    rw [List.length_append, ihfirst hfirst, ihrest hrest, List.length_singleton, Nat.add_comm]
    rfl
  | rejoined => cases hdropped
  | unchanged => rfl
  | other => rfl
  | replaced => rfl
  | dropped => cases hdropped

/-! ### Clauses of one kind -/

theorem spine_of_sameKind {a b : Query} (h : a.sameKind b = true) :
    a.spine = [a] ∧ b.spine = [b] := by
  unfold sameKind at h
  split at h <;> first | exact ⟨rfl, rfl⟩ | cases h

/-- What is collected from a tree does not depend on how its conjunctions are nested, nor on what
its list clauses hold: `head` is found in a conjunction itself. -/
structure Collects {β : Type} (head : List β) (collect : Query → List β) : Prop where
  noop : collect noop = []
  group_and (terms : List Query) : collect (group .and terms) = head ++ terms.flatMap collect
  sameKind {a b : Query} (h : a.sameKind b = true) : collect a = collect b

section Collects

variable {β : Type} {head : List β} {collect : Query → List β}

theorem Collects.sublist_join (h : Collects head collect) (queries : List Query) :
    (collect (join .and queries)).Sublist (head ++ queries.flatMap collect) := by
  unfold join
  split
  · rw [h.noop]
    exact List.nil_sublist _
  · rw [List.flatMap_singleton]
    exact List.sublist_append_right head _
  · rw [h.group_and]

/-- Folding adds nothing. -/
theorem Collects.sublist_folds (h : Collects head collect)
    (hfolds : Folds operation terms pending folding) :
    (folding.kept.flatMap collect).Sublist (terms.flatMap collect) := by
  induction hfolds with
  | nil => exact List.nil_sublist _
  | cons _ _ ihfirst ihrest =>
    rw [List.flatMap_append, List.flatMap_cons]
    rw [List.flatMap_singleton] at ihfirst
    exact ihfirst.append ihrest
  | @rejoined terms pending kept left _ ih =>
    have hfilter : (([join .and kept].filter (!·.isNoop)).flatMap collect).Sublist
        (collect (join .and kept)) := by
      rw [← List.flatMap_singleton collect (join .and kept)]
      exact List.filter_sublist.flatMap collect
    rw [List.flatMap_singleton, h.group_and]
    exact (hfilter.trans (h.sublist_join kept)).trans (ih.append_left head)
  | unchanged _ ih =>
    rw [List.flatMap_singleton, List.flatMap_singleton, h.group_and, h.group_and]
    exact ih.append_left head
  | other => exact .refl _
  | replaced _ _ htake =>
    rw [List.flatMap_singleton, List.flatMap_singleton, h.sameKind (takeKind_eq_some htake).1]
  | dropped => exact List.nil_sublist _

theorem Collects.sublist_foldSpine (h : Collects head collect) (operation : Operation)
    (query : Query) : (collect (query.foldSpine operation)).Sublist (collect query) := by
  unfold foldSpine
  split
  · next terms =>
    have hfolds := folds_foldAll operation ((group .and terms).spineUnion operation) terms
    have hsublist := (h.sublist_folds hfolds).append_left head
    dsimp only
    split
    · rw [h.group_and]
      exact (h.sublist_join _).trans hsublist
    · exact .refl _
  · exact .refl _

/-- What is looked up on a walk is collected, in a conjunction itself first. -/
theorem collects_walk {walk inside : Query → List Query} {look : Query → Option β}
    (hwalk : IsWalk walk inside) (hlook : IsShallow look) :
    Collects (look (group .and [])).toList fun query ↦ (walk query).filterMap look where
  noop := by rw [hwalk.of_leaf rfl, List.filterMap_cons_none hlook.noop, List.filterMap_nil]
  group_and terms := hwalk.filterMap_group hlook .and terms
  sameKind h := by
    obtain ⟨ha, hb⟩ := nodes_of_sameKind h
    rw [hwalk.of_leaf ha, hwalk.of_leaf hb, List.filterMap_cons, List.filterMap_cons,
      hlook.of_sameKind h]

end Collects

/-- Folding breaks no rule. -/
theorem lighter_foldSpine (operation : Operation) (query : Query) :
    Lighter (query.foldSpine operation) query :=
  lighter_of_sublist
    (fun hlook ↦ (collects_walk isWalk_preorder hlook).sublist_foldSpine operation query)
    (fun hlook ↦ (collects_walk isWalk_outer hlook).sublist_foldSpine operation query)

/-! ### Clauses on the spine -/

/-- How many clauses of an operation are on the spine. -/
def spineCount (operation : Operation) (query : Query) : Nat :=
  query.spine.countP (·.operation == operation)

/-- The clauses of the operation are all of one kind. -/
def OneKind (operation : Operation) : Prop :=
  ∀ a b : Query, a.operation = operation → b.operation = operation → a.sameKind b = true

theorem oneKind_select : OneKind (.clause .select) := by
  intro a b ha hb
  cases a <;> cases ha
  cases b <;> cases hb
  rfl

theorem oneKind_sort : OneKind (.clause .sort) := by
  intro a b ha hb
  cases a <;> cases ha
  cases b <;> cases hb
  rfl

theorem OneKind.ne_noop (h : OneKind operation) : Operation.noop ≠ operation := by
  rintro rfl
  cases h noop noop rfl rfl

theorem spineCount_group_and (terms : List Query) :
    spineCount operation (group .and terms) = (terms.map (spineCount operation)).sum := by
  rw [spineCount, spine_group_and, List.countP_flatMap]
  rfl

theorem spineCount_leaf (h : query.spine = [query]) :
    spineCount operation query = if query.operation = operation then 1 else 0 := by
  rw [spineCount, h, List.countP_singleton]
  simp

theorem spineCount_join (hkind : OneKind operation) (queries : List Query) :
    spineCount operation (join .and queries) = (queries.map (spineCount operation)).sum := by
  unfold join
  split
  · rw [spineCount_leaf rfl]
    exact if_neg hkind.ne_noop
  · simp
  · rw [spineCount_group_and]

theorem spineCount_filter (hkind : OneKind operation) (queries : List Query) :
    ((queries.filter (!·.isNoop)).map (spineCount operation)).sum =
      (queries.map (spineCount operation)).sum := by
  induction queries with
  | nil => rfl
  | cons query rest ih =>
    rw [List.filter_cons]
    cases hnoop : query.isNoop with
    | true =>
      have hzero : spineCount operation query = 0 := by
        cases query <;> cases hnoop
        rw [spineCount_leaf rfl]
        exact if_neg hkind.ne_noop
      simp [ih, hzero]
    | false => simp [ih]

/-! ### United clauses -/

theorem operation_absorb (a b : Query) : (a.absorb b).operation = a.operation := by
  unfold absorb
  split <;> rfl

theorem operation_of_mem_spineUnion {clause : Query}
    (h : clause ∈ query.spineUnion operation) : clause.operation = operation := by
  have hclauses (clause : Query) (hmem : clause ∈ query.spine.filter (·.operation == operation)) :
      clause.operation = operation := eq_of_beq (List.mem_filter.mp hmem).2
  have habsorb (a b : Query) (ha : a.operation = operation) :
      (a.absorb b).operation = operation := by rw [operation_absorb, ha]
  exact forall_uniteAll hclauses (fun a b ha _ _ ↦ habsorb a b ha) clause h

/-! ### What folded trees keep -/

/-- A property of trees that holds of a group just if the group has terms and it holds of each, and
that a clause keeps when it takes up another one that has it. -/
structure Inherited (P : Query → Prop) : Prop where
  group_iff {joiner : Joiner} {terms : List Query} :
    P (group joiner terms) ↔ terms ≠ [] ∧ ∀ term ∈ terms, P term
  absorb {a b : Query} (ha : P a) (hb : P b) : P (a.absorb b)

section Inherited

variable {P : Query → Prop}

theorem Inherited.join (hP : Inherited P) {joiner : Joiner} {queries : List Query}
    (hne : queries ≠ []) (h : ∀ query ∈ queries, P query) : P (join joiner queries) := by
  unfold Query.join
  split
  · exact absurd rfl hne
  · exact h _ (by simp)
  · exact hP.group_iff.mpr ⟨hne, h⟩

/-- Terms joined anew are left out if nothing is left of them. -/
theorem Inherited.filter_join (hP : Inherited P) {joiner : Joiner} {queries : List Query}
    (h : ∀ query ∈ queries, P query) :
    ∀ query ∈ [Query.join joiner queries].filter (!·.isNoop), P query := by
  intro query hmem
  obtain ⟨hjoin, hnoop⟩ := List.mem_filter.mp hmem
  obtain rfl := List.mem_singleton.mp hjoin
  refine hP.join ?_ h
  rintro rfl
  simp [Query.join, isNoop] at hnoop

theorem Inherited.of_mem_spine (hP : Inherited P) {node : Query} (h : P query)
    (hnode : node ∈ query.spine) : P node := by
  induction query using nodes_induction with
  | h query ih =>
    by_cases hgroup : ∃ terms, query = group .and terms
    · obtain ⟨terms, rfl⟩ := hgroup
      rw [spine_group_and] at hnode
      obtain ⟨term, hterm, hnode⟩ := List.mem_flatMap.mp hnode
      exact ih term hterm ((hP.group_iff.mp h).2 term hterm) hnode
    · rw [spine_of_ne (not_exists.mp hgroup), List.mem_singleton] at hnode
      rwa [hnode]

theorem Inherited.folds (hP : Inherited P) (h : Folds operation terms pending folding)
    (hterms : ∀ term ∈ terms, P term) (hpending : ∀ clause ∈ pending, P clause) :
    (∀ term ∈ folding.kept, P term) ∧ ∀ clause ∈ folding.pending, P clause := by
  induction h with
  | nil => exact ⟨by simp, hpending⟩
  | cons _ _ ihfirst ihrest =>
    rw [List.forall_mem_cons] at hterms
    obtain ⟨hfirst, hleft⟩ := ihfirst (by simpa using hterms.1) hpending
    obtain ⟨hrest, hleft⟩ := ihrest hterms.2 hleft
    exact ⟨List.forall_mem_append.mpr ⟨hfirst, hrest⟩, hleft⟩
  | @rejoined terms pending kept left _ ih =>
    obtain ⟨hne, hinner⟩ := hP.group_iff.mp (hterms _ (List.mem_singleton.mpr rfl))
    obtain ⟨hkept, hleft⟩ := ih hinner hpending
    exact ⟨hP.filter_join hkept, hleft⟩
  | @unchanged terms pending kept left hfolds ih =>
    obtain ⟨hne, hinner⟩ := hP.group_iff.mp (hterms _ (List.mem_singleton.mpr rfl))
    obtain ⟨hkept, hleft⟩ := ih hinner hpending
    refine ⟨fun term hmem ↦ ?_, hleft⟩
    obtain rfl := List.mem_singleton.mp hmem
    have hlength : kept.length = terms.length := hfolds.length_kept rfl
    refine hP.group_iff.mpr ⟨?_, hkept⟩
    rintro rfl
    exact hne (List.length_eq_zero_iff.mp hlength.symm)
  | other => exact ⟨hterms, hpending⟩
  | replaced _ _ htake =>
    have hperm := (takeKind_eq_some htake).2
    have hall := fun clause hmem ↦ hpending clause (hperm.mem_iff.mpr hmem)
    rw [List.forall_mem_cons] at hall
    exact ⟨by simpa using hall.1, hall.2⟩
  | dropped => exact ⟨by simp, hpending⟩

theorem Inherited.foldSpine (hP : Inherited P) (h : P query) (operation : Operation) :
    query.foldSpine operation = noop ∨ P (query.foldSpine operation) := by
  have hunion (clause : Query) (hmem : clause ∈ query.spineUnion operation) : P clause := by
    refine forall_uniteAll (fun clause hmem ↦ ?_) (fun a b ha hb _ ↦ hP.absorb ha hb) clause hmem
    exact hP.of_mem_spine h (List.mem_filter.mp hmem).1
  unfold Query.foldSpine
  split
  · next terms =>
    have hfolds := folds_foldAll operation ((Query.group .and terms).spineUnion operation) terms
    have hkept := (hP.folds hfolds (hP.group_iff.mp h).2 hunion).1
    dsimp only
    split
    · generalize (foldAll operation ((Query.group .and terms).spineUnion operation) terms).kept =
        kept at hkept
      cases kept with
      | nil => exact .inl rfl
      | cons head rest => exact .inr (hP.join (by simp) hkept)
    · exact .inr h
  · exact .inr h

end Inherited

theorem appendNew_ne_nil {α : Type} {agree : α → α → Bool} {held : List α} (h : held ≠ [])
    (more : List α) : appendNew agree held more ≠ [] := by
  induction more generalizing held with
  | nil => exact h
  | cons a rest ih =>
    rw [appendNew]
    apply ih
    split
    · exact h
    · simp

theorem inherited_wellFormed : Inherited WellFormed where
  group_iff := ⟨WellFormed.of_group, fun h ↦ .group h.1 h.2⟩
  absorb h _ := by
    unfold Query.absorb
    split
    · cases h with
      | select hne => exact .select (appendNew_ne_nil hne _)
    · cases h with
      | sort hne => exact .sort (appendNew_ne_nil hne _)
    · cases h with
      | membership _ _ hne => exact .membership _ _ (appendNew_ne_nil hne _)
    · exact h

end ResourceQuery.Query
