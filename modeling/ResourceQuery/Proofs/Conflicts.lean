import Mathlib.Data.List.Perm.Subperm
import ResourceQuery.Proofs.Sameness
import ResourceQuery.Proofs.Uniting

/-!
# Queries without conflicts

The rules on a tree only limit how often something occurs in it. A query that has no more of
anything than another one therefore breaks no rule that the other one keeps, and equal queries keep
the same rules.
-/

namespace ResourceQuery.Query

/-- No property of the list is equal to one before it. -/
def Distinct (properties : List Property) : Prop :=
  properties.Pairwise fun p q ↦ (q == p) = false

theorem firstRepeated_eq_none_iff {seen properties : List Property} :
    firstRepeated seen properties = none ↔
      Distinct properties ∧ ∀ property ∈ properties, seen.contains property = false := by
  induction properties generalizing seen with
  | nil => simp [firstRepeated, Distinct]
  | cons property rest ih =>
    rw [firstRepeated, Distinct, List.pairwise_cons, List.forall_mem_cons]
    cases hseen : seen.contains property with
    | true => simp
    | false =>
      have hcontains (other : Property) : (property :: seen).contains other = false ↔
          (other == property) = false ∧ seen.contains other = false := by
        rw [List.contains_cons, Bool.or_eq_false_iff]
      rw [if_neg (by decide), ih]
      simp only [hcontains, forall_and, true_and, Distinct]
      tauto

theorem firstRepeated_append (seen properties more : List Property) :
    firstRepeated seen (properties ++ more) =
      (firstRepeated seen properties).or (firstRepeated (properties.reverse ++ seen) more) := by
  induction properties generalizing seen with
  | nil => rfl
  | cons property rest ih =>
    rw [List.cons_append, firstRepeated, firstRepeated, List.reverse_cons, List.append_assoc]
    split
    · rfl
    · exact ih (property :: seen)

theorem repeated?_eq_none_iff {query : Query} :
    query.repeated? = none ↔
      (∀ keyword ∈ [Keyword.limit, .distinct, .one, .first, .values, .aggregate],
        query.occurrences keyword ≤ 1) ∧ query.bareCounts ≤ 1 := by
  simp [repeated?, singletons, and_assoc]

theorem conflict?_eq_none_iff {query : Query} :
    query.conflict? = none ↔
      Distinct query.targets ∧ query.repeated? = none ∧
      ¬(0 < query.occurrences .select ∧ 0 < query.occurrences .values) ∧
      ¬(0 < query.occurrences .aggregate ∧ 0 < query.ungroupedFunctions) ∧
      ¬(0 < query.occurrences .limit ∧
        0 < query.ungroupedFunctions + query.occurrences .aggregate + query.bareCounts) := by
  have hdistinct : firstRepeated [] query.targets = none ↔ Distinct query.targets := by
    simp [firstRepeated_eq_none_iff]
  rw [← hdistinct, conflict?]
  cases firstRepeated [] query.targets with
  | some property => simp
  | none =>
    cases query.repeated? with
    | some keyword => simp
    | none =>
      simp only [Bool.and_eq_true, decide_eq_true_iff, true_and]
      split <;> [skip; split <;> [skip; split]] <;> simp_all

theorem validate_eq_ok_iff {query : Query} : query.validate = .ok () ↔ query.conflict? = none := by
  unfold validate
  cases query.conflict? <;> simp

/-- A query has no more of anything that there are rules about than another one. -/
structure Lighter (a b : Query) : Prop where
  occurrences (keyword : Keyword) : a.occurrences keyword ≤ b.occurrences keyword
  bareCounts : a.bareCounts ≤ b.bareCounts
  ungroupedFunctions : a.ungroupedFunctions ≤ b.ungroupedFunctions
  targets (h : Distinct b.targets) : Distinct a.targets

theorem Lighter.refl (a : Query) : Lighter a a :=
  ⟨fun _ ↦ Nat.le_refl _, Nat.le_refl _, Nat.le_refl _, id⟩

theorem Lighter.trans {a b c : Query} (h : Lighter a b) (h' : Lighter b c) : Lighter a c :=
  ⟨fun keyword ↦ Nat.le_trans (h.occurrences keyword) (h'.occurrences keyword),
    Nat.le_trans h.bareCounts h'.bareCounts,
    Nat.le_trans h.ungroupedFunctions h'.ungroupedFunctions, h.targets ∘ h'.targets⟩

theorem Lighter.conflict?_eq_none {a b : Query} (h : Lighter a b) (hb : b.conflict? = none) :
    a.conflict? = none := by
  rw [conflict?_eq_none_iff, repeated?_eq_none_iff] at hb ⊢
  obtain ⟨htargets, ⟨honce, hcounts⟩, hselect, hfunctions, hlimit⟩ := hb
  have hle := h.occurrences
  have hbare := h.bareCounts
  have hungrouped := h.ungroupedFunctions
  have hsingle (keyword : Keyword)
      (hmem : keyword ∈ [Keyword.limit, .distinct, .one, .first, .values, .aggregate]) :=
    Nat.le_trans (hle keyword) (honce keyword hmem)
  have hselects := hle .select
  have hvalues := hle .values
  have haggregates := hle .aggregate
  have hlimits := hle .limit
  exact ⟨h.targets htargets, ⟨hsingle, by omega⟩, by omega, by omega, by omega⟩

/-! ### What the rules look at -/

/-- A way through the nodes of a tree, each in front of the nodes below it; `inside` is how it goes
on in the functions of an aggregate. -/
structure IsWalk (walk inside : Query → List Query) : Prop where
  of_group (joiner : Joiner) (terms : List Query) :
    walk (group joiner terms) = group joiner terms :: terms.flatMap walk
  of_aggregate (groups : List Property) (functions : List Query) :
    walk (aggregate groups functions) = aggregate groups functions :: functions.flatMap inside
  of_leaf {query : Query} (h : query.nodes = []) : walk query = [query]

theorem isWalk_preorder : IsWalk preorder preorder where
  of_group _ _ := preorder_eq_cons _
  of_aggregate _ _ := preorder_eq_cons _
  of_leaf h := by rw [preorder_eq_cons, h, List.flatMap_nil]

theorem isWalk_outer : IsWalk outer fun _ ↦ [] where
  of_group _ _ := outer_eq_cons _
  of_aggregate _ _ := by simp [outer]
  of_leaf {query} h := by
    rw [outer_eq_cons, h]
    split <;> rfl

/-- What is looked up at a node is neither below it nor among the entries of a list, and there is
nothing to be found at the empty query. -/
structure IsShallow {β : Type} (look : Query → Option β) : Prop where
  noop : look noop = none
  of_group (joiner : Joiner) (terms : List Query) :
    look (group joiner terms) = look (group joiner [])
  of_aggregate (groups : List Property) (functions : List Query) :
    look (aggregate groups functions) = look (aggregate groups [])
  of_sameKind {a b : Query} (h : a.sameKind b = true) : look a = look b

section Walk

variable {β : Type} {walk inside : Query → List Query} {look : Query → Option β}

theorem IsWalk.filterMap_group (hwalk : IsWalk walk inside) (hlook : IsShallow look)
    (joiner : Joiner) (terms : List Query) :
    (walk (group joiner terms)).filterMap look =
      (look (group joiner [])).toList ++ terms.flatMap fun term ↦ (walk term).filterMap look := by
  rw [hwalk.of_group, List.filterMap_cons, hlook.of_group, List.filterMap_flatMap]
  cases look (group joiner []) <;> rfl

theorem IsWalk.filterMap_aggregate (hwalk : IsWalk walk inside) (hlook : IsShallow look)
    (groups : List Property) (functions : List Query) :
    (walk (aggregate groups functions)).filterMap look =
      (look (aggregate groups [])).toList ++
        functions.flatMap fun function ↦ (inside function).filterMap look := by
  rw [hwalk.of_aggregate, List.filterMap_cons, hlook.of_aggregate, List.filterMap_flatMap]
  cases look (aggregate groups []) <;> rfl

end Walk

/-- Marks what a condition holds of. -/
def mark (P : Query → Bool) (query : Query) : Option Unit :=
  if P query then some () else none

theorem length_filterMap_mark (P : Query → Bool) (queries : List Query) :
    (queries.filterMap (mark P)).length = queries.countP P := by
  have hmark (query : Query) : (mark P query).isSome = P query := by
    rw [mark]
    cases P query <;> rfl
  rw [List.length_filterMap_eq_countP]
  exact List.countP_congr fun query _ ↦ by rw [hmark]

theorem isShallow_operation (keyword : Keyword) :
    IsShallow (mark (·.operation == .clause keyword)) where
  noop := rfl
  of_group _ _ := rfl
  of_aggregate _ _ := rfl
  of_sameKind h := by rw [mark, mark, operation_eq_of_sameKind h]

theorem isShallow_target? : IsShallow target? where
  noop := rfl
  of_group _ _ := rfl
  of_aggregate _ _ := rfl
  of_sameKind h := (target?_of_sameKind h).1.trans (target?_of_sameKind h).2.symm

theorem isShallow_targeted : IsShallow (mark (·.target?.isSome)) where
  noop := rfl
  of_group _ _ := rfl
  of_aggregate _ _ := rfl
  of_sameKind h := by rw [mark, mark, isShallow_target?.of_sameKind h]

theorem isShallow_bareCount : IsShallow (mark isBareCount) where
  noop := rfl
  of_group _ _ := rfl
  of_aggregate _ _ := rfl
  of_sameKind h := by
    rw [mark, mark, isBareCount_eq, isBareCount_eq, operation_eq_of_sameKind h,
      isShallow_target?.of_sameKind h]

theorem Distinct.of_subperm {ps qs : List Property} (hqs : Distinct qs) (h : ps.Subperm qs) :
    Distinct ps := by
  obtain ⟨rs, hperm, hsublist⟩ := h
  refine (hperm.pairwise_iff fun {p q} hpq ↦ ?_).mp (hqs.sublist hsublist)
  rwa [BEq.comm]

/-- Whatever the rules look at is found in the other query as well. -/
theorem lighter_of_subperm {a b : Query}
    (hpreorder : ∀ {β : Type} {look : Query → Option β}, IsShallow look →
      (a.preorder.filterMap look).Subperm (b.preorder.filterMap look))
    (houter : ∀ {β : Type} {look : Query → Option β}, IsShallow look →
      (a.outer.filterMap look).Subperm (b.outer.filterMap look)) : Lighter a b where
  occurrences keyword := by
    have hlength := (hpreorder (isShallow_operation keyword)).length_le
    rwa [length_filterMap_mark, length_filterMap_mark] at hlength
  bareCounts := by
    have hlength := (hpreorder isShallow_bareCount).length_le
    rwa [length_filterMap_mark, length_filterMap_mark] at hlength
  ungroupedFunctions := by
    have hlength := (houter isShallow_targeted).length_le
    rwa [length_filterMap_mark, length_filterMap_mark] at hlength
  targets h := h.of_subperm (hpreorder isShallow_target?)

/-- Whatever the rules look at is found in the other query as well, and in the same order. -/
theorem lighter_of_sublist {a b : Query}
    (hpreorder : ∀ {β : Type} {look : Query → Option β}, IsShallow look →
      (a.preorder.filterMap look).Sublist (b.preorder.filterMap look))
    (houter : ∀ {β : Type} {look : Query → Option β}, IsShallow look →
      (a.outer.filterMap look).Sublist (b.outer.filterMap look)) : Lighter a b :=
  lighter_of_subperm (fun hlook ↦ (hpreorder hlook).subperm) fun hlook ↦ (houter hlook).subperm

/-! ### Equal queries -/

theorem distinct_of_same {ps qs : List Property}
    (h : List.Forall₂ (fun p q ↦ (p == q) = true) ps qs) (hqs : Distinct qs) : Distinct ps := by
  induction h with
  | nil => exact .nil
  | @cons p q ps qs hpq hrest ih =>
    rw [Distinct, List.pairwise_cons] at hqs ⊢
    refine ⟨fun other hmem ↦ ?_, ih hqs.2⟩
    obtain ⟨twin, htwin, hother⟩ : ∃ twin ∈ qs, (other == twin) = true := by
      clear ih hqs
      induction hrest with
      | nil => cases hmem
      | @cons r s _ _ hrs _ ih =>
        obtain rfl | hmem := List.mem_cons.mp hmem
        · exact ⟨s, by simp, hrs⟩
        · obtain ⟨twin, htwin, hother⟩ := ih hmem
          exact ⟨twin, List.mem_cons_of_mem s htwin, hother⟩
    rw [BEq.congr_left hother, BEq.congr_right hpq]
    exact hqs.1 twin htwin

/-- Equal queries keep the same rules. -/
theorem lighter_of_same {a b : Query} (h : (a == b) = true) : Lighter a b where
  occurrences keyword := by
    refine Nat.le_of_eq ((alike_preorder h).countP_eq fun a b hab ↦ ?_)
    rw [operation_eq_of_same hab]
  bareCounts :=
    Nat.le_of_eq ((alike_preorder h).countP_eq fun _ _ hab ↦ isBareCount_eq_of_same hab)
  ungroupedFunctions := by
    have hsome (a b : Query) (hab : (a == b) = true) : a.target?.isSome = b.target?.isSome := by
      have hrel := target?_of_same hab
      generalize a.target? = p, b.target? = q at hrel
      cases hrel <;> rfl
    exact Nat.le_of_eq ((alike_outer h).countP_eq hsome)
  targets := distinct_of_same (alike_preorder h).filterMap_target?

end ResourceQuery.Query
