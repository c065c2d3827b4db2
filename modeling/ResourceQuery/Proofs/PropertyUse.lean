import ResourceQuery.Members
import ResourceQuery.Proofs.Conservation
import ResourceQuery.Proofs.Reachable
import ResourceQuery.Proofs.SpineFolding
import ResourceQuery.Proofs.TreeContents

/-!
# The use of properties

Whether a query uses some property can be asked before the query is transformed or after. Uniting
lists drops a property only if an equal one is held already, folding and merging move clauses but
lose none, and pruning brings nothing in. So a question that equal properties answer alike has one
answer for a merged query and the queries that it was made of, such as the questions for the
properties below a path and for those that a set of members does not admit.
-/

namespace ResourceQuery

/-- Equal properties pass the test together. -/
def Property.Caseless (test : Property → Bool) : Prop :=
  ∀ p q : Property, (p == q) = true → test p = test q

theorem Property.caseless_startsWith (path : Property) :
    Caseless (·.startsWith false path) := by
  intro p q hpq
  have hkey : p.key false = q.key false := (beq_iff p q).mp hpq
  simp only [startsWith, hkey]

theorem Members.caseless_admits (members : Members) : Property.Caseless members.admits := by
  intro p q hpq
  have hkey : p.key false = q.key false := (Property.beq_iff p q).mp hpq
  simp only [admits, Property.startsWith, hkey]

namespace Query

variable {operation : Operation} {query a b : Query} {test : Property → Bool}

/-- Some property that is held anywhere in the query passes the test. -/
def uses (test : Property → Bool) (query : Query) : Bool :=
  query.allProperties.any test

theorem uses_eq_any_preorder (test : Property → Bool) (query : Query) :
    query.uses test = query.preorder.any (·.properties.any test) :=
  List.any_flatMap

theorem uses_eq_or (test : Property → Bool) (query : Query) :
    query.uses test = (query.properties.any test || query.nodes.any (uses test)) := by
  rw [uses, allProperties, preorder_eq_cons, List.flatMap_cons, List.any_append,
    List.flatMap_assoc, List.any_flatMap]
  rfl

theorem uses_of_nodes_eq_nil (h : query.nodes = []) :
    query.uses test = query.properties.any test := by
  rw [uses_eq_or, h, List.any_nil, Bool.or_false]

theorem references_eq_uses (query path : _) :
    references query path false = query.uses (·.startsWith false path) := rfl

/-! ### Lists and groups -/

/-- What a list takes up is used as it was in both lists. -/
theorem any_properties_absorb (htest : Property.Caseless test) (h : a.sameKind b = true) :
    (a.absorb b).properties.any test = (a.properties.any test || b.properties.any test) := by
  unfold sameKind at h
  split at h
  · exact any_appendNew htest _ _
  · next held more =>
    have hkeys (keys : List SortKey) :
        (sort keys).properties.any test = keys.any (test ·.property) := List.any_map
    rw [absorb, hkeys, hkeys, hkeys]
    exact any_appendNew (fun k l hkl ↦ htest k.property l.property hkl) _ _
  · next op p held op' q more =>
    have hpq : test p = test q := htest p q (Bool.and_eq_true_iff.mp h).2
    simp [absorb, properties, hpq]
  · cases h

theorem uses_absorb (htest : Property.Caseless test) (h : a.sameKind b = true) :
    (a.absorb b).uses test = (a.uses test || b.uses test) := by
  have hnodes := nodes_of_sameKind h
  rw [uses_of_nodes_eq_nil hnodes.1, uses_of_nodes_eq_nil hnodes.2,
    uses_of_nodes_eq_nil ((nodes_absorb a b).trans hnodes.1), any_properties_absorb htest h]

theorem uses_group (joiner : Joiner) (terms : List Query) :
    (group joiner terms).uses test = terms.any (uses test) :=
  uses_eq_or test _

/-! ### The transformed queries -/

theorem uses_conjoin (htest : Property.Caseless test) (a b : Query) :
    (conjoin a b).uses test = (a.uses test || b.uses test) := by
  rw [uses_eq_any_preorder, uses_eq_any_preorder, uses_eq_any_preorder]
  exact any_conjoin rfl (fun _ _ ↦ rfl) (any_properties_absorb htest) a b

theorem uses_of_isNoop (h : query.isNoop = true) : query.uses test = false := by
  cases query <;> first | rfl | cases h

/-- A merged query uses what either query uses. -/
theorem uses_merge (htest : Property.Caseless test) {merged : Query}
    (h : a.merge b = .ok merged) : merged.uses test = (a.uses test || b.uses test) := by
  cases hb : b.isNoop with
  | true =>
    rw [merge, if_pos hb] at h
    cases h
    rw [uses_of_isNoop hb, Bool.or_false]
  | false =>
    cases ha : a.isNoop with
    | true =>
      rw [merge, hb, ha] at h
      cases h
      rw [uses_of_isNoop ha, Bool.false_or]
    | false => rw [merge_eq_ok ha hb h, uses_conjoin htest]

theorem uses_iff_spineNodes :
    query.uses test = true ↔ ∃ node ∈ query.spineNodes, node.uses test = true := by
  induction query using nodes_induction with
  | h query ih =>
    by_cases hgroup : ∃ terms, query = group .and terms
    · obtain ⟨terms, rfl⟩ := hgroup
      rw [uses_group, List.any_eq_true, spineNodes_group_and]
      constructor
      · rintro ⟨term, hterm, huses⟩
        obtain ⟨node, hnode, huses⟩ := (ih term hterm).mp huses
        exact ⟨node, List.mem_flatMap.mpr ⟨term, hterm, hnode⟩, huses⟩
      · rintro ⟨node, hnode, huses⟩
        obtain ⟨term, hterm, hnode⟩ := List.mem_flatMap.mp hnode
        exact ⟨term, hterm, (ih term hterm).mpr ⟨node, hnode, huses⟩⟩
    · have hspine := spine_of_ne (not_exists.mp hgroup)
      cases hnoop : query.isNoop with
      | true => simp [spineNodes_of_isNoop hspine hnoop, uses_of_isNoop hnoop]
      | false => simp [spineNodes_of_spine hspine hnoop]

/-- What uniting two lists spares is found on a folded spine just if it was found before. -/
theorem exists_mem_foldSpine {P : Query → Prop} (hcombines : combines operation = true)
    (hP : ∀ a b, a.sameKind b = true → (P (a.absorb b) ↔ P a ∨ P b)) (query : Query) :
    (∃ node ∈ (query.foldSpine operation).spineNodes, P node) ↔
      ∃ node ∈ query.spineNodes, P node := by
  -- The clauses of the operation are united, and those of any other stay as they are.
  have hby (nodes : List Query) : (∃ node ∈ nodes, P node) ↔
      ∃ other, ∃ node ∈ nodes.filter (·.operation == other), P node := by
    simp
  rw [hby, hby query.spineNodes]
  refine exists_congr fun other ↦ ?_
  by_cases hother : operation = other
  · subst hother
    rw [filter_foldSpine hcombines, filter_spineNodes hcombines]
    exact exists_mem_uniteAll hP
  · rw [filter_foldSpine_of_ne hcombines hother]

theorem uses_foldSpine (htest : Property.Caseless test) (hcombines : combines operation = true)
    (query : Query) : (query.foldSpine operation).uses test = query.uses test := by
  rw [Bool.eq_iff_iff, uses_iff_spineNodes, uses_iff_spineNodes]
  refine exists_mem_foldSpine hcombines (fun a b h ↦ ?_) query
  rw [uses_absorb htest h, Bool.or_eq_true]

theorem uses_join {joiner : Joiner} (terms : List Query) :
    (join joiner terms).uses test = terms.any (uses test) := by
  unfold join
  split
  · rfl
  · rw [List.any_cons, List.any_nil, Bool.or_false]
  · exact uses_group _ _

/-- A pruned query uses nothing that the query did not use. -/
theorem uses_of_uses_prune (h : (query.prune operation).uses test = true) :
    query.uses test = true := by
  induction query using nodes_induction with
  | h query ih =>
    have hbelow (h : (pruneAll operation query.nodes).any (uses test) = true) :
        query.nodes.any (uses test) = true := by
      obtain ⟨pruned, hmem, hpruned⟩ := List.any_eq_true.mp h
      obtain ⟨⟨node, hnode, rfl⟩, -⟩ := mem_pruneAll.mp hmem
      exact List.any_eq_true.mpr ⟨node, hnode, ih node hnode hpruned⟩
    unfold prune at h
    split at h
    · cases h
    · split at h
      · next joiner terms _ =>
        rw [uses_join] at h
        rw [uses_group]
        exact hbelow h
      · next groups functions _ =>
        rw [uses_eq_or, Bool.or_eq_true] at h ⊢
        exact h.imp_right hbelow
      · exact h

/-! ### References and members -/

end Query

namespace Members

/-- A query passes if no property in it is one that the set does not admit. -/
theorem check_eq_ok_iff (members : Members) (query : Query) :
    members.check query = .ok () ↔ query.uses (!members.admits ·) = false := by
  have hunknown : members.unknown? query = none ↔ query.uses (!members.admits ·) = false := by
    rw [unknown?, List.find?_eq_none, Query.uses, List.any_eq_false]
  rw [← hunknown, check]
  cases members.unknown? query <;> simp [throw, throwThe, MonadExceptOf.throw, pure, Except.pure]

theorem caseless_not_admits (members : Members) : Property.Caseless (!members.admits ·) :=
  fun p q hpq ↦ congrArg _ (members.caseless_admits p q hpq)

end Members

namespace Query

/-- A merged query uses the properties that either query uses, and passes a set of members just if
both do. Consolidating lists changes neither; a pruned query uses no property that the query does
not use, and passes wherever it passes. -/
theorem properties_tracked (a b query : Query) (path : Property) (members : Members) :
    (∀ merged, a.merge b = .ok merged →
      (merged.references path false = true ↔
        a.references path false = true ∨ b.references path false = true) ∧
      (members.check merged = .ok () ↔ members.check a = .ok () ∧ members.check b = .ok ())) ∧
    (∀ operation ∈ [Operation.clause .select, .clause .sort, .clause (.membership .among),
        .clause (.membership .outside)],
      ∃ folded, query.consolidate operation = .ok folded ∧
        folded.references path false = query.references path false ∧
        (members.check folded = .ok () ↔ members.check query = .ok ())) ∧
    ∀ operation,
      ((query.prune operation).references path false = true →
        query.references path false = true) ∧
      (members.check query = .ok () → members.check (query.prune operation) = .ok ()) := by
  have hpath := Property.caseless_startsWith path
  have hmembers := members.caseless_not_admits
  simp only [references_eq_uses, members.check_eq_ok_iff]
  refine ⟨fun merged hmerged ↦ ⟨?_, ?_⟩, fun operation hlist ↦ ?_, fun operation ↦ ⟨?_, ?_⟩⟩
  · rw [uses_merge hpath hmerged, Bool.or_eq_true]
  · rw [uses_merge hmembers hmerged, Bool.or_eq_false_iff]
  · have hcombines := combines_iff.mpr hlist
    refine ⟨query.foldSpine operation, consolidate_of_combines hcombines query,
      uses_foldSpine hpath hcombines query, ?_⟩
    rw [uses_foldSpine hmembers hcombines]
  · exact uses_of_uses_prune
  · rw [← Bool.not_eq_true, ← Bool.not_eq_true]
    exact mt uses_of_uses_prune

/-- The second list repeats a path in other letters, and what is pruned used another path. -/
theorem properties_tracked_lists :
    let a := group .and [membership .among ⟨["a", "b"]⟩ [.null], select [⟨["Name"]⟩]]
    let b := group .and [group .and [select [⟨["name"]⟩, ⟨["c"]⟩], values ⟨["d"]⟩], one]
    let merged := group .and [membership .among ⟨["a", "b"]⟩ [.null],
      select [⟨["Name"]⟩, ⟨["c"]⟩], one]
    let members : Members := ⟨[⟨["a", "B"]⟩, ⟨["NAME"]⟩, ⟨["c"]⟩]⟩
    a.merge (b.prune (.clause .values)) = .ok merged ∧
      merged.references ⟨["C"]⟩ false = true ∧ members.check merged = .ok () ∧
      merged.references ⟨["d"]⟩ false = false := by
  intro a b merged members
  have hmerged : a.merge (b.prune (.clause .values)) = .ok merged := rfl
  obtain ⟨hreferences, hcheck⟩ :=
    (properties_tracked a (b.prune (.clause .values)) b ⟨["C"]⟩ members).1 merged hmerged
  have hpruned : (b.prune (.clause .values)).references ⟨["C"]⟩ false = true := by rfl
  refine ⟨hmerged, hreferences.mpr (.inr hpruned), hcheck.mpr ⟨rfl, rfl⟩, ?_⟩
  rw [← Bool.not_eq_true, ((properties_tracked a _ b ⟨["d"]⟩ members).1 merged hmerged).1]
  decide

end Query

end ResourceQuery
