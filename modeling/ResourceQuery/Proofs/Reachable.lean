import ResourceQuery.Proofs.Merging
import ResourceQuery.Proofs.RoundTrip
import ResourceQuery.Query.Prune

/-!
# Trees that can be reached

Trees are read off texts, and pruned, consolidated and merged from then on. Whatever is done to them
in whatever order, a tree breaks no rule between its clauses, and it is the empty query or a tree of
nodes to which nothing is missing. Each way of making a tree is shown to keep this.
-/

namespace ResourceQuery.Query

variable {query : Query}

/-! ### Pruning adds nothing -/

section Prune

variable {β : Type} {walk inside : Query → List Query} {look : Query → Option β}

theorem sublist_flatMap_pruneAll {operation : Operation} {collect : Query → List β}
    {queries : List Query}
    (h : ∀ query ∈ queries, (collect (prune operation query)).Sublist (collect query)) :
    ((pruneAll operation queries).flatMap collect).Sublist (queries.flatMap collect) := by
  rw [pruneAll_eq_filter]
  refine (List.filter_sublist.flatMap collect).trans ?_
  induction queries with
  | nil => exact .slnil
  | cons query rest ih =>
    rw [List.forall_mem_cons] at h
    rw [List.map_cons, List.flatMap_cons, List.flatMap_cons]
    exact h.1.append (ih h.2)

theorem IsWalk.sublist_join (hwalk : IsWalk walk inside) (hlook : IsShallow look)
    (joiner : Joiner) (terms : List Query) :
    ((walk (join joiner terms)).filterMap look).Sublist
      ((walk (group joiner terms)).filterMap look) := by
  unfold join
  split
  · rw [hwalk.of_leaf rfl, List.filterMap_cons_none hlook.noop, List.filterMap_nil]
    exact List.nil_sublist _
  · rw [hwalk.filterMap_group hlook, List.flatMap_singleton]
    exact List.sublist_append_right _ _
  · exact .refl _

/-- What is found on a walk through a pruned tree is found, in the same order, in the tree. -/
theorem IsWalk.sublist_prune (hwalk : IsWalk walk inside)
    (hinside : inside = walk ∨ inside = fun _ ↦ []) (hlook : IsShallow look)
    (operation : Operation) (query : Query) :
    ((walk (prune operation query)).filterMap look).Sublist ((walk query).filterMap look) := by
  induction query using nodes_induction with
  | h query ih =>
    unfold prune
    split
    · rw [hwalk.of_leaf rfl, List.filterMap_cons_none hlook.noop, List.filterMap_nil]
      exact List.nil_sublist _
    · split
      · next joiner terms _ =>
        refine (hwalk.sublist_join hlook joiner _).trans ?_
        rw [hwalk.filterMap_group hlook, hwalk.filterMap_group hlook]
        exact (sublist_flatMap_pruneAll ih).append_left _
      · next groups functions _ =>
        have hfunctions : ((pruneAll operation functions).flatMap fun function ↦
            (inside function).filterMap look).Sublist
              (functions.flatMap fun function ↦ (inside function).filterMap look) := by
          apply sublist_flatMap_pruneAll
          intro function hmem
          obtain rfl | rfl := hinside
          · exact ih function hmem
          · exact .refl _
        rw [hwalk.filterMap_aggregate hlook, hwalk.filterMap_aggregate hlook]
        exact hfunctions.append_left _
      · exact .refl _

end Prune

/-- Pruning breaks no rule. -/
theorem lighter_prune (operation : Operation) (query : Query) :
    Lighter (query.prune operation) query :=
  lighter_of_sublist
    (fun hlook ↦ isWalk_preorder.sublist_prune (.inl rfl) hlook operation query)
    (fun hlook ↦ isWalk_outer.sublist_prune (.inr rfl) hlook operation query)

/-! ### Nodes to which nothing is missing -/

/-- The node has what its form asks for: no list of it is empty, what stands among functions is a
function, and the pattern of `like` is a text. The empty query has no place among other nodes. -/
def IsIntact : Query → Prop
  | noop => False
  | select properties => properties ≠ []
  | sort keys => keys ≠ []
  | group _ terms => terms ≠ []
  | pattern op _ value => op = .like → Grammar.IsText value
  | membership _ _ entries => entries ≠ []
  | aggregate _ functions => ∀ function ∈ functions, function.isFunction = true
  | _ => True

/-- Every node of the tree is intact. -/
def Intact (query : Query) : Prop :=
  ∀ node ∈ query.preorder, node.IsIntact

theorem intact_iff : query.Intact ↔ query.IsIntact ∧ ∀ node ∈ query.nodes, node.Intact := by
  simp only [Intact, preorder_eq_cons query, List.forall_mem_cons, List.mem_flatMap]
  apply and_congr_right'
  constructor
  · exact fun h node hnode below hbelow ↦ h below ⟨node, hnode, hbelow⟩
  · exact fun h below ⟨node, hnode, hbelow⟩ ↦ h node hnode below hbelow

theorem intact_of_isFunction (h : query.isFunction = true) : query.Intact := by
  rw [intact_iff]
  cases query with
  | summary op property => exact ⟨trivial, by simp [nodes]⟩
  | count property => exact ⟨trivial, by simp [nodes]⟩
  | _ => cases h

theorem intact_aggregate_iff {groups : List Property} {functions : List Query} :
    (aggregate groups functions).Intact ↔ ∀ function ∈ functions, function.isFunction = true := by
  rw [intact_iff]
  exact and_iff_left_of_imp fun h function hmem ↦ intact_of_isFunction (h function hmem)

theorem inherited_intact : Inherited Intact where
  group_iff := intact_iff
  absorb {a b} h _ := by
    unfold Query.absorb
    rw [intact_iff] at h
    split
    · exact intact_iff.mpr ⟨appendNew_ne_nil h.1 _, by simp [nodes]⟩
    · exact intact_iff.mpr ⟨appendNew_ne_nil h.1 _, by simp [nodes]⟩
    · exact intact_iff.mpr ⟨appendNew_ne_nil h.1 _, by simp [nodes]⟩
    · exact intact_iff.mpr h

theorem WellFormed.intact (h : query.WellFormed) : query.Intact := by
  induction h with
  | group hne _ ih => exact inherited_intact.group_iff.mpr ⟨hne, ih⟩
  | aggregate _ hfunctions => exact intact_aggregate_iff.mpr hfunctions
  | select hne => exact intact_iff.mpr ⟨hne, by simp [nodes]⟩
  | sort hne => exact intact_iff.mpr ⟨hne, by simp [nodes]⟩
  | membership _ _ hne => exact intact_iff.mpr ⟨hne, by simp [nodes]⟩
  | pattern _ hpattern => exact intact_iff.mpr ⟨hpattern, by simp [nodes]⟩
  | _ => exact intact_iff.mpr ⟨trivial, by simp [nodes]⟩

/-- A tree in which nothing is missing, or nothing at all. -/
def IsSound (query : Query) : Prop :=
  query = noop ∨ query.Intact

theorem isSound_join {joiner : Joiner} {terms : List Query} (h : ∀ term ∈ terms, term.Intact) :
    (join joiner terms).IsSound := by
  cases terms with
  | nil => exact .inl rfl
  | cons head rest => exact .inr (inherited_intact.join (by simp) h)

/-! ### Pruned trees -/

theorem IsSound.intact_of_isNoop_eq_false (h : query.IsSound) (hnoop : query.isNoop = false) :
    query.Intact :=
  h.resolve_left fun heq ↦ by simp [heq, isNoop] at hnoop

theorem mem_pruneAll {operation : Operation} {queries : List Query} :
    query ∈ pruneAll operation queries ↔
      (∃ whole ∈ queries, whole.prune operation = query) ∧ query.isNoop = false := by
  rw [pruneAll_eq_filter, List.mem_filter, List.mem_map, Bool.not_eq_true']

theorem prune_of_isFunction {operation : Operation} (h : query.isFunction = true) :
    query.prune operation = noop ∨ query.prune operation = query := by
  cases query with
  | summary op property => exact ite_eq_or_eq _ _ _
  | count property => exact ite_eq_or_eq _ _ _
  | _ => cases h

theorem Intact.prune (operation : Operation) (h : query.Intact) :
    (query.prune operation).IsSound := by
  induction query using nodes_induction with
  | h query ih =>
    unfold Query.prune
    split
    · exact .inl rfl
    · split
      · next joiner terms _ =>
        have hterms : ∀ term ∈ terms, term.Intact := (inherited_intact.group_iff.mp h).2
        refine isSound_join fun term hmem ↦ ?_
        obtain ⟨⟨whole, hwhole, rfl⟩, hnoop⟩ := mem_pruneAll.mp hmem
        exact (ih whole hwhole (hterms whole hwhole)).intact_of_isNoop_eq_false hnoop
      · next groups functions _ =>
        have hfunctions := intact_aggregate_iff.mp h
        refine .inr (intact_aggregate_iff.mpr fun function hmem ↦ ?_)
        obtain ⟨⟨whole, hwhole, rfl⟩, hnoop⟩ := mem_pruneAll.mp hmem
        have hfunction : whole.isFunction = true := hfunctions whole hwhole
        have hsame : whole.prune operation = whole :=
          (prune_of_isFunction hfunction).resolve_left fun heq ↦ by simp [heq, isNoop] at hnoop
        rwa [hsame]
      · exact .inr h

/-! ### Merged trees -/

/-- All the pieces have a property. -/
def Parts.All (P : Query → Prop) (parts : Parts) : Prop :=
  (∀ term ∈ parts.kept, P term) ∧ ∀ clause ∈ parts.clauses, P clause

section Merge

variable {P : Query → Prop}

theorem Parts.All.append {a b : Parts} (ha : a.All P) (hb : b.All P) : (a ++ b).All P :=
  ⟨List.forall_mem_append.mpr ⟨ha.1, hb.1⟩, List.forall_mem_append.mpr ⟨ha.2, hb.2⟩⟩

theorem all_part_of_ne (h : P query) (hne : ∀ terms, query ≠ group .and terms) :
    (part query).All P := by
  rw [part_of_ne hne]
  split
  · exact ⟨by simp, by simpa using h⟩
  · exact ⟨by simpa using h, by simp⟩

mutual

theorem Inherited.all_part (hP : Inherited P) {query : Query} (h : P query) :
    (part query).All P := by
  cases query with
  | group joiner terms =>
    cases joiner with
    | and =>
      have hinner := hP.all_partAll (hP.group_iff.mp h).2
      exact ⟨hP.filter_join hinner.1, hinner.2⟩
    | or => exact all_part_of_ne h (by simp)
  | _ => exact all_part_of_ne h (by simp)

theorem Inherited.all_partAll (hP : Inherited P) {queries : List Query}
    (h : ∀ query ∈ queries, P query) : (partAll queries).All P := by
  cases queries with
  | nil => exact ⟨by simp [partAll], by simp [partAll]⟩
  | cons query rest =>
    have hboth := List.forall_mem_cons.mp h
    exact (hP.all_part hboth.1).append (hP.all_partAll hboth.2)

end

theorem Inherited.all_partTerm (hP : Inherited P) (h : P query) : (partTerm query).All P := by
  unfold Query.partTerm
  split
  · exact ⟨by simp, by simp⟩
  · exact ⟨by simp, by simpa using h⟩
  · exact hP.all_part h

theorem Inherited.all_partTerms (hP : Inherited P) {terms : List Query}
    (h : ∀ term ∈ terms, P term) : (partTerms terms).All P := by
  induction terms with
  | nil => exact ⟨by simp [partTerms], by simp [partTerms]⟩
  | cons term rest ih =>
    have hboth := List.forall_mem_cons.mp h
    exact (hP.all_partTerm hboth.1).append (ih hboth.2)

theorem Inherited.forall_conjuncts_join (hP : Inherited P) {joiner : Joiner} {terms : List Query}
    (h : ∀ term ∈ terms, P term) : ∀ term ∈ (Query.join joiner terms).conjuncts, P term := by
  cases terms with
  | nil => simp [Query.join, conjuncts]
  | cons head rest =>
    have hjoin : P (Query.join joiner (head :: rest)) := hP.join (by simp) h
    generalize Query.join joiner (head :: rest) = joined at hjoin
    unfold conjuncts
    split
    · simp
    · exact (hP.group_iff.mp hjoin).2
    · simpa using hjoin

theorem Inherited.all_partRoot (hP : Inherited P) (h : P query) : query.partRoot.All P := by
  cases query with
  | group joiner terms =>
    have hterms : ∀ term ∈ terms, P term := (hP.group_iff.mp h).2
    cases joiner with
    | and =>
      have hparts := hP.all_partTerms hterms
      exact ⟨hP.forall_conjuncts_join hparts.1, hparts.2⟩
    | or =>
      have hfilter (p : Query → Bool) : ∀ term ∈ terms.filter p, P term :=
        fun term hmem ↦ hterms term (List.mem_filter.mp hmem).1
      exact ⟨hP.forall_conjuncts_join (hfilter _), hfilter _⟩
  | _ =>
    rw [partRoot_of_ne (by simp)]
    exact hP.all_partTerm h

end Merge

theorem Intact.conjoin {a b : Query} (ha : a.Intact) (hb : b.Intact) :
    (conjoin a b).IsSound := by
  have hparts := (inherited_intact.all_partRoot ha).append (inherited_intact.all_partRoot hb)
  have hunited := forall_uniteAll hparts.2 fun _ _ ha hb _ ↦ inherited_intact.absorb ha hb
  exact isSound_join (List.forall_mem_append.mpr ⟨hparts.1, hunited⟩)

/-! ### Whatever is done to trees -/

/-- The trees that can be made of texts by reading, pruning, consolidating and merging. -/
inductive Reachable : Query → Prop
  | read {options : ReadOptions} {text : String} {query : Query}
      (h : Query.read options text = .ok query) : Reachable query
  | prune (operation : Operation) {query : Query} (h : Reachable query) :
      Reachable (query.prune operation)
  | consolidate {operation : Operation} {query folded : Query} (h : Reachable query)
      (hfolded : query.consolidate operation = .ok folded) : Reachable folded
  | merge {a b merged : Query} (ha : Reachable a) (hb : Reachable b)
      (hmerged : a.merge b = .ok merged) : Reachable merged

theorem consolidate_eq_ok {operation : Operation} {folded : Query}
    (h : query.consolidate operation = .ok folded) : folded = query.foldSpine operation := by
  unfold Query.consolidate at h
  split at h
  · cases h
    rfl
  · cases h

/-- A successful merge gives back one of the queries if the other one is empty, and otherwise their
conjunction, in which nothing conflicts. -/
theorem merge_cases {a b merged : Query} (h : a.merge b = .ok merged) :
    merged = a ∨ merged = b ∨
      a.isNoop = false ∧ b.isNoop = false ∧
        merged = conjoin a b ∧ (conjoin a b).conflict? = none := by
  cases hb : b.isNoop with
  | true =>
    rw [Query.merge, if_pos hb] at h
    cases h
    exact .inl rfl
  | false =>
    cases ha : a.isNoop with
    | true =>
      rw [Query.merge, hb, ha] at h
      cases h
      exact .inr (.inl rfl)
    | false =>
      have hmerged := (merge_eq_ok_iff ha hb).mp h
      exact .inr (.inr ⟨rfl, rfl, hmerged.2, hmerged.1⟩)

/-- What no step breaks: there is no conflict, and nothing is missing from any node. -/
structure Holds (query : Query) : Prop where
  conflict? : query.conflict? = none
  isSound : query.IsSound

theorem holds_of_read {options : ReadOptions} {text : String}
    (h : Query.read options text = .ok query) : query.Holds := by
  obtain ⟨parsed, hfinish, hparsed⟩ := exists_finish_of_read h
  refine ⟨conflict?_of_finish hfinish, ?_⟩
  cases hparsed with
  | inl hnoop =>
    rw [hnoop, finish_noop] at hfinish
    cases hfinish
    exact .inl rfl
  | inr hparsed => exact (wellFormed_of_finish hparsed hfinish).imp_right WellFormed.intact

theorem Holds.prune (h : query.Holds) (operation : Operation) : (query.prune operation).Holds where
  conflict? := (lighter_prune operation query).conflict?_eq_none h.conflict?
  isSound := by
    cases h.isSound with
    | inl hnoop =>
      rw [hnoop]
      exact .inl (by simp [Query.prune])
    | inr hintact => exact hintact.prune operation

theorem Holds.foldSpine (h : query.Holds) (operation : Operation) :
    (query.foldSpine operation).Holds where
  conflict? := (lighter_foldSpine operation query).conflict?_eq_none h.conflict?
  isSound := by
    cases h.isSound with
    | inl hnoop =>
      rw [hnoop]
      exact .inl rfl
    | inr hintact => exact inherited_intact.foldSpine hintact operation

theorem Holds.merge {a b merged : Query} (ha : a.Holds) (hb : b.Holds)
    (h : a.merge b = .ok merged) : merged.Holds := by
  obtain rfl | rfl | ⟨hnoop, hnoop', rfl, hconflict⟩ := merge_cases h
  · exact ha
  · exact hb
  · have hsound := ha.isSound.resolve_left fun heq ↦ by simp [heq, isNoop] at hnoop
    have hsound' := hb.isSound.resolve_left fun heq ↦ by simp [heq, isNoop] at hnoop'
    exact ⟨hconflict, hsound.conjoin hsound'⟩

theorem Reachable.holds (h : query.Reachable) : query.Holds := by
  induction h with
  | read h => exact holds_of_read h
  | prune operation _ ih => exact ih.prune operation
  | consolidate _ hfolded ih =>
    rw [consolidate_eq_ok hfolded]
    exact ih.foldSpine _
  | merge _ _ hmerged iha ihb => exact iha.merge ihb hmerged

/-- However trees are made of texts by reading, pruning, consolidating and merging, they are valid,
and a tree that is not the empty query has intact nodes only. -/
theorem valid_and_intact_of_reachable (h : query.Reachable) :
    query.validate = .ok () ∧ (query = noop ∨ ∀ node ∈ query.preorder, node.IsIntact) :=
  ⟨validate_eq_ok_iff.mpr h.holds.conflict?, h.holds.isSound⟩

/-- A tree out of which a group and a function have fallen, and that took up another list. -/
theorem valid_and_intact_of_reachable_merged :
    let query := group .and [pattern .like ⟨["b"]⟩ (.string "x"),
      membership .among ⟨["a"]⟩ [.bool true, .bool false],
      aggregate [⟨["c"]⟩] [summary .sum ⟨["d"]⟩]]
    query.Reachable ∧ query.validate = .ok () ∧
      (query = noop ∨ ∀ node ∈ query.preorder, node.IsIntact) := by
  intro query
  have hread : read {} "(one()|in(a,true))&like(b,x)&aggregate(c,count(),sum(d))" = .ok
      (group .and [group .or [one, membership .among ⟨["a"]⟩ [.bool true]],
        pattern .like ⟨["b"]⟩ (.string "x"),
        aggregate [⟨["c"]⟩] [count none, summary .sum ⟨["d"]⟩]]) := by cbv
  have hother : read {} "in(A,false)" = .ok (membership .among ⟨["A"]⟩ [.bool false]) := by cbv
  have hpruned := ((Reachable.read hread).prune (.clause .one)).prune (.clause .count)
  have hmerged : query.Reachable := hpruned.merge (.read hother) rfl
  have hfolded : query.consolidate (.clause (.membership .among)) = .ok query := rfl
  have hreachable : query.Reachable := hmerged.consolidate hfolded
  exact ⟨hreachable, valid_and_intact_of_reachable hreachable⟩

end ResourceQuery.Query
