import ResourceQuery.Proofs.Consolidation

/-!
# Consolidation along the spine

Folding is an operation on the list of nodes along the spine: the first clause of each kind takes up
the entries of all the later ones, which go, and no other node is changed or moved. How the
conjunctions are nested has no part in it, and a folded list has nothing left to fold. So a query
that a reader has finished, or one that is equal to it, is finished when it is read again.
-/

namespace ResourceQuery.Query

variable {operation : Operation} {query : Query} {terms pending : List Query} {folding : Folding}

/-! ### Kinds of clauses -/

theorem sameKind_self (h : combines query.operation = true) : query.sameKind query = true := by
  cases query with
  | select | sort => rfl
  | membership op property entries =>
    rw [sameKind, Bool.and_eq_true]
    exact ⟨BEq.rfl, BEq.rfl⟩
  | _ => cases h

theorem sameKind_trans {a b c : Query} (h : a.sameKind b = true) (h' : b.sameKind c = true) :
    a.sameKind c = true := by
  unfold sameKind at h
  split at h
  · cases c <;> first | rfl | cases h'
  · cases c <;> first | rfl | cases h'
  · cases c with
    | membership op property entries =>
      rw [sameKind, Bool.and_eq_true] at h'
      rw [Bool.and_eq_true] at h
      rw [sameKind, Bool.and_eq_true]
      exact ⟨BEq.trans h.1 h'.1, BEq.trans h.2 h'.2⟩
    | _ => cases h'
  · cases h

theorem isNoop_of_sameKind {a b : Query} (h : a.sameKind b = true) : a.isNoop = false := by
  cases a <;> first | rfl | cases h

/-! ### Folded lists -/

theorem operation_foldl_absorb (clause : Query) (more : List Query) :
    (more.foldl absorb clause).operation = clause.operation := by
  induction more generalizing clause with
  | nil => rfl
  | cons other rest ih => rw [List.foldl_cons, ih, operation_absorb]

theorem sameKind_foldl_absorb (clause other : Query) (more : List Query) :
    (more.foldl absorb clause).sameKind other = clause.sameKind other := by
  induction more generalizing clause with
  | nil => rfl
  | cons next rest ih => rw [List.foldl_cons, ih, sameKind_absorb_left]

theorem sameKind_foldl_absorb_right (clause other : Query) (more : List Query) :
    other.sameKind (more.foldl absorb clause) = other.sameKind clause := by
  induction more generalizing clause with
  | nil => rfl
  | cons next rest ih => rw [List.foldl_cons, ih, sameKind_absorb_right]

/-- The nodes of a list with the clauses of an operation folded: the first clause of a kind takes up
the later ones in their order, and these go. The clauses `before` have been met already. -/
def foldedAfter (operation : Operation) (before : List Query) : List Query → List Query
  | [] => []
  | node :: rest =>
    if node.operation = operation then
      if before.any (·.sameKind node) then foldedAfter operation before rest
      else (rest.filter node.sameKind).foldl absorb node ::
        foldedAfter operation (node :: before) rest
    else node :: foldedAfter operation before rest

theorem foldedAfter_cons_of_ne {before : List Query} {node : Query}
    (h : node.operation ≠ operation) (rest : List Query) :
    foldedAfter operation before (node :: rest) = node :: foldedAfter operation before rest :=
  if_neg h

theorem foldedAfter_cons {before : List Query} {node : Query} (h : node.operation = operation)
    (hbefore : before.any (·.sameKind node) = false) (rest : List Query) :
    foldedAfter operation before (node :: rest) =
      (rest.filter node.sameKind).foldl absorb node ::
        foldedAfter operation (node :: before) rest :=
  (if_pos h).trans (if_neg (by simp [hbefore]))

theorem foldedAfter_singleton (node : Query) : foldedAfter operation [] [node] = [node] := by
  by_cases h : node.operation = operation
  · rw [foldedAfter_cons h rfl]
    rfl
  · rw [foldedAfter_cons_of_ne h]
    rfl

theorem foldedAfter_ne_nil {nodes : List Query} (h : nodes ≠ []) :
    foldedAfter operation [] nodes ≠ [] := by
  cases nodes with
  | nil => exact absurd rfl h
  | cons node rest =>
    by_cases hoperation : node.operation = operation
    · rw [foldedAfter_cons hoperation rfl]
      exact List.cons_ne_nil _ _
    · rw [foldedAfter_cons_of_ne hoperation]
      exact List.cons_ne_nil _ _

theorem length_foldedAfter_le (operation : Operation) (before nodes : List Query) :
    (foldedAfter operation before nodes).length ≤ nodes.length := by
  fun_induction foldedAfter operation before nodes with
  | case1 => exact Nat.le_refl _
  | case2 before node rest _ _ ih => exact Nat.le_succ_of_le ih
  | case3 before node rest _ _ ih => exact Nat.succ_le_succ ih
  | case4 before node rest _ ih => exact Nat.succ_le_succ ih

/-- A clause that is left is of one kind with none before. -/
theorem any_of_mem_foldedAfter {before nodes : List Query} {node : Query}
    (h : node ∈ foldedAfter operation before nodes) (hoperation : node.operation = operation) :
    before.any (·.sameKind node) = false := by
  fun_induction foldedAfter operation before nodes with
  | case1 => cases h
  | case2 before other rest _ _ ih => exact ih h
  | case3 before other rest _ hbefore ih =>
    obtain rfl | h := List.mem_cons.mp h
    · simpa only [sameKind_foldl_absorb_right, Bool.not_eq_true] using hbefore
    · have hany := ih h
      rw [List.any_cons, Bool.or_eq_false_iff] at hany
      exact hany.2
  | case4 before other rest hne ih =>
    obtain rfl | h := List.mem_cons.mp h
    · exact absurd hoperation hne
    · exact ih h

/-- Where no two clauses are of one kind, there is nothing to fold. -/
theorem foldedAfter_eq_self {before nodes : List Query}
    (h : (nodes.filter (·.operation == operation)).Pairwise Differs)
    (hbefore : ∀ node ∈ nodes, node.operation = operation → before.any (·.sameKind node) = false) :
    foldedAfter operation before nodes = nodes := by
  fun_induction foldedAfter operation before nodes with
  | case1 => rfl
  | case2 before node rest hoperation hany ih =>
    have hnone := hbefore node List.mem_cons_self hoperation
    rw [hany] at hnone
    cases hnone
  | case3 before node rest hoperation _ ih =>
    rw [List.filter_cons_of_pos (by simpa using hoperation), List.pairwise_cons] at h
    rw [List.forall_mem_cons] at hbefore
    have hdiffers (other : Query) (hmem : other ∈ rest) (hother : other.operation = operation) :
        node.sameKind other = false :=
      h.1 other (List.mem_filter.mpr ⟨hmem, by simpa using hother⟩)
    have hnone : rest.filter node.sameKind = [] :=
      List.filter_eq_nil_iff.mpr fun other hmem hkind ↦ by
        rw [hdiffers other hmem ((operation_eq_of_sameKind hkind).symm.trans hoperation)] at hkind
        cases hkind
    rw [hnone, ih h.2]
    · rfl
    · intro other hmem hother
      rw [List.any_cons, hdiffers other hmem hother, hbefore.2 other hmem hother]
      rfl
  | case4 before node rest hne ih =>
    rw [List.filter_cons_of_neg (by simpa using hne)] at h
    rw [List.forall_mem_cons] at hbefore
    rw [ih h hbefore.2]

/-- A folded list that is no shorter has not changed. -/
theorem eq_of_length_foldedAfter {before nodes : List Query}
    (h : (foldedAfter operation before nodes).length = nodes.length) :
    foldedAfter operation before nodes = nodes := by
  fun_induction foldedAfter operation before nodes with
  | case1 => rfl
  | case2 before node rest _ _ ih =>
    have hle := length_foldedAfter_le operation before rest
    rw [h] at hle
    exact absurd hle (Nat.not_succ_le_self _)
  | case3 before node rest hoperation _ ih =>
    have hrest := ih (Nat.succ.inj h)
    have hnone : rest.filter node.sameKind = [] :=
      List.filter_eq_nil_iff.mpr fun other hmem hkind ↦ by
        rw [← hrest] at hmem
        have hother := (operation_eq_of_sameKind hkind).symm.trans hoperation
        have hany := any_of_mem_foldedAfter hmem hother
        rw [List.any_cons, hkind] at hany
        cases hany
    rw [hnone, hrest]
    rfl
  | case4 before node rest _ ih => rw [ih (Nat.succ.inj h)]

/-- Clauses of other operations are left alone. -/
theorem filter_foldedAfter_of_ne {other : Operation} (hne : operation ≠ other)
    (before nodes : List Query) :
    (foldedAfter operation before nodes).filter (·.operation == other) =
      nodes.filter (·.operation == other) := by
  fun_induction foldedAfter operation before nodes with
  | case1 => rfl
  | case2 before node rest hoperation _ ih =>
    rw [ih, List.filter_cons_of_neg (by simpa [hoperation] using hne)]
  | case3 before node rest hoperation _ ih =>
    rw [List.filter_cons_of_neg (by simpa [operation_foldl_absorb, hoperation] using hne), ih,
      List.filter_cons_of_neg (by simpa [hoperation] using hne)]
  | case4 before node rest _ ih => rw [List.filter_cons, List.filter_cons, ih]

/-! ### United clauses -/

/-- The first of the united clauses takes up all clauses of its kind. -/
theorem foldl_unite_cons (held : Query) (others clauses : List Query) :
    clauses.foldl unite (held :: others) =
      (clauses.filter held.sameKind).foldl absorb held ::
        (clauses.filter (!held.sameKind ·)).foldl unite others := by
  induction clauses generalizing held others with
  | nil => rfl
  | cons clause rest ih =>
    rw [List.foldl_cons, unite]
    cases hkind : held.sameKind clause with
    | true =>
      have habsorb : (held.absorb clause).sameKind = held.sameKind :=
        funext fun other ↦ sameKind_absorb_left held clause other
      rw [if_pos rfl, ih, habsorb]
      simp [hkind]
    | false =>
      rw [if_neg (by decide), ih]
      simp [hkind]

theorem uniteAll_cons (clause : Query) (rest : List Query) :
    uniteAll (clause :: rest) = (rest.filter clause.sameKind).foldl absorb clause ::
      uniteAll (rest.filter (!clause.sameKind ·)) :=
  foldl_unite_cons clause [] rest

theorem uniteAll_ne_nil {clauses : List Query} (h : clauses ≠ []) : uniteAll clauses ≠ [] := by
  obtain ⟨clause, rest, rfl⟩ := List.exists_cons_of_ne_nil h
  rw [uniteAll_cons]
  exact List.cons_ne_nil _ _

/-! ### Folding a list of nodes -/

theorem takeKind_eq_none_iff {clause : Query} :
    takeKind clause pending = none ↔ ∀ held ∈ pending, held.sameKind clause = false := by
  induction pending with
  | nil => simp [takeKind]
  | cons held rest ih =>
    rw [takeKind, List.forall_mem_cons, ← ih]
    cases hkind : held.sameKind clause <;> simp

theorem fold_of_operation_ne (hleaf : ∀ terms, query ≠ group .and terms)
    (h : query.operation ≠ operation) :
    fold operation pending query = ⟨[query], pending, false⟩ := by
  rw [fold_of_ne hleaf, if_neg h]

theorem fold_of_takeKind_eq_some {clause : Query} {left : List Query}
    (hleaf : ∀ terms, query ≠ group .and terms) (h : query.operation = operation)
    (htake : takeKind query pending = some (clause, left)) :
    fold operation pending query = ⟨[clause], left, false⟩ := by
  rw [fold_of_ne hleaf, if_pos h, htake]

theorem fold_of_takeKind_eq_none (hleaf : ∀ terms, query ≠ group .and terms)
    (h : query.operation = operation) (htake : takeKind query pending = none) :
    fold operation pending query = ⟨[], pending, true⟩ := by
  rw [fold_of_ne hleaf, if_pos h, htake]

theorem foldAll_cons (rest : List Query) :
    foldAll operation pending (query :: rest) =
      ⟨(fold operation pending query).kept ++
          (foldAll operation (fold operation pending query).pending rest).kept,
        (foldAll operation (fold operation pending query).pending rest).pending,
        (fold operation pending query).dropped ||
          (foldAll operation (fold operation pending query).pending rest).dropped⟩ := by
  rw [foldAll]

theorem foldAll_append (terms more : List Query) :
    foldAll operation pending (terms ++ more) =
      ⟨(foldAll operation pending terms).kept ++
          (foldAll operation (foldAll operation pending terms).pending more).kept,
        (foldAll operation (foldAll operation pending terms).pending more).pending,
        (foldAll operation pending terms).dropped ||
          (foldAll operation (foldAll operation pending terms).pending more).dropped⟩ := by
  induction terms generalizing pending with
  | nil => rw [List.nil_append, foldAll]; rfl
  | cons query rest ih =>
    rw [List.cons_append, foldAll_cons, foldAll_cons, ih]
    simp only [List.append_assoc, Bool.or_assoc]

/-- The clauses of an operation that are of one kind with none before. -/
def newClauses (operation : Operation) (before nodes : List Query) : List Query :=
  nodes.filter fun node ↦ node.operation == operation && !before.any (·.sameKind node)

theorem newClauses_cons {before : List Query} {node : Query} (h : node.operation = operation)
    (hbefore : before.any (·.sameKind node) = false) (rest : List Query) :
    newClauses operation before (node :: rest) = node :: newClauses operation before rest :=
  List.filter_cons_of_pos (by simp [h, hbefore])

theorem filter_newClauses {before : List Query} {node : Query} (h : node.operation = operation)
    (hbefore : before.any (·.sameKind node) = false) (rest : List Query) :
    (newClauses operation before rest).filter node.sameKind = rest.filter node.sameKind := by
  rw [newClauses, List.filter_filter]
  refine List.filter_congr fun other _ ↦ ?_
  cases hkind : node.sameKind other with
  | false => rfl
  | true =>
    have hnone : before.any (·.sameKind other) = false := by
      rw [List.any_eq_false] at hbefore ⊢
      exact fun held hmem hheld ↦
        hbefore held hmem (sameKind_trans hheld (sameKind_symm hkind))
    simp [← operation_eq_of_sameKind hkind, h, hnone]

theorem filter_newClauses_not (before : List Query) (node : Query) (rest : List Query) :
    (newClauses operation before rest).filter (!node.sameKind ·) =
      newClauses operation (node :: before) rest := by
  rw [newClauses, newClauses, List.filter_filter]
  refine List.filter_congr fun other _ ↦ ?_
  rw [List.any_cons, Bool.not_or]
  exact Bool.and_left_comm _ _ _

/-- Folding a list while the united new clauses are pending gives the folded list. -/
theorem foldAll_newClauses (hcombines : combines operation = true) {nodes : List Query}
    (hleaf : ∀ node ∈ nodes, ∀ terms, node ≠ group .and terms) (before : List Query) :
    foldAll operation (uniteAll (newClauses operation before nodes)) nodes =
      ⟨foldedAfter operation before nodes, [],
        decide ((foldedAfter operation before nodes).length < nodes.length)⟩ := by
  fun_induction foldedAfter operation before nodes with
  | case1 => rfl
  | case2 before node rest hoperation hany ih =>
    rw [List.forall_mem_cons] at hleaf
    have hold : newClauses operation before (node :: rest) = newClauses operation before rest :=
      List.filter_cons_of_neg (by simp [hany])
    have htake : takeKind node (uniteAll (newClauses operation before rest)) = none := by
      rw [takeKind_eq_none_iff]
      refine forall_uniteAll (fun clause hmem ↦ ?_) fun a b ha _ _ ↦ by rwa [sameKind_absorb_left]
      obtain ⟨held, hheld, hkind⟩ := List.any_eq_true.mp hany
      have hclause := (List.mem_filter.mp hmem).2
      rw [Bool.and_eq_true, Bool.not_eq_true', List.any_eq_false] at hclause
      rw [← Bool.not_eq_true]
      exact fun h ↦ hclause.2 held hheld (sameKind_trans hkind (sameKind_symm h))
    have hlength : (foldedAfter operation before rest).length < (node :: rest).length :=
      Nat.lt_succ_of_le (length_foldedAfter_le operation before rest)
    rw [hold, foldAll_cons, fold_of_takeKind_eq_none hleaf.1 hoperation htake]
    dsimp only
    rw [ih hleaf.2, decide_eq_true hlength]
    rfl
  | case3 before node rest hoperation hany ih =>
    rw [List.forall_mem_cons] at hleaf
    have hnone : before.any (·.sameKind node) = false := by simpa using hany
    have hself : node.sameKind node = true := sameKind_self (hoperation ▸ hcombines)
    have htake : takeKind node (uniteAll (newClauses operation before (node :: rest))) =
        some ((rest.filter node.sameKind).foldl absorb node,
          uniteAll (newClauses operation (node :: before) rest)) := by
      rw [newClauses_cons hoperation hnone, uniteAll_cons, filter_newClauses hoperation hnone,
        filter_newClauses_not, takeKind, sameKind_foldl_absorb, hself, if_pos rfl]
    rw [foldAll_cons, fold_of_takeKind_eq_some hleaf.1 hoperation htake]
    dsimp only
    rw [ih hleaf.2]
    simp
  | case4 before node rest hne ih =>
    rw [List.forall_mem_cons] at hleaf
    have hother : newClauses operation before (node :: rest) = newClauses operation before rest :=
      List.filter_cons_of_neg (by simp [hne])
    rw [hother, foldAll_cons, fold_of_operation_ne hleaf.1 hne]
    dsimp only
    rw [ih hleaf.2]
    simp

/-- The clauses of a folded list are the united ones, so no two of them are of one kind. -/
theorem filter_foldedAfter (operation : Operation) (before nodes : List Query) :
    (foldedAfter operation before nodes).filter (·.operation == operation) =
      Query.uniteAll (newClauses operation before nodes) := by
  fun_induction foldedAfter operation before nodes with
  | case1 => rfl
  | case2 before node rest hoperation hany ih =>
    rw [ih, newClauses, newClauses, List.filter_cons_of_neg (by simp [hany])]
  | case3 before node rest hoperation hany ih =>
    have hnone : before.any (·.sameKind node) = false := by simpa using hany
    rw [newClauses_cons hoperation hnone, uniteAll_cons, filter_newClauses hoperation hnone,
      filter_newClauses_not, ← ih]
    exact List.filter_cons_of_pos (by simp [operation_foldl_absorb, hoperation])
  | case4 before node rest hne ih =>
    rw [List.filter_cons_of_neg (by simpa using hne), ih, newClauses, newClauses,
      List.filter_cons_of_neg (by simp [hne])]

/-! ### The nodes along the spine -/

theorem ne_group_of_mem_spine {node : Query} (h : node ∈ query.spine) (terms : List Query) :
    node ≠ group .and terms := by
  induction query using nodes_induction with
  | h query ih =>
    by_cases hgroup : ∃ inner, query = group .and inner
    · obtain ⟨inner, rfl⟩ := hgroup
      rw [spine_group_and] at h
      obtain ⟨term, hterm, hnode⟩ := List.mem_flatMap.mp h
      exact ih term hterm hnode
    · rw [spine_of_ne (not_exists.mp hgroup), List.mem_singleton] at h
      rw [h]
      exact not_exists.mp hgroup terms

theorem ne_group_of_spine (h : query.spine = [query]) (terms : List Query) :
    query ≠ group .and terms :=
  ne_group_of_mem_spine (h ▸ List.mem_singleton_self query) terms

/-- The nodes along the spine that are not empty. -/
def spineNodes (query : Query) : List Query :=
  query.spine.filter (!·.isNoop)

theorem ne_group_of_mem_spineNodes {node : Query} (h : node ∈ query.spineNodes)
    (terms : List Query) : node ≠ group .and terms :=
  ne_group_of_mem_spine (List.mem_filter.mp h).1 terms

theorem spineNodes_group_and (terms : List Query) :
    (group .and terms).spineNodes = terms.flatMap spineNodes := by
  rw [spineNodes, spine_group_and, List.filter_flatMap]
  rfl

theorem spineNodes_join (queries : List Query) :
    (join .and queries).spineNodes = queries.flatMap spineNodes := by
  unfold join
  split
  · rfl
  · rw [List.flatMap_singleton]
  · exact spineNodes_group_and _

theorem flatMap_spineNodes_filter (queries : List Query) :
    (queries.filter (!·.isNoop)).flatMap spineNodes = queries.flatMap spineNodes := by
  induction queries with
  | nil => rfl
  | cons query rest ih =>
    cases hnoop : query.isNoop with
    | true =>
      cases query <;> cases hnoop
      exact ih
    | false =>
      rw [List.filter_cons_of_pos (by simp [hnoop]), List.flatMap_cons, List.flatMap_cons, ih]

theorem spineNodes_of_isNoop (hspine : query.spine = [query]) (h : query.isNoop = true) :
    query.spineNodes = [] := by
  rw [spineNodes, hspine]
  simp [h]

theorem spineNodes_of_spine (hspine : query.spine = [query]) (h : query.isNoop = false) :
    query.spineNodes = [query] := by
  rw [spineNodes, hspine]
  simp [h]

theorem isNoop_of_combines (hcombines : combines query.operation = true) :
    query.isNoop = false := by
  cases query <;> first | rfl | cases hcombines

/-- Folding terms is folding the list of the nodes along their spines. -/
theorem Folds.foldAll_spineNodes (hcombines : combines operation = true)
    (h : Folds operation terms pending folding) :
    foldAll operation pending (terms.flatMap spineNodes) =
      { folding with kept := folding.kept.flatMap spineNodes } := by
  induction h with
  | nil => rfl
  | cons _ _ ihfirst ihrest =>
    rw [List.flatMap_singleton] at ihfirst
    rw [List.flatMap_cons, foldAll_append, ihfirst]
    dsimp only
    rw [ihrest, List.flatMap_append]
  | @rejoined terms pending kept left _ ih =>
    rw [flatMap_spineNodes_filter, List.flatMap_singleton, List.flatMap_singleton,
      spineNodes_group_and, spineNodes_join, ih]
  | unchanged _ ih =>
    rw [List.flatMap_singleton, List.flatMap_singleton, spineNodes_group_and,
      spineNodes_group_and, ih]
  | @other query pending hspine hoperation =>
    rw [List.flatMap_singleton]
    cases hnoop : query.isNoop with
    | true => rw [spineNodes_of_isNoop hspine hnoop, foldAll]
    | false =>
      rw [spineNodes_of_spine hspine hnoop, foldAll_cons,
        fold_of_operation_ne (ne_group_of_spine hspine) hoperation]
      rfl
  | @replaced query clause pending left hspine hoperation htake =>
    have hnoop := isNoop_of_combines (hoperation ▸ hcombines)
    have hkind := (takeKind_eq_some htake).1
    rw [List.flatMap_singleton, List.flatMap_singleton, spineNodes_of_spine hspine hnoop,
      spineNodes_of_spine (spine_of_sameKind hkind).1 (isNoop_of_sameKind hkind), foldAll_cons,
      fold_of_takeKind_eq_some (ne_group_of_spine hspine) hoperation htake]
    rfl
  | @dropped query pending hspine hoperation htake =>
    have hnoop := isNoop_of_combines (hoperation ▸ hcombines)
    rw [List.flatMap_singleton, spineNodes_of_spine hspine hnoop, foldAll_cons,
      fold_of_takeKind_eq_none (ne_group_of_spine hspine) hoperation htake]
    rfl

/-- No clause of the operation is an empty query. -/
theorem filter_spineNodes (hcombines : combines operation = true) (query : Query) :
    query.spineNodes.filter (·.operation == operation) =
      query.spine.filter (·.operation == operation) := by
  rw [spineNodes, List.filter_filter]
  refine List.filter_congr fun node _ ↦ ?_
  cases hoperation : node.operation == operation with
  | true =>
    have hnoop := isNoop_of_combines (eq_of_beq hoperation ▸ hcombines)
    simp [hnoop]
  | false => rfl

theorem spineUnion_eq (hcombines : combines operation = true) (query : Query) :
    query.spineUnion operation = uniteAll (newClauses operation [] query.spineNodes) := by
  have hnew : newClauses operation [] query.spineNodes =
      query.spineNodes.filter (·.operation == operation) :=
    List.filter_congr fun node _ ↦ Bool.and_true _
  rw [hnew, filter_spineNodes hcombines, spineUnion]

/-- What folding the terms of a conjunction keeps along its spine, and whether it drops any. -/
theorem foldAll_spineUnion (hcombines : combines operation = true) (terms : List Query) :
    let folding := foldAll operation ((group .and terms).spineUnion operation) terms
    let nodes := (group .and terms).spineNodes
    folding.kept.flatMap spineNodes = foldedAfter operation [] nodes ∧
      folding.dropped = decide ((foldedAfter operation [] nodes).length < nodes.length) := by
  intro folding nodes
  have hfolds : Folds operation terms ((group .and terms).spineUnion operation) folding :=
    folds_foldAll operation _ terms
  have hall : ({ folding with kept := folding.kept.flatMap spineNodes } : Folding) =
      ⟨foldedAfter operation [] nodes, [],
        decide ((foldedAfter operation [] nodes).length < nodes.length)⟩ := by
    rw [← hfolds.foldAll_spineNodes hcombines, ← spineNodes_group_and, spineUnion_eq hcombines]
    exact foldAll_newClauses hcombines (fun _ hmem ↦ ne_group_of_mem_spineNodes hmem) []
  exact ⟨congrArg Folding.kept hall, congrArg Folding.dropped hall⟩

/-- Folding a query is folding the list of the nodes along its spine. -/
theorem spineNodes_foldSpine (hcombines : combines operation = true) (query : Query) :
    (query.foldSpine operation).spineNodes = foldedAfter operation [] query.spineNodes := by
  unfold foldSpine
  split
  · next terms =>
    obtain ⟨hkept, hdropped⟩ := foldAll_spineUnion hcombines terms
    dsimp only at hkept hdropped ⊢
    rw [hdropped]
    split
    · rw [spineNodes_join, hkept]
    · next hlength =>
      have hle := length_foldedAfter_le operation [] (group .and terms).spineNodes
      exact (eq_of_length_foldedAfter (by simp at hlength; omega)).symm
  · next hleaf =>
    have hspine := spine_of_ne hleaf
    cases hnoop : query.isNoop with
    | true => rw [spineNodes_of_isNoop hspine hnoop, foldedAfter]
    | false => rw [spineNodes_of_spine hspine hnoop, foldedAfter_singleton]

/-- A spine without two clauses of a kind is not folded. -/
theorem foldSpine_eq_self_of_pairwise (hcombines : combines operation = true)
    (h : (query.spineNodes.filter (·.operation == operation)).Pairwise Differs) :
    query.foldSpine operation = query := by
  unfold foldSpine
  split
  · next terms =>
    have hdropped := (foldAll_spineUnion hcombines terms).2
    dsimp only at hdropped ⊢
    rw [hdropped, foldedAfter_eq_self h fun _ _ _ ↦ rfl]
    exact if_neg (by simp)
  · rfl

/-- The clauses along a folded spine are the united ones. -/
theorem filter_foldSpine (hcombines : combines operation = true) (query : Query) :
    (query.foldSpine operation).spineNodes.filter (·.operation == operation) =
      query.spineUnion operation := by
  rw [spineNodes_foldSpine hcombines, filter_foldedAfter, spineUnion_eq hcombines]

/-- Where no clause is left there has been none, and nothing is folded. -/
theorem foldSpine_eq_self_of_filter_eq_nil (hcombines : combines operation = true)
    (h : (query.foldSpine operation).spineNodes.filter (·.operation == operation) = []) :
    query.foldSpine operation = query := by
  rw [filter_foldSpine hcombines] at h
  have hnone : query.spine.filter (·.operation == operation) = [] := by
    by_contra hsome
    exact uniteAll_ne_nil hsome h
  apply foldSpine_eq_self_of_pairwise hcombines
  rw [filter_spineNodes hcombines, hnone]
  exact List.Pairwise.nil

/-- After a folding no two clauses are of one kind. -/
theorem pairwise_foldSpine (hcombines : combines operation = true) (query : Query) :
    ((query.foldSpine operation).spineNodes.filter (·.operation == operation)).Pairwise
      Differs := by
  rw [filter_foldSpine hcombines]
  exact pairwise_uniteAll _

theorem filter_foldSpine_of_ne {other : Operation} (hcombines : combines operation = true)
    (hne : operation ≠ other) (query : Query) :
    (query.foldSpine operation).spineNodes.filter (·.operation == other) =
      query.spineNodes.filter (·.operation == other) := by
  rw [spineNodes_foldSpine hcombines, filter_foldedAfter_of_ne hne]

theorem foldSpine_foldSpine (hcombines : combines operation = true) (query : Query) :
    (query.foldSpine operation).foldSpine operation = query.foldSpine operation :=
  foldSpine_eq_self_of_pairwise hcombines (pairwise_foldSpine hcombines query)

/-- A folding of other clauses leaves a folded query folded. -/
theorem foldSpine_foldSpine_of_ne {other : Operation} (hcombines : combines operation = true)
    (hother : combines other = true) (hne : other ≠ operation) (query : Query) :
    ((query.foldSpine operation).foldSpine other).foldSpine operation =
      (query.foldSpine operation).foldSpine other := by
  apply foldSpine_eq_self_of_pairwise hcombines
  rw [filter_foldSpine_of_ne hother hne]
  exact pairwise_foldSpine hcombines query

/-! ### Clauses that are all of one kind -/

theorem pairwise_differs_iff (hkind : OneKind operation) {clauses : List Query}
    (hall : ∀ clause ∈ clauses, clause.operation = operation) :
    clauses.Pairwise Differs ↔ clauses.length ≤ 1 := by
  match clauses with
  | [] | [_] => simp
  | a :: b :: rest =>
    have hsame := hkind a b (hall a (by simp)) (hall b (by simp))
    refine iff_of_false (fun hdiffer ↦ ?_) (by simp)
    have hab := (List.pairwise_cons.mp hdiffer).1 b (by simp)
    rw [Differs, hsame] at hab
    cases hab

theorem pairwise_spineNodes_iff (hkind : OneKind operation)
    (hcombines : combines operation = true) :
    (query.spineNodes.filter (·.operation == operation)).Pairwise Differs ↔
      spineCount operation query ≤ 1 := by
  rw [pairwise_differs_iff hkind fun clause hmem ↦ eq_of_beq (List.mem_filter.mp hmem).2,
    filter_spineNodes hcombines, spineCount, List.countP_eq_length_filter]

/-- Folding other clauses leaves as many on the spine. -/
theorem spineCount_foldSpine_of_ne {other : Operation} (hcombines : combines operation = true)
    (hother : combines other = true) (hne : operation ≠ other) (query : Query) :
    spineCount other (query.foldSpine operation) = spineCount other query := by
  rw [spineCount, spineCount, List.countP_eq_length_filter, List.countP_eq_length_filter,
    ← filter_spineNodes hother, ← filter_spineNodes hother, filter_foldSpine_of_ne hcombines hne]

/-- A spine with one clause of the kind is not folded. -/
theorem foldSpine_eq_self (hkind : OneKind operation) (hcombines : combines operation = true)
    (h : spineCount operation query ≤ 1) : query.foldSpine operation = query :=
  foldSpine_eq_self_of_pairwise hcombines ((pairwise_spineNodes_iff hkind hcombines).mpr h)

/-- Folding leaves at most one clause of the kind on the spine. -/
theorem spineCount_foldSpine_le (hkind : OneKind operation) (hcombines : combines operation = true)
    (query : Query) : spineCount operation (query.foldSpine operation) ≤ 1 :=
  (pairwise_spineNodes_iff hkind hcombines).mp (pairwise_foldSpine hcombines query)

/-! ### Finished queries -/

/-- A query is finished: there is no conflict in it, and folding changes nothing. -/
theorem finish_eq_self {options : ReadOptions} (hconflict : query.conflict? = none)
    (hselect : options.consolidate = true → spineCount (.clause .select) query ≤ 1)
    (hsort : options.consolidate = true → spineCount (.clause .sort) query ≤ 1) :
    finish options query = .ok query := by
  rw [finish, validate, hconflict]
  cases hconsolidate : options.consolidate with
  | false => rfl
  | true =>
    change Except.ok ((query.foldSpine _).foldSpine _) = _
    rw [foldSpine_eq_self oneKind_select rfl (hselect hconsolidate),
      foldSpine_eq_self oneKind_sort rfl (hsort hconsolidate)]

theorem finish_eq_ok {options : ReadOptions} {finished : Query}
    (h : finish options query = .ok finished) : query.conflict? = none ∧
      finished = if options.consolidate then
        (query.foldSpine (.clause .select)).foldSpine (.clause .sort) else query := by
  rw [finish, validate] at h
  cases hconflict : query.conflict? with
  | some conflict =>
    rw [hconflict] at h
    cases h
  | none =>
    rw [hconflict] at h
    cases hconsolidate : options.consolidate <;>
      · simp only [hconsolidate] at h
        cases h
        exact ⟨rfl, rfl⟩

/-- A comparison is what has been parsed. -/
theorem eq_of_finish_compare {options : ReadOptions} {op : Comparison} {property : Property}
    {value : Value} (h : finish options query = .ok (compare op property value)) :
    query = compare op property value := by
  obtain ⟨-, hfinished⟩ := finish_eq_ok h
  split at hfinished
  · have hsort : (query.foldSpine (.clause .select)).foldSpine (.clause .sort) =
        query.foldSpine (.clause .select) :=
      foldSpine_eq_self_of_filter_eq_nil rfl (by rw [← hfinished]; rfl)
    rw [hsort] at hfinished
    have hselect : query.foldSpine (.clause .select) = query :=
      foldSpine_eq_self_of_filter_eq_nil rfl (by rw [← hfinished]; rfl)
    rw [hfinished, hselect]
  · exact hfinished.symm

/-- Finishing adds nothing. -/
theorem lighter_of_finish {options : ReadOptions} {finished : Query}
    (h : finish options query = .ok finished) : Lighter finished query := by
  obtain ⟨-, rfl⟩ := finish_eq_ok h
  split
  · exact (lighter_foldSpine _ _).trans (lighter_foldSpine _ _)
  · exact .refl query

theorem conflict?_of_finish {options : ReadOptions} {finished : Query}
    (h : finish options query = .ok finished) : finished.conflict? = none :=
  (lighter_of_finish h).conflict?_eq_none (finish_eq_ok h).1

/-- A query that is equal to a finished one is finished itself. -/
theorem finish_of_same {options : ReadOptions} {finished again : Query}
    (h : finish options query = .ok finished) (hsame : (again == finished) = true) :
    finish options again = .ok again := by
  have hconflict := conflict?_of_finish h
  obtain ⟨-, rfl⟩ := finish_eq_ok h
  have hcount (operation : Operation) := (alike_spine hsame).countP_eq
    (P := fun node ↦ node.operation == operation)
    fun a b hab ↦ by rw [operation_eq_of_same hab]
  apply finish_eq_self
  · exact (lighter_of_same hsame).conflict?_eq_none hconflict
  · intro hconsolidate
    rw [if_pos hconsolidate] at hcount
    rw [spineCount, hcount, ← spineCount, spineCount_foldSpine_of_ne rfl rfl (by decide)]
    exact spineCount_foldSpine_le oneKind_select rfl query
  · intro hconsolidate
    rw [if_pos hconsolidate] at hcount
    rw [spineCount, hcount]
    exact spineCount_foldSpine_le oneKind_sort rfl _

theorem wellFormed_of_finish {options : ReadOptions} {finished : Query} (hquery : query.WellFormed)
    (h : finish options query = .ok finished) : finished = noop ∨ finished.WellFormed := by
  obtain ⟨-, rfl⟩ := finish_eq_ok h
  split
  · obtain hnoop | hselected := inherited_wellFormed.foldSpine hquery (.clause .select)
    · rw [hnoop]
      exact .inl rfl
    · exact inherited_wellFormed.foldSpine hselected _
  · exact .inr hquery

/-! ### Trees without empty queries -/

theorem spineNodes_eq_spine (h : noop ∉ query.spine) : query.spineNodes = query.spine := by
  rw [spineNodes, List.filter_eq_self]
  intro node hmem
  cases node <;> first | rfl | exact absurd hmem h

theorem noop_notMem_spine_join {queries : List Query} (hne : queries ≠ [])
    (h : noop ∉ queries.flatMap spine) : noop ∉ (join .and queries).spine := by
  unfold join
  split
  · exact absurd rfl hne
  · rwa [List.flatMap_singleton] at h
  · rwa [spine_group_and]

/-- A conjunction that is left without terms leaves nothing behind, so no empty query arises. -/
theorem Folds.noop_notMem (h : Folds operation terms pending folding)
    (hterms : noop ∉ terms.flatMap spine) : noop ∉ folding.kept.flatMap spine := by
  induction h with
  | nil => exact hterms
  | cons _ _ ihfirst ihrest =>
    rw [List.flatMap_cons, List.mem_append, not_or] at hterms
    rw [List.flatMap_append, List.mem_append, not_or]
    exact ⟨ihfirst (by rw [List.flatMap_singleton]; exact hterms.1), ihrest hterms.2⟩
  | @rejoined terms pending kept left _ ih =>
    rw [List.flatMap_singleton, spine_group_and] at hterms
    rintro hmem
    obtain ⟨term, hterm, hnoop⟩ := List.mem_flatMap.mp hmem
    obtain ⟨hterm, hempty⟩ := List.mem_filter.mp hterm
    obtain rfl := List.mem_singleton.mp hterm
    refine noop_notMem_spine_join ?_ (ih hterms) hnoop
    rintro rfl
    cases hempty
  | unchanged _ ih =>
    rw [List.flatMap_singleton, spine_group_and] at hterms ⊢
    exact ih hterms
  | other => exact hterms
  | replaced _ _ htake =>
    have hkind := (takeKind_eq_some htake).1
    rw [List.flatMap_singleton, (spine_of_sameKind hkind).1, List.mem_singleton]
    rintro rfl
    cases hkind
  | dropped => exact List.not_mem_nil

theorem noop_notMem_spine_foldSpine (hcombines : combines operation = true)
    (h : noop ∉ query.spine) : noop ∉ (query.foldSpine operation).spine := by
  unfold foldSpine
  split
  · next terms =>
    obtain ⟨hkept, hdropped⟩ := foldAll_spineUnion hcombines terms
    have hfolds := folds_foldAll operation ((group .and terms).spineUnion operation) terms
    have hnoop := hfolds.noop_notMem (by rwa [← spine_group_and])
    dsimp only at hkept hdropped ⊢
    split
    · next hsome =>
      refine noop_notMem_spine_join ?_ hnoop
      intro hnone
      rw [hnone] at hkept
      -- Only a list with nodes gets shorter, and the first of them stays.
      rw [hdropped, ← hkept, decide_eq_true_eq] at hsome
      exact foldedAfter_ne_nil (List.ne_nil_of_length_pos hsome) hkept.symm
    · exact h
  · exact h

theorem spine_foldSpine (hcombines : combines operation = true) (h : noop ∉ query.spine) :
    (query.foldSpine operation).spine = foldedAfter operation [] query.spine := by
  have hfolded := noop_notMem_spine_foldSpine hcombines h
  rw [← spineNodes_eq_spine h, ← spineNodes_eq_spine hfolded, spineNodes_foldSpine hcombines]

theorem mem_preorder_of_mem_spine {node : Query} (h : node ∈ query.spine) :
    node ∈ query.preorder := by
  induction query using nodes_induction with
  | h query ih =>
    by_cases hgroup : ∃ terms, query = group .and terms
    · obtain ⟨terms, rfl⟩ := hgroup
      rw [spine_group_and] at h
      obtain ⟨term, hterm, hnode⟩ := List.mem_flatMap.mp h
      rw [preorder_eq_cons]
      exact List.mem_cons_of_mem _ (List.mem_flatMap.mpr ⟨term, hterm, ih term hterm hnode⟩)
    · rw [spine_of_ne (not_exists.mp hgroup), List.mem_singleton] at h
      rw [h]
      exact mem_preorder_self query

/-! ### Consolidated queries -/

theorem combines_iff : combines operation = true ↔
    operation ∈ [.clause .select, .clause .sort, .clause (.membership .among),
      .clause (.membership .outside)] := by
  unfold combines
  split
  · simp
  · simp
  · next op => cases op <;> simp
  · next hselect hsort hmembership => simpa using ⟨hselect, hsort, hmembership _, hmembership _⟩

theorem consolidate_of_combines (hcombines : combines operation = true) (query : Query) :
    query.consolidate operation = .ok (query.foldSpine operation) :=
  if_pos hcombines

/-- If no query below the root is empty, then only a root that is empty itself has an empty query on
its spine. -/
theorem spine_foldSpine_of_below (hcombines : combines operation = true)
    (h : noop ∉ query.nodes.flatMap preorder) :
    (query.foldSpine operation).spine = foldedAfter operation [] query.spine := by
  cases hnoop : query.isNoop with
  | true =>
    cases query <;> cases hnoop
    exact (foldedAfter_singleton noop).symm
  | false =>
    refine spine_foldSpine hcombines fun hmem ↦ ?_
    have hpreorder := mem_preorder_of_mem_spine hmem
    rw [preorder_eq_cons] at hpreorder
    obtain rfl | hbelow := List.mem_cons.mp hpreorder
    · cases hnoop
    · exact h hbelow

/-- Consolidation folds the list of the nodes along the spine, and once it has, it changes nothing
any more; neither do both consolidations of a reader after it. Only list clauses are
consolidated. -/
theorem consolidate_folds_spine (query : Query) (h : noop ∉ query.nodes.flatMap preorder) :
    (∀ operation ∈ [Operation.clause .select, .clause .sort, .clause (.membership .among),
        .clause (.membership .outside)],
      ∃ folded, query.consolidate operation = .ok folded ∧
        folded.spine = foldedAfter operation [] query.spine ∧
        folded.consolidate operation = .ok folded) ∧
    (∃ selected sorted, query.consolidate (.clause .select) = .ok selected ∧
      selected.consolidate (.clause .sort) = .ok sorted ∧
      sorted.consolidate (.clause .select) = .ok sorted ∧
      sorted.consolidate (.clause .sort) = .ok sorted ∧
      ∀ (options : ReadOptions) (finished : Query), options.consolidate = true →
        finish options query = .ok finished → finished = sorted) ∧
    ∀ operation ∉ [Operation.clause .select, .clause .sort, .clause (.membership .among),
        .clause (.membership .outside)],
      query.consolidate operation = .error (.notFoldable operation) ∧
        (query.consolidate operation).toOption.getD query = query := by
  refine ⟨fun operation hlist ↦ ?_, ?_, fun operation hlist ↦ ?_⟩
  · have hcombines := combines_iff.mpr hlist
    refine ⟨query.foldSpine operation, consolidate_of_combines hcombines query,
      spine_foldSpine_of_below hcombines h, ?_⟩
    rw [consolidate_of_combines hcombines, foldSpine_foldSpine hcombines]
  · refine ⟨query.foldSpine (.clause .select),
      (query.foldSpine (.clause .select)).foldSpine (.clause .sort), rfl, rfl, ?_, ?_, ?_⟩
    · rw [consolidate_of_combines rfl, foldSpine_foldSpine_of_ne rfl rfl (by decide)]
    · rw [consolidate_of_combines rfl, foldSpine_foldSpine rfl]
    · intro options finished hoptions hfinish
      obtain ⟨-, rfl⟩ := finish_eq_ok hfinish
      exact if_pos hoptions
  · have hcombines : ¬combines operation = true := fun hcombines ↦
      hlist (combines_iff.mp hcombines)
    have herror : query.consolidate operation = .error (.notFoldable operation) :=
      if_neg hcombines
    exact ⟨herror, by rw [herror]; rfl⟩

/-- The lists of one property are folded out of nested conjunctions, of which one is left with a
single term and one with none, while the disjunction keeps its own. -/
theorem consolidate_folds_spine_nested :
    let query := group .and [
      group .and [membership .among ⟨["a"]⟩ [.bool true], distinct],
      group .or [membership .among ⟨["a"]⟩ [.null], first],
      group .and [membership .among ⟨["A"]⟩ [.bool true, .bool false], one],
      group .and [membership .among ⟨["a"]⟩ [.null], membership .among ⟨["b"]⟩ [.null]],
      group .and [membership .among ⟨["b"]⟩ [.bool true]]]
    let folded := group .and [
      group .and [membership .among ⟨["a"]⟩ [.bool true, .bool false, .null], distinct],
      group .or [membership .among ⟨["a"]⟩ [.null], first], one,
      membership .among ⟨["b"]⟩ [.null, .bool true]]
    noop ∉ query.nodes.flatMap preorder ∧
      query.consolidate (.clause (.membership .among)) = .ok folded ∧
      folded.spine = foldedAfter (.clause (.membership .among)) [] query.spine ∧
      folded.consolidate (.clause (.membership .among)) = .ok folded := by
  intro query folded
  have hnoop : noop ∉ query.nodes.flatMap preorder := by
    simp [query, nodes, preorder, preorderAll]
  obtain ⟨result, hresult, hspine, hagain⟩ :=
    (consolidate_folds_spine query hnoop).1 (.clause (.membership .among)) (by decide)
  have hfolded : query.consolidate (.clause (.membership .among)) = .ok folded := by rfl
  obtain rfl := Except.ok.inj (hfolded.symm.trans hresult)
  exact ⟨hnoop, hfolded, hspine, hagain⟩

end ResourceQuery.Query
