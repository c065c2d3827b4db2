import Mathlib.Order.Compare
import ResourceQuery.Proofs.MergedLists
import ResourceQuery.Proofs.SpineFolding

/-!
# What folded lists mean

The sort clauses along the spine order records lexicographically, and the select clauses along it
name properties. A key on a property that a key before it has named already decides nothing,
whatever its direction, so folding the sort clauses leaves the order of records as it is, and
folding the select clauses leaves the named properties. A merge takes clauses off both spines and
puts their union behind everything else; it orders records by the keys of the first query and then
by those of the second.
-/

namespace ResourceQuery

/-- A total preorder of the records for each property. Equal properties order them alike. -/
structure Ranking (Record : Type*) where
  compare : Property → Record → Record → Ordering
  isTotalPreorder (property : Property) : Std.TransCmp (compare property)
  congr {p q : Property} (h : (p == q) = true) : compare p = compare q

namespace Ranking

variable {Record : Type*} (ranking : Ranking Record)

/-- How a sort key orders two records. -/
def compareByKey (key : SortKey) (r s : Record) : Ordering :=
  match key.order with
  | .ascending => ranking.compare key.property r s
  | .descending => (ranking.compare key.property r s).swap

/-- How sort keys order two records: by the first key that tells them apart. -/
def compareByKeys : List SortKey → Record → Record → Ordering
  | [], _, _ => .eq
  | key :: rest, r, s => (ranking.compareByKey key r s).then (compareByKeys rest r s)

/-- Pairs of numbers, of which the first one counts for the property `x` and the second one for all
others. -/
def ofPairs : Ranking (Nat × Nat) where
  compare property r s :=
    if property == ⟨["x"]⟩ then Ord.compare r.1 s.1 else Ord.compare r.2 s.2
  isTotalPreorder property := by
    split
    · exact inferInstanceAs (Std.TransCmp fun r s : Nat × Nat ↦ compareOn Prod.fst r s)
    · exact inferInstanceAs (Std.TransCmp fun r s : Nat × Nat ↦ compareOn Prod.snd r s)
  congr h := by
    funext r s
    rw [BEq.congr_left h]

variable {ranking} {r s : Record}

theorem compareByKey_eq_iff {key : SortKey} :
    ranking.compareByKey key r s = .eq ↔ ranking.compare key.property r s = .eq := by
  unfold compareByKey
  split
  · exact Iff.rfl
  · exact Ordering.swap_eq_eq

theorem compareByKeys_append (keys more : List SortKey) :
    ranking.compareByKeys (keys ++ more) r s =
      (ranking.compareByKeys keys r s).then (ranking.compareByKeys more r s) := by
  induction keys with
  | nil => rfl
  | cons key rest ih => rw [List.cons_append, compareByKeys, compareByKeys, ih, Ordering.then_assoc]

/-- Records that some keys do not tell apart are equal under each property of these. -/
theorem compare_eq_of_any {keys : List SortKey} {property : Property}
    (hany : keys.any (·.property == property) = true)
    (h : ranking.compareByKeys keys r s = .eq) : ranking.compare property r s = .eq := by
  induction keys with
  | nil => cases hany
  | cons key rest ih =>
    rw [compareByKeys, Ordering.then_eq_eq] at h
    rw [List.any_cons, Bool.or_eq_true] at hany
    obtain hkey | hrest := hany
    · rw [← ranking.congr hkey]
      exact compareByKey_eq_iff.mp h.1
    · exact ih hrest h.2

/-- A key on a property that keys before it have named decides nothing. -/
theorem compareByKeys_of_any {keys : List SortKey} {key : SortKey}
    (hany : keys.any (·.property == key.property) = true) (rest : List SortKey) :
    ranking.compareByKeys (keys ++ key :: rest) r s = ranking.compareByKeys (keys ++ rest) r s := by
  rw [compareByKeys_append, compareByKeys_append, compareByKeys]
  cases hkeys : ranking.compareByKeys keys r s with
  | eq => rw [compareByKey_eq_iff.mpr (compare_eq_of_any hany hkeys)]; rfl
  | lt => rfl
  | gt => rfl

theorem compareByKeys_appendNew (held more rest : List SortKey) :
    ranking.compareByKeys
        (Query.appendNew (fun a b ↦ a.property == b.property) held more ++ rest) r s =
      ranking.compareByKeys (held ++ (more ++ rest)) r s := by
  induction more generalizing held with
  | nil => rfl
  | cons key others ih =>
    rw [Query.appendNew, ih]
    split
    · next hany => exact (compareByKeys_of_any hany (others ++ rest)).symm
    · rw [List.append_assoc]
      rfl

end Ranking

namespace Query

variable {α β : Type*} {operation : Operation} {entries : Query → List α} {meaning : List α → β}

/-! ### Clauses that mean a list of entries -/

/-- The clauses of an operation are of one kind and hold entries, and a clause that takes up another
one means what both mean together. -/
structure IsMeaning (operation : Operation) (entries : Query → List α) (meaning : List α → β) :
    Prop where
  oneKind : OneKind operation
  of_ne {query : Query} (h : query.operation ≠ operation) : entries query = []
  absorb {a b : Query} (ha : a.operation = operation) (hb : b.operation = operation)
    (rest : List α) : meaning (entries (a.absorb b) ++ rest) =
      meaning (entries a ++ (entries b ++ rest))

theorem IsMeaning.flatMap_filter (h : IsMeaning operation entries meaning) (nodes : List Query) :
    (nodes.filter (·.operation == operation)).flatMap entries = nodes.flatMap entries := by
  induction nodes with
  | nil => rfl
  | cons node rest ih =>
    by_cases hoperation : node.operation = operation
    · rw [List.filter_cons_of_pos (by simpa using hoperation), List.flatMap_cons,
        List.flatMap_cons, ih]
    · rw [List.filter_cons_of_neg (by simpa using hoperation), List.flatMap_cons,
        h.of_ne hoperation, List.nil_append, ih]

theorem IsMeaning.foldl_absorb (h : IsMeaning operation entries meaning) {clause : Query}
    {clauses : List Query} (hclause : clause.operation = operation)
    (hclauses : ∀ other ∈ clauses, other.operation = operation) (rest : List α) :
    meaning (entries (clauses.foldl Query.absorb clause) ++ rest) =
      meaning (entries clause ++ (clauses.flatMap entries ++ rest)) := by
  induction clauses generalizing clause with
  | nil => rfl
  | cons other others ih =>
    rw [List.forall_mem_cons] at hclauses
    rw [List.foldl_cons, ih ((operation_absorb _ _).trans hclause) hclauses.2,
      h.absorb hclause hclauses.1, List.flatMap_cons, List.append_assoc]

theorem filter_unite (held : List Query) (clause : Query) :
    (unite held clause).filter (·.operation == operation) =
      if clause.operation = operation then unite (held.filter (·.operation == operation)) clause
      else held.filter (·.operation == operation) := by
  induction held with
  | nil =>
    rw [unite, List.filter_cons]
    simp [unite]
  | cons head rest ih =>
    rw [unite]
    cases hkind : head.sameKind clause with
    | true =>
      have hsame := operation_eq_of_sameKind hkind
      rw [if_pos rfl, List.filter_cons, List.filter_cons, operation_absorb, hsame]
      split
      · next hclause => rw [if_pos (by simpa using hclause), unite, if_pos hkind]
      · next hclause => rw [if_neg (by simpa using hclause)]
    | false =>
      rw [if_neg (by decide), List.filter_cons, List.filter_cons, ih]
      split
      · split
        · rw [unite, if_neg (by simp [hkind])]
        · rfl
      · rfl

theorem filter_uniteAll (clauses : List Query) :
    (uniteAll clauses).filter (·.operation == operation) =
      uniteAll (clauses.filter (·.operation == operation)) := by
  have hfold (held : List Query) :
      (clauses.foldl unite held).filter (·.operation == operation) =
        (clauses.filter (·.operation == operation)).foldl unite
          (held.filter (·.operation == operation)) := by
    induction clauses generalizing held with
    | nil => rfl
    | cons clause rest ih =>
      rw [List.foldl_cons, ih, filter_unite, List.filter_cons]
      split
      · next hclause => rw [if_pos (by simpa using hclause), List.foldl_cons]
      · next hclause => rw [if_neg (by simpa using hclause)]
  exact hfold []

/-- United clauses mean what they all mean together. -/
theorem IsMeaning.uniteAll (h : IsMeaning operation entries meaning) (clauses : List Query) :
    meaning ((Query.uniteAll clauses).flatMap entries) = meaning (clauses.flatMap entries) := by
  rw [← h.flatMap_filter, filter_uniteAll, ← h.flatMap_filter clauses]
  have hall (node : Query) (hmem : node ∈ clauses.filter (·.operation == operation)) :
      node.operation = operation := eq_of_beq (List.mem_filter.mp hmem).2
  generalize clauses.filter (·.operation == operation) = listed at hall
  cases listed with
  | nil => rfl
  | cons clause rest =>
    rw [List.forall_mem_cons] at hall
    have hkind (other : Query) (hmem : other ∈ rest) : clause.sameKind other = true :=
      h.oneKind clause other hall.1 (hall.2 other hmem)
    have htaken : rest.filter clause.sameKind = rest := List.filter_eq_self.mpr hkind
    have hleft : rest.filter (!clause.sameKind ·) = [] :=
      List.filter_eq_nil_iff.mpr fun other hmem ↦ by simp [hkind other hmem]
    rw [uniteAll_cons, htaken, hleft]
    rw [List.flatMap_cons, List.flatMap_cons, ← List.append_nil (rest.flatMap entries)]
    exact h.foldl_absorb hall.1 hall.2 []

/-! ### Folded spines -/

/-- What the nodes along the spine hold. -/
def along (entries : Query → List α) (query : Query) : List α :=
  query.spine.flatMap entries

namespace IsMeaning

theorem noop (h : IsMeaning operation entries meaning) : entries noop = [] :=
  h.of_ne h.oneKind.ne_noop

theorem along_eq_spineNodes (h : IsMeaning operation entries meaning) (query : Query) :
    along entries query = query.spineNodes.flatMap entries := by
  rw [along, spineNodes]
  induction query.spine with
  | nil => rfl
  | cons node rest ih =>
    cases hnoop : node.isNoop with
    | true =>
      cases node <;> cases hnoop
      rw [List.flatMap_cons, h.noop, List.nil_append, ih]
      rfl
    | false =>
      rw [List.filter_cons_of_pos (by simp [hnoop]), List.flatMap_cons, List.flatMap_cons, ih]

/-- Folding leaves what the clauses along the spine mean. -/
theorem along_foldSpine (h : IsMeaning operation entries meaning)
    (hcombines : combines operation = true) (query : Query) :
    meaning (along entries (query.foldSpine operation)) = meaning (along entries query) := by
  rw [h.along_eq_spineNodes, ← h.flatMap_filter, filter_foldSpine hcombines, spineUnion,
    h.uniteAll, h.flatMap_filter, along]

/-! ### Merged queries -/

theorem along_join (h : IsMeaning operation entries meaning) (queries : List Query) :
    along entries (join .and queries) = queries.flatMap (along entries) := by
  unfold join
  split
  · exact (List.flatMap_singleton ..).trans h.noop
  · rw [List.flatMap_singleton]
  · rw [along, spine_group_and, List.flatMap_assoc]
    rfl

theorem along_of_spineCount (h : IsMeaning operation entries meaning) {query : Query}
    (hcount : spineCount operation query = 0) : along entries query = [] := by
  rw [spineCount, List.countP_eq_length_filter, List.length_eq_zero_iff] at hcount
  rw [along, ← h.flatMap_filter, hcount]
  rfl

end IsMeaning

/-- All clauses of the operation are on the spine. -/
def OnSpine (operation : Operation) (query : Query) : Prop :=
  query.preorder.filter (·.operation == operation) = query.spine.filter (·.operation == operation)

/-- No term of a disjunction has a clause of the operation if all are on the spine. -/
theorem OnSpine.or_terms (hlisting : IsListing operation) {terms : List Query}
    (h : OnSpine operation (group .or terms)) :
    ∀ term ∈ terms, ∀ node ∈ term.preorder, node.operation ≠ operation := by
  intro term hterm node hnode hoperation
  have hbelow : node ∈ (group .or terms).preorder := by
    rw [preorder_eq_cons]
    exact List.mem_cons_of_mem _ (List.mem_flatMap.mpr ⟨term, hterm, hnode⟩)
  have hmem : node ∈ (group .or terms).spine.filter (·.operation == operation) :=
    h ▸ List.mem_filter.mpr ⟨hbelow, by simpa using hoperation⟩
  obtain rfl := List.mem_singleton.mp (List.mem_filter.mp hmem).1
  have hshaping := hlisting.isShaping hoperation
  cases hshaping

/-- Taking a query apart takes all clauses off its spine, in their order. -/
theorem OnSpine.filter_clauses (hlisting : IsListing operation) {query : Query}
    (h : OnSpine operation query) :
    query.partRoot.clauses.filter (·.operation == operation) =
      query.spine.filter (·.operation == operation) := by
  cases query with
  | group joiner terms =>
    cases joiner with
    | and =>
      rw [spine_group_and]
      exact filter_clauses_partTerms hlisting terms
    | or =>
      have hterms := h.or_terms hlisting
      have hroot : (group .or terms).spine.filter (·.operation == operation) = [] :=
        List.filter_eq_nil_iff.mpr fun node hmem ↦ by
          obtain rfl := List.mem_singleton.mp hmem
          intro hoperation
          cases hlisting.isShaping (eq_of_beq hoperation)
      rw [hroot, List.filter_eq_nil_iff]
      intro term hmem
      have hterm := hterms term (List.mem_filter.mp hmem).1 term (mem_preorder_self term)
      simpa using hterm
  | _ =>
    rw [partRoot_of_ne (by simp)]
    exact filter_clauses_partTerm hlisting _

theorem OnSpine.bared (hlisting : IsListing operation) {query : Query}
    (h : OnSpine operation query) : bared operation query = 0 := by
  unfold Query.bared
  split
  · next terms =>
    split
    · next term hterm =>
      have hmem : term ∈ terms.filter (!·.isShaping) := hterm ▸ List.mem_singleton_self term
      have hnone := h.or_terms hlisting term (List.mem_filter.mp hmem).1
      rw [spineCount, List.countP_eq_zero]
      exact fun node hnode ↦ by simpa using hnone node (mem_preorder_of_mem_spine hnode)
    · rfl
  · rfl

/-- What a conjunction holds along its spine means what both queries hold along theirs. -/
theorem IsMeaning.along_conjoin (h : IsMeaning operation entries meaning)
    (hlisting : IsListing operation) {a b : Query} (ha : OnSpine operation a)
    (hb : OnSpine operation b) :
    meaning (along entries (conjoin a b)) = meaning (along entries a ++ along entries b) := by
  have hkept (query : Query) (hquery : OnSpine operation query) :
      query.partRoot.kept.flatMap (along entries) = [] := by
    have hcount := kept_partRoot hlisting query
    rw [hquery.bared hlisting, termsCount, List.sum_eq_zero_iff] at hcount
    rw [List.flatMap_eq_nil_iff]
    exact fun term hmem ↦ h.along_of_spineCount (hcount _ (List.mem_map_of_mem hmem))
  have hleaf : ∀ clause ∈ Query.uniteAll (a.partRoot ++ b.partRoot).clauses,
      along entries clause = entries clause := by
    refine forall_uniteAll (fun clause hmem ↦ ?_) fun c d _ _ hkind ↦ ?_
    · rw [clauses_append] at hmem
      have hspine := (List.mem_append.mp hmem).elim spine_of_mem_clauses spine_of_mem_clauses
      rw [along, hspine, List.flatMap_singleton]
    · rw [along, spine_absorb hkind, List.flatMap_singleton]
  have hclauses : (a.partRoot ++ b.partRoot).clauses.flatMap entries =
      along entries a ++ along entries b := by
    rw [← h.flatMap_filter, clauses_append, List.filter_append, ha.filter_clauses hlisting,
      hb.filter_clauses hlisting, List.flatMap_append, h.flatMap_filter, h.flatMap_filter]
    rfl
  rw [conjoin, h.along_join, List.flatMap_append, kept_append, List.flatMap_append, hkept a ha,
    hkept b hb, List.flatMap_congr hleaf, ← hclauses]
  exact h.uniteAll _

/-- So does a merged query: of an empty query nothing is lost. -/
theorem IsMeaning.along_merge (h : IsMeaning operation entries meaning)
    (hlisting : IsListing operation) {a b merged : Query} (ha : OnSpine operation a)
    (hb : OnSpine operation b) (hmerge : merge a b = .ok merged) :
    meaning (along entries merged) = meaning (along entries a ++ along entries b) := by
  have hempty (query : Query) (hnoop : query.isNoop = true) : along entries query = [] := by
    cases query <;> cases hnoop
    exact (List.flatMap_singleton ..).trans h.noop
  cases hnoopb : b.isNoop with
  | true =>
    rw [merge, if_pos hnoopb] at hmerge
    cases hmerge
    rw [hempty b hnoopb, List.append_nil]
  | false =>
    cases hnoopa : a.isNoop with
    | true =>
      rw [merge, hnoopb, hnoopa] at hmerge
      cases hmerge
      rw [hempty a hnoopa, List.nil_append]
    | false =>
      rw [merge_eq_ok hnoopa hnoopb hmerge]
      exact h.along_conjoin hlisting ha hb

/-! ### Sort and select clauses -/

/-- The keys of a sort clause. -/
def keys : Query → List SortKey
  | sort keys => keys
  | _ => []

/-- The keys of all sort clauses along the spine. -/
def sortKeys (query : Query) : List SortKey :=
  along keys query

/-- The properties of a select clause. -/
def selected : Query → List Property
  | select properties => properties
  | _ => []

/-- A select clause along the spine names the property. -/
def selectsOnSpine (query : Query) (property : Property) : Bool :=
  (along selected query).any (· == property)

variable {Record : Type*}

theorem isMeaning_sort (ranking : Ranking Record) :
    IsMeaning (.clause .sort) keys ranking.compareByKeys where
  oneKind := oneKind_sort
  of_ne {query} h := by
    cases query <;> first | rfl | exact absurd rfl h
  absorb {a b} ha hb rest := by
    cases a <;> cases ha
    cases b <;> cases hb
    funext r s
    exact Ranking.compareByKeys_appendNew _ _ _

theorem isMeaning_select :
    IsMeaning (.clause .select) selected
      fun properties property ↦ properties.any (· == property) where
  oneKind := oneKind_select
  of_ne {query} h := by
    cases query <;> first | rfl | exact absurd rfl h
  absorb {a b} ha hb rest := by
    cases a <;> cases ha
    cases b <;> cases hb
    funext property
    have hany (p q : Property) (h : (p == q) = true) : (p == property) = (q == property) :=
      BEq.congr_left h
    rw [List.any_append, List.any_append, List.any_append, ← Bool.or_assoc]
    exact congrArg (· || _) (any_appendNew hany _ _)

/-- Consolidation leaves the order of records and the selected properties as they are, and a merged
query orders records by the keys of the first query and then by those of the second. -/
theorem consolidate_and_merge_keep_order (ranking : Ranking Record) :
    (∀ query : Query, ∃ folded, query.consolidate (.clause .sort) = .ok folded ∧
      ∀ r s, ranking.compareByKeys folded.sortKeys r s =
        ranking.compareByKeys query.sortKeys r s) ∧
    (∀ query : Query, ∃ folded, query.consolidate (.clause .select) = .ok folded ∧
      ∀ property, folded.selectsOnSpine property = query.selectsOnSpine property) ∧
    ∀ a b merged : Query, merge a b = .ok merged →
      OnSpine (.clause .sort) a → OnSpine (.clause .sort) b →
      ∀ r s, ranking.compareByKeys merged.sortKeys r s =
        (ranking.compareByKeys a.sortKeys r s).then (ranking.compareByKeys b.sortKeys r s) := by
  refine ⟨fun query ↦ ⟨query.foldSpine (.clause .sort), rfl, fun r s ↦ ?_⟩,
    fun query ↦ ⟨query.foldSpine (.clause .select), rfl, fun property ↦ ?_⟩,
    fun a b merged h ha hb r s ↦ ?_⟩
  · exact congrFun₂ ((isMeaning_sort ranking).along_foldSpine rfl query) r s
  · exact congrFun (isMeaning_select.along_foldSpine rfl query) property
  · rw [← Ranking.compareByKeys_append]
    exact congrFun₂ ((isMeaning_sort ranking).along_merge isListing_sort ha hb h) r s

/-- The descending key on a property that the first query sorts by is dropped, and the key behind it
decides. -/
theorem consolidate_and_merge_keep_order_descending :
    let a := group .and [compare .ne ⟨["y"]⟩ .null, sort [⟨.ascending, ⟨["x"]⟩⟩]]
    let b := sort [⟨.descending, ⟨["X"]⟩⟩, ⟨.ascending, ⟨["y"]⟩⟩]
    let merged := group .and [compare .ne ⟨["y"]⟩ .null,
      sort [⟨.ascending, ⟨["x"]⟩⟩, ⟨.ascending, ⟨["y"]⟩⟩]]
    OnSpine (.clause .sort) a ∧ OnSpine (.clause .sort) b ∧ merge a b = .ok merged ∧
      Ranking.ofPairs.compareByKeys merged.sortKeys (1, 2) (1, 3) =
        (Ranking.ofPairs.compareByKeys a.sortKeys (1, 2) (1, 3)).then
          (Ranking.ofPairs.compareByKeys b.sortKeys (1, 2) (1, 3)) := by
  intro a b merged
  have ha : OnSpine (.clause .sort) a := rfl
  have hb : OnSpine (.clause .sort) b := rfl
  have hmerge : merge a b = .ok merged := by cbv
  exact ⟨ha, hb, hmerge,
    (consolidate_and_merge_keep_order Ranking.ofPairs).2.2 a b merged hmerge ha hb (1, 2) (1, 3)⟩

end Query

end ResourceQuery
