import ResourceQuery.Proofs.SpineFolding

/-!
# Folding in two passes

The clauses of a spine can also be folded in two passes. The first one drops every clause of a kind
that it has met before and lets the one met take it up; the second one puts the united clauses back
in place of those they started from. On the way back the clauses that wait are not kept in order,
but no two of them are of one kind, so that each place has one clause to wait for. What comes out is
the query that `foldSpine` gives.
-/

namespace ResourceQuery.Query

mutual

/-- The first pass. What is pending are the clauses met, one of each kind. -/
def gather (operation : Operation) (met : List Query) : Query → Folding
  | group .and terms =>
    let inner := gatherAll operation met terms
    if inner.dropped then
      ⟨[join .and inner.kept].filter (!·.isNoop), inner.pending, true⟩
    else ⟨[group .and inner.kept], inner.pending, false⟩
  | query =>
    if query.operation = operation then
      if met.any (·.sameKind query) then ⟨[], unite met query, true⟩
      else ⟨[query], met ++ [query], false⟩
    else ⟨[query], met, false⟩

def gatherAll (operation : Operation) (met : List Query) : List Query → Folding
  | [] => ⟨[], met, false⟩
  | query :: rest =>
    let first := gather operation met query
    let others := gatherAll operation first.pending rest
    ⟨first.kept ++ others.kept, others.pending, first.dropped || others.dropped⟩

end

/-- The clauses without the one at a place, which the last one takes. -/
def swapRemove (clauses : List Query) (place : Nat) : List Query :=
  match clauses.getLast? with
  | some last => (clauses.set place last).dropLast
  | none => []

/-- The first pending clause that is of one kind with another, and the clauses without it. -/
def swapOut (clause : Query) (pending : List Query) : Option (Query × List Query) := do
  let place ← pending.findIdx? (·.sameKind clause)
  let found ← pending[place]?
  return (found, swapRemove pending place)

mutual

/-- The second pass, with the clauses that still wait for their place. -/
def restore (pending : List Query) : Query → Query × List Query
  | group .and terms =>
    let (terms, left) := restoreAll pending terms
    (group .and terms, left)
  | query => (swapOut query pending).getD (query, pending)

def restoreAll (pending : List Query) : List Query → List Query × List Query
  | [] => ([], pending)
  | query :: rest =>
    if pending.isEmpty then (query :: rest, pending)
    else
      let (query, left) := restore pending query
      let (others, left) := restoreAll left rest
      (query :: others, left)

end

/-- Folds the clauses of an operation in two passes. -/
def foldInPasses (operation : Operation) : Query → Query
  | group .and terms =>
    let gathered := gatherAll operation [] terms
    if gathered.dropped then join .and (restoreAll gathered.pending gathered.kept).1
    else group .and gathered.kept
  | query => query

variable {operation : Operation} {query clause : Query} {terms met pending waiting all : List Query}

/-! ### Taking a clause out of the pending ones -/

theorem swapRemove_perm {place : Nat} (h : place < pending.length) :
    (swapRemove pending place).Perm (pending.eraseIdx place) := by
  obtain rfl | ⟨front, last, rfl⟩ := List.eq_nil_or_concat' pending
  · cases h
  · rw [List.length_append, List.length_singleton] at h
    rw [swapRemove, List.getLast?_concat]
    dsimp only
    obtain hplace | rfl := Nat.lt_or_eq_of_le (Nat.le_of_lt_succ h)
    · rw [List.set_append_left _ _ hplace, List.dropLast_concat,
        List.eraseIdx_append_of_lt_length hplace]
      exact (List.set_perm_cons_eraseIdx hplace last).trans (List.perm_append_singleton last _).symm
    · rw [List.set_append_right _ _ (Nat.le_refl _), Nat.sub_self, List.set_cons_zero,
        List.dropLast_concat, List.eraseIdx_append_of_length_le (Nat.le_refl _), Nat.sub_self]
      simp

/-- A way to take the clause of a kind out of the pending ones. -/
structure IsTaking (take : Query → List Query → Option (Query × List Query)) : Prop where
  of_some {query clause : Query} {pending left : List Query}
    (h : take query pending = some (clause, left)) :
    clause.sameKind query = true ∧ pending.Perm (clause :: left)
  of_none {query : Query} {pending : List Query} (h : take query pending = none) :
    ∀ held ∈ pending, held.sameKind query = false

theorem isTaking_takeKind : IsTaking takeKind where
  of_some := takeKind_eq_some
  of_none := takeKind_eq_none_iff.mp

theorem isTaking_swapOut : IsTaking swapOut where
  of_some {query clause pending left} h := by
    simp only [swapOut, Option.bind_eq_bind, Option.bind_eq_some_iff, Option.pure_def] at h
    obtain ⟨place, hplace, found, hfound, h⟩ := h
    cases h
    obtain ⟨hlength, rfl⟩ := List.getElem?_eq_some_iff.mp hfound
    obtain ⟨_, hkind, _⟩ := List.findIdx?_eq_some_iff_getElem.mp hplace
    refine ⟨hkind, (List.getElem_cons_eraseIdx_perm hlength).symm.trans ?_⟩
    exact ((swapRemove_perm hlength).symm).cons _
  of_none {query pending} h := by
    cases hplace : pending.findIdx? (·.sameKind query) with
    | none => exact fun held hmem ↦ by simpa using List.findIdx?_eq_none_iff.mp hplace held hmem
    | some place =>
      obtain ⟨hlength, -⟩ := List.findIdx?_eq_some_iff_getElem.mp hplace
      simp [swapOut, hplace, hlength] at h

/-- The clauses that still wait when those of some kinds have been met. -/
def awaiting (all met : List Query) : List Query :=
  all.filter fun clause ↦ !met.any (·.sameKind clause)

theorem mem_awaiting : clause ∈ awaiting all met ↔
    clause ∈ all ∧ met.any (·.sameKind clause) = false := by
  rw [awaiting, List.mem_filter, Bool.not_eq_true']

section Taking

variable {take : Query → List Query → Option (Query × List Query)} (htake : IsTaking take)
  (hpending : pending.Perm (awaiting all met))

include htake hpending

theorem IsTaking.eq_none (hmet : met.any (·.sameKind query) = true) :
    take query pending = none := by
  rw [Option.eq_none_iff_forall_ne_some]
  rintro ⟨clause, left⟩ hsome
  obtain ⟨hkind, hperm⟩ := htake.of_some hsome
  have hmem : clause ∈ awaiting all met :=
    hpending.subset (hperm.symm.subset List.mem_cons_self)
  obtain ⟨held, hheld, hheldKind⟩ := List.any_eq_true.mp hmet
  have hnone := List.any_eq_false.mp (mem_awaiting.mp hmem).2 held hheld
  exact hnone (sameKind_trans hheldKind (sameKind_symm hkind))

theorem IsTaking.eq_some (hall : all.Pairwise Differs) (hclause : clause ∈ all)
    (hkind : clause.sameKind query = true) (hmet : met.any (·.sameKind query) = false) :
    ∃ left, take query pending = some (clause, left) ∧
      left.Perm (awaiting all (met ++ [query])) := by
  have hmem : clause ∈ pending := by
    refine hpending.symm.subset (mem_awaiting.mpr ⟨hclause, ?_⟩)
    rw [List.any_eq_false] at hmet ⊢
    exact fun held hheld hheldKind ↦ hmet held hheld (sameKind_trans hheldKind hkind)
  cases hfound : take query pending with
  | none =>
    have hnone := htake.of_none hfound clause hmem
    rw [hkind] at hnone
    cases hnone
  | some taken =>
    obtain ⟨found, left⟩ := taken
    obtain ⟨hfoundKind, hperm⟩ := htake.of_some hfound
    have hfoundMem : found ∈ awaiting all met :=
      hpending.subset (hperm.symm.subset List.mem_cons_self)
    obtain rfl : found = clause := by
      by_contra hne
      have hdiffer := hall.forall (mem_awaiting.mp hfoundMem).1 hclause hne
      rw [Differs, sameKind_trans hfoundKind (sameKind_symm hkind)] at hdiffer
      cases hdiffer
    refine ⟨left, rfl, ?_⟩
    have hdiffer : (found :: left).Pairwise Differs :=
      (hpending.symm.trans hperm).pairwise (hall.filter _) (Std.Symm.symm _ _)
    have hleft : left.filter (!query.sameKind ·) = left := by
      refine List.filter_eq_self.mpr fun other hmem ↦ ?_
      have hother := (List.pairwise_cons.mp hdiffer).1 other hmem
      rw [Bool.not_eq_true', ← Bool.not_eq_true]
      intro hquery
      rw [Differs, sameKind_trans hkind hquery] at hother
      cases hother
    have hfilter : awaiting all (met ++ [query]) =
        (awaiting all met).filter (!query.sameKind ·) := by
      rw [awaiting, awaiting, List.filter_filter]
      refine List.filter_congr fun other _ ↦ ?_
      simp [Bool.and_comm]
    have hdrop := (hpending.symm.trans hperm).filter (!query.sameKind ·)
    rw [List.filter_cons_of_neg (by simp [sameKind_symm hkind]), hleft] at hdrop
    rw [hfilter]
    exact hdrop.symm

end Taking

/-! ### The second pass -/

theorem restore_of_ne (h : ∀ terms, query ≠ group .and terms) :
    restore pending query = (swapOut query pending).getD (query, pending) := by
  unfold restore
  split
  · exact absurd rfl (h _)
  · rfl

theorem restore_group_and (pending terms : List Query) :
    restore pending (group .and terms) =
      (group .and (restoreAll pending terms).1, (restoreAll pending terms).2) :=
  rfl

/-- Where no clause waits, nothing changes. -/
theorem restoreAll_nil (terms : List Query) : restoreAll [] terms = (terms, []) := by
  cases terms <;> rfl

theorem restore_nil (query : Query) : restore [] query = (query, []) := by
  by_cases hgroup : ∃ terms, query = group .and terms
  · obtain ⟨terms, rfl⟩ := hgroup
    rw [restore, restoreAll_nil]
  · rw [restore_of_ne (not_exists.mp hgroup)]
    rfl

theorem restoreAll_cons (pending : List Query) (query : Query) (rest : List Query) :
    restoreAll pending (query :: rest) =
      ((restore pending query).1 :: (restoreAll (restore pending query).2 rest).1,
        (restoreAll (restore pending query).2 rest).2) := by
  cases pending with
  | nil => rw [restore_nil, restoreAll_nil, restoreAll_nil]
  | cons held others => rw [restoreAll, if_neg (by simp)]

theorem restoreAll_append (pending terms more : List Query) :
    restoreAll pending (terms ++ more) =
      ((restoreAll pending terms).1 ++ (restoreAll (restoreAll pending terms).2 more).1,
        (restoreAll (restoreAll pending terms).2 more).2) := by
  induction terms generalizing pending with
  | nil => rfl
  | cons query rest ih => rw [List.cons_append, restoreAll_cons, restoreAll_cons, ih]; rfl

/-- A term is restored to nothing just if it is nothing. -/
theorem isNoop_restore (pending : List Query) (query : Query) :
    (restore pending query).1.isNoop = query.isNoop := by
  by_cases hgroup : ∃ terms, query = group .and terms
  · obtain ⟨terms, rfl⟩ := hgroup
    rfl
  · rw [restore_of_ne (not_exists.mp hgroup)]
    cases hswap : swapOut query pending with
    | none => rfl
    | some swapped =>
      have hkind := (isTaking_swapOut.of_some hswap).1
      exact (isNoop_of_sameKind hkind).trans (isNoop_of_sameKind (sameKind_symm hkind)).symm

theorem restore_noop (pending : List Query) : restore pending noop = (noop, pending) := by
  rw [restore_of_ne (by simp)]
  cases hswap : swapOut noop pending with
  | none => rfl
  | some swapped =>
    have hkind := sameKind_symm (isTaking_swapOut.of_some hswap).1
    cases hkind

/-- Terms may be joined anew before they are restored as well as after it. -/
theorem restoreAll_join (pending kept : List Query) :
    restoreAll pending ([join .and kept].filter (!·.isNoop)) =
      ([join .and (restoreAll pending kept).1].filter (!·.isNoop),
        (restoreAll pending kept).2) := by
  match kept with
  | [] => rfl
  | [query] =>
    cases hnoop : query.isNoop with
    | true =>
      obtain rfl : query = noop := by cases query <;> first | rfl | cases hnoop
      rw [restoreAll_cons, restore_noop]
      rfl
    | false =>
      have hkeeps (query : Query) (h : query.isNoop = false) :
          [query].filter (!·.isNoop) = [query] := List.filter_eq_self.mpr (by simpa using h)
      rw [join, hkeeps query hnoop, restoreAll_cons]
      exact congrArg (·, _) (hkeeps _ ((isNoop_restore pending query).trans hnoop)).symm
  | a :: b :: rest =>
    rw [restoreAll_cons, restoreAll_cons]
    change restoreAll pending [group .and (a :: b :: rest)] = _
    rw [restoreAll_cons, restore, restoreAll_cons, restoreAll_cons]
    rfl

/-! ### The first pass -/

theorem gather_of_ne (h : ∀ terms, query ≠ group .and terms) :
    gather operation met query =
      if query.operation = operation then
        if met.any (·.sameKind query) then ⟨[], unite met query, true⟩
        else ⟨[query], met ++ [query], false⟩
      else ⟨[query], met, false⟩ := by
  unfold gather
  split
  · exact absurd rfl (h _)
  · rfl

theorem unite_eq_append (h : met.any (·.sameKind query) = false) :
    unite met query = met ++ [query] := by
  induction met with
  | nil => rfl
  | cons held rest ih =>
    rw [List.any_cons, Bool.or_eq_false_iff] at h
    rw [unite, h.1, ih h.2]
    rfl

/-- The first pass unites the clauses of the spine. -/
theorem pending_gatherAll (terms : List Query) (h : ∀ query ∈ terms, ∀ met,
      (gather operation met query).pending =
        (query.spine.filter (·.operation == operation)).foldl unite met) (met : List Query) :
    (gatherAll operation met terms).pending =
      ((terms.flatMap spine).filter (·.operation == operation)).foldl unite met := by
  induction terms generalizing met with
  | nil => rfl
  | cons query rest ih =>
    obtain ⟨hquery, hrest⟩ := List.forall_mem_cons.mp h
    rw [List.flatMap_cons, List.filter_append, List.foldl_append, ← hquery, ← ih hrest]
    rfl

theorem pending_gather (operation : Operation) (query : Query) (met : List Query) :
    (gather operation met query).pending =
      (query.spine.filter (·.operation == operation)).foldl unite met := by
  induction query using nodes_induction generalizing met with
  | h query ih =>
    by_cases hgroup : ∃ terms, query = group .and terms
    · obtain ⟨terms, rfl⟩ := hgroup
      rw [spine_group_and, ← pending_gatherAll terms ih, gather]
      split <;> rfl
    · rw [spine_of_ne (not_exists.mp hgroup), gather_of_ne (not_exists.mp hgroup)]
      by_cases hoperation : query.operation = operation
      · rw [if_pos hoperation, List.filter_cons_of_pos (by simpa using hoperation)]
        split
        · rfl
        · next hmet => exact (unite_eq_append (by simpa using hmet)).symm
      · rw [if_neg hoperation, List.filter_cons_of_neg (by simpa using hoperation)]
        rfl

theorem kept_gatherAll (terms : List Query) (h : ∀ query ∈ terms, ∀ met,
      (gather operation met query).dropped = false →
        (gather operation met query).kept = [query]) (met : List Query)
    (hdropped : (gatherAll operation met terms).dropped = false) :
    (gatherAll operation met terms).kept = terms := by
  induction terms generalizing met with
  | nil => rfl
  | cons query rest ih =>
    obtain ⟨hquery, hrest⟩ := List.forall_mem_cons.mp h
    obtain ⟨hfirst, hothers⟩ := Bool.or_eq_false_iff.mp hdropped
    rw [gatherAll, hquery met hfirst, ih hrest _ hothers]
    rfl

/-- Without a drop the first pass leaves the terms as they are. -/
theorem kept_gather (query : Query) (met : List Query)
    (hdropped : (gather operation met query).dropped = false) :
    (gather operation met query).kept = [query] := by
  induction query using nodes_induction generalizing met with
  | h query ih =>
    by_cases hgroup : ∃ terms, query = group .and terms
    · obtain ⟨terms, rfl⟩ := hgroup
      rw [gather] at hdropped ⊢
      split at hdropped
      · cases hdropped
      · next hinner =>
        have hterms : (gatherAll operation met terms).kept = terms :=
          kept_gatherAll terms ih met (by simpa using hinner)
        rw [if_neg hinner, hterms]
    · rw [gather_of_ne (not_exists.mp hgroup)] at hdropped ⊢
      split
      · next hoperation =>
        rw [if_pos hoperation] at hdropped
        split at hdropped
        · cases hdropped
        · next hmet => rw [if_neg hmet]
      · rfl

theorem sameKind_absorb_iff {a b : Query} (h : a.sameKind b = true) (clause : Query) :
    (a.absorb b).sameKind clause = true ↔
      a.sameKind clause = true ∨ b.sameKind clause = true := by
  rw [sameKind_absorb_left]
  exact ⟨.inl, fun h' ↦ h'.elim id (sameKind_trans h)⟩

theorem any_unite (met : List Query) (query clause : Query) :
    (unite met query).any (·.sameKind clause) =
      (met.any (·.sameKind clause) || query.sameKind clause) := by
  rw [Bool.eq_iff_iff, Bool.or_eq_true, List.any_eq_true, List.any_eq_true]
  exact exists_mem_unite fun a b hkind ↦ sameKind_absorb_iff hkind clause

/-- A clause of a kind that has been met leaves the same clauses waiting. -/
theorem awaiting_unite (h : met.any (·.sameKind query) = true) :
    awaiting all (unite met query) = awaiting all met := by
  refine List.filter_congr fun clause _ ↦ ?_
  rw [any_unite]
  cases hkind : query.sameKind clause with
  | false => rw [Bool.or_false]
  | true =>
    obtain ⟨held, hheld, hheldKind⟩ := List.any_eq_true.mp h
    have hmet : met.any (·.sameKind clause) = true :=
      List.any_eq_true.mpr ⟨held, hheld, sameKind_trans hheldKind hkind⟩
    rw [hmet]
    rfl

/-! ### Both passes -/

/-- The second pass makes of what the first one has gathered what the folding keeps, and in the end
the same clauses are left. -/
structure InStep (all waiting : List Query) (gathered folding : Folding) : Prop where
  restored : (restoreAll waiting gathered.kept).1 = folding.kept
  waiting : (restoreAll waiting gathered.kept).2.Perm (awaiting all gathered.pending)
  pending : folding.pending.Perm (awaiting all gathered.pending)
  dropped : folding.dropped = gathered.dropped

/-- Every clause of the operation on the spine is of one kind with one of the list. -/
def CoveredBy (all : List Query) (operation : Operation) (query : Query) : Prop :=
  ∀ clause ∈ query.spine, clause.operation = operation →
    ∃ united ∈ all, united.sameKind clause = true

theorem inStep_all (terms : List Query) (h : ∀ query ∈ terms, ∀ met waiting pending,
      CoveredBy all operation query → waiting.Perm (awaiting all met) →
        pending.Perm (awaiting all met) →
          InStep all waiting (gather operation met query) (fold operation pending query))
    (hcovered : ∀ query ∈ terms, CoveredBy all operation query) (met : List Query)
    (hwaiting : waiting.Perm (awaiting all met)) (hpending : pending.Perm (awaiting all met)) :
    InStep all waiting (gatherAll operation met terms) (foldAll operation pending terms) := by
  induction terms generalizing met waiting pending with
  | nil => exact ⟨rfl, hwaiting, hpending, rfl⟩
  | cons query rest ih =>
    obtain ⟨hquery, hrest⟩ := List.forall_mem_cons.mp h
    obtain ⟨hfirst, hothers⟩ := List.forall_mem_cons.mp hcovered
    have hstep := hquery met _ _ hfirst hwaiting hpending
    have hsteps := ih hrest hothers _ hstep.waiting hstep.pending
    rw [foldAll_cons, gatherAll]
    refine ⟨?_, ?_, hsteps.pending, ?_⟩
    · rw [restoreAll_append, hstep.restored, hsteps.restored]
    · rw [restoreAll_append]
      exact hsteps.waiting
    · rw [hstep.dropped, hsteps.dropped]

section InStep

variable (hall : all.Pairwise Differs) (hoperation : ∀ clause ∈ all, clause.operation = operation)
  (hcovered : CoveredBy all operation query) (hwaiting : waiting.Perm (awaiting all met))
  (hpending : pending.Perm (awaiting all met))

include hall hoperation hcovered hwaiting hpending

theorem inStep_leaf (hleaf : ∀ terms, query ≠ group .and terms) :
    InStep all waiting (gather operation met query) (fold operation pending query) := by
  -- what becomes of the second pass, which comes by the node if the first one keeps it
  have hrestore (found : Query × List Query)
      (h : (swapOut query waiting).getD (query, waiting) = found) :
      restoreAll waiting [query] = ([found.1], found.2) := by
    rw [restoreAll_cons, restore_of_ne hleaf, h]
    rfl
  rw [gather_of_ne hleaf]
  by_cases hquery : query.operation = operation
  · rw [if_pos hquery]
    cases hmet : met.any (·.sameKind query) with
    | true =>
      have htake : takeKind query pending = none := isTaking_takeKind.eq_none hpending hmet
      rw [fold_of_takeKind_eq_none hleaf hquery htake, if_pos rfl]
      refine ⟨rfl, ?_, ?_, rfl⟩ <;> rwa [awaiting_unite hmet]
    | false =>
      have hspine : query ∈ query.spine := by
        rw [spine_of_ne hleaf]
        exact List.mem_singleton_self query
      obtain ⟨clause, hclause, hkind⟩ := hcovered query hspine hquery
      obtain ⟨left, hswap, hleft⟩ := isTaking_swapOut.eq_some hwaiting hall hclause hkind hmet
      obtain ⟨others, htake, hothers⟩ :=
        isTaking_takeKind.eq_some hpending hall hclause hkind hmet
      have hfound := hrestore (clause, left) (by rw [hswap]; rfl)
      rw [fold_of_takeKind_eq_some hleaf hquery htake, if_neg (by decide)]
      exact ⟨congrArg Prod.fst hfound, hfound ▸ hleft, hothers, rfl⟩
  · have hswap : swapOut query waiting = none := by
      rw [Option.eq_none_iff_forall_ne_some]
      rintro ⟨clause, left⟩ hsome
      obtain ⟨hkind, hperm⟩ := isTaking_swapOut.of_some hsome
      have hmem := hwaiting.subset (hperm.symm.subset List.mem_cons_self)
      have hclause := hoperation clause (mem_awaiting.mp hmem).1
      exact hquery ((operation_eq_of_sameKind hkind).symm.trans hclause)
    have hfound := hrestore (query, waiting) (by rw [hswap]; rfl)
    rw [if_neg hquery, fold_of_operation_ne hleaf hquery]
    exact ⟨congrArg Prod.fst hfound, hfound ▸ hwaiting, hpending, rfl⟩

theorem inStep :
    InStep all waiting (gather operation met query) (fold operation pending query) := by
  induction query using nodes_induction generalizing met waiting pending with
  | h query ih =>
    by_cases hgroup : ∃ terms, query = group .and terms
    · obtain ⟨terms, rfl⟩ := hgroup
      have hterms (term : Query) (hterm : term ∈ terms) : CoveredBy all operation term :=
        fun clause hclause ↦ hcovered clause (by
          rw [spine_group_and]
          exact List.mem_flatMap.mpr ⟨term, hterm, hclause⟩)
      have hinner : InStep all waiting (gatherAll operation met terms)
          (foldAll operation pending terms) :=
        inStep_all terms (fun term hmem _ _ _ ↦ ih term hmem) hterms met hwaiting hpending
      rw [gather, fold, hinner.dropped]
      split
      · refine ⟨?_, ?_, hinner.pending, rfl⟩
        · rw [restoreAll_join, hinner.restored]
        · rw [restoreAll_join]
          exact hinner.waiting
      · refine ⟨?_, ?_, hinner.pending, rfl⟩
        · rw [restoreAll_cons, restore_group_and, hinner.restored]
          rfl
        · rw [restoreAll_cons, restore_group_and]
          exact hinner.waiting
    · exact inStep_leaf hall hoperation hcovered hwaiting hpending (not_exists.mp hgroup)

end InStep

/-- The united clauses of a conjunction cover the clauses on the spines of its terms. -/
theorem coveredBy_spineUnion (hcombines : combines operation = true) {term : Query}
    (h : term ∈ terms) :
    CoveredBy ((group .and terms).spineUnion operation) operation term := by
  intro clause hclause hoperation
  refine (exists_mem_uniteAll fun a b hkind ↦ sameKind_absorb_iff hkind clause).mpr
    ⟨clause, ?_, sameKind_self (hoperation ▸ hcombines)⟩
  rw [spine_group_and, List.mem_filter]
  exact ⟨List.mem_flatMap.mpr ⟨term, h, hclause⟩, by simpa using hoperation⟩

/-- The two passes do what one folding does. -/
theorem foldInPasses_eq_foldSpine (hcombines : combines operation = true) (query : Query) :
    query.foldInPasses operation = query.foldSpine operation := by
  by_cases hgroup : ∃ terms, query = group .and terms
  · obtain ⟨terms, rfl⟩ := hgroup
    have hpending : (gatherAll operation [] terms).pending =
        (group .and terms).spineUnion operation := by
      rw [pending_gatherAll terms fun query _ ↦ pending_gather operation query, spineUnion,
        spine_group_and]
      rfl
    have hwaiting : ((group .and terms).spineUnion operation).Perm
        (awaiting ((group .and terms).spineUnion operation) []) :=
      .of_eq (List.filter_eq_self.mpr fun _ _ ↦ rfl).symm
    have hstep : InStep ((group .and terms).spineUnion operation)
        ((group .and terms).spineUnion operation) (gatherAll operation [] terms)
        (foldAll operation ((group .and terms).spineUnion operation) terms) :=
      inStep_all terms
        (fun _ _ _ _ _ ↦ inStep (pairwise_uniteAll _) fun _ ↦ operation_of_mem_spineUnion)
        (fun _ ↦ coveredBy_spineUnion hcombines) [] hwaiting hwaiting
    rw [foldInPasses, foldSpine, hstep.dropped, hpending]
    split
    · rw [hstep.restored]
    · next hdropped =>
      rw [kept_gatherAll terms (fun query _ ↦ kept_gather query) [] (by simpa using hdropped)]
  · cases query with
    | group joiner terms =>
      cases joiner with
      | and => exact absurd ⟨terms, rfl⟩ hgroup
      | or => rfl
    | _ => rfl

end ResourceQuery.Query
