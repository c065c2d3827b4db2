import ResourceQuery.Proofs.PropertyUse
import ResourceQuery.Proofs.Pruning

/-!
# Equal queries in transformations

Equality of queries is an equivalence that no transformation sees through: pruning, consolidating
and merging make equal queries of equal ones, and validity and the use of properties are the same
for equal queries. It is so because the comparisons by which clauses are found and entries dropped,
be it of kinds, of keys or of values, agree on what is equal.
-/

namespace ResourceQuery

theorem list_beq_iff {α : Type} [BEq α] {as bs : List α} :
    (as == bs) = true ↔ List.Forall₂ (fun a b ↦ (a == b) = true) as bs := by
  refine ⟨fun h ↦ ?_, Query.beq_of_forall₂⟩
  induction as generalizing bs with
  | nil => cases bs <;> first | exact .nil | cases h
  | cons a as ih =>
    cases bs with
    | nil => cases h
    | cons b bs =>
      rw [List.cons_beq_cons, Bool.and_eq_true] at h
      exact .cons h.1 (ih h.2)

section Lists

variable {α β γ : Type} {R : α → β → Prop} {as : List α} {bs : List β}

theorem forall₂_symm_of {S : β → α → Prop} (h : List.Forall₂ R as bs)
    (hRS : ∀ a ∈ as, ∀ b, R a b → S b a) : List.Forall₂ S bs as := by
  induction h with
  | nil => exact .nil
  | cons hab _ ih =>
    rw [List.forall_mem_cons] at hRS
    exact .cons (hRS.1 _ hab) (ih hRS.2)

theorem forall₂_trans_of {S : β → γ → Prop} {T : α → γ → Prop} {cs : List γ}
    (h : List.Forall₂ R as bs) (h' : List.Forall₂ S bs cs)
    (hRS : ∀ a ∈ as, ∀ b c, R a b → S b c → T a c) : List.Forall₂ T as cs := by
  induction h generalizing cs with
  | nil =>
    cases h'
    exact .nil
  | cons hab _ ih =>
    rw [List.forall_mem_cons] at hRS
    cases h' with
    | cons hbc hrest => exact .cons (hRS.1 _ _ hab hbc) (ih hrest hRS.2)

theorem any_congr_of_forall₂ {f : α → Bool} {g : β → Bool} (h : List.Forall₂ R as bs)
    (hfg : ∀ a b, R a b → f a = g b) : as.any f = bs.any g := by
  induction h with
  | nil => rfl
  | cons hab _ ih => rw [List.any_cons, List.any_cons, hfg _ _ hab, ih]

end Lists

instance instPartialEquivBEqList {α : Type} [BEq α] [PartialEquivBEq α] :
    PartialEquivBEq (List α) where
  symm h := list_beq_iff.mpr (forall₂_symm_of (list_beq_iff.mp h) fun _ _ _ ↦ BEq.symm)
  trans h h' := list_beq_iff.mpr
    (forall₂_trans_of (list_beq_iff.mp h) (list_beq_iff.mp h') fun _ _ _ _ ↦ BEq.trans)

instance instPartialEquivBEqOption {α : Type} [BEq α] [PartialEquivBEq α] :
    PartialEquivBEq (Option α) where
  symm {p q} h := by
    cases p <;> cases q <;> first | exact h | exact BEq.symm (α := α) h
  trans {p q r} h h' := by
    cases p <;> cases q <;> cases r <;>
      first | exact h | exact h' | cases h | cases h' | exact BEq.trans (α := α) h h'

theorem SortKey.beq_iff {k l : SortKey} :
    (k == l) = true ↔ k.order = l.order ∧ (k.property == l.property) = true := by
  change (k.order == l.order && k.property == l.property) = true ↔ _
  rw [Bool.and_eq_true, beq_iff_eq]

instance : EquivBEq SortKey where
  rfl := SortKey.beq_iff.mpr ⟨rfl, BEq.rfl⟩
  symm h := by
    rw [SortKey.beq_iff] at h ⊢
    exact ⟨h.1.symm, BEq.symm h.2⟩
  trans h h' := by
    rw [SortKey.beq_iff] at h h' ⊢
    exact ⟨h.1.trans h'.1, BEq.trans h.2 h'.2⟩

namespace Query

variable {operation : Operation} {a b c a' b' : Query}

/-! ### Equality is an equivalence -/

/-- Equal queries have one form, and hold equal properties, values and queries. -/
inductive Same : Query → Query → Prop
  | noop : Same noop noop
  | limit (range : Limit) : Same (limit range) (limit range)
  | select {ps qs : List Property} (h : (ps == qs) = true) : Same (select ps) (select qs)
  | sort {ks ls : List SortKey} (h : (ks == ls) = true) : Same (sort ks) (sort ls)
  | group (joiner : Joiner) {ts us : List Query} (h : Alike ts us) :
      Same (group joiner ts) (group joiner us)
  | compare (op : Comparison) {p q : Property} {v w : Value} (h : (p == q) = true)
      (hvalue : v.sameIgnoringCase w = true) : Same (compare op p v) (compare op q w)
  | pattern (op : PatternOp) {p q : Property} {v w : Value} (h : (p == q) = true)
      (hvalue : v.sameIgnoringCase w = true) : Same (pattern op p v) (pattern op q w)
  | membership (op : MembershipOp) {p q : Property} {vs ws : List Value} (h : (p == q) = true)
      (hvalues : sameValues vs ws = true) : Same (membership op p vs) (membership op q ws)
  | distinct : Same distinct distinct
  | first : Same first first
  | one : Same one one
  | count {p q : Option Property} (h : (p == q) = true) : Same (count p) (count q)
  | values {p q : Property} (h : (p == q) = true) : Same (values p) (values q)
  | summary (op : SummaryOp) {p q : Property} (h : (p == q) = true) :
      Same (summary op p) (summary op q)
  | aggregate {ps qs : List Property} {fs gs : List Query} (h : (ps == qs) = true)
      (hfunctions : Alike fs gs) : Same (aggregate ps fs) (aggregate qs gs)

theorem same_iff : (a == b) = true ↔ Same a b := by
  constructor
  · intro h
    replace h : same a b = true := h
    unfold same at h
    split at h
    case h_5 => exact eq_of_beq h ▸ .limit _
    case h_6 => exact .select h
    case h_7 => exact .sort h
    case h_8 =>
      rw [Bool.and_eq_true, beq_iff_eq, sameAll_iff] at h
      exact h.1 ▸ .group _ h.2
    case h_9 =>
      rw [Bool.and_eq_true, Bool.and_eq_true, beq_iff_eq] at h
      exact h.1.1 ▸ .compare _ h.1.2 h.2
    case h_10 =>
      rw [Bool.and_eq_true, Bool.and_eq_true, beq_iff_eq] at h
      exact h.1.1 ▸ .pattern _ h.1.2 h.2
    case h_11 =>
      rw [Bool.and_eq_true, Bool.and_eq_true, beq_iff_eq] at h
      exact h.1.1 ▸ .membership _ h.1.2 h.2
    case h_12 => exact .count h
    case h_13 => exact .values h
    case h_14 =>
      rw [Bool.and_eq_true, beq_iff_eq] at h
      exact h.1 ▸ .summary _ h.2
    case h_15 =>
      rw [Bool.and_eq_true, sameAll_iff] at h
      exact .aggregate h.1 h.2
    case h_16 => cases h
    all_goals constructor
  · intro h
    change same a b = true
    cases h <;> simp_all [same, sameAll_iff]

theorem sameIgnoringCase_refl (v : Value) : v.sameIgnoringCase v = true :=
  Value.sameIgnoringCase_iff.mpr (.equal BEq.rfl)

theorem beq_refl (query : Query) : (query == query) = true := by
  induction query using nodes_induction with
  | h query ih =>
    have hnodes : Alike query.nodes query.nodes := List.forall₂_same.mpr ih
    rw [same_iff]
    cases query with
    | noop => exact .noop
    | limit range => exact .limit range
    | select properties => exact .select BEq.rfl
    | sort keys => exact .sort BEq.rfl
    | group joiner terms => exact .group joiner hnodes
    | compare op property value => exact .compare op BEq.rfl (sameIgnoringCase_refl value)
    | pattern op property value => exact .pattern op BEq.rfl (sameIgnoringCase_refl value)
    | membership op property entries =>
      have hentries : List.Forall₂ (fun v w ↦ v.sameIgnoringCase w = true) entries entries :=
        List.forall₂_same.mpr fun v _ ↦ sameIgnoringCase_refl v
      exact .membership op BEq.rfl (sameValues_iff.mpr hentries)
    | distinct => exact .distinct
    | first => exact .first
    | one => exact .one
    | count property => exact .count BEq.rfl
    | values property => exact .values BEq.rfl
    | summary op property => exact .summary op BEq.rfl
    | aggregate groups functions => exact .aggregate BEq.rfl hnodes

theorem beq_symm (h : (a == b) = true) : (b == a) = true := by
  induction a using nodes_induction generalizing b with
  | h a ih =>
    have hnodes : Alike b.nodes a.nodes :=
      forall₂_symm_of (alike_nodes h) fun node hnode other ↦ ih node hnode
    rw [same_iff] at h ⊢
    cases h with
    | noop => exact .noop
    | limit range => exact .limit range
    | select h => exact .select (BEq.symm h)
    | sort h => exact .sort (BEq.symm h)
    | group joiner => exact .group joiner hnodes
    | compare op h hvalue =>
      exact .compare op (BEq.symm h) (Value.sameIgnoringCase_symm hvalue)
    | pattern op h hvalue =>
      exact .pattern op (BEq.symm h) (Value.sameIgnoringCase_symm hvalue)
    | membership op h hvalues =>
      have hentries := forall₂_symm_of (sameValues_iff.mp hvalues) fun _ _ _ ↦
        Value.sameIgnoringCase_symm
      exact .membership op (BEq.symm h) (sameValues_iff.mpr hentries)
    | distinct => exact .distinct
    | first => exact .first
    | one => exact .one
    | count h => exact .count (BEq.symm h)
    | values h => exact .values (BEq.symm h)
    | summary op h => exact .summary op (BEq.symm h)
    | aggregate h => exact .aggregate (BEq.symm h) hnodes

theorem beq_trans (h : (a == b) = true) (h' : (b == c) = true) : (a == c) = true := by
  induction a using nodes_induction generalizing b c with
  | h a ih =>
    have hnodes : Alike a.nodes c.nodes :=
      forall₂_trans_of (alike_nodes h) (alike_nodes h') fun node hnode _ _ ↦ ih node hnode
    rw [same_iff] at h h' ⊢
    cases h with
    | noop => exact h'
    | limit range => exact h'
    | select h => cases h' with | select h' => exact .select (BEq.trans h h')
    | sort h => cases h' with | sort h' => exact .sort (BEq.trans h h')
    | group joiner => cases h' with | group => exact .group joiner hnodes
    | compare op h hvalue =>
      cases h' with
      | compare _ h' hvalue' =>
        exact .compare op (BEq.trans h h') (Value.sameIgnoringCase_trans hvalue hvalue')
    | pattern op h hvalue =>
      cases h' with
      | pattern _ h' hvalue' =>
        exact .pattern op (BEq.trans h h') (Value.sameIgnoringCase_trans hvalue hvalue')
    | membership op h hvalues =>
      cases h' with
      | membership _ h' hvalues' =>
        have hentries := forall₂_trans_of (sameValues_iff.mp hvalues) (sameValues_iff.mp hvalues')
          fun _ _ _ _ ↦ Value.sameIgnoringCase_trans
        exact .membership op (BEq.trans h h') (sameValues_iff.mpr hentries)
    | distinct => exact h'
    | first => exact h'
    | one => exact h'
    | count h => cases h' with | count h' => exact .count (BEq.trans h h')
    | values h => cases h' with | values h' => exact .values (BEq.trans h h')
    | summary op h => cases h' with | summary _ h' => exact .summary op (BEq.trans h h')
    | aggregate h => cases h' with | aggregate h' => exact .aggregate (BEq.trans h h') hnodes

instance : EquivBEq Query where
  rfl := beq_refl _
  symm := beq_symm
  trans := beq_trans

/-! ### Equal clauses -/

theorem isNoop_eq_of_same (h : (a == b) = true) : a.isNoop = b.isNoop := by
  cases same_iff.mp h <;> rfl

theorem isShaping_eq_of_same (h : (a == b) = true) : a.isShaping = b.isShaping := by
  cases same_iff.mp h <;> rfl

theorem sameKind_eq_of_same (ha : (a == a') = true) (hb : (b == b') = true) :
    a.sameKind b = a'.sameKind b' := by
  cases same_iff.mp ha <;> cases same_iff.mp hb <;> try rfl
  next op p q _ _ hpq _ op' p' q' _ _ hpq' _ =>
    rw [sameKind, sameKind, BEq.congr_left hpq, BEq.congr_right hpq']

/-- If equal elements agree with the same ones, lists of equal elements are united to such lists. -/
theorem forall₂_appendNew {α : Type} {R : α → α → Prop} {agree : α → α → Bool}
    (hagree : ∀ a a' b b', R a a' → R b b' → agree a b = agree a' b')
    {held held' more more' : List α} (hheld : List.Forall₂ R held held')
    (hmore : List.Forall₂ R more more') :
    List.Forall₂ R (appendNew agree held more) (appendNew agree held' more') := by
  induction hmore generalizing held held' with
  | nil => exact hheld
  | @cons a a' _ _ ha _ ih =>
    have hany : held.any (agree · a) = held'.any (agree · a') :=
      any_congr_of_forall₂ hheld fun _ _ hb ↦ hagree _ _ _ _ hb ha
    rw [appendNew, appendNew, hany]
    apply ih
    split
    · exact hheld
    · exact List.rel_append hheld (.cons ha .nil)

theorem absorb_congr (ha : (a == a') = true) (hb : (b == b') = true) :
    (a.absorb b == a'.absorb b') = true := by
  have hproperties (p p' q q' : Property) (hp : (p == p') = true) (hq : (q == q') = true) :
      (p == q) = (p' == q') := (BEq.congr_left hp).trans (BEq.congr_right hq)
  have hvalues (v v' w w' : Value) (hv : v.sameIgnoringCase v' = true)
      (hw : w.sameIgnoringCase w' = true) : v.sameIgnoringCase w = v'.sameIgnoringCase w' := by
    rw [Value.sameIgnoringCase_congr hv, Bool.eq_iff_iff]
    exact ⟨fun h ↦ Value.sameIgnoringCase_trans h hw,
      fun h ↦ Value.sameIgnoringCase_trans h (Value.sameIgnoringCase_symm hw)⟩
  rw [same_iff]
  cases same_iff.mp ha with
  | select h =>
    cases same_iff.mp hb with
    | select h' =>
      exact .select (list_beq_iff.mpr
        (forall₂_appendNew hproperties (list_beq_iff.mp h) (list_beq_iff.mp h')))
    | _ => exact .select h
  | sort h =>
    cases same_iff.mp hb with
    | sort h' =>
      refine .sort (list_beq_iff.mpr
        (forall₂_appendNew (fun k k' l l' hk hl ↦ ?_) (list_beq_iff.mp h) (list_beq_iff.mp h')))
      exact hproperties _ _ _ _ (SortKey.beq_iff.mp hk).2 (SortKey.beq_iff.mp hl).2
    | _ => exact .sort h
  | membership op h hentries =>
    cases same_iff.mp hb with
    | membership _ _ hentries' =>
      exact .membership op h (sameValues_iff.mpr
        (forall₂_appendNew hvalues (sameValues_iff.mp hentries) (sameValues_iff.mp hentries')))
    | _ => exact .membership op h hentries
  | _ => exact same_iff.mp ha

theorem unite_congr {held held' : List Query} (hheld : Alike held held') (h : (a == a') = true) :
    Alike (unite held a) (unite held' a') := by
  induction hheld with
  | nil => exact .cons h .nil
  | cons hhead hrest ih =>
    rw [unite, unite, sameKind_eq_of_same hhead h]
    split
    · exact .cons (absorb_congr hhead h) hrest
    · exact .cons hhead ih

theorem uniteAll_congr {clauses clauses' : List Query} (h : Alike clauses clauses') :
    Alike (uniteAll clauses) (uniteAll clauses') := by
  have hfold {held held' : List Query} (hheld : Alike held held') :
      Alike (clauses.foldl unite held) (clauses'.foldl unite held') := by
    induction h generalizing held held' with
    | nil => exact hheld
    | cons hclause _ ih => exact ih (unite_congr hheld hclause)
  exact hfold .nil

/-! ### Equal groups -/

theorem join_congr (joiner : Joiner) {terms terms' : List Query} (h : Alike terms terms') :
    (join joiner terms == join joiner terms') = true := by
  cases h with
  | nil => exact beq_refl noop
  | cons hfirst hrest =>
    cases hrest with
    | nil => exact hfirst
    | cons hsecond hrest => exact same_iff.mpr (.group joiner (.cons hfirst (.cons hsecond hrest)))

theorem conjuncts_congr (h : (a == a') = true) : Alike a.conjuncts a'.conjuncts := by
  have hsingle : Alike [a] [a'] := .cons h .nil
  cases same_iff.mp h with
  | noop => exact .nil
  | group joiner hterms =>
    cases joiner with
    | and => exact hterms
    | or => exact hsingle
  | _ => exact hsingle

theorem filter_congr_of_alike {test : Query → Bool}
    (htest : ∀ {a b : Query}, (a == b) = true → test a = test b) {queries queries' : List Query}
    (h : Alike queries queries') : Alike (queries.filter test) (queries'.filter test) :=
  List.rel_filter (fun _ _ hab ↦ iff_of_eq (congrArg (· = true) (htest hab))) h

theorem filter_isNoop_congr {queries queries' : List Query} (h : Alike queries queries') :
    Alike (queries.filter (!·.isNoop)) (queries'.filter (!·.isNoop)) :=
  filter_congr_of_alike (fun hab ↦ congrArg _ (isNoop_eq_of_same hab)) h

/-! ### Pruning -/

theorem prune_congr (operation : Operation) (h : (a == a') = true) :
    (a.prune operation == a'.prune operation) = true := by
  induction a using nodes_induction generalizing a' with
  | h a ih =>
    have hbelow : Alike (pruneAll operation a.nodes) (pruneAll operation a'.nodes) := by
      rw [pruneAll_eq_filter, pruneAll_eq_filter, ← List.flatMap_pure_eq_map,
        ← List.flatMap_pure_eq_map]
      exact filter_isNoop_congr (forall₂_flatMap (alike_nodes h) fun node hnode _ hsame ↦
        .cons (ih node hnode hsame) .nil)
    have hoperation := operation_eq_of_same h
    by_cases hpruned : a.operation = operation
    · rw [prune_of_eq hpruned, prune_of_eq (hoperation ▸ hpruned)]
      exact beq_refl noop
    · have hkept : a'.operation ≠ operation := hoperation ▸ hpruned
      have hsame := same_iff.mp h
      cases hsame with
      | group joiner =>
        rw [prune_group hpruned, prune_group hkept]
        exact join_congr joiner hbelow
      | aggregate hgroups =>
        rw [prune_aggregate hpruned, prune_aggregate hkept]
        exact same_iff.mpr (.aggregate hgroups hbelow)
      | _ =>
        have hleaf := prune_leaf hpruned (by simp) (by simp)
        have hleaf' := prune_leaf hkept (by simp) (by simp)
        exact (congrArg₂ (· == ·) hleaf hleaf').trans h

/-! ### Consolidation -/

/-- Two foldings leave equal terms and clauses, and drop something together. -/
structure Folding.Alike (folding folding' : Folding) : Prop where
  kept : Query.Alike folding.kept folding'.kept
  pending : Query.Alike folding.pending folding'.pending
  dropped : folding.dropped = folding'.dropped

theorem takeKind_congr {pending pending' : List Query} (h : (a == a') = true)
    (hpending : Alike pending pending') :
    Option.Rel (fun taken taken' ↦ (taken.1 == taken'.1) = true ∧ Alike taken.2 taken'.2)
      (takeKind a pending) (takeKind a' pending') := by
  induction hpending with
  | nil => exact .none
  | cons hhead hrest ih =>
    rw [takeKind, takeKind, sameKind_eq_of_same hhead h]
    split
    · exact .some ⟨hhead, hrest⟩
    · generalize takeKind a _ = taken, takeKind a' _ = taken' at ih
      cases ih with
      | none => exact .none
      | some htaken => exact .some ⟨htaken.1, .cons hhead htaken.2⟩

theorem fold_congr_of_ne {pending pending' : List Query} (ha : ∀ terms, a ≠ group .and terms)
    (ha' : ∀ terms, a' ≠ group .and terms) (h : (a == a') = true)
    (hpending : Alike pending pending') :
    (fold operation pending a).Alike (fold operation pending' a') := by
  rw [fold_of_ne ha, fold_of_ne ha', operation_eq_of_same h]
  have htaken := takeKind_congr h hpending
  generalize takeKind a pending = taken, takeKind a' pending' = taken' at htaken
  split
  · cases htaken with
    | none => exact ⟨.nil, hpending, rfl⟩
    | some htaken => exact ⟨.cons htaken.1 .nil, htaken.2, rfl⟩
  · exact ⟨.cons h .nil, hpending, rfl⟩

mutual

theorem fold_congr {query query' : Query} {pending pending' : List Query}
    (h : (query == query') = true) (hpending : Alike pending pending') :
    (fold operation pending query).Alike (fold operation pending' query') := by
  cases query with
  | group joiner terms =>
    cases same_iff.mp h with
    | group _ hterms =>
      cases joiner with
      | and =>
        have hinner := foldAll_congr hterms hpending
        have hjoined := join_congr .and hinner.kept
        rw [fold, fold, hinner.dropped]
        split
        · exact ⟨filter_isNoop_congr (.cons hjoined .nil), hinner.pending, rfl⟩
        · exact ⟨.cons (same_iff.mpr (.group .and hinner.kept)) .nil, hinner.pending, rfl⟩
      | or => exact fold_congr_of_ne (by simp) (by simp) h hpending
  | _ =>
    cases same_iff.mp h
    exact fold_congr_of_ne (by simp) (by simp) h hpending

theorem foldAll_congr {terms terms' pending pending' : List Query} (h : Alike terms terms')
    (hpending : Alike pending pending') :
    (foldAll operation pending terms).Alike (foldAll operation pending' terms') := by
  cases terms with
  | nil =>
    cases h
    exact ⟨.nil, hpending, rfl⟩
  | cons query rest =>
    cases h with
    | cons hfirst hrest =>
      have hfolded := fold_congr hfirst hpending
      have hothers := foldAll_congr hrest hfolded.pending
      rw [foldAll_cons, foldAll_cons, hfolded.dropped, hothers.dropped]
      exact ⟨List.rel_append hfolded.kept hothers.kept, hothers.pending, rfl⟩

end

theorem foldSpine_congr (operation : Operation) (h : (a == a') = true) :
    (a.foldSpine operation == a'.foldSpine operation) = true := by
  have hclauses : Alike (a.spineUnion operation) (a'.spineUnion operation) :=
    uniteAll_congr (filter_congr_of_alike (fun hab ↦ by rw [operation_eq_of_same hab])
      (alike_spine h))
  have hsame := same_iff.mp h
  cases hsame with
  | @group joiner terms terms' hterms =>
    cases joiner with
    | and =>
      have hfolded : (foldAll operation _ terms).Alike (foldAll operation _ terms') :=
        foldAll_congr hterms hclauses
      have hjoined := join_congr .and hfolded.kept
      rw [foldSpine, foldSpine, hfolded.dropped]
      split
      · exact hjoined
      · exact h
    | or => exact h
  | _ => exact h

/-! ### Merging -/

def Parts.Alike (parts parts' : Parts) : Prop :=
  Query.Alike parts.kept parts'.kept ∧ Query.Alike parts.clauses parts'.clauses

theorem Parts.Alike.append {parts parts' more more' : Parts} (h : parts.Alike parts')
    (hmore : more.Alike more') : (parts ++ more).Alike (parts' ++ more') :=
  ⟨List.rel_append h.1 hmore.1, List.rel_append h.2 hmore.2⟩

theorem part_congr_of_ne (ha : ∀ terms, a ≠ group .and terms)
    (ha' : ∀ terms, a' ≠ group .and terms) (h : (a == a') = true) : (part a).Alike (part a') := by
  rw [part_of_ne ha, part_of_ne ha', isShaping_eq_of_same h]
  split
  · exact ⟨.nil, .cons h .nil⟩
  · exact ⟨.cons h .nil, .nil⟩

mutual

theorem part_congr {query query' : Query} (h : (query == query') = true) :
    (part query).Alike (part query') := by
  cases query with
  | group joiner terms =>
    cases same_iff.mp h with
    | group _ hterms =>
      cases joiner with
      | and =>
        have hinner := partAll_congr hterms
        exact ⟨filter_isNoop_congr (.cons (join_congr .and hinner.1) .nil), hinner.2⟩
      | or => exact part_congr_of_ne (by simp) (by simp) h
  | _ =>
    cases same_iff.mp h
    exact part_congr_of_ne (by simp) (by simp) h

theorem partAll_congr {terms terms' : List Query} (h : Alike terms terms') :
    (partAll terms).Alike (partAll terms') := by
  cases terms with
  | nil =>
    cases h
    exact ⟨.nil, .nil⟩
  | cons query rest =>
    cases h with
    | cons hfirst hrest => exact (part_congr hfirst).append (partAll_congr hrest)

end

theorem partTerm_congr (h : (a == a') = true) : (partTerm a).Alike (partTerm a') := by
  cases same_iff.mp h with
  | noop => exact ⟨.nil, .nil⟩
  | membership => exact ⟨.nil, .cons h .nil⟩
  | _ => exact part_congr h

theorem partTerms_congr {terms terms' : List Query} (h : Alike terms terms') :
    (partTerms terms).Alike (partTerms terms') := by
  induction h with
  | nil => exact ⟨.nil, .nil⟩
  | cons hfirst _ ih => exact (partTerm_congr hfirst).append ih

theorem partRoot_congr (h : (a == a') = true) : a.partRoot.Alike a'.partRoot := by
  cases same_iff.mp h with
  | group joiner hterms =>
    cases joiner with
    | and =>
      have hparts := partTerms_congr hterms
      exact ⟨conjuncts_congr (join_congr .and hparts.1), hparts.2⟩
    | or =>
      have hkept := filter_congr_of_alike
        (fun hab ↦ congrArg (!·) (isShaping_eq_of_same hab)) hterms
      exact ⟨conjuncts_congr (join_congr .or hkept),
        filter_congr_of_alike isShaping_eq_of_same hterms⟩
  | noop => exact ⟨.nil, .nil⟩
  | membership => exact ⟨.nil, .cons h .nil⟩
  | _ => exact partTerm_congr h

theorem conjoin_congr (ha : (a == a') = true) (hb : (b == b') = true) :
    (conjoin a b == conjoin a' b') = true := by
  have hparts := (partRoot_congr ha).append (partRoot_congr hb)
  exact join_congr .and (List.rel_append hparts.1 (uniteAll_congr hparts.2))

theorem validate_eq_ok_iff_of_same (h : (a == b) = true) :
    a.validate = .ok () ↔ b.validate = .ok () := by
  rw [validate_eq_ok_iff, validate_eq_ok_iff]
  exact ⟨(lighter_of_same (beq_symm h)).conflict?_eq_none,
    (lighter_of_same h).conflict?_eq_none⟩

/-- Both fail, or both succeed with equal queries. -/
inductive SameOutcome {ε : Type} : Except ε Query → Except ε Query → Prop
  | error (fault fault' : ε) : SameOutcome (.error fault) (.error fault')
  | ok {a b : Query} (h : (a == b) = true) : SameOutcome (.ok a) (.ok b)

theorem merge_congr (ha : (a == a') = true) (hb : (b == b') = true) :
    SameOutcome (a.merge b) (a'.merge b') := by
  have hnoop := isNoop_eq_of_same ha
  have hnoop' := isNoop_eq_of_same hb
  unfold merge
  rw [hnoop, hnoop']
  split
  · exact .ok ha
  · split
    · exact .ok hb
    · have hvalid := validate_eq_ok_iff_of_same (conjoin_congr ha hb)
      dsimp only
      generalize (conjoin a b).validate = checked, (conjoin a' b').validate = checked' at hvalid
      cases checked with
      | error fault =>
        cases checked' with
        | error fault' => exact .error fault fault'
        | ok => cases hvalid.mpr rfl
      | ok =>
        cases checked' with
        | error fault' => cases hvalid.mp rfl
        | ok => exact .ok (conjoin_congr ha hb)

theorem consolidate_congr (operation : Operation) (h : (a == a') = true) :
    SameOutcome (a.consolidate operation) (a'.consolidate operation) := by
  unfold consolidate
  split
  · exact .ok (foldSpine_congr operation h)
  · exact .error _ _

/-! ### The use of properties -/

theorem alike_properties (h : (a == a') = true) :
    List.Forall₂ (fun p q ↦ (p == q) = true) a.properties a'.properties := by
  cases same_iff.mp h with
  | select hproperties => exact list_beq_iff.mp hproperties
  | sort hkeys =>
    refine List.forall₂_map_left_iff.mpr (List.forall₂_map_right_iff.mpr ?_)
    exact (list_beq_iff.mp hkeys).imp fun _ _ hkey ↦ (SortKey.beq_iff.mp hkey).2
  | compare _ hproperty => exact .cons hproperty .nil
  | pattern _ hproperty => exact .cons hproperty .nil
  | membership _ hproperty => exact .cons hproperty .nil
  | @count p q hproperty =>
    cases p <;> cases q <;> first | exact .nil | exact .cons hproperty .nil | cases hproperty
  | values hproperty => exact .cons hproperty .nil
  | summary _ hproperty => exact .cons hproperty .nil
  | aggregate hgroups => exact list_beq_iff.mp hgroups
  | _ => exact .nil

theorem uses_congr {test : Property → Bool} (htest : Property.Caseless test)
    (h : (a == a') = true) : a.uses test = a'.uses test := by
  rw [uses_eq_any_preorder, uses_eq_any_preorder]
  exact any_congr_of_forall₂ (alike_preorder h) fun _ _ hnode ↦
    any_congr_of_forall₂ (alike_properties hnode) htest

/-- Equality of queries is an equivalence, and equal queries cannot be told apart: what becomes of
them in merging, consolidating and pruning is equal, or fails for both, and they are valid, use a
property and pass a set of members together. The numbers that queries hold are finite, as those
that a reader yields, so each is equal to itself. -/
theorem equality_is_congruence :
    (∀ a : Query, (a == a) = true) ∧
    (∀ a b : Query, (a == b) = true → (b == a) = true) ∧
    (∀ a b c : Query, (a == b) = true → (b == c) = true → (a == c) = true) ∧
    ∀ a a' : Query, (a == a') = true →
      (∀ b b' : Query, (b == b') = true → SameOutcome (a.merge b) (a'.merge b')) ∧
      (∀ operation, SameOutcome (a.consolidate operation) (a'.consolidate operation)) ∧
      (∀ operation, (a.prune operation == a'.prune operation) = true) ∧
      (a.validate = .ok () ↔ a'.validate = .ok ()) ∧
      (∀ path, a.references path false = a'.references path false) ∧
      ∀ members : Members, members.check a = .ok () ↔ members.check a' = .ok () := by
  refine ⟨beq_refl, fun _ _ ↦ beq_symm, fun _ _ _ ↦ beq_trans, fun a a' h ↦
    ⟨fun b b' ↦ merge_congr h, fun operation ↦ consolidate_congr operation h,
      fun operation ↦ prune_congr operation h, validate_eq_ok_iff_of_same h, fun path ↦ ?_,
      fun members ↦ ?_⟩⟩
  · rw [references_eq_uses, references_eq_uses,
      uses_congr (Property.caseless_startsWith path) h]
  · rw [members.check_eq_ok_iff, members.check_eq_ok_iff,
      uses_congr members.caseless_not_admits h]

/-- Paths and texts in other letters, another scale of a decimal and a negative zero make no
difference to what is united. -/
theorem equality_is_congruence_lists :
    let zero : FloatingPoint .binary64 := ⟨false, 0, -1074, by decide⟩
    let tenths : ScaledDecimal := ⟨10, 1, by decide, by decide⟩
    let whole : ScaledDecimal := ⟨1, 0, by decide, by decide⟩
    let a := group .and [membership .among ⟨["a"]⟩ [.string "X", .double zero], select [⟨["b"]⟩]]
    let a' := group .and [membership .among ⟨["A"]⟩ [.string "x",
      .double { zero with negative := true }], select [⟨["B"]⟩]]
    let b := membership .among ⟨["a"]⟩ [.decimal tenths, .string "x"]
    let b' := membership .among ⟨["A"]⟩ [.decimal whole, .string "X"]
    (a == a') = true ∧ (b == b') = true ∧ SameOutcome (a.merge b) (a'.merge b') ∧
      a.merge b = .ok (group .and [membership .among ⟨["a"]⟩
        [.string "X", .double zero, .decimal tenths], select [⟨["b"]⟩]]) := by
  intro zero tenths whole a a' b b'
  have ha : (a == a') = true := by rfl
  have hb : (b == b') = true := by rfl
  exact ⟨ha, hb, (equality_is_congruence.2.2.2 a a' ha).1 b b' hb, rfl⟩

end Query

end ResourceQuery
