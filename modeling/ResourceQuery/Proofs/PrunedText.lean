import ResourceQuery.Proofs.Introductions
import ResourceQuery.Proofs.LocalDates
import ResourceQuery.Proofs.Reachable

/-!
# Texts of pruned queries

Clauses are taken out of a query and the text of what is left is passed on. If the text of the query
reads back then so does that text, but for two things that pruning may do: it leaves an aggregate
without groups and functions, for which there is no text, or it brings a comparison to the front
that is taken for an introduction.
-/

namespace ResourceQuery.Query

open Grammar Text Percent

variable {options : ReadOptions} {operation : Operation} {query again : Query} {text : List Char}

/-- The query is read, as an equal one, from what is printed for it in the standard style. -/
def Survives (options : ReadOptions) (query : Query) : Prop :=
  ∃ again, read options (query.print .standard) = .ok again ∧ (again == query) = true

/-- A query that is read is finished from what a sentence means. -/
theorem exists_sentence_of_scan (h : scan options text = .ok query) :
    ∃ tokens parsed, Lexer.scan text options.localOffset = .ok ⟨tokens⟩ ∧
      Sentence tokens parsed ∧ finish options parsed = .ok query := by
  obtain ⟨⟨tokens⟩, parsed, rest, hscan, hparse, hfinish⟩ := exists_parse_of_scan h
  have hvalued := Lexer.literalsValued_of_scan hscan
  obtain ⟨inner, stop, rfl, hstop, hinner⟩ :=
    Lexer.exists_stop_of_yields (Lexer.scan_eq_ok_iff.mp hscan)
  exact ⟨_, parsed, hscan, Parse.sentence_of_query_eq_ok hinner hstop hvalued hparse, hfinish⟩

/-! ### What the nodes of a pruned tree hold -/

section Nodes

variable {P : Query → Prop}

theorem forall_preorder_iff : (∀ node ∈ query.preorder, P node) ↔
    P query ∧ ∀ node ∈ query.nodes, ∀ below ∈ node.preorder, P below := by
  rw [preorder_eq_cons, List.forall_mem_cons, List.forall_mem_flatMap]

/-- What holds of all nodes of a tree, and does not depend on the terms of groups and the functions
of aggregates, holds of all nodes that are left after pruning. -/
theorem forall_preorder_prune (hnoop : P noop) (hgroup : ∀ joiner terms, P (group joiner terms))
    (haggregate : ∀ groups functions others, P (aggregate groups functions) →
      P (aggregate groups others))
    (h : ∀ node ∈ query.preorder, P node) : ∀ node ∈ (query.prune operation).preorder, P node := by
  induction query using nodes_induction with
  | h query ih =>
    have hnodes := (forall_preorder_iff.mp h).2
    have hpruned : ∀ node ∈ pruneAll operation query.nodes, ∀ below ∈ node.preorder, P below := by
      intro node hmem
      obtain ⟨⟨whole, hwhole, rfl⟩, -⟩ := mem_pruneAll.mp hmem
      exact ih whole hwhole (hnodes whole hwhole)
    unfold prune
    split
    · exact List.forall_mem_singleton.mpr hnoop
    · split
      · next joiner terms _ =>
        unfold join
        split
        · exact List.forall_mem_singleton.mpr hnoop
        · next term hterm =>
          exact hpruned term (by rw [nodes, hterm]; exact List.mem_singleton_self _)
        · exact forall_preorder_iff.mpr ⟨hgroup _ _, hpruned⟩
      · next groups functions _ =>
        have hself := haggregate _ _ (pruneAll operation functions) (forall_preorder_iff.mp h).1
        exact forall_preorder_iff.mpr ⟨hself, hpruned⟩
      · exact h

theorem AllProperties.prune {P : Property → Prop} (h : query.AllProperties P)
    (operation : Operation) : (query.prune operation).AllProperties P :=
  forall_preorder_prune (List.forall_mem_nil _) (fun _ _ ↦ List.forall_mem_nil _)
    (fun _ _ _ hgroups ↦ hgroups) h

theorem IsLegible.prune {style : Style} {localOffset : UtcOffset}
    (h : query.IsLegible style localOffset) (operation : Operation) :
    (query.prune operation).IsLegible style localOffset :=
  forall_preorder_prune ⟨List.forall_mem_nil _, List.forall_mem_nil _⟩
    (fun _ _ ↦ ⟨List.forall_mem_nil _, List.forall_mem_nil _⟩) (fun _ _ _ hgroups ↦ hgroups) h

end Nodes

/-! ### Aggregates without entries -/

theorem WellFormed.aggregate_nil_notMem (h : query.WellFormed) :
    Query.aggregate [] [] ∉ query.preorder := by
  induction h with
  | @group joiner terms _ _ ih =>
    rw [preorder_eq_cons, List.mem_cons, not_or]
    refine ⟨nofun, fun hmem ↦ ?_⟩
    obtain ⟨term, hterm, hbelow⟩ := List.mem_flatMap.mp hmem
    exact ih term hterm hbelow
  | @aggregate groups functions hne hfunctions =>
    rw [preorder_eq_cons, List.mem_cons, not_or]
    refine ⟨?_, fun hmem ↦ ?_⟩
    · rintro ⟨rfl, rfl⟩
      exact hne rfl
    · obtain ⟨function, hfunction, hbelow⟩ := List.mem_flatMap.mp hmem
      cases function with
      | summary | count => cases List.mem_singleton.mp hbelow
      | _ => cases hfunctions _ hfunction
  | _ => exact fun hmem ↦ by cases List.mem_singleton.mp hmem

/-- A tree in which nothing is missing is well-formed, if its aggregates have entries. -/
theorem Intact.wellFormed (h : query.Intact) (hentries : aggregate [] [] ∉ query.preorder) :
    query.WellFormed := by
  induction query using nodes_induction with
  | h query ih =>
    obtain ⟨hself, hnodes⟩ := intact_iff.mp h
    rw [preorder_eq_cons, List.mem_cons, not_or, List.mem_flatMap, not_exists] at hentries
    cases query with
    | noop => exact hself.elim
    | limit => exact .limit _
    | select => exact .select hself
    | sort => exact .sort hself
    | group joiner terms =>
      exact .group hself fun term hmem ↦
        ih term hmem (hnodes term hmem) fun hbelow ↦ hentries.2 term ⟨hmem, hbelow⟩
    | compare => exact .compare _ _ _
    | pattern => exact .pattern _ hself
    | membership => exact .membership _ _ hself
    | distinct => exact .distinct
    | first => exact .first
    | one => exact .one
    | count => exact .count _
    | values => exact .values _
    | summary => exact .summary _ _
    | aggregate groups functions =>
      refine .aggregate (fun hnil ↦ hentries.1 ?_) hself
      obtain ⟨hgroups, hfunctions⟩ := List.append_eq_nil_iff.mp hnil
      rw [List.map_eq_nil_iff.mp hgroups, List.map_eq_nil_iff.mp hfunctions]

/-- An aggregate without entries is equal to no other query. -/
theorem aggregate_nil_notMem_of_same (hsame : (again == query) = true)
    (h : aggregate [] [] ∉ again.preorder) : aggregate [] [] ∉ query.preorder := by
  have hnodes : List.Forall₂ (fun a b : Query ↦ a ≠ aggregate [] [] ∧ (a == b) = true)
      again.preorder query.preorder :=
    (List.forall₂_and_left _ _).mpr ⟨fun _ hmem heq ↦ h (heq ▸ hmem), alike_preorder hsame⟩
  refine fun hmem ↦ forall_mem_of_forall₂ (P := (· ≠ aggregate [] [])) hnodes hnodes ?_ _ hmem rfl
  rintro a b ⟨hne, hab⟩ - rfl
  cases same_iff.mp hab with
  | aggregate hgroups hfunctions =>
    cases hfunctions
    cases list_beq_iff.mp hgroups
    exact hne rfl

/-! ### Queries that survive -/

/-- In the text of the query nothing is decoded. -/
def Undecoded (options : ReadOptions) (query : Query) : Prop :=
  options.percentDecode = true → query.AllProperties fun property ↦ ¬HasCode property.path.toList

theorem Undecoded.prune (h : query.Undecoded options) (operation : Operation) :
    (query.prune operation).Undecoded options :=
  fun hdecode ↦ (h hdecode).prune operation

theorem Undecoded.prepare_print (h : query.Undecoded options) (style : Style) :
    prepare options (query.print style).toList = .ok (strip (query.print style).toList) := by
  by_cases hdecode : options.percentDecode = true
  · exact prepare_of_not_hasCode ((not_hasCode_printWithin_iff true).mpr (h hdecode))
  · rw [prepare, decode, if_neg hdecode]
    rfl

section Survives

variable (hplain : options.consolidate = false)
include hplain

theorem Survives.undecoded (h : query.Survives options) : query.Undecoded options := by
  obtain ⟨again, hread, hsame⟩ := h
  exact fun hdecode ↦ (not_hasCode_printWithin_iff true).mp
    (not_hasCode_print_of_read hplain hdecode hread hsame)

theorem Survives.exists_sentence (h : query.Survives options) :
    ∃ tokens again,
      Lexer.scan (strip (query.print .standard).toList) options.localOffset = .ok ⟨tokens⟩ ∧
      Sentence tokens again ∧ (again == query) = true := by
  have hundecoded := h.undecoded hplain
  obtain ⟨again, hread, hsame⟩ := h
  obtain ⟨prepared, hprepare, hscan⟩ := exists_scan_of_read hread
  rw [hundecoded.prepare_print] at hprepare
  cases hprepare
  obtain ⟨tokens, parsed, htokens, hsentence, hfinish⟩ := exists_sentence_of_scan hscan
  obtain ⟨-, hparsed⟩ := finish_eq_ok hfinish
  rw [hplain, if_neg (by decide)] at hparsed
  exact ⟨tokens, parsed, htokens, hsentence, hparsed ▸ hsame⟩

/-- A sound query survives just if nothing in its text is decoded, what it holds reads back from
there, no aggregate is without entries, and the text does not look introduced. -/
theorem survives_iff (hholds : query.Holds) (hclean : query.AllProperties Property.IsClean) :
    query.Survives options ↔
      query.Undecoded options ∧ query.IsLegible .standard options.localOffset ∧
        aggregate [] [] ∉ query.preorder ∧
        ∀ op property value, query.leading = compare op property value →
          ¬property.Introduces op := by
  have hwell (hentries : aggregate [] [] ∉ query.preorder) :
      query = noop ∨ query.WellFormed := hholds.isSound.imp_right fun h ↦ h.wellFormed hentries
  have hstrip (hleading : ∀ op property value, query.leading = compare op property value →
      ¬property.Introduces op) :
      strip (query.print .standard).toList = (query.print .standard).toList := by
    refine strip_eq_self_iff.mpr ⟨noBlankEnds_printWithin true hclean, ?_⟩
    rw [isIntroduced_print_standard_iff hclean]
    rintro ⟨op, property, value, hcompare, hintroduces⟩
    exact hleading op property value hcompare hintroduces
  constructor
  · intro h
    obtain ⟨tokens, again, hscan, hsentence, hsame⟩ := h.exists_sentence hplain
    have hleading (op : Comparison) (property : Property) (value : Value)
        (hcompare : query.leading = compare op property value) : ¬property.Introduces op :=
      not_introduces_of_sentence hclean hcompare hscan hsentence hsame
    have hentries : aggregate [] [] ∉ query.preorder := by
      refine aggregate_nil_notMem_of_same hsame ?_
      cases hsentence with
      | empty => exact fun hmem ↦ nomatch List.mem_singleton.mp hmem
      | clauses hclauses => exact hclauses.wellFormed.aggregate_nil_notMem
    refine ⟨h.undecoded hplain, ?_, hentries, hleading⟩
    obtain rfl | hquery := hwell hentries
    · exact isLegible_of_holds_nothing rfl rfl rfl nofun
    · rw [hstrip hleading] at hscan
      exact isLegible_of_sentence hquery hclean hscan hsentence hsame
  · rintro ⟨hundecoded, hlegible, hentries, hleading⟩
    have hread : read options (query.print .standard) =
        scan options (query.print .standard).toList := by
      rw [read, hundecoded.prepare_print, hstrip hleading]
      rfl
    rw [Survives, hread]
    obtain rfl | hquery := hwell hentries
    · exact ⟨noop, finish_noop, rfl⟩
    · have hfinish : finish options query = .ok query := by
        refine finish_eq_self hholds.conflict? ?_ ?_ <;> simp [hplain]
      exact scan_print .standard hfinish hquery hlegible

/-- If a query that is read survives then so does what is left of it after pruning, except if an
aggregate has lost all of its functions and has no groups, or if a comparison has come to the front
that reads as an introduction. -/
theorem survives_prune_iff {reading : ReadOptions} {text : String}
    (h : read reading text = .ok query) (hsurvives : query.Survives options)
    (operation : Operation) :
    (query.prune operation).Survives options ↔
      aggregate [] [] ∉ (query.prune operation).preorder ∧
        ∀ op property value, (query.prune operation).leading = compare op property value →
          ¬property.Introduces op := by
  have hholds := holds_of_read h
  have hclean := allProperties_isClean_of_read h
  obtain ⟨hundecoded, hlegible, -⟩ := (survives_iff hplain hholds hclean).mp hsurvives
  rw [survives_iff hplain (hholds.prune operation) (hclean.prune operation),
    and_iff_right (hundecoded.prune operation), and_iff_right (hlegible.prune operation)]

end Survives

/-- An aggregate that has lost its only function does not survive, nor does a comparison with a
question mark that was hidden behind a clause. -/
theorem survives_prune_iff_emptied :
    let plain : ReadOptions := { consolidate := false }
    let counts := aggregate [] [count none]
    let compared := compare .eq ⟨["?b"]⟩ .null
    let chosen := group .and [select [⟨["a"]⟩], compared]
    counts.Survives plain ∧ counts.prune (.clause .count) = aggregate [] [] ∧
      ¬(counts.prune (.clause .count)).Survives plain ∧
      chosen.Survives plain ∧ chosen.prune (.clause .select) = compared ∧
      ¬(chosen.prune (.clause .select)).Survives plain := by
  intro plain counts compared chosen
  have hcounts : read plain "aggregate(count())" = .ok counts := by cbv
  have hchosen : read plain "select(a)&?b=null" = .ok chosen := by cbv
  have hcountsSurvive : counts.Survives plain := ⟨counts, hcounts, rfl⟩
  have hchosenSurvive : chosen.Survives plain := ⟨chosen, hchosen, rfl⟩
  refine ⟨hcountsSurvive, rfl, ?_, hchosenSurvive, rfl, ?_⟩
  · rw [survives_prune_iff rfl hcounts hcountsSurvive]
    exact fun h ↦ h.1 (mem_preorder_self _)
  · rw [survives_prune_iff rfl hchosen hchosenSurvive]
    exact fun h ↦ h.2 _ _ _ rfl (.inl (by decide))

end ResourceQuery.Query
