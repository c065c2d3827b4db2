import ResourceQuery.Proofs.TokenText
import ResourceQuery.Proofs.TreeContents

/-!
# Segments of properties

The properties of a query that has been read are put together from words and whole numbers. Each of
their segments has characters, and none of these is a point or a blank, so the path of a property
names that property again.
-/

namespace ResourceQuery

open Grammar

/-! ### Paths -/

/-- The pieces between separators are made of the other characters of a text. -/
theorem mem_of_mem_splitOn {separator : Char} {text piece : List Char}
    (h : piece ∈ text.splitOn separator) : ∀ c ∈ piece, c ∈ text ∧ c ≠ separator := by
  induction text generalizing piece with
  | nil => simp_all
  | cons d text ih =>
    have hrest {piece : List Char} (hmem : piece ∈ text.splitOn separator) :
        ∀ c ∈ piece, c ∈ d :: text ∧ c ≠ separator :=
      fun c hc ↦ ⟨List.mem_cons_of_mem d (ih hmem c hc).1, (ih hmem c hc).2⟩
    rw [List.splitOn_cons_eq_if_modifyHead] at h
    split at h
    · obtain rfl | hmem := List.mem_cons.mp h
      · exact nofun
      · exact hrest hmem
    · next hd =>
      cases hsplit : text.splitOn separator with
      | nil => exact absurd hsplit (List.splitOn_ne_nil _ _)
      | cons first rest =>
        rw [hsplit] at h hrest
        obtain rfl | hmem := List.mem_cons.mp h
        · exact List.forall_mem_cons.mpr
            ⟨⟨List.mem_cons_self, by simpa using hd⟩, hrest List.mem_cons_self⟩
        · exact hrest (List.mem_cons_of_mem first hmem)

theorem mem_of_mem_intercalate {separator : String} {texts : List String} {c : Char}
    (h : c ∈ (separator.intercalate texts).toList) :
    c ∈ separator.toList ∨ ∃ text ∈ texts, c ∈ text.toList := by
  induction texts with
  | nil => simp at h
  | cons text rest ih =>
    cases rest with
    | nil => exact .inr ⟨text, by simp, by simpa using h⟩
    | cons next rest =>
      rw [String.intercalate_cons_cons, String.toList_append, String.toList_append,
        List.mem_append, List.mem_append] at h
      obtain (h | h) | h := h
      · exact .inr ⟨text, by simp, h⟩
      · exact .inl h
      · exact (ih h).imp_right fun ⟨found, hmem, hc⟩ ↦ ⟨found, List.mem_cons_of_mem text hmem, hc⟩

namespace Property

/-- Every segment has the property. -/
def HasSegments (P : List Char → Prop) (property : Property) : Prop :=
  ∀ segment ∈ property.segments, P segment.toList

/-- Every segment has characters, and each may stand in a segment. -/
def IsClean (property : Property) : Prop :=
  ∀ segment ∈ property.segments, IsSegment segment.toList

theorem hasSegments_ofPath {P : List Char → Prop} {path : String}
    (h : ∀ piece ∈ path.toList.splitOn '.', piece ≠ [] → P piece) :
    (ofPath path).HasSegments P := by
  intro segment hsegment
  obtain ⟨piece, hpiece, rfl⟩ := List.mem_map.mp hsegment
  obtain ⟨hmem, hne⟩ := List.mem_filter.mp hpiece
  rw [String.toList_ofList]
  exact h piece hmem (by simpa using hne)

theorem hasSegments_concat {P : List Char → Prop} {parts : List Property}
    (h : ∀ part ∈ parts, part.HasSegments P) : (concat parts).HasSegments P := by
  intro segment hsegment
  obtain ⟨part, hpart, hsegment⟩ := List.mem_flatMap.mp hsegment
  exact h part hpart segment hsegment

theorem toList_path (property : Property) :
    property.path.toList = ['.'].intercalate (property.segments.map String.toList) := by
  rw [path, String.toList_intercalate]
  rfl

/-- The characters of a path are points and those of its segments. -/
theorem IsClean.path_chars {property : Property} (h : property.IsClean) {c : Char}
    (hc : c ∈ property.path.toList) : c = '.' ∨ isSegmentChar c = true := by
  obtain hpoint | ⟨segment, hmem, hc⟩ := mem_of_mem_intercalate hc
  · exact .inl (by simpa using hpoint)
  · exact .inr ((h segment hmem).2 c hc)

theorem IsClean.not_blank {property : Property} (h : property.IsClean) {c : Char}
    (hc : c ∈ property.path.toList) : Text.isBlank c = false := by
  obtain rfl | hsegment := h.path_chars hc
  · decide
  · rw [isSegmentChar, Bool.and_eq_true, Bool.or_eq_true, beq_iff_eq] at hsegment
    obtain hword | rfl := hsegment.2
    · exact not_blank_of_isWordChar hword
    · decide

/-- The path of a clean property is its own again. -/
theorem ofPath_path {property : Property} (h : property.IsClean) :
    ofPath property.path = property := by
  obtain ⟨segments⟩ := property
  have hpoint : ∀ piece ∈ segments.map String.toList, '.' ∉ piece := by
    rintro _ hpiece hmem
    obtain ⟨segment, hsegment, rfl⟩ := List.mem_map.mp hpiece
    exact absurd ((h segment hsegment).2 '.' hmem) (by decide)
  have hpieces : ∀ piece ∈ segments.map String.toList, piece ≠ [] := by
    rintro _ hpiece
    obtain ⟨segment, hsegment, rfl⟩ := List.mem_map.mp hpiece
    exact (h segment hsegment).1
  rw [ofPath, toList_path, mk.injEq]
  cases segments with
  | nil => rfl
  | cons first rest =>
    have hall : (first :: rest).map String.toList |>.all (!·.isEmpty) := by
      simpa using hpieces
    calc (((['.'].intercalate ((first :: rest).map String.toList)).splitOn '.').filter
          (!·.isEmpty)).map String.ofList
      _ = (((first :: rest).map String.toList).filter (!·.isEmpty)).map String.ofList := by
        rw [List.splitOn_intercalate '.' hpoint (by simp)]
      _ = ((first :: rest).map String.toList).map String.ofList := by
        rw [List.filter_eq_self.mpr (List.all_eq_true.mp hall)]
      _ = first :: rest := by
        simp

end Property

/-! ### Tokens of paths -/

/-- The segments that the token may contribute to a path have the property. -/
structure Token.FitsPath (P : List Char → Prop) (token : Token) : Prop where
  word : token.symbol = .property →
    ∀ piece ∈ token.text.toList.splitOn '.', piece ≠ [] → P piece
  number : ∀ n, token.value = some (.integer n) → P token.text.toList

theorem Lexeme.eq_property_of_symbol {lexeme : Lexeme} (h : lexeme.symbol = .property) :
    lexeme = .plain .property := by
  cases lexeme with
  | plain symbol => exact congrArg Lexeme.plain h
  | literal value => cases h
  | splitSign order => cases h

theorem Lexeme.eq_literal_of_value? {lexeme : Lexeme} {value : Value}
    (h : lexeme.value? = some value) : lexeme = .literal value := by
  cases lexeme with
  | literal other => exact congrArg Lexeme.literal (Option.some.inj h)
  | plain symbol => cases h
  | splitSign order => cases h

namespace Lexer

variable {lexer rest : Lexer} {token : Token} {c : Char} {cursor last : Cursor}

theorem eq_readWhile_of_scanLexeme
    (h : lexer.scanLexeme c cursor = .ok (.plain .property) last) :
    last = (cursor.readWhile isWordChar).2 := by
  unfold scanLexeme at h
  split at h
  · cases h
    rfl
  · exact Lexeme.eq_readWhile_of_scan h

theorem word_of_scanLexeme (h : lexer.scanLexeme c cursor = .ok (.plain .property) last) :
    ∀ c ∈ last.textFrom cursor.position, isWordChar c = true := by
  have hlast := eq_readWhile_of_scanLexeme h
  have hread : Scan.readWhile isWordChar cursor =
      .ok (cursor.readWhile isWordChar).1 (cursor.readWhile isWordChar).2 := rfl
  obtain ⟨run, hrun, rfl, hword⟩ := Scan.spells_readWhile isWordChar _ _ hread
  rwa [hlast, hrun.textFrom_eq]

/-- The pieces of a word between points are segments. -/
theorem isSegment_of_mem_splitOn {word piece : List Char} (h : ∀ c ∈ word, isWordChar c = true)
    (hpiece : piece ∈ word.splitOn '.') (hne : piece ≠ []) : IsSegment piece := by
  refine ⟨hne, fun c hc ↦ ?_⟩
  obtain ⟨hc, hpoint⟩ := mem_of_mem_splitOn hpiece c hc
  exact isSegmentChar_of_isWordChar (h c hc) hpoint

theorem isSegment_of_scanLexeme {n : SizedInteger}
    (h : lexer.scanLexeme c cursor = .ok (.literal (.integer n)) last) :
    IsSegment (last.textFrom cursor.position) := by
  unfold scanLexeme at h
  split at h
  · cases h
  · obtain ⟨run, hrun, hsegment⟩ := Lexeme.isSegment_of_scan h
    rwa [hrun.textFrom_eq]

theorem fitsPath_of_scanLexeme {lexeme : Lexeme} (place : Nat)
    (h : lexer.scanLexeme c cursor = .ok lexeme last) :
    (lexeme.token (String.ofList (last.textFrom cursor.position)) place).FitsPath IsSegment := by
  constructor
  · intro hsymbol piece hpiece hne
    obtain rfl := Lexeme.eq_property_of_symbol hsymbol
    rw [Lexeme.token, String.toList_ofList] at hpiece
    exact isSegment_of_mem_splitOn (word_of_scanLexeme h) hpiece hne
  · intro n hvalue
    obtain rfl := Lexeme.eq_literal_of_value? hvalue
    simpa [Lexeme.token] using isSegment_of_scanLexeme h

theorem fitsPath_of_next (h : lexer.next = (.ok token, rest)) : token.FitsPath IsSegment := by
  cases isNext_of_next h with
  | stop => exact ⟨nofun, fun _ h ↦ nomatch h⟩
  | lexeme _ hscan => exact fitsPath_of_scanLexeme _ hscan

end Lexer

/-! ### Trees -/

namespace Query

/-- Every property in the tree has it. -/
def AllProperties (P : Property → Prop) (query : Query) : Prop :=
  ∀ node ∈ query.preorder, ∀ property ∈ node.properties, P property

theorem allProperties_iff {P : Property → Prop} {query : Query} :
    query.AllProperties P ↔ (∀ property ∈ query.properties, P property) ∧
      ∀ node ∈ query.nodes, node.AllProperties P :=
  allHeld_iff

theorem allProperties_of_nodes_eq_nil {P : Property → Prop} {query : Query}
    (hnodes : query.nodes = []) (h : ∀ property ∈ query.properties, P property) :
    query.AllProperties P :=
  allHeld_of_nodes_eq_nil hnodes h

theorem allProperties_of_properties_eq {P : Property → Prop} {query : Query} {property : Property}
    (hproperties : query.properties = [property]) (hnodes : query.nodes = []) (h : P property) :
    query.AllProperties P :=
  allProperties_of_nodes_eq_nil hnodes (by rwa [hproperties, List.forall_mem_singleton])

end Query

/-! ### Phrases with properties -/

namespace Grammar

variable {tokens : List Token} {property : Property} {P : List Char → Prop}

theorem Word.hasSegments (h : Word tokens property) (htokens : ∀ token ∈ tokens, token.FitsPath P) :
    property.HasSegments P := by
  obtain ⟨hword⟩ := h
  exact Property.hasSegments_ofPath ((htokens _ (List.mem_singleton.mpr rfl)).word hword)

theorem Segment.hasSegments (h : Segment tokens property)
    (htokens : ∀ token ∈ tokens, token.FitsPath P) : property.HasSegments P := by
  cases h with
  | word hword => exact hword.hasSegments htokens
  | @number number n hsymbol hvalue =>
    intro segment hsegment
    obtain rfl := List.mem_singleton.mp hsegment
    exact (htokens number (List.mem_singleton.mpr rfl)).number n hvalue

/-- What the tokens of each item allow to be said of it can be said of all items. -/
theorem Separated.holds {α : Type} {separator : Symbol} {item : Phrase α} {P : α → Prop}
    {Q : Token → Prop} {items : List α} (h : Separated separator item tokens items)
    (htokens : ∀ token ∈ tokens, Q token)
    (hitem : ∀ tokens a, item tokens a → (∀ token ∈ tokens, Q token) → P a) :
    ∀ a ∈ items, P a :=
  h.inside.forall fun piece a hpiece ↦
    hitem piece a hpiece.1 fun token hmem ↦ htokens token (hpiece.2.subset hmem)

theorem Path.hasSegments (h : Path tokens property) (htokens : ∀ token ∈ tokens, token.FitsPath P) :
    property.HasSegments P := by
  obtain ⟨hword, hrest⟩ := h
  obtain ⟨hfirst, hmore⟩ := List.forall_mem_append.mp htokens
  refine Property.hasSegments_concat (List.forall_mem_cons.mpr ⟨hword.hasSegments hfirst, ?_⟩)
  cases hrest with
  | nil => exact nofun
  | cons hsign hitems =>
    exact hitems.holds (List.forall_mem_cons.mp hmore).2 fun _ _ ↦ Segment.hasSegments

theorem Subject.hasSegments (h : Subject tokens property)
    (htokens : ∀ token ∈ tokens, token.FitsPath P) : property.HasSegments P := by
  cases h with
  | path hpath => exact hpath.hasSegments htokens
  | compound hopening hparts hclosing =>
    exact Property.hasSegments_concat
      (hparts.holds (fun token hmem ↦ htokens token (by simp [hmem])) fun _ _ ↦ Path.hasSegments)

theorem Key.hasSegments {key : SortKey} (h : Key tokens key)
    (htokens : ∀ token ∈ tokens, token.FitsPath P) : key.property.HasSegments P := by
  cases h with
  | plain hsubject => exact hsubject.hasSegments htokens
  | signed hsign hsubject => exact hsubject.hasSegments (List.forall_mem_cons.mp htokens).2

theorem Counted.hasSegments {counted : Option Property} (h : Counted tokens counted)
    (htokens : ∀ token ∈ tokens, token.FitsPath P) :
    ∀ property ∈ counted, property.HasSegments P := by
  cases h with
  | all => exact nofun
  | some hsubject =>
    rintro _ ⟨⟩
    exact hsubject.hasSegments htokens

theorem allProperties_count {counted : Option Property}
    (h : ∀ property ∈ counted, property.HasSegments P) :
    (Query.count counted).AllProperties (Property.HasSegments P) := by
  refine Query.allProperties_of_nodes_eq_nil rfl ?_
  cases counted with
  | none => exact nofun
  | some property => simpa [Query.properties] using h

theorem AggregateItem.hasSegments {child : Child} (h : AggregateItem tokens child)
    (htokens : ∀ token ∈ tokens, token.FitsPath P) :
    (∃ property, child = .property property ∧ property.HasSegments P) ∨
      ∃ query, child = .node query ∧ query.AllProperties (Property.HasSegments P) := by
  cases h with
  | group hsubject => exact .inl ⟨_, rfl, hsubject.hasSegments htokens⟩
  | @summary _ op property hcall =>
    obtain ⟨-, -, hsubject, -⟩ := hcall
    have hsegments := hsubject.hasSegments fun token hmem ↦ htokens token (by simp [hmem])
    exact .inr ⟨_, rfl, Query.allProperties_of_properties_eq rfl rfl hsegments⟩
  | count hcall =>
    obtain ⟨-, -, hcounted, -⟩ := hcall
    have hsegments := hcounted.hasSegments fun token hmem ↦ htokens token (by simp [hmem])
    exact .inr ⟨_, rfl, allProperties_count hsegments⟩

theorem Arguments.allProperties {keyword : Keyword} {query : Query}
    (h : Arguments keyword tokens query) (htokens : ∀ token ∈ tokens, token.FitsPath P) :
    query.AllProperties (Property.HasSegments P) := by
  have hfront {first second : List Token} {comma : Token} (h : tokens = first ++ comma :: second) :
      ∀ token ∈ first, token.FitsPath P :=
    fun token hmem ↦ htokens token (by simp [h, hmem])
  cases h with
  | select hproperties =>
    have hsegments := hproperties.holds htokens fun _ _ ↦ Subject.hasSegments
    exact Query.allProperties_of_nodes_eq_nil rfl hsegments
  | @sort _ keys hkeys =>
    have hsegments : ∀ key ∈ keys, key.property.HasSegments P :=
      hkeys.holds htokens fun _ _ ↦ Key.hasSegments
    refine Query.allProperties_of_nodes_eq_nil rfl ?_
    simpa [Query.properties] using hsegments
  | compare hsubject | pattern hsubject | membership hsubject =>
    exact Query.allProperties_of_properties_eq rfl rfl (hsubject.hasSegments (hfront rfl))
  | count hcounted => exact allProperties_count (hcounted.hasSegments htokens)
  | values hsubject | summary hsubject =>
    exact Query.allProperties_of_properties_eq rfl rfl (hsubject.hasSegments htokens)
  | @aggregate _ groups functions hitems =>
    have hsegments := hitems.holds htokens fun _ _ ↦ AggregateItem.hasSegments
    refine Query.allProperties_iff.mpr ⟨fun property hmem ↦ ?_, fun function hmem ↦ ?_⟩
    · have hchild : Child.property property ∈ groups.map .property ++ functions.map .node :=
        List.mem_append_left _ (List.mem_map_of_mem hmem)
      obtain ⟨other, hother, h⟩ | ⟨other, hother, h⟩ := hsegments _ hchild
      · cases hother
        exact h
      · cases hother
    · have hchild : Child.node function ∈ groups.map .property ++ functions.map .node :=
        List.mem_append_right _ (List.mem_map_of_mem hmem)
      obtain ⟨other, hother, h⟩ | ⟨other, hother, h⟩ := hsegments _ hchild
      · cases hother
      · cases hother
        exact h
  | limit | distinct | first | one =>
    exact Query.allProperties_of_nodes_eq_nil rfl (List.forall_mem_nil _)

theorem Clauses.allProperties {query : Query} (h : Clauses tokens query)
    (htokens : ∀ token ∈ tokens, token.FitsPath P) :
    query.AllProperties (Property.HasSegments P) := by
  refine h.holds (fun joiner queries _ hqueries ↦ ?_)
    (fun first second op property value htokens hsubject _ ↦ ?_)
    (fun keyword tokens query htokens h ↦ h.allProperties htokens) htokens
  · exact Query.allProperties_iff.mpr ⟨nofun, hqueries⟩
  · have hsegments := hsubject.hasSegments (List.forall_mem_append.mp htokens).1
    exact Query.allProperties_of_properties_eq rfl rfl hsegments

end Grammar

/-! ### Finished queries -/

namespace Query

/-- The properties of a union are those of the two clauses. -/
theorem holding_properties : Holding properties where
  noop := rfl
  group _ _ := rfl
  absorb {a b property} h := by
    unfold Query.absorb at h
    split at h
    · exact mem_of_mem_appendNew h
    · obtain ⟨key, hkey, rfl⟩ := List.mem_map.mp h
      exact (mem_of_mem_appendNew hkey).imp List.mem_map_of_mem List.mem_map_of_mem
    · exact .inl h
    · exact .inl h

/-- Every property of a query that has been read is clean. -/
theorem allProperties_isClean_of_read {options : ReadOptions} {text : String} {query : Query}
    (h : read options text = .ok query) : query.AllProperties Property.IsClean :=
  holding_properties.allHeld_of_read (fun _ _ ↦ Clauses.allProperties)
    (fun _ _ ↦ Lexer.forall_of_scan fun _ _ _ _ ↦ Lexer.fitsPath_of_next) h

end Query

end ResourceQuery
