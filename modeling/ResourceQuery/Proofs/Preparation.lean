import ResourceQuery.Proofs.Encoding
import ResourceQuery.Proofs.PrintedValues
import ResourceQuery.Proofs.Segments

/-!
# Preparing what has been printed

A text is prepared for reading by percent-decoding it and by taking off the blanks at its ends and
what introduces it. A printed query keeps its properties as they were written, so it is left as it
is just if no path has a percent code in it and, in the standard style, the query does not begin
with a comparison whose property looks like an introduction.
-/

namespace ResourceQuery

open Text Percent Query

/-! ### Texts that are left as they are -/

section Shortening

variable {text : List Char} {f g : List Char → List Char}

/-- Of two steps that only take characters away, the one after the other leaves a text as it is
just if each of them does. -/
theorem shorten_twice_eq_self_iff (hf : ∀ text, (f text).Sublist text)
    (hg : ∀ text, (g text).Sublist text) : g (f text) = text ↔ f text = text ∧ g text = text := by
  constructor
  · intro h
    have hkept : text.Sublist (f text) := by
      nth_rewrite 1 [← h]
      exact hg (f text)
    have hfirst : f text = text := (hf text).antisymm hkept
    rw [hfirst] at h
    exact ⟨hfirst, h⟩
  · rintro ⟨hfirst, hsecond⟩
    rw [hfirst, hsecond]

end Shortening

namespace Text

variable {text : List Char}

theorem trimStart_isSuffix (text : List Char) : trimStart text <:+ text :=
  List.dropWhile_suffix isBlank

theorem trimEnd_isPrefix (text : List Char) : trimEnd text <+: text :=
  List.rdropWhile_prefix isBlank text

theorem trimStart_eq_self_iff : trimStart text = text ↔ ∀ c ∈ text.head?, isBlank c = false := by
  cases text with
  | nil => simp [trimStart]
  | cons c rest => simp [trimStart, List.dropWhile_eq_self_iff]

theorem trimEnd_eq_self_iff : trimEnd text = text ↔ ∀ c ∈ text.getLast?, isBlank c = false := by
  have htrim : trimEnd text = text.rdropWhile isBlank := rfl
  rw [htrim, List.rdropWhile_eq_self_iff]
  cases text with
  | nil => simp
  | cons c rest => simp [List.getLast?_eq_getLast_of_ne_nil]

theorem trim_isInfix (text : List Char) : trim text <:+: text :=
  (trimEnd_isPrefix _).isInfix.trans (trimStart_isSuffix text).isInfix

theorem trim_eq_self_iff : trim text = text ↔ NoBlankEnds text := by
  rw [trim, shorten_twice_eq_self_iff (fun text ↦ (trimStart_isSuffix text).sublist)
    (fun text ↦ (trimEnd_isPrefix text).sublist), trimStart_eq_self_iff, trimEnd_eq_self_iff]
  exact ⟨fun h ↦ ⟨h.1, h.2⟩, fun h ↦ ⟨h.front, h.back⟩⟩

end Text

namespace Query

variable {text : List Char}

/-- The text begins with a question mark or with `rql=` in any case of the letters. -/
def IsIntroduced (text : List Char) : Prop :=
  text.head? = some '?' ∨ lowerAscii (text.take 4) = "rql=".toList

theorem dropQuestionMark_isSuffix (text : List Char) : dropQuestionMark text <:+ text := by
  unfold dropQuestionMark
  split
  · exact List.suffix_cons _ _
  · exact List.suffix_refl _

theorem dropQuestionMark_eq_self_iff :
    dropQuestionMark text = text ↔ ¬text.head? = some '?' := by
  unfold dropQuestionMark
  split
  · simp
  · next hmark =>
    refine iff_of_true rfl fun hhead ↦ ?_
    obtain ⟨rest, hrest⟩ := List.head?_eq_some_iff.mp hhead
    exact hmark rest hrest

theorem dropName_isSuffix (text : List Char) : dropName text <:+ text := by
  unfold dropName
  split
  · exact List.drop_suffix 4 text
  · exact List.suffix_refl _

theorem dropName_eq_self_iff :
    dropName text = text ↔ ¬lowerAscii (text.take 4) = "rql=".toList := by
  unfold dropName
  split
  · next hname =>
    refine iff_of_false (fun hsame ↦ ?_) (not_not.mpr hname)
    have hlength : text.length - 4 = text.length := by
      simpa using congrArg List.length hsame
    have hempty : text = [] := List.eq_nil_of_length_eq_zero (by omega)
    rw [hempty] at hname
    exact absurd hname (by decide)
  · next hname => exact iff_of_true rfl hname

theorem strip_isInfix (text : List Char) : strip text <:+: text :=
  (dropName_isSuffix _).isInfix.trans
    ((dropQuestionMark_isSuffix _).isInfix.trans (trim_isInfix text))

theorem strip_eq_self_iff : strip text = text ↔ NoBlankEnds text ∧ ¬IsIntroduced text := by
  have hmark (text : List Char) : (dropQuestionMark text).Sublist text :=
    (dropQuestionMark_isSuffix text).sublist
  have hfront (text : List Char) : (dropQuestionMark (trim text)).Sublist text :=
    (hmark _).trans (trim_isInfix text).sublist
  rw [strip, shorten_twice_eq_self_iff hfront (fun text ↦ (dropName_isSuffix text).sublist),
    shorten_twice_eq_self_iff (fun text ↦ (trim_isInfix text).sublist) hmark, trim_eq_self_iff,
    dropQuestionMark_eq_self_iff, dropName_eq_self_iff, and_assoc, IsIntroduced, not_or]

/-- Without a percent code a text is not changed before it is freed of what introduces it. -/
theorem prepare_of_not_hasCode {options : ReadOptions} (h : ¬HasCode text) :
    prepare options text = .ok (strip text) := by
  rw [prepare, decode]
  split
  · rw [decode_of_not_hasCode h]
    rfl
  · rfl

/-- With percent-decoding on, a text is left as it is just if nothing in it is decoded or taken
off. -/
theorem prepare_eq_self_iff {options : ReadOptions} (hdecode : options.percentDecode = true) :
    prepare options text = .ok text ↔
      ¬HasCode text ∧ NoBlankEnds text ∧ ¬IsIntroduced text := by
  rw [← strip_eq_self_iff]
  by_cases hcode : HasCode text
  · refine iff_of_false (fun h ↦ ?_) (fun h ↦ h.1 hcode)
    rw [prepare, decode, if_pos hdecode] at h
    cases hdecoded : Percent.decode text with
    | error fault =>
      rw [hdecoded] at h
      cases h
    | ok decoded =>
      rw [hdecoded] at h
      have hsame : strip decoded = text := Except.ok.inj h
      have hshort : decoded.length < text.length := length_lt_of_hasCode hcode hdecoded
      have hle := (strip_isInfix decoded).length_le
      rw [hsame] at hle
      omega
  · rw [prepare_of_not_hasCode hcode]
    exact ⟨fun h ↦ ⟨hcode, Except.ok.inj h⟩, fun h ↦ congrArg Except.ok h.2⟩

end Query

/-! ### How a query is printed -/

namespace Query

/-- What stands between the parentheses of a query that is printed as a function. -/
def printArguments (style : Style) : Query → List String
  | noop | distinct | first | one => []
  | limit range => (range.start.toList ++ [range.count]).map printNumber
  | select properties => properties.map (·.path)
  | sort keys => keys.map (printSortKey style)
  | group _ terms => printAll style terms
  | compare _ property value | pattern _ property value => [property.path, value.print]
  | membership _ property entries => property.path :: entries.map (·.print)
  | count property => property.toList.map (·.path)
  | values property | summary _ property => [property.path]
  | aggregate groups functions => groups.map (·.path) ++ printAll style functions

/-- The query is printed with signs: it is a comparison, or a group of two terms or more, in the
standard style. -/
inductive HasSigns : Style → Query → Prop
  | compare (op : Comparison) (property : Property) (value : Value) :
    HasSigns .standard (.compare op property value)
  | group {joiner : Joiner} {terms : List Query} (h : 1 < terms.length) :
    HasSigns .standard (.group joiner terms)

/-- A query that is printed without signs is a function. -/
theorem printWithin_eq_call {style : Style} {query : Query} (hnoop : query ≠ noop)
    (hsigns : ¬HasSigns style query) (isRoot : Bool) :
    ∃ keyword, printWithin style isRoot query =
      printCall (Keyword.name keyword) (query.printArguments style) := by
  cases query with
  | noop => exact absurd rfl hnoop
  | group joiner terms =>
    have hfew : ¬(style = .standard && 1 < terms.length) = true := by
      intro h
      rw [Bool.and_eq_true, decide_eq_true_iff, decide_eq_true_iff] at h
      obtain ⟨rfl, hmany⟩ := h
      exact hsigns (.group hmany)
    exact ⟨.group joiner, by rw [printWithin, if_neg hfew]; rfl⟩
  | compare op property value =>
    cases style with
    | standard => exact absurd (.compare op property value) hsigns
    | normalized => exact ⟨.compare op, rfl⟩
  | limit => exact ⟨.limit, rfl⟩
  | select => exact ⟨.select, rfl⟩
  | sort => exact ⟨.sort, rfl⟩
  | pattern op => exact ⟨.pattern op, rfl⟩
  | membership op => exact ⟨.membership op, rfl⟩
  | distinct => exact ⟨.distinct, rfl⟩
  | first => exact ⟨.first, rfl⟩
  | one => exact ⟨.one, rfl⟩
  | count => exact ⟨.count, rfl⟩
  | values => exact ⟨.values, rfl⟩
  | summary op => exact ⟨.summary op, rfl⟩
  | aggregate => exact ⟨.aggregate, rfl⟩

theorem printWithin_cases (style : Style) (isRoot : Bool) (query : Query) :
    query = noop ∨ HasSigns style query ∨ ¬HasSigns style query ∧
      ∃ keyword, printWithin style isRoot query =
        printCall (Keyword.name keyword) (query.printArguments style) := by
  by_cases hnoop : query = noop
  · exact .inl hnoop
  by_cases hsigns : HasSigns style query
  · exact .inr (.inl hsigns)
  · exact .inr (.inr ⟨hsigns, printWithin_eq_call hnoop hsigns isRoot⟩)

theorem toList_printWithin_compare (isRoot : Bool) (op : Comparison) (property : Property)
    (value : Value) :
    (printWithin .standard isRoot (.compare op property value)).toList =
      property.path.toList ++ (op.sign.toList ++ value.print.toList) := by
  simp [printWithin]

/-- A group with signs is a list, within parentheses unless it is the root. -/
theorem toList_printWithin_group (isRoot : Bool) {joiner : Joiner} {terms : List Query}
    (h : 1 < terms.length) :
    (printWithin .standard isRoot (.group joiner terms)).toList =
      (if isRoot then [] else ['(']) ++
        (joiner.sign.toString.intercalate (printAll .standard terms)).toList ++
          if isRoot then [] else [')'] := by
  rw [printWithin, if_pos (by simpa using h)]
  cases isRoot <;> simp

end Query

/-! ### Pieces of a printed query -/

namespace Text

/-- A piece of the text is of this kind. -/
def HasPiece (kind : List Char → Prop) (text : List Char) : Prop :=
  ∃ piece, piece <:+: text ∧ kind piece

/-- Pieces of this kind have a percent sign and nothing that could end a segment of a path, and the
sign of a sort key in front of one adds nothing to it. -/
structure IsInner (kind : List Char → Prop) : Prop where
  chars {piece : List Char} (h : kind piece) : ∀ c ∈ piece, isSegmentChar c = true
  percent {piece : List Char} (h : kind piece) : '%' ∈ piece
  unsigned {sign : Char} {piece : List Char} (hsign : isSign sign = true)
    (h : kind (sign :: piece)) : kind piece

end Text

section Pieces

variable {kind : List Char → Prop} {a b : List Char} {sign : Char} {style : Style} {query : Query}
  {property : Property}

theorem Text.HasPiece.within (h : HasPiece kind a) (hpart : a <:+: b) : HasPiece kind b := by
  obtain ⟨piece, hpiece, hkind⟩ := h
  exact ⟨piece, hpiece.trans hpart, hkind⟩

variable (hkind : IsInner kind)
include hkind

theorem not_hasPiece_of_not_mem (h : '%' ∉ a) : ¬HasPiece kind a := fun ⟨_, hpiece, hpieceKind⟩ ↦
  h (hpiece.subset (hkind.percent hpieceKind))

theorem not_hasPiece_nil : ¬HasPiece kind [] :=
  not_hasPiece_of_not_mem hkind (by simp)

/-- No piece reaches across a character that ends a segment. -/
theorem hasPiece_append_iff (h : ∀ c ∈ b.head?, isSegmentChar c = false) :
    HasPiece kind (a ++ b) ↔ HasPiece kind a ∨ HasPiece kind b := by
  constructor
  · rintro ⟨piece, hpiece, hpieceKind⟩
    obtain hfirst | hsecond | ⟨front, back, rfl, hfront, hback⟩ := List.infix_append_iff.mp hpiece
    · exact .inl ⟨piece, hfirst, hpieceKind⟩
    · exact .inr ⟨piece, hsecond, hpieceKind⟩
    · cases back with
      | nil => exact .inl ⟨front ++ [], by simpa using hfront.isInfix, hpieceKind⟩
      | cons c back =>
        obtain ⟨behind, rfl⟩ := hback
        have hc := hkind.chars hpieceKind c (by simp)
        rw [h c rfl] at hc
        cases hc
  · rintro (hfirst | hsecond)
    · exact hfirst.within (List.prefix_append a b).isInfix
    · exact hsecond.within (List.suffix_append a b).isInfix

theorem hasPiece_around (hsign : isSegmentChar sign = false) :
    HasPiece kind (a ++ sign :: b) ↔ HasPiece kind a ∨ HasPiece kind b := by
  have hbehind : HasPiece kind (sign :: b) ↔ HasPiece kind b := by
    refine ⟨fun ⟨piece, hpiece, hpieceKind⟩ ↦ ?_, (·.within (List.suffix_cons sign b).isInfix)⟩
    obtain hfront | hinner := List.infix_cons_iff.mp hpiece
    · obtain rfl | ⟨more, rfl, -⟩ := List.prefix_cons_iff.mp hfront
      · cases hkind.percent hpieceKind
      · have hc := hkind.chars hpieceKind sign List.mem_cons_self
        rw [hsign] at hc
        cases hc
    · exact ⟨piece, hinner, hpieceKind⟩
  rw [hasPiece_append_iff hkind (by simpa using hsign), hbehind]

theorem hasPiece_intercalate (hsign : isSegmentChar sign = false) (texts : List String) :
    HasPiece kind (sign.toString.intercalate texts).toList ↔
      ∃ text ∈ texts, HasPiece kind text.toList := by
  induction texts with
  | nil => simpa using not_hasPiece_nil hkind
  | cons text rest ih =>
    cases rest with
    | nil => simp
    | cons next rest =>
      rw [toList_intercalate_cons, hasPiece_around hkind hsign, List.exists_mem_cons_iff]
      exact or_congr_right ih

theorem hasPiece_path :
    HasPiece kind property.path.toList ↔
      ∃ segment ∈ property.segments, HasPiece kind segment.toList :=
  hasPiece_intercalate hkind (by decide : isSegmentChar '.' = false) property.segments

omit hkind in
theorem Keyword.isPlain_name (keyword : Keyword) : IsPlain keyword.name.toList :=
  (forall_mem_of_all (by decide) : ∀ keyword ∈ all, IsPlain keyword.name.toList) keyword
    keyword.mem_all

theorem hasPiece_printCall (keyword : Keyword) (arguments : List String) :
    HasPiece kind (printCall keyword.name arguments).toList ↔
      ∃ text ∈ arguments, HasPiece kind text.toList := by
  have hname := not_hasPiece_of_not_mem hkind keyword.isPlain_name.percent_not_mem
  have hcommas : HasPiece kind (commas arguments).toList ↔
      ∃ text ∈ arguments, HasPiece kind text.toList :=
    hasPiece_intercalate hkind (by decide : isSegmentChar ',' = false) arguments
  rw [toList_printCall, hasPiece_around hkind (by decide), hasPiece_around hkind (by decide),
    hcommas, or_iff_right hname, or_iff_left (not_hasPiece_nil hkind)]

theorem not_hasPiece_print (value : Value) : ¬HasPiece kind value.print.toList :=
  not_hasPiece_of_not_mem hkind value.percent_not_mem_print

omit hkind in
theorem isPlain_printNumber (n : UInt64) : IsPlain (printNumber n).toList := by
  rw [printNumber, String.toList_ofList]
  exact isPlain_decimal n.toNat

theorem hasPiece_printSortKey (key : SortKey) :
    HasPiece kind (printSortKey style key).toList ↔ HasPiece kind key.property.path.toList := by
  obtain ⟨-, htext⟩ | htext := printSortKey_cases style key
  · rw [htext]
  · have hsign : isSign key.order.sign = true := by cases key.order <;> rfl
    rw [htext]
    refine ⟨fun ⟨piece, hpiece, hpieceKind⟩ ↦ ?_, (·.within (List.suffix_cons _ _).isInfix)⟩
    obtain hfront | hinner := List.infix_cons_iff.mp hpiece
    · obtain rfl | ⟨more, rfl, hmore⟩ := List.prefix_cons_iff.mp hfront
      · cases hkind.percent hpieceKind
      · exact ⟨more, hmore.isInfix, hkind.unsigned hsign hpieceKind⟩
    · exact ⟨piece, hinner, hpieceKind⟩

/-- A piece of the arguments of a function is one of a path, or of what is printed for a node. -/
theorem hasPiece_printArguments :
    (∃ text ∈ query.printArguments style, HasPiece kind text.toList) ↔
      (∃ property ∈ query.properties, HasPiece kind property.path.toList) ∨
        ∃ node ∈ query.nodes, HasPiece kind (printWithin style false node).toList := by
  have hnumber (n : UInt64) : ¬HasPiece kind (printNumber n).toList :=
    not_hasPiece_of_not_mem hkind (isPlain_printNumber n).percent_not_mem
  cases query with
  | count property => cases property <;> simp [printArguments, properties, nodes]
  | _ =>
    simp [printArguments, properties, nodes, printAll_eq_map, not_hasPiece_print hkind, hnumber,
      hasPiece_printSortKey hkind, or_and_right, exists_or]

theorem hasPiece_printWithin_compare (isRoot : Bool) (op : Comparison) (property : Property)
    (value : Value) :
    HasPiece kind (printWithin .standard isRoot (.compare op property value)).toList ↔
      HasPiece kind property.path.toList := by
  have hbehind : '%' ∉ op.sign.toList ++ value.print.toList := by
    rw [List.mem_append, not_or]
    exact ⟨by cases op <;> decide, value.percent_not_mem_print⟩
  have hends : ∀ c ∈ (op.sign.toList ++ value.print.toList).head?, isSegmentChar c = false := by
    cases op <;>
      · rintro _ ⟨⟩
        decide
  rw [toList_printWithin_compare, hasPiece_append_iff hkind hends,
    or_iff_left (not_hasPiece_of_not_mem hkind hbehind)]

theorem hasPiece_printWithin_group (isRoot : Bool) {joiner : Joiner} {terms : List Query}
    (h : 1 < terms.length) :
    HasPiece kind (printWithin .standard isRoot (.group joiner terms)).toList ↔
      ∃ term ∈ terms, HasPiece kind (printWithin .standard false term).toList := by
  have hsign : isSegmentChar joiner.sign = false := by cases joiner <;> decide
  have hopen (text : List Char) :
      HasPiece kind ((if isRoot then [] else ['(']) ++ text) ↔ HasPiece kind text := by
    cases isRoot with
    | true => rfl
    | false =>
      have hparen :=
        hasPiece_around (a := []) (b := text) hkind (by decide : isSegmentChar '(' = false)
      rwa [or_iff_right (not_hasPiece_nil hkind)] at hparen
  have hclose : '%' ∉ (if isRoot then [] else [')']) := by cases isRoot <;> decide
  have hends : ∀ c ∈ (if isRoot then [] else [')']).head?, isSegmentChar c = false := by
    cases isRoot with
    | true => simp
    | false =>
      rintro _ ⟨⟩
      decide
  rw [toList_printWithin_group isRoot h, hasPiece_append_iff hkind hends, hopen,
    hasPiece_intercalate hkind hsign, printAll_eq_map,
    or_iff_left (not_hasPiece_of_not_mem hkind hclose)]
  simp

/-- A piece of what is printed for a node is one of a path, or of what is printed for a node below
it. -/
theorem hasPiece_printWithin (isRoot : Bool) :
    HasPiece kind (printWithin style isRoot query).toList ↔
      (∃ property ∈ query.properties, HasPiece kind property.path.toList) ∨
        ∃ node ∈ query.nodes, HasPiece kind (printWithin style false node).toList := by
  obtain rfl | hsigns | ⟨-, keyword, htext⟩ := printWithin_cases style isRoot query
  · simpa [printWithin, properties, nodes] using not_hasPiece_nil hkind
  · cases hsigns with
    | compare op property value =>
      rw [hasPiece_printWithin_compare hkind]
      simp [properties, nodes]
    | group hmany =>
      rw [hasPiece_printWithin_group hkind isRoot hmany]
      simp [properties, nodes]
  · rw [htext, hasPiece_printCall hkind, hasPiece_printArguments hkind]

/-- A printed query has no such piece just if no path in it has one. -/
theorem not_hasPiece_printWithin_iff (isRoot : Bool) :
    ¬HasPiece kind (printWithin style isRoot query).toList ↔
      query.AllProperties fun property ↦ ¬HasPiece kind property.path.toList := by
  induction query using nodes_induction generalizing isRoot with
  | h query ih =>
    have hnodes : (∀ node ∈ query.nodes,
          ¬HasPiece kind (printWithin style false node).toList) ↔
        ∀ node ∈ query.nodes,
          node.AllProperties fun property ↦ ¬HasPiece kind property.path.toList :=
      forall₂_congr fun node hnode ↦ ih node hnode false
    rw [allProperties_iff, ← hnodes, hasPiece_printWithin hkind, not_or]
    simp only [not_exists, not_and]

end Pieces

/-! ### Percent codes in a printed query -/

namespace Text.Percent

/-- The piece is a percent sign and two hexadecimal digits. -/
def IsCode (piece : List Char) : Prop :=
  ∃ high low, piece = ['%', high, low] ∧ isHexDigit high = true ∧ isHexDigit low = true

theorem isInner_isCode : IsInner IsCode where
  chars := by
    rintro _ ⟨high, low, rfl, hhigh, hlow⟩
    simpa using ⟨by decide, isSegmentChar_of_isHexDigit hhigh, isSegmentChar_of_isHexDigit hlow⟩
  percent := by
    rintro _ ⟨high, low, rfl, -⟩
    exact List.mem_cons_self
  unsigned := by
    rintro sign piece hsign ⟨high, low, htext, -⟩
    rw [(List.cons.inj htext).1] at hsign
    cases hsign

theorem hasCode_iff_hasPiece {text : List Char} : HasCode text ↔ HasPiece IsCode text := by
  constructor
  · rintro ⟨before, high, low, behind, rfl, hhex⟩
    exact ⟨_, ⟨before, behind, by simp⟩, high, low, rfl, hhex⟩
  · rintro ⟨_, ⟨before, behind, rfl⟩, high, low, rfl, hhex⟩
    exact ⟨before, high, low, behind, by simp, hhex⟩

/-- A printed query has no code just if no path in it has one. -/
theorem not_hasCode_printWithin_iff {style : Style} {query : Query} (isRoot : Bool) :
    ¬HasCode (printWithin style isRoot query).toList ↔
      query.AllProperties fun property ↦ ¬HasCode property.path.toList := by
  simp only [hasCode_iff_hasPiece]
  exact not_hasPiece_printWithin_iff isInner_isCode isRoot

end Text.Percent

/-! ### Blanks at the ends of a printed query -/

section Blanks

variable {style : Style} {query : Query}

theorem noBlankEnds_intercalate {sign : Char} (hblank : isBlank sign = false)
    {texts : List String} (h : ∀ text ∈ texts, NoBlankEnds text.toList) :
    NoBlankEnds (sign.toString.intercalate texts).toList := by
  have hsign : NoBlankEnds [sign] := noBlankEnds_of_not_blank (by simpa using hblank)
  induction texts with
  | nil => exact isPlain_nil.noBlankEnds
  | cons text rest ih =>
    obtain ⟨hfirst, hrest⟩ := List.forall_mem_cons.mp h
    cases rest with
    | nil => simpa using hfirst
    | cons next rest =>
      rw [toList_intercalate_cons]
      exact hfirst.append (hsign.append (ih hrest))

theorem noBlankEnds_printCall (keyword : Keyword) (arguments : List String) :
    NoBlankEnds (printCall keyword.name arguments).toList := by
  have htext : (printCall keyword.name arguments).toList =
      (keyword.name.toList ++ ['(']) ++ (commas arguments).toList ++ [')'] := by
    simp [toList_printCall]
  have hopen : NoBlankEnds ['('] := noBlankEnds_of_not_blank (forall_mem_of_all (by decide))
  have hclose : NoBlankEnds [')'] := noBlankEnds_of_not_blank (forall_mem_of_all (by decide))
  rw [htext]
  exact (keyword.isPlain_name.noBlankEnds.append hopen).around hclose (by simp) (by simp) _

theorem noBlankEnds_printWithin_compare (isRoot : Bool) (op : Comparison) {property : Property}
    (h : property.IsClean) (value : Value) :
    NoBlankEnds (printWithin .standard isRoot (.compare op property value)).toList := by
  have hpath : NoBlankEnds property.path.toList := noBlankEnds_of_not_blank fun _ ↦ h.not_blank
  have hsign : NoBlankEnds op.sign.toList :=
    noBlankEnds_of_not_blank (forall_mem_of_all (by cases op <;> decide))
  rw [toList_printWithin_compare]
  exact hpath.append (hsign.append value.noBlankEnds_print)

theorem noBlankEnds_printWithin_group (isRoot : Bool) {joiner : Joiner} {terms : List Query}
    (hmany : 1 < terms.length)
    (h : ∀ term ∈ terms, NoBlankEnds (printWithin .standard false term).toList) :
    NoBlankEnds (printWithin .standard isRoot (.group joiner terms)).toList := by
  have hsign : isBlank joiner.sign = false := by cases joiner <;> decide
  have hopen : NoBlankEnds (if isRoot then [] else ['(']) :=
    noBlankEnds_of_not_blank (forall_mem_of_all (by cases isRoot <;> decide))
  have hclose : NoBlankEnds (if isRoot then [] else [')']) :=
    noBlankEnds_of_not_blank (forall_mem_of_all (by cases isRoot <;> decide))
  have hterms :
      NoBlankEnds (joiner.sign.toString.intercalate (printAll .standard terms)).toList := by
    apply noBlankEnds_intercalate hsign
    rw [printAll_eq_map, List.forall_mem_map]
    exact h
  rw [toList_printWithin_group isRoot hmany]
  exact (hopen.append hterms).append hclose

/-- A query with clean properties is printed without blanks at the ends. -/
theorem noBlankEnds_printWithin (isRoot : Bool) (h : query.AllProperties Property.IsClean) :
    NoBlankEnds (printWithin style isRoot query).toList := by
  induction query using nodes_induction generalizing isRoot with
  | h query ih =>
    obtain ⟨hproperties, hnodes⟩ := allProperties_iff.mp h
    obtain rfl | hsigns | ⟨-, keyword, htext⟩ := printWithin_cases style isRoot query
    · exact isPlain_nil.noBlankEnds
    · cases hsigns with
      | compare op property value =>
        exact noBlankEnds_printWithin_compare isRoot op
          (hproperties property (List.mem_singleton_self property)) value
      | group hmany =>
        exact noBlankEnds_printWithin_group isRoot hmany fun term hmem ↦
          ih term hmem false (hnodes term hmem)
    · rw [htext]
      exact noBlankEnds_printCall keyword _

end Blanks

/-! ### Introductions in a printed query -/

section Introductions

variable {text behind : List Char} {query : Query} {op : Comparison} {property : Property}

/-- The property in front of the sign reads as an introduction of the query. -/
def Property.Introduces (op : Comparison) (property : Property) : Prop :=
  property.path.toList.head? = some '?' ∨
    op = .eq ∧ lowerAscii property.path.toList = "rql".toList

/-- What is printed first in the standard style: the first of several terms, or the query itself. -/
def Query.leading : Query → Query
  | .group _ (term :: _ :: _) => term
  | query => query

/-- An introduction begins with a question mark or with the first letter of the name. -/
theorem not_isIntroduced_of_head
    (h : ∀ c ∈ text.head?, c ≠ '?' ∧ c.toLower ≠ 'r') : ¬IsIntroduced text := by
  rintro (hmark | hname)
  · exact (h '?' hmark).1 rfl
  · cases text with
    | nil => exact absurd hname (by decide)
    | cons c rest => exact (h c rfl).2 (List.cons.inj hname).1

theorem Keyword.head_name (keyword : Keyword) :
    ∃ c rest, keyword.name.toList = c :: rest ∧ c ≠ '?' ∧ c.toLower ≠ 'r' := by
  have hfirst : keyword.name.toList.head?.any fun c ↦ c != '?' && c.toLower != 'r' :=
    (forall_mem_of_all (by decide) : ∀ keyword ∈ all,
      keyword.name.toList.head?.any fun c ↦ c != '?' && c.toLower != 'r') keyword keyword.mem_all
  cases hchars : keyword.name.toList with
  | nil => simp [hchars] at hfirst
  | cons c rest =>
    rw [hchars] at hfirst
    exact ⟨c, rest, rfl, by simpa using hfirst⟩

theorem not_isIntroduced_printCall (keyword : Keyword) (arguments : List String)
    (behind : List Char) : ¬IsIntroduced ((printCall keyword.name arguments).toList ++ behind) := by
  obtain ⟨c, rest, hchars, hfirst⟩ := keyword.head_name
  apply not_isIntroduced_of_head
  rw [toList_printCall, hchars]
  rintro _ ⟨⟩
  exact hfirst

theorem eq_of_toLower_eq_equals {c : Char} (h : c.toLower = '=') : c = '=' := by
  have hcode := congrArg Char.toNat h
  rw [Text.toNat_toLower] at hcode
  have hequals : '='.toNat = 61 := rfl
  rw [← Char.toNat_inj]
  split at hcode <;> omega

/-- An equals sign behind the name is the sign of the comparison, as a path has none. -/
theorem beginsName_comparison {path : List Char} (hpath : '=' ∉ path) (behind : List Char) :
    lowerAscii ((path ++ (op.sign.toList ++ behind)).take 4) = "rql=".toList ↔
      op = .eq ∧ lowerAscii path = "rql".toList := by
  match path with
  | [] | [_] | [_, _] | [_, _, _] => cases op <;> simp [Comparison.sign, lowerAscii]
  | a :: b :: c :: d :: rest =>
    refine iff_of_false (fun hname ↦ ?_) fun hname ↦ ?_
    · have hd : d.toLower = '=' := by
        have hlower : [a.toLower, b.toLower, c.toLower, d.toLower] = ['r', 'q', 'l', '='] := hname
        simp_all
      rw [eq_of_toLower_eq_equals hd] at hpath
      exact hpath (by simp)
    · simpa [lowerAscii] using congrArg List.length hname.2

theorem isIntroduced_comparison (hpath : '=' ∉ property.path.toList) (behind : List Char) :
    IsIntroduced (property.path.toList ++ (op.sign.toList ++ behind)) ↔
      property.Introduces op := by
  refine or_congr ?_ (beginsName_comparison hpath behind)
  cases property.path.toList with
  | nil => cases op <;> simp [Comparison.sign]
  | cons c rest => simp

theorem Property.IsClean.equals_not_mem_path (h : property.IsClean) :
    '=' ∉ property.path.toList :=
  fun hmem ↦ absurd (h.path_chars hmem) (by decide)

/-- In front of other terms only a comparison can look like an introduction. -/
theorem isIntroduced_printWithin (hclean : ∀ property ∈ query.properties, property.IsClean)
    (hbehind : ∀ c ∈ behind.head?, c = '&' ∨ c = '|') :
    IsIntroduced ((printWithin .standard false query).toList ++ behind) ↔
      ∃ op property value, query = .compare op property value ∧ property.Introduces op := by
  obtain rfl | hsigns | ⟨hsigns, keyword, htext⟩ := printWithin_cases .standard false query
  · refine iff_of_false (not_isIntroduced_of_head fun c hc ↦ ?_) (by simp)
    obtain rfl | rfl := hbehind c hc <;> decide
  · cases hsigns with
    | compare op property value =>
      have hequals := (hclean property (List.mem_singleton_self property)).equals_not_mem_path
      rw [toList_printWithin_compare, List.append_assoc, List.append_assoc,
        isIntroduced_comparison hequals]
      simp
    | group hmany =>
      refine iff_of_false (not_isIntroduced_of_head ?_) (by simp)
      rw [toList_printWithin_group false hmany]
      rintro _ ⟨⟩
      decide
  · refine iff_of_false ?_ ?_
    · rw [htext]
      exact not_isIntroduced_printCall keyword _ behind
    · rintro ⟨op, property, value, rfl, -⟩
      exact hsigns (.compare op property value)

/-- In the standard style a query begins with its leading term. -/
theorem exists_print_eq_leading (query : Query) :
    ∃ behind : List Char, (∀ c ∈ behind.head?, c = '&' ∨ c = '|') ∧
      (print .standard query).toList =
        (printWithin .standard false query.leading).toList ++ behind := by
  have hwhole (hleading : query.leading = query)
      (htext : print .standard query = printWithin .standard false query) :
      ∃ behind : List Char, (∀ c ∈ behind.head?, c = '&' ∨ c = '|') ∧
        (print .standard query).toList =
          (printWithin .standard false query.leading).toList ++ behind :=
    ⟨[], by simp, by rw [hleading, htext, List.append_nil]⟩
  cases query with
  | group joiner terms =>
    cases terms with
    | nil => exact hwhole rfl rfl
    | cons term more =>
      cases more with
      | nil => exact hwhole rfl rfl
      | cons second rest =>
        have hsign : joiner.sign = '&' ∨ joiner.sign = '|' := by
          cases joiner <;> simp [Joiner.sign]
        refine ⟨joiner.sign ::
          (joiner.sign.toString.intercalate (printAll .standard (second :: rest))).toList,
          by simpa using hsign, ?_⟩
        rw [print, toList_printWithin_group true (by simp), printAll, printAll,
          toList_intercalate_cons]
        simp [Query.leading]
  | compare op property value => exact hwhole rfl rfl
  | _ => exact hwhole rfl rfl

theorem Query.AllProperties.leading {P : Property → Prop} (h : query.AllProperties P) :
    query.leading.AllProperties P := by
  unfold Query.leading
  split
  · exact (allProperties_iff.mp h).2 _ List.mem_cons_self
  · exact h

theorem isIntroduced_print_standard_iff (h : query.AllProperties Property.IsClean) :
    IsIntroduced (print .standard query).toList ↔
      ∃ op property value, query.leading = .compare op property value ∧
        property.Introduces op := by
  obtain ⟨behind, hbehind, htext⟩ := exists_print_eq_leading query
  rw [htext]
  exact isIntroduced_printWithin (allProperties_iff.mp h.leading).1 hbehind

theorem not_isIntroduced_print_normalized (query : Query) :
    ¬IsIntroduced (print .normalized query).toList := by
  obtain rfl | hsigns | ⟨-, keyword, htext⟩ := printWithin_cases .normalized true query
  · exact not_isIntroduced_of_head (by simp [print, printWithin])
  · cases hsigns
  · rw [print, htext, ← List.append_nil (String.toList _)]
    exact not_isIntroduced_printCall keyword _ []

end Introductions

/-! ### Preparing a printed query -/

namespace Query

variable {options : ReadOptions} {query : Query}

/-- A query that has been read is printed as a text that preparation leaves as it is, except if a
path has a percent code in it, or if in the standard style the query begins with a comparison
whose property reads as an introduction. -/
theorem prepare_print_eq_self_iff_of_read {text : String} (hread : read options text = .ok query)
    (hdecode : options.percentDecode = true) (style : Style) :
    prepare options (query.print style).toList = .ok (query.print style).toList ↔
      (query.AllProperties fun property ↦ ¬HasCode property.path.toList) ∧
        (style = .standard → ∀ op property value,
          query.leading = compare op property value → ¬property.Introduces op) := by
  have hclean := allProperties_isClean_of_read hread
  have hblanks : NoBlankEnds (query.print style).toList := noBlankEnds_printWithin true hclean
  have hcodes : ¬HasCode (query.print style).toList ↔ _ := not_hasCode_printWithin_iff true
  rw [prepare_eq_self_iff hdecode, hcodes, and_iff_right hblanks]
  refine and_congr_right fun _ ↦ ?_
  cases style with
  | standard =>
    rw [isIntroduced_print_standard_iff hclean]
    simp
  | normalized => exact iff_of_true (not_isIntroduced_print_normalized query) nofun

/-- A second question mark is the beginning of a property, and is taken off the printed query. -/
theorem prepare_print_eq_self_iff_of_read_question_mark :
    ∃ query, read {} "??a=null" = .ok query ∧
      prepare {} (query.print .standard).toList ≠ .ok (query.print .standard).toList ∧
      prepare {} (query.print .normalized).toList = .ok (query.print .normalized).toList := by
  have hread : read {} "??a=null" = .ok (compare .eq ⟨["?a"]⟩ .null) := by cbv
  have hcodes : (compare .eq ⟨["?a"]⟩ .null).AllProperties
      fun property ↦ ¬HasCode property.path.toList :=
    allProperties_of_properties_eq rfl rfl (not_hasCode_of_not_mem (by decide))
  refine ⟨_, hread, ?_, ?_⟩
  · rw [ne_eq, prepare_print_eq_self_iff_of_read hread rfl]
    exact fun h ↦ h.2 rfl _ _ _ rfl (.inl (by decide))
  · rw [prepare_print_eq_self_iff_of_read hread rfl]
    exact ⟨hcodes, fun hstyle ↦ absurd hstyle (by decide)⟩

end Query

end ResourceQuery
