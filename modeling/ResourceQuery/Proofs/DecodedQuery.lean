import ResourceQuery.Proofs.Congruence
import ResourceQuery.Proofs.DecodedText
import ResourceQuery.Proofs.Notations
import ResourceQuery.Proofs.Preparation

/-!
# Decoding what has been printed

A printed query reads back only if decoding leaves it as it is. The segments of the query that is
read are cut out of the decoded text, so each one with a percent code stands for a heavier piece of
what was printed, and that one is part of a segment too. If the two queries were equal, the weights
of their segments with codes would go up without end.
-/

namespace ResourceQuery

open Text Percent

/-! ### Pieces of texts -/

theorem isInfix_intercalate {separator piece : List Char} {pieces : List (List Char)}
    (h : piece ∈ pieces) : piece <:+: separator.intercalate pieces := by
  induction pieces with
  | nil => cases h
  | cons first rest ih =>
    cases rest with
    | nil =>
      obtain rfl := List.mem_singleton.mp h
      simp
    | cons next rest =>
      rw [List.intercalate_cons_cons, List.append_assoc]
      obtain rfl | hmem := List.mem_cons.mp h
      · exact (List.prefix_append piece _).isInfix
      · refine (ih hmem).trans (List.IsSuffix.isInfix ?_)
        exact (List.suffix_append separator _).trans (List.suffix_append first _)

theorem isInfix_of_mem_splitOn {separator : Char} {text piece : List Char}
    (h : piece ∈ text.splitOn separator) : piece <:+: text := by
  have htext : [separator].intercalate (text.splitOn separator) = text :=
    List.intercalate_splitOn separator
  rw [← htext]
  exact isInfix_intercalate h

namespace Text.Percent

variable {text piece : List Char} {least : Nat}

theorem weight_le_of_isInfix (h : piece <:+: text) : weight piece ≤ weight text := by
  obtain ⟨before, behind, rfl⟩ := h
  rw [weight_append, weight_append]
  omega

theorem isInner_isHeavier (least : Nat) : IsInner (IsHeavier least) where
  chars h := h.chars
  percent h := h.hasCode.mem
  unsigned {sign piece} hsign h := by
    have hchar : sign = '+' ∨ sign = '-' := by simpa [isSign] using hsign
    have hcode : HasCode piece := by
      refine (hasCode_cons_iff_beginsCode.mp h.hasCode).resolve_left fun hbegins ↦ ?_
      obtain rfl | rfl := hchar
      · exact absurd hbegins.1 (by decide)
      · exact absurd hbegins.1 (by decide)
    have hweight : weight [sign] = 0 := by obtain rfl | rfl := hchar <;> rfl
    have hleast := h.least_lt
    rw [weight_cons, hweight, Nat.zero_add] at hleast
    exact ⟨(List.forall_mem_cons.mp h.chars).2, hcode, hleast⟩

end Text.Percent

/-! ### Segments of queries -/

namespace Lexer

variable {text : List Char} {localOffset : UtcOffset} {tokens : List Token}

theorem isInfix_of_yields (h : Yields (start text localOffset) tokens) :
    ∀ token ∈ tokens, token.text.toList <:+: text := by
  intro token hmem
  have htiling := isTiling_of_yields h
  by_cases hstop : token.symbol = .stop
  · obtain ⟨front, rfl, hfront⟩ := htiling.ends
    obtain hmem | hmem := List.mem_append.mp hmem
    · exact absurd hstop (hfront token hmem)
    · obtain rfl := List.mem_singleton.mp hmem
      exact List.nil_infix
  · rw [(htiling.pieces token hmem hstop).2]
    exact (List.take_prefix _ _).isInfix.trans (List.drop_suffix _ _).isInfix

/-- The segments that a token may contribute to a path are cut out of the text. -/
theorem fitsPath_of_yields (h : Yields (start text localOffset) tokens) :
    ∀ token ∈ tokens, token.FitsPath (· <:+: text) := by
  intro token hmem
  have htext := isInfix_of_yields h token hmem
  exact ⟨fun _ piece hpiece _ ↦ (isInfix_of_mem_splitOn hpiece).trans htext, fun _ _ ↦ htext⟩

end Lexer

namespace Query

/-- All segments of the properties in the tree. -/
def segments (query : Query) : List String :=
  query.preorder.flatMap fun node ↦ node.properties.flatMap Property.segments

variable {options : ReadOptions} {query again : Query} {text : List Char}

theorem allProperties_hasSegments_iff (P : List Char → Prop) :
    query.AllProperties (Property.HasSegments P) ↔
      ∀ segment ∈ query.segments, P segment.toList := by
  simp only [segments, List.forall_mem_flatMap]
  rfl

theorem hasPiece_print_iff {kind : List Char → Prop} (hkind : IsInner kind) (style : Style) :
    HasPiece kind (query.print style).toList ↔
      ∃ segment ∈ query.segments, HasPiece kind segment.toList := by
  rw [← not_iff_not, print, not_hasPiece_printWithin_iff hkind true]
  simp only [hasPiece_path hkind, not_exists, not_and]
  exact allProperties_hasSegments_iff fun piece ↦ ¬HasPiece kind piece

theorem hasCode_print_iff (style : Style) :
    HasCode (query.print style).toList ↔ ∃ segment ∈ query.segments, HasCode segment.toList := by
  simp only [hasCode_iff_hasPiece]
  exact hasPiece_print_iff isInner_isCode style

/-- The segments of equal queries are equal up to case. -/
theorem map_foldCase_segments (h : (again == query) = true) :
    again.segments.map foldCase = query.segments.map foldCase := by
  rw [← List.forall₂_eq_eq_eq, List.forall₂_map_left_iff, List.forall₂_map_right_iff]
  refine forall₂_flatMap (alike_preorder h) fun a _ b hab ↦
    forall₂_flatMap (alike_properties hab) fun p _ q hpq ↦ ?_
  have hfold := (Property.beq_iff p q).mp hpq
  rwa [← List.forall₂_eq_eq_eq, List.forall₂_map_left_iff, List.forall₂_map_right_iff] at hfold

/-- A query that is read without folding has its segments from the text. -/
theorem isInfix_of_scan (hplain : options.consolidate = false)
    (h : scan options text = .ok query) : ∀ segment ∈ query.segments, segment.toList <:+: text := by
  obtain ⟨⟨tokens⟩, parsed, rest, hscan, hparse, hfinish⟩ := exists_parse_of_scan h
  obtain ⟨-, hquery⟩ := finish_eq_ok hfinish
  rw [hplain, if_neg (by decide)] at hquery
  subst hquery
  obtain rfl | ⟨front, behind, hsplit, hclauses⟩ :=
    Parse.clauses_of_query_eq_ok hparse (Lexer.literalsValued_of_scan hscan)
  · exact List.forall_mem_nil _
  · have htokens := Lexer.fitsPath_of_yields (Lexer.scan_eq_ok_iff.mp hscan)
    have hsplit' : tokens = front ++ behind := hsplit
    refine (allProperties_hasSegments_iff (· <:+: text)).mp
      (hclauses.allProperties fun token hmem ↦ ?_)
    exact htokens token (hsplit' ▸ List.mem_append_left behind hmem)

section Decoded

variable {decoded : List Char} {style : Style} {segment : String}
  (hdecode : Percent.decode (query.print style).toList = .ok decoded)
  (hclean : again.AllProperties Property.IsClean)
  (hagain : ∀ segment ∈ again.segments, segment.toList <:+: decoded)
  (hsame : (again == query) = true)
include hdecode hclean hagain hsame

/-- If a printed query is decoded and then read as an equal one, there is a heavier segment for each
segment with a code. -/
theorem exists_heavier_segment (hsegment : segment ∈ query.segments)
    (hcode : HasCode segment.toList) :
    ∃ heavier ∈ query.segments, HasCode heavier.toList ∧
      weight segment.toList < weight heavier.toList := by
  have hfold : foldCase segment ∈ again.segments.map foldCase :=
    map_foldCase_segments hsame ▸ List.mem_map_of_mem hsegment
  obtain ⟨other, hother, hlower⟩ := List.mem_map.mp hfold
  replace hlower : lower other.toList = lower segment.toList := String.ofList_injective hlower
  have hotherCode : HasCode other.toList := by
    rwa [← hasCode_lower, hlower, hasCode_lower]
  have hweight : weight segment.toList = weight other.toList := by
    rw [← weight_lower, ← hlower, weight_lower]
  obtain ⟨-, hkept⟩ := (allProperties_hasSegments_iff IsSegment).mp hclean other hother
  obtain ⟨source, hsource, hheavier⟩ :=
    (decodes_of_decode hdecode).exists_isHeavier (hagain other hother) hkept hotherCode
  obtain ⟨heavier, hmem, piece, hpiece, hleast⟩ :=
    (hasPiece_print_iff (isInner_isHeavier _) style).mp ⟨source, hsource, hheavier⟩
  refine ⟨heavier, hmem, ?_, ?_⟩
  · rw [hasCode_iff_hasPiece]
    exact (hasCode_iff_hasPiece.mp hleast.hasCode).within hpiece
  · rw [hweight]
    exact Nat.lt_of_lt_of_le hleast.least_lt (weight_le_of_isInfix hpiece)

/-- If a printed query is decoded and then read as an equal one, nothing in it has been decoded. -/
theorem not_hasCode_print_of_same : ¬HasCode (query.print style).toList := by
  rw [hasCode_print_iff]
  rintro ⟨segment, hsegment, hcode⟩
  have hfinite : {segment | segment ∈ query.segments ∧ HasCode segment.toList}.Finite :=
    (List.finite_toSet query.segments).subset fun _ h ↦ h.1
  obtain ⟨heaviest, ⟨hmem, hheaviest⟩, hmost⟩ := Set.exists_max_image _
    (fun segment : String ↦ weight segment.toList) hfinite ⟨segment, hsegment, hcode⟩
  obtain ⟨heavier, hheavier, hheavierCode, hlt⟩ :=
    exists_heavier_segment hdecode hclean hagain hsame hmem hheaviest
  exact absurd (hmost heavier ⟨hheavier, hheavierCode⟩) (Nat.not_le_of_lt hlt)

end Decoded

/-- A printed query that is read as an equal one has no codes that could be decoded. -/
theorem not_hasCode_print_of_read {style : Style} (hplain : options.consolidate = false)
    (hdecode : options.percentDecode = true)
    (h : read options (query.print style) = .ok again) (hsame : (again == query) = true) :
    ¬HasCode (query.print style).toList := by
  obtain ⟨prepared, hprepare, hscan⟩ := exists_scan_of_read h
  rw [prepare, decode, if_pos hdecode] at hprepare
  cases hdecoded : Percent.decode (query.print style).toList with
  | error fault =>
    rw [hdecoded] at hprepare
    cases hprepare
  | ok decoded =>
    rw [hdecoded] at hprepare
    cases hprepare
    refine not_hasCode_print_of_same hdecoded (allProperties_isClean_of_read h)
      (fun segment hsegment ↦ ?_) hsame
    exact (isInfix_of_scan hplain hscan segment hsegment).trans (strip_isInfix decoded)

end Query

end ResourceQuery
