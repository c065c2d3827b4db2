import ResourceQuery.Proofs.PathSegments
import ResourceQuery.Proofs.PrunedText

/-!
# The spellings of a nested path

The segments of a path can be written with dots between them, with slashes, or in parentheses with
commas. A dotted path is a single word, whatever its segments are. Between slashes and commas every
segment is read by itself, so with slashes there must be no constant, no number that no type holds
and no date among them, and with commas nothing but identifiers that are no constants. Spelled so,
the path is the same property, and otherwise there is no query at all.
-/

namespace ResourceQuery

open Run Lexer Grammar

/-- A path of two segments or more, of which the first is an identifier. -/
structure NestedPath where
  first : String
  more : List String
  isIdentifier_first : Members.isIdentifier first.toList = true
  more_ne_nil : more ≠ []
  isPathSegment_more : ∀ segment ∈ more, isPathSegment segment.toList = true

/-! ### Paths with slashes -/

section Slashed

variable {text rest passed first : List Char} {behind : List (List Char)}
  {localOffset : UtcOffset} {lexeme : Lexeme} {last : Option Symbol} {tokens others : List Token}
  {sign : Token} {segments : List Property} {query : Query}

theorem ofPath_segment (h : IsSegment text) :
    Property.ofPath (String.ofList text) = ⟨[String.ofList text]⟩ := by
  have hclean : (⟨[String.ofList text]⟩ : Property).IsClean := by
    intro segment hsegment
    rw [List.mem_singleton.mp hsegment, String.toList_ofList]
    exact h
  have hpath : (⟨[String.ofList text]⟩ : Property).path = String.ofList text :=
    String.intercalate_singleton
  have hsame := Property.ofPath_path hclean
  rwa [hpath] at hsame

theorem concat_singles (texts : List (List Char)) :
    concat (texts.map fun s ↦ ⟨[String.ofList s]⟩) = ⟨texts.map String.ofList⟩ := by
  induction texts with
  | nil => rfl
  | cons text texts ih =>
    rw [concat, Property.mk.injEq] at ih
    rw [List.map_cons, List.map_cons, concat, List.flatMap_cons, ih]
    rfl

theorem Lexeme.IsPart.segment (hpart : lexeme.IsPart) (h : isPathSegment text = true)
    (position : Nat) :
    Segment [lexeme.token (String.ofList text) position] ⟨[String.ofList text]⟩ := by
  obtain rfl | ⟨n, rfl⟩ := hpart
  · rw [← ofPath_segment (isSegment_of_isPathSegment h)]
    exact .word (.intro rfl)
  · exact .number rfl rfl

theorem eq_singleton_of_segment {property : Property} (h : Segment tokens property) :
    ∃ token, tokens = [token] := by
  cases h with
  | word hword =>
    obtain ⟨-⟩ := hword
    exact ⟨_, rfl⟩
  | number => exact ⟨_, rfl⟩

theorem isPart_of_segment {found : String} {position : Nat} {property : Property}
    (h : Segment [lexeme.token found position] property) : lexeme.IsPart := by
  cases h with
  | word hword =>
    obtain ⟨hsymbol⟩ := hword
    exact .inl (Lexeme.eq_property_of_symbol hsymbol)
  | number hsymbol hvalue => exact .inr ⟨_, Lexeme.eq_literal_of_value? hvalue⟩

theorem Lexeme.IsPart.isSplitSign_eq (hpart : lexeme.IsPart) : lexeme.isSplitSign = false := by
  obtain rfl | ⟨n, rfl⟩ := hpart <;> rfl

/-- A slash right behind a segment goes on with the path. -/
theorem Lexeme.IsPart.continuesPath (hpart : lexeme.IsPart) (h : isPathSegment text = true)
    (passed : List Char) :
    Lexeme.continuesPath (some lexeme.symbol) (text.reverse ++ passed).head? = true := by
  have hlast : (text.reverse ++ passed).head?.any isWordChar = true := by
    obtain ⟨front, c, rfl⟩ := List.eq_nil_or_concat text |>.resolve_left (ne_nil_of_isPathSegment h)
    simpa using (isWordChar_of_isPathSegment h c (by simp)).1
  rw [Lexeme.continuesPath, hlast]
  obtain rfl | ⟨n, rfl⟩ := hpart <;> rfl

theorem scan_slash_of_continuesPath (h : Lexeme.continuesPath last passed.head? = true) :
    Lexeme.scan localOffset last '/' ⟨passed, '/' :: rest⟩ =
      .ok (.plain .slash) ⟨'/' :: passed, rest⟩ := by
  have hprevious : Lexeme.continuesPath last (⟨passed, '/' :: rest⟩ : Cursor).previous = true := h
  rw [Lexeme.scan_slash, hprevious, if_pos rfl]
  rfl

/-- Segments behind slashes go on with a path, by induction on the segments: each slash stands right
behind a segment. -/
theorem yields_slashes (localOffset : UtcOffset)
    (hsegments : ∀ segment ∈ behind, isPathSegment segment = true)
    (h : IsSlashable behind) (hrest : FollowsWord rest)
    (hpath : Lexeme.continuesPath last passed.head? = true) :
    ∃ tokens last', Continued .slash Segment tokens (behind.map fun s ↦ ⟨[String.ofList s]⟩) ∧
      tokens.length ≤ (slashes behind).length ∧
      ∀ more, Yields ⟨⟨(slashes behind).reverse ++ passed, rest⟩, localOffset, last', false⟩ more →
        Yields ⟨⟨passed, slashes behind ++ rest⟩, localOffset, last, false⟩ (tokens ++ more) := by
  induction behind generalizing passed last with
  | nil => exact ⟨[], last, .nil, Nat.le_refl _, fun _ hmore ↦ hmore⟩
  | cons segment behind ih =>
    obtain ⟨hsegment, hbehind⟩ := List.forall_mem_cons.mp hsegments
    obtain ⟨hfits, hslashable⟩ := isSlashable_cons_iff.mp h
    obtain ⟨c, body, rfl⟩ := List.exists_cons_of_ne_nil (ne_nil_of_isPathSegment hsegment)
    obtain ⟨lexeme, hpart, hscan⟩ :=
      hfits.scan_eq hsegment hbehind hrest localOffset (some .slash) ('/' :: passed)
    obtain ⟨tokens, last', htokens, hlength, hyields⟩ :=
      ih hbehind hslashable (hpart.continuesPath hsegment ('/' :: passed))
    have hblank := not_blank_of_isPathSegment hsegment c List.mem_cons_self
    have hslash : next ⟨⟨passed, '/' :: [] ++ (c :: body ++ (slashes behind ++ rest))⟩, localOffset,
        last, false⟩ = _ :=
      next_of_scan_text (by decide) (scan_slash_of_continuesPath hpath)
    have hnext := next_of_scan_text hblank hscan
    rw [hpart.isSplitSign_eq] at hnext
    have htext : slashes ((c :: body) :: behind) ++ rest =
        '/' :: [] ++ (c :: body ++ (slashes behind ++ rest)) := by
      simp [slashes]
    have hitems := Separated.intro (hpart.segment hsegment ('/' :: passed).length) htokens
    let slash := (Lexeme.plain .slash).token (String.ofList ['/']) passed.length
    refine ⟨slash :: _, last', .cons rfl hitems, ?_, fun more hmore ↦ ?_⟩
    · simp [slashes] at hlength ⊢
      omega
    · have hsymbol : slash.symbol ≠ .stop := by simp [slash, Lexeme.token, Lexeme.symbol]
      rw [htext]
      refine .more hslash hsymbol (.more hnext (Lexeme.symbol_ne_stop hscan) (hyields more ?_))
      simpa [slashes] using hmore

/-- A path with slashes is the property of its segments. -/
theorem reads_slashed (hfirst : Members.isIdentifier first = true)
    (hsegments : ∀ segment ∈ behind, isPathSegment segment = true)
    (h : IsSlashable (first :: behind)) :
    Reads localOffset FollowsWord
      (Means Path fun read ↦ read = ⟨(first :: behind).map String.ofList⟩)
      (first ++ slashes behind) := by
  have hsegment := isPathSegment_of_isIdentifier hfirst
  obtain ⟨hfits, hslashable⟩ := isSlashable_cons_iff.mp h
  obtain ⟨c, body, rfl, -⟩ := Members.isIdentifier_iff.mp hfirst
  intro passed rest last hrest
  have hword : Lexeme.ofWord (c :: body) = .plain .property :=
    Lexeme.ofWord_eq_property_iff.mpr hfits.noConstant
  have hpart : (Lexeme.plain .property).IsPart := .inl rfl
  have hscan := scan_identifier hfirst (followsSegment_slashes hrest behind) localOffset last passed
  rw [hword] at hscan
  have hnext := next_of_scan_text (not_blank_of_isPathSegment hsegment c List.mem_cons_self) hscan
  obtain ⟨tokens, last', htokens, hlength, hyields⟩ :=
    yields_slashes localOffset hsegments hslashable hrest (hpart.continuesPath hsegment passed)
  let token := (Lexeme.plain .property).token (String.ofList (c :: body)) passed.length
  have hsymbol : token.symbol ≠ .stop := by simp [token, Lexeme.token, Lexeme.symbol]
  have hname : Property.ofPath token.text = ⟨[String.ofList (c :: body)]⟩ :=
    ofPath_segment (isSegment_of_isPathSegment hsegment)
  have hpath : Path ([token] ++ tokens) (concat (.ofPath token.text ::
      behind.map fun s ↦ ⟨[String.ofList s]⟩)) := .intro (.intro rfl) htokens
  rw [hname] at hpath
  refine ⟨token :: tokens, last', ⟨_, hpath, concat_singles ((c :: body) :: behind)⟩, ?_,
    fun more hmore ↦ ?_⟩
  · simp at hlength ⊢
    omega
  · rw [List.append_assoc]
    refine .more hnext hsymbol (hyields more ?_)
    simpa using hmore

/-- Where a path goes on with segments behind slashes, each of them fits, by induction on the
segments. -/
theorem isSlashable_of_continued (hsegments : ∀ segment ∈ behind, isPathSegment segment = true)
    (hrest : FollowsWord rest) (hpath : Lexeme.continuesPath last passed.head? = true)
    (hyields : Yields ⟨⟨passed, slashes behind ++ rest⟩, localOffset, last, false⟩
      (tokens ++ sign :: others))
    (hcontinued : Continued .slash Segment tokens segments) (hsign : sign.symbol ≠ .slash) :
    IsSlashable behind := by
  induction behind generalizing passed last tokens segments with
  | nil => exact isSlashable_nil
  | cons segment behind ih =>
    obtain ⟨hsegment, hbehind⟩ := List.forall_mem_cons.mp hsegments
    obtain ⟨c, body, rfl⟩ := List.exists_cons_of_ne_nil (ne_nil_of_isPathSegment hsegment)
    have htext : slashes ((c :: body) :: behind) ++ rest =
        '/' :: c :: (body ++ (slashes behind ++ rest)) := by
      simp [slashes]
    rw [htext] at hyields
    obtain ⟨head, tail, htokens⟩ : ∃ head tail, tokens ++ sign :: others = head :: tail :=
      List.exists_cons_of_ne_nil (by simp)
    rw [htokens] at hyields
    obtain ⟨slash, cursor, hslash, rfl, htail⟩ := hyields.uncons (by decide)
    obtain ⟨rfl, rfl⟩ := EStateM.Result.ok.inj
      ((scan_slash_of_continuesPath hpath).symm.trans hslash)
    cases hcontinued with
    | nil =>
      obtain ⟨rfl, -⟩ := List.cons.inj htokens
      exact absurd rfl hsign
    | cons _ hitems =>
      obtain ⟨piece, tokens, part, segments, rfl, rfl, hpiece, hcontinued⟩ := hitems.uncons
      obtain ⟨token, rfl⟩ := eq_singleton_of_segment hpiece
      obtain ⟨-, rfl⟩ := List.cons.inj htokens
      have hblank := not_blank_of_isPathSegment hsegment c List.mem_cons_self
      obtain ⟨lexeme, cursor, hscan, rfl, hmore⟩ := htail.uncons hblank
      have hpart := isPart_of_segment hpiece
      obtain ⟨hfits, rfl⟩ := fitsPath_of_scan hsegment hbehind hrest hscan hpart
      rw [hpart.isSplitSign_eq] at hmore
      have hslashable := ih hbehind (hpart.continuesPath hsegment ('/' :: passed)) hmore hcontinued
      exact isSlashable_cons_iff.mpr ⟨hfits, hslashable⟩

theorem opens_ofWord (word : List Char) : (Lexeme.ofWord word).symbol.opens = false := by
  obtain h | h | ⟨b, h⟩ := Lexeme.ofWord_cases word <;> rw [h] <;> rfl

/-- A sentence that begins with segments between slashes is only read if they all fit. -/
theorem isSlashable_of_sentence (hfirst : Members.isIdentifier first = true)
    (hsegments : ∀ segment ∈ behind, isPathSegment segment = true) (hrest : FollowsWord rest)
    (hyields :
      Yields ⟨⟨passed, first ++ (slashes behind ++ rest)⟩, localOffset, last, false⟩ tokens)
    (hsentence : Sentence tokens query) : IsSlashable (first :: behind) := by
  have hsegment := isPathSegment_of_isIdentifier hfirst
  obtain ⟨c, body, rfl, -⟩ := Members.isIdentifier_iff.mp hfirst
  have hblank := not_blank_of_isPathSegment hsegment c List.mem_cons_self
  rw [List.cons_append] at hyields
  cases hsentence with
  | empty hstop =>
    obtain ⟨lexeme, cursor, hscan, rfl, -⟩ := hyields.uncons hblank
    exact absurd hstop (symbol_ne_stop_of_scanLexeme hscan)
  | @clauses tokens stop _ hclauses hstop =>
    obtain ⟨head, tail, htokens⟩ : ∃ head tail, tokens ++ [stop] = head :: tail :=
      List.exists_cons_of_ne_nil (by simp)
    rw [htokens] at hyields
    obtain ⟨lexeme, cursor, hscan, rfl, hmore⟩ := hyields.uncons hblank
    have hlexeme : Lexeme.scan localOffset last c
        ⟨passed, c :: (body ++ (slashes behind ++ rest))⟩ = .ok lexeme cursor := hscan
    have hopens : (Parse.headSymbol (tokens ++ [stop])).opens = false := by
      rw [scan_identifier hfirst (followsSegment_slashes hrest behind)] at hlexeme
      obtain ⟨rfl, -⟩ := EStateM.Result.ok.inj hlexeme
      rw [htokens]
      exact opens_ofWord (c :: body)
    obtain ⟨piece, sign, others, op, property, value, hcut, -, hsubject, hsign⟩ :=
      leading_of_clauses hclauses hopens
    rw [htokens] at hcut hopens
    cases hsubject with
    | path hpath =>
      obtain ⟨⟨hword⟩, hcontinued⟩ := hpath
      obtain ⟨rfl, rfl⟩ := List.cons.inj hcut
      have hpart : lexeme.IsPart := isPart_of_segment (.word (.intro hword))
      obtain ⟨hfits, rfl⟩ := fitsPath_of_scan hsegment hsegments hrest hlexeme hpart
      rw [hpart.isSplitSign_eq] at hmore
      have hslashable := isSlashable_of_continued hsegments hrest
        (hpart.continuesPath hsegment passed) hmore hcontinued (by simp [hsign])
      exact isSlashable_cons_iff.mpr ⟨hfits, hslashable⟩
    | compound hopening =>
      obtain ⟨rfl, -⟩ := List.cons.inj hcut
      rw [Parse.headSymbol_cons, hopening] at hopens
      cases hopens

end Slashed

/-! ### Paths in parentheses -/

section Listed

variable {text rest passed : List Char} {texts : List (List Char)} {localOffset : UtcOffset}
  {last : Option Symbol} {tokens others : List Token} {closing : Token} {parts : List Property}
  {query : Query}

/-- The segment may stand in a list: an identifier that is no constant. -/
def IsListItem (text : List Char) : Prop :=
  Members.isIdentifier text = true ∧ ¬IsConstant text

/-- Identifiers with commas between them. -/
def listText (texts : List (List Char)) : List Char :=
  [','].intercalate texts

theorem listText_cons_cons (text next : List Char) (texts : List (List Char)) :
    listText (text :: next :: texts) = text ++ ',' :: listText (next :: texts) := by
  simp [listText]

theorem reads_listItem (h : IsListItem text) :
    Reads localOffset FollowsWord (Means Path fun read ↦ read = ⟨[String.ofList text]⟩) text := by
  have hfits : FitsPath text [] := fitsPath_of_isIdentifier h.1 h.2 []
  have hreads : Reads localOffset FollowsWord
      (Means Path fun read ↦ read = ⟨[text].map String.ofList⟩) (text ++ slashes []) :=
    reads_slashed h.1 (List.forall_mem_nil _) (isSlashable_cons_iff.mpr ⟨hfits, isSlashable_nil⟩)
  simpa [slashes] using hreads

/-- A path in parentheses is the property of its segments. -/
theorem reads_listed (h : ∀ text ∈ texts, IsListItem text) (hne : texts ≠ []) :
    Reads localOffset FollowsWord (Means Subject fun read ↦ read = ⟨texts.map String.ofList⟩)
      ('(' :: (listText texts ++ [')'])) := by
  have hcomma : Lexeme.single? ',' = some .comma := rfl
  have hopen : Lexeme.single? '(' = some .openParen := rfl
  have hclose : Lexeme.single? ')' = some .closeParen := rfl
  have hitems : List.Forall₂ (fun item (text : List Char) ↦ Reads localOffset FollowsValue
      (Means Path fun read ↦ read = ⟨[String.ofList text]⟩) item.toList)
      (texts.map String.ofList) texts := by
    refine List.forall₂_map_left_iff.mpr (List.forall₂_same.mpr fun text hmem ↦ ?_)
    rw [String.toList_ofList]
    exact (reads_listItem (h text hmem)).narrow fun _ hrest ↦ hrest.stops
  have hlist := reads_separated hcomma (by decide) hne hitems
  have htext : (','.toString.intercalate (texts.map String.ofList)).toList = listText texts := by
    rw [String.toList_intercalate, List.map_map]
    simp [listText, Function.comp_def]
  rw [htext] at hlist
  have hinner : Reads localOffset FollowsWord
      (fun tokens ↦ ∃ inner closing, tokens = inner ++ [closing] ∧
        Separated .comma Path inner (texts.map fun s ↦ ⟨[String.ofList s]⟩) ∧
        closing.symbol = .closeParen) (listText texts ++ [')']) := by
    refine hlist.append (reads_single hclose (by decide))
      (fun rest _ ↦ followsValue_cons (by decide) rest) ?_
    rintro inner _ ⟨parts, hparts, hall⟩ ⟨closing, rfl, hclosing⟩
    obtain rfl : parts = texts.map fun s ↦ ⟨[String.ofList s]⟩ := by
      rwa [← List.forall₂_eq_eq_eq, List.forall₂_map_right_iff]
    exact ⟨inner, closing, rfl, hparts, hclosing⟩
  have hempty : Reads localOffset (fun _ ↦ True) (fun tokens ↦ tokens = []) [] := reads_nil rfl
  apply hempty.around hopen (by decide) hinner (fun _ ↦ trivial)
  rintro _ opening _ rfl hopening ⟨inner, closing, rfl, hparts, hclosing⟩
  exact ⟨_, .compound hopening hparts hclosing, concat_singles texts⟩

theorem isPathChar_of_isPathSegment (h : isPathSegment text = true) :
    ∀ c ∈ text, Lexeme.isPathChar c = true := by
  intro c hc
  rw [Lexeme.isPathChar, (isWordChar_of_isPathSegment h c hc).1, Bool.true_or]

/-- A number is no bare name, and neither is a constant. -/
theorem isListItem_of_isBareName (h : isPathSegment text = true) (hname : IsBareName text) :
    IsListItem text := by
  refine ⟨?_, hname.noConstant⟩
  rw [isPathSegment, Bool.or_eq_true] at h
  obtain hidentifier | hnumber := h
  · exact hidentifier
  · have hread := (DecimalInteger.isPlain_ofSegment hnumber).recovers_scan?
      (show Bars isWordChar [] from rfl) []
    obtain ⟨middle, hnone⟩ := hname.noLiteral.numeral
    rw [DecimalInteger.chars_ofSegment, List.append_nil] at hread
    cases hread.symm.trans hnone

/-- Each text of a list in parentheses has been read as a path, by induction on the texts. -/
theorem isListItem_of_separated (hsegments : ∀ text ∈ texts, isPathSegment text = true)
    (hyields : Yields ⟨⟨passed, listText texts ++ ')' :: rest⟩, localOffset, last, false⟩
      (tokens ++ closing :: others))
    (hparts : Separated .comma Path tokens parts) (hclosing : closing.symbol = .closeParen) :
    ∀ text ∈ texts, IsListItem text := by
  induction texts generalizing passed last tokens parts with
  | nil => exact List.forall_mem_nil _
  | cons text texts ih =>
    obtain ⟨hsegment, hbehind⟩ := List.forall_mem_cons.mp hsegments
    obtain ⟨first, behind, part, parts, rfl, rfl, hfirst, hcontinued⟩ := hparts.uncons
    have hpath := isPathChar_of_isPathSegment hsegment
    obtain ⟨token, more, hmore⟩ : ∃ token more, behind ++ closing :: others = token :: more :=
      List.exists_cons_of_ne_nil (by simp)
    rw [List.append_assoc, hmore] at hyields
    cases texts with
    | nil =>
      have hrest : FollowsWord (')' :: rest) := (followsValue_cons (by decide) rest).stops
      have htext : listText [text] = text := by simp [listText]
      rw [htext] at hyields
      obtain ⟨-, hname, -⟩ :=
        hyields.fills_subject hrest hpath (isReady_unsplit _ _ _) (.path hfirst)
      exact List.forall_mem_singleton.mpr (isListItem_of_isBareName hsegment (hname rfl))
    | cons next texts =>
      have hrest : FollowsWord (',' :: (listText (next :: texts) ++ ')' :: rest)) :=
        (followsValue_cons (by decide) _).stops
      rw [listText_cons_cons, List.append_assoc, List.cons_append] at hyields
      obtain ⟨-, hname, -, _, hcomma⟩ :=
        hyields.fills_subject hrest hpath (isReady_unsplit _ _ _) (.path hfirst)
      obtain ⟨hsymbol, htail⟩ := uncons_single rfl (by decide) hcomma
      refine List.forall_mem_cons.mpr ⟨isListItem_of_isBareName hsegment (hname rfl), ?_⟩
      cases hcontinued with
      | nil =>
        obtain ⟨rfl, -⟩ := List.cons.inj hmore
        cases hclosing.symm.trans hsymbol
      | cons _ hitems =>
        obtain ⟨-, rfl⟩ := List.cons.inj hmore
        exact ih hbehind htail hitems

/-- The first term of some clauses. -/
theorem exists_term_of_clauses (h : Clauses tokens query) :
    ∃ first behind term, tokens = first ++ behind ∧ Term first term := by
  cases h with
  | term hterm => exact ⟨tokens, [], query, by simp, hterm⟩
  | joined hpieces hterms hmany =>
    obtain ⟨first, behind, term, -, rfl, -, hterm, -⟩ := Separated.uncons ⟨_, hpieces, hterms⟩
    exact ⟨first, behind, term, rfl, hterm⟩

/-- A list of two texts or more is no clause. -/
theorem not_clauses_of_list {next : List Char} {more : List Token} (h : isPathSegment text = true)
    (hyields : Yields ⟨⟨passed, listText (text :: next :: texts) ++ rest⟩, localOffset, last, false⟩
      (tokens ++ closing :: more)) : ¬Clauses tokens query := by
  intro hclauses
  have hrest : FollowsWord (',' :: (listText (next :: texts) ++ rest)) :=
    (followsValue_cons (by decide) _).stops
  have hpath := isPathChar_of_isPathSegment h
  rw [listText_cons_cons, List.append_assoc, List.cons_append] at hyields
  have hopens : (Parse.headSymbol (tokens ++ closing :: more)).opens = false := by
    obtain ⟨head, tail, htokens⟩ : ∃ head tail, tokens ++ closing :: more = head :: tail :=
      List.exists_cons_of_ne_nil (by simp)
    rw [htokens] at hyields ⊢
    exact hyields.opens_eq_false hrest hpath (isReady_unsplit _ _ _)
  obtain ⟨first, sign, others, op, property, value, hcut, -, hsubject, hsign⟩ :=
    leading_of_clauses hclauses hopens
  rw [hcut] at hyields
  obtain ⟨-, -, -, _, hcomma⟩ := hyields.fills_subject hrest hpath (isReady_unsplit _ _ _) hsubject
  have hsymbol := (uncons_single rfl (by decide) hcomma).1
  cases hsign.symm.trans hsymbol

/-- A sentence that begins with a list in parentheses is only read if its texts are list items. -/
theorem isListItem_of_sentence {next : List Char}
    (hsegments : ∀ segment ∈ text :: next :: texts, isPathSegment segment = true)
    (hyields : Yields ⟨⟨passed, '(' :: (listText (text :: next :: texts) ++ ')' :: rest)⟩,
      localOffset, last, false⟩ tokens) (hsentence : Sentence tokens query) :
    ∀ segment ∈ text :: next :: texts, IsListItem segment := by
  cases hsentence with
  | empty hstop =>
    have hsymbol := (uncons_single rfl (by decide) hyields).1
    cases hstop.symm.trans hsymbol
  | @clauses tokens stop _ hclauses hstop =>
    obtain ⟨first, behind, term, rfl, hterm⟩ := exists_term_of_clauses hclauses
    rw [List.append_assoc] at hyields
    cases hterm with
    | @within opening closing inner _ hopening hinner hclosing =>
      simp only [List.cons_append, List.append_assoc, List.nil_append] at hyields
      obtain ⟨-, htail⟩ := uncons_single rfl (by decide) hyields
      exact absurd hinner (not_clauses_of_list (hsegments text List.mem_cons_self) htail)
    | comparison hsubject hsign hoperand =>
      cases hsubject with
      | path hpath =>
        obtain ⟨⟨hword⟩, -⟩ := hpath
        have hsymbol := (uncons_single rfl (by decide) hyields).1
        cases hword.symm.trans hsymbol
      | compound hopening hparts hclosing =>
        simp only [List.cons_append, List.append_assoc, List.nil_append] at hyields
        obtain ⟨-, htail⟩ := uncons_single rfl (by decide) hyields
        exact isListItem_of_separated hsegments htail hparts hclosing
    | function hcall =>
      obtain ⟨hname, -, -, -⟩ := hcall
      have hsymbol := (uncons_single rfl (by decide) hyields).1
      cases hname.symm.trans hsymbol
    | group hname =>
      have hsymbol := (uncons_single rfl (by decide) hyields).1
      cases hname.symm.trans hsymbol

end Listed

/-! ### Comparisons with one -/

section Compared

variable {options : ReadOptions} {path : List Char} {property : Property} {query : Query}
  {localOffset : UtcOffset}

/-- The number one, as a bare digit is read. -/
def oneValue : Value :=
  .integer ⟨.int32, 1, by decide⟩

theorem scansTo_one (localOffset : UtcOffset) : ScansTo localOffset ['1'] oneValue := by
  have hplain : ((DecimalInteger.ofSegment ['1'] rfl).numeral []).IsPlain :=
    DecimalInteger.isPlain_numeral _ ⟨_, List.mem_cons_self⟩
  exact hplain.scansTo (by rfl)

/-- A literal that stands for a value is read as the value. -/
theorem Lexer.Denotes.reads_operand {text : List Char} {value : Value}
    (h : Denotes localOffset FollowsValue text (.literal value)) :
    Reads localOffset FollowsValue (Means Operand fun read ↦ read = value) text := by
  intro passed rest last hrest
  have hnext := h.next_eq passed hrest last
  have hoperand (found : String) (position : Nat) :
      Operand [(Lexeme.literal value).token found position] value := .literal rfl rfl
  have hlength : 1 ≤ text.length := by
    obtain ⟨c, body, rfl, -⟩ := h
    simp
  exact ⟨[_], _, ⟨value, hoperand _ _, rfl⟩, hlength, fun more hmore ↦
    .more hnext (h.symbol_ne_stop hrest) hmore⟩

theorem endsComparison_one (rest : List Char) : EndsComparison (['1'] ++ rest) := by
  refine ⟨by simp, fun word behind htext hletters ↦ ?_⟩
  cases word with
  | nil => rfl
  | cons c word =>
    obtain rfl : '1' = c := (List.cons.inj htext).1
    exact absurd (hletters '1' List.mem_cons_self) (by decide)

theorem scan_comparedWithOne (h : Reads options.localOffset FollowsWord
      (Means Subject fun read ↦ read = property) path) :
    Query.scan options (path ++ (Comparison.eq.sign.toList ++ ['1'])) =
      .ok (.compare .eq property oneValue) :=
  Query.scan_compare_of_reads .eq h ((scansTo_one _).denotes (by decide)).reads_operand
    fun rest _ ↦ endsComparison_one rest

/-- The text of a path has nothing in it that would be decoded or taken off. -/
structure IsPathText (path : List Char) : Prop where
  chars : ∀ c ∈ path, Text.isBlank c = false ∧ c ∉ ['%', '=', '?']
  separator : ∃ c ∈ path, Text.isLetter c = false

theorem IsPathText.prepare_eq (h : IsPathText path) (options : ReadOptions) :
    Query.prepare options (path ++ (Comparison.eq.sign.toList ++ ['1'])) =
      .ok (path ++ (Comparison.eq.sign.toList ++ ['1'])) := by
  have hbehind : ∀ c ∈ Comparison.eq.sign.toList ++ ['1'], Text.isBlank c = false ∧ c ≠ '%' :=
    forall_mem_of_all (by decide)
  have hcode : '%' ∉ path ++ (Comparison.eq.sign.toList ++ ['1']) := by
    intro hmem
    obtain hmem | hmem := List.mem_append.mp hmem
    · exact (h.chars '%' hmem).2 (by simp)
    · exact (hbehind '%' hmem).2 rfl
  have hblanks : Text.NoBlankEnds (path ++ (Comparison.eq.sign.toList ++ ['1'])) :=
    Text.noBlankEnds_of_not_blank fun c hc ↦
      (List.mem_append.mp hc).elim (fun hc ↦ (h.chars c hc).1) fun hc ↦ (hbehind c hc).1
  obtain ⟨separator, hseparator, hletter⟩ := h.separator
  rw [Query.prepare_of_not_hasCode (Text.Percent.not_hasCode_of_not_mem hcode),
    Query.strip_eq_self_iff.mpr ⟨hblanks, ?_⟩]
  rintro (hmark | hname)
  · obtain ⟨c, rest, rfl⟩ := List.exists_cons_of_ne_nil (List.ne_nil_of_mem hseparator)
    obtain rfl : c = '?' := by simpa using hmark
    exact (h.chars '?' List.mem_cons_self).2 (by simp)
  · have hequals : '=' ∉ path := fun hmem ↦ (h.chars '=' hmem).2 (by simp)
    have hlower := ((beginsName_comparison hequals ['1']).mp hname).2
    have hletters : ∀ c ∈ "rql".toList, Text.isLetter c = true := forall_mem_of_all (by decide)
    have hmem : separator.toLower ∈ "rql".toList := hlower ▸ List.mem_map_of_mem hseparator
    have hname := hletters _ hmem
    rw [Text.isLetter_toLower, hletter] at hname
    cases hname

/-- How a path is compared with one, which its text decides. -/
theorem IsPathText.read_eq {path : String} (h : IsPathText path.toList) (options : ReadOptions) :
    Query.read options (path ++ "=1") =
      Query.scan options (path.toList ++ (Comparison.eq.sign.toList ++ ['1'])) := by
  have htext : (path ++ "=1").toList = path.toList ++ (Comparison.eq.sign.toList ++ ['1']) := by
    simp [Comparison.sign]
  rw [Query.read, htext, h.prepare_eq]
  rfl

end Compared

/-! ### The spellings of a path -/

namespace NestedPath

variable (path : NestedPath)

def segments : List String :=
  path.first :: path.more

def property : Property :=
  ⟨path.segments⟩

def texts : List (List Char) :=
  path.segments.map String.toList

def dotted : String :=
  ".".intercalate path.segments

def slashed : String :=
  "/".intercalate path.segments

def listed : String :=
  "(" ++ ",".intercalate path.segments ++ ")"

/-- The comparison of the path with one. -/
def compared : Query :=
  .compare .eq path.property oneValue

theorem isPathSegment_texts : ∀ text ∈ path.texts, isPathSegment text = true := by
  rw [texts, segments, List.forall_mem_map, List.forall_mem_cons]
  exact ⟨isPathSegment_of_isIdentifier path.isIdentifier_first, path.isPathSegment_more⟩

theorem map_ofList_texts : path.texts.map String.ofList = path.segments := by
  simp [texts, Function.comp_def]

theorem toList_slashed : path.slashed.toList =
    path.first.toList ++ slashes (path.more.map String.toList) := by
  have hslashes (text : List Char) (texts : List (List Char)) :
      ['/'].intercalate (text :: texts) = text ++ slashes texts := by
    induction texts generalizing text with
    | nil => simp [slashes]
    | cons next texts ih =>
      rw [List.intercalate_cons_cons, ih]
      simp [slashes]
  rw [slashed, String.toList_intercalate]
  exact hslashes path.first.toList (path.more.map String.toList)

theorem toList_listed : path.listed.toList = '(' :: (listText path.texts ++ [')']) := by
  simp [listed, listText, texts, String.toList_intercalate]

/-- The segments of a path with one of the signs between them. -/
theorem isPathText_intercalate {sign : Char} (hsign : sign ∈ ['.', '/', ',']) :
    IsPathText (sign.toString.intercalate path.segments).toList := by
  have hsigns : ∀ c ∈ ['.', '/', ','], Text.isBlank c = false ∧ c ∉ ['%', '=', '?'] ∧
      Text.isLetter c = false := forall_mem_of_all (by decide)
  obtain ⟨hblank, hmark, hletter⟩ := hsigns sign hsign
  constructor
  · intro c hc
    obtain hc | ⟨segment, hsegment, hc⟩ := mem_of_mem_intercalate hc
    · obtain rfl : c = sign := by simpa using hc
      exact ⟨hblank, hmark⟩
    · have htext := path.isPathSegment_texts _ (List.mem_map_of_mem hsegment)
      obtain ⟨hword, hmarks⟩ := isWordChar_of_isPathSegment htext c hc
      refine ⟨not_blank_of_isPathSegment htext c hc, fun hmem ↦ ?_⟩
      simp only [List.mem_cons, List.not_mem_nil, or_false] at hmem
      obtain rfl | rfl | rfl := hmem
      · simp at hmarks
      · cases hword
      · simp at hmarks
  · obtain ⟨next, more, hmore⟩ := List.exists_cons_of_ne_nil path.more_ne_nil
    rw [segments, hmore, toList_intercalate_cons]
    exact ⟨sign, by simp, hletter⟩

theorem isPathText_listed : IsPathText path.listed.toList := by
  have hinner := path.isPathText_intercalate (show ',' ∈ ['.', '/', ','] by simp)
  have htext : path.listed.toList =
      '(' :: ((','.toString.intercalate path.segments).toList ++ [')']) := by
    simp [listed]
  rw [htext]
  refine ⟨?_, '(', List.mem_cons_self, by decide⟩
  refine List.forall_mem_cons.mpr ⟨by decide, List.forall_mem_append.mpr ⟨hinner.chars, ?_⟩⟩
  exact List.forall_mem_singleton.mpr (by decide)

theorem isClean_property : path.property.IsClean := fun _ hsegment ↦
  isSegment_of_isPathSegment (path.isPathSegment_texts _ (List.mem_map_of_mem hsegment))

/-- A dotted path is a bare name, as no constant has a point in it. -/
theorem isBareName_dotted : IsBareName path.dotted.toList := by
  obtain ⟨c, body, hfirst, hc, -⟩ := Members.isIdentifier_iff.mp path.isIdentifier_first
  obtain ⟨next, more, hmore⟩ := List.exists_cons_of_ne_nil path.more_ne_nil
  have htext : path.dotted.toList =
      c :: (body ++ '.' :: ('.'.toString.intercalate (next :: more)).toList) := by
    change ('.'.toString.intercalate path.segments).toList = _
    rw [segments, hmore, toList_intercalate_cons, hfirst]
    rfl
  have hchars : ∀ d ∈ path.dotted.toList, isWordChar d = true ∧ d ≠ '-' := by
    intro d hd
    obtain hd | ⟨segment, hsegment, hd⟩ := mem_of_mem_intercalate hd
    · obtain rfl : d = '.' := by simpa using hd
      decide
    · have hsegment := path.isPathSegment_texts _ (List.mem_map_of_mem hsegment)
      obtain ⟨hword, hmarks⟩ := isWordChar_of_isPathSegment hsegment d hd
      exact ⟨hword, by rintro rfl; simp at hmarks⟩
  have hne {other : Char} (hother : Members.isIdentifierStart other = false) :
      (c == other) = false := by
    rw [beq_eq_false_iff_ne]
    rintro rfl
    rw [hc] at hother
    cases hother
  have hsign : isSign c = false := by
    rw [isSign, hne (by decide), hne (by decide)]
    rfl
  have hdigits (second : Option Char) : Lexeme.beginsDigits c second = false := by
    rw [Lexeme.beginsDigits, Members.isDigit_of_isIdentifierStart hc, hne (by decide), hsign]
    rfl
  have hconstant : Text.lowerAscii path.dotted.toList ∉
      ["null".toList, "true".toList, "false".toList] := by
    have hpoint : '.' ∈ Text.lowerAscii path.dotted.toList :=
      List.mem_map.mpr ⟨'.', by simp [htext], rfl⟩
    have hwords : ∀ word ∈ ["null".toList, "true".toList, "false".toList], '.' ∉ word :=
      forall_mem_of_all (by decide)
    exact fun hmem ↦ hwords _ hmem hpoint
  have hguid : Guid.ahead (.start path.dotted.toList) = false :=
    guidAhead_of_tail fun hmem ↦ (hchars '-' (List.mem_of_mem_tail hmem)).2 rfl
  have hword : path.dotted.toList.all isWordChar = true :=
    List.all_eq_true.mpr fun d hd ↦ (hchars d hd).1
  rw [htext] at hword hguid hconstant ⊢
  exact Query.isBareName_of_not_beginsDigits hword hsign (hdigits _) hguid hconstant

theorem read_dotted (options : ReadOptions) :
    Query.read options (path.dotted ++ "=1") = .ok path.compared := by
  have htext : IsPathText path.dotted.toList :=
    path.isPathText_intercalate (show '.' ∈ ['.', '/', ','] by simp)
  obtain ⟨word, stop, hscan, hword, hstop, hsame⟩ :=
    Property.readsBack_of_isBareName path.isClean_property path.isBareName_dotted
  have hreads := reads_word hscan hword hstop
  rw [hsame] at hreads
  rw [htext.read_eq]
  exact scan_comparedWithOne hreads

theorem read_slashed (options : ReadOptions) (query : Query) :
    Query.read options (path.slashed ++ "=1") = .ok query ↔
      IsSlashable path.texts ∧ query = path.compared := by
  have htext : IsPathText path.slashed.toList :=
    path.isPathText_intercalate (show '/' ∈ ['.', '/', ','] by simp)
  have hmore : ∀ text ∈ path.more.map String.toList, isPathSegment text = true :=
    List.forall_mem_map.mpr path.isPathSegment_more
  have hread (h : IsSlashable path.texts) : Query.scan options (path.first.toList ++
      slashes (path.more.map String.toList) ++ (Comparison.eq.sign.toList ++ ['1'])) =
        .ok path.compared := by
    refine scan_comparedWithOne ((reads_slashed path.isIdentifier_first hmore h).mono ?_)
    rintro tokens ⟨_, hpath, rfl⟩
    exact ⟨_, .path hpath, congrArg Property.mk path.map_ofList_texts⟩
  rw [htext.read_eq, toList_slashed]
  constructor
  · intro h
    obtain ⟨tokens, parsed, hscan, hsentence, -⟩ := Query.exists_sentence_of_scan h
    have hyields := scan_eq_ok_iff.mp hscan
    rw [List.append_assoc] at hyields
    have hslashable : IsSlashable path.texts := isSlashable_of_sentence path.isIdentifier_first
      hmore (followsWord_sign .eq ['1']) hyields hsentence
    exact ⟨hslashable, Except.ok.inj (h.symm.trans (hread hslashable))⟩
  · rintro ⟨h, rfl⟩
    exact hread h

theorem read_listed (options : ReadOptions) (query : Query) :
    Query.read options (path.listed ++ "=1") = .ok query ↔
      (∀ text ∈ path.texts, IsListItem text) ∧ query = path.compared := by
  have hread (h : ∀ text ∈ path.texts, IsListItem text) : Query.scan options
      ('(' :: (listText path.texts ++ [')']) ++ (Comparison.eq.sign.toList ++ ['1'])) =
        .ok path.compared := by
    have hreads : Reads options.localOffset FollowsWord (Means Subject fun read ↦ read =
        ⟨path.texts.map String.ofList⟩) ('(' :: (listText path.texts ++ [')'])) :=
      reads_listed h (by simp [texts, segments])
    rw [map_ofList_texts] at hreads
    exact scan_comparedWithOne hreads
  obtain ⟨next, more, hmore⟩ := List.exists_cons_of_ne_nil path.more_ne_nil
  have htexts : path.texts = path.first.toList :: next.toList :: more.map String.toList := by
    rw [texts, segments, hmore, List.map_cons, List.map_cons]
  rw [path.isPathText_listed.read_eq, toList_listed]
  constructor
  · intro h
    obtain ⟨tokens, parsed, hscan, hsentence, -⟩ := Query.exists_sentence_of_scan h
    have hyields := scan_eq_ok_iff.mp hscan
    have hsegments := path.isPathSegment_texts
    have hitems : ∀ text ∈ path.texts, IsListItem text := by
      rw [htexts] at hsegments hyields ⊢
      simp only [List.cons_append, List.append_assoc, List.nil_append] at hyields
      exact isListItem_of_sentence hsegments hyields hsentence
    exact ⟨hitems, Except.ok.inj (h.symm.trans (hread hitems))⟩
  · rintro ⟨h, rfl⟩
    exact hread h

/-- Every nested path can be written with dots. With slashes it is read just if no segment is a
constant, a number out of range or the beginning of a date, and in parentheses just if all segments
are identifiers and no constants; it is then the same path, and otherwise nothing is read. -/
theorem read_spellings (options : ReadOptions) :
    Query.read options (path.dotted ++ "=1") = .ok path.compared ∧
      (∀ query, Query.read options (path.slashed ++ "=1") = .ok query ↔
        IsSlashable path.texts ∧ query = path.compared) ∧
      ∀ query, Query.read options (path.listed ++ "=1") = .ok query ↔
        (∀ text ∈ path.texts, IsListItem text) ∧ query = path.compared :=
  ⟨path.read_dotted options, path.read_slashed options, path.read_listed options⟩

/-- Only with dots a constant can be a segment, and behind a slash a year and a month are a date. -/
theorem spellings_apart :
    Query.read {} "a.true=1" = .ok (.compare .eq ⟨["a", "true"]⟩ oneValue) ∧
      Query.read {} "a/true=1" ≠ .ok (.compare .eq ⟨["a", "true"]⟩ oneValue) ∧
      Query.read {} "(a,true)=1" ≠ .ok (.compare .eq ⟨["a", "true"]⟩ oneValue) ∧
      Query.read {} "a.2024.1=1" = .ok (.compare .eq ⟨["a", "2024", "1"]⟩ oneValue) ∧
      Query.read {} "a/2024/1=1" ≠ .ok (.compare .eq ⟨["a", "2024", "1"]⟩ oneValue) := by
  let constant : NestedPath := ⟨"a", ["true"], by decide, by decide, by decide⟩
  let dated : NestedPath := ⟨"a", ["2024", "1"], by decide, by decide, by decide⟩
  have hconstant : IsConstant "true".toList := List.mem_of_elem_eq_true (by decide)
  have hmem : "true".toList ∈ constant.texts := List.mem_of_elem_eq_true (by decide)
  have hdate : BeginsDate ["2024".toList, "1".toList] := .year (by decide) (by decide) (by decide)
  have hsuffix : ["2024".toList, "1".toList] <:+ dated.texts := ⟨["a".toList], rfl⟩
  refine ⟨constant.read_dotted {}, fun h ↦ ?_, fun h ↦ ?_, dated.read_dotted {}, fun h ↦ ?_⟩
  · exact ((constant.read_slashed {} _).mp h).1.noConstant _ hmem hconstant
  · exact (((constant.read_listed {} _).mp h).1 _ hmem).2 hconstant
  · exact ((dated.read_slashed {} _).mp h).1.noDate _ hsuffix hdate

end NestedPath

end ResourceQuery
