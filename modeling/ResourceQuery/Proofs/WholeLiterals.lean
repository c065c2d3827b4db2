import ResourceQuery.Proofs.Recovery

/-!
# Texts that are one literal

A query may be a single literal and nothing else. Its text is then the same literal wherever it
stands in front of something that may follow a value. Behind the name of a type and a colon, it is
up to the scanner of that type whether the whole text is a literal.
-/

namespace ResourceQuery

open Run

namespace Lexer

variable {localOffset : UtcOffset} {c : Char} {text body : List Char} {value : Value}

/-- The whole text is one literal. -/
def ScansTo (localOffset : UtcOffset) (text : List Char) (value : Value) : Prop :=
  scan text localOffset =
    .ok ⟨[⟨.literal, some value, String.ofList text, 0⟩, .stop text.length]⟩

/-- The text cannot be cut into tokens. -/
def Refuses (localOffset : UtcOffset) (text : List Char) : Prop :=
  ∃ position fault, scan text localOffset = .error (.lexical position fault)

theorem scan_of_literal (hblank : Text.isBlank c = false)
    (h : Lexeme.scan localOffset none c ⟨[], c :: body⟩ =
      .ok (.literal value) ⟨(c :: body).reverse ++ [], []⟩) :
    ScansTo localOffset (c :: body) value := by
  have htext : (⟨(c :: body).reverse ++ [], []⟩ : Cursor).textFrom 0 = c :: body := by
    rw [Cursor.textFrom_zero]
    simp
  have hnext := next_of_scan hblank h
  rw [List.length_nil, htext] at hnext
  have hlength : ((c :: body).reverse ++ []).length = (c :: body).length := by simp
  have hstop : next ⟨⟨(c :: body).reverse ++ [], []⟩, localOffset, some .literal, false⟩ =
      (.ok (.stop ((c :: body).reverse ++ []).length), _) := rfl
  rw [hlength] at hstop
  have hyields : Yields (start (c :: body) localOffset) [_, .stop (c :: body).length] :=
    .more hnext (by simp [Lexeme.token, Lexeme.symbol]) (.stop hstop rfl)
  rw [ScansTo, scan, hyields.drain_eq (by simp)]
  rfl

theorem refuses_of_fault {fault : LexicalFault} {cursor : Cursor} (hblank : Text.isBlank c = false)
    (h : Lexeme.scan localOffset none c ⟨[], c :: body⟩ = .error fault cursor) :
    Refuses localOffset (c :: body) := by
  have hlexeme : scanLexeme ⟨⟨[], c :: body⟩, localOffset, none, false⟩ c ⟨[], c :: body⟩ =
      .error fault cursor := h
  have hnext : next (start (c :: body) localOffset) =
      (.error (.lexical 0 fault), ⟨cursor, localOffset, none, false⟩) := by
    change next ⟨⟨[], c :: body⟩, localOffset, none, false⟩ = _
    rw [next_cons hblank, hlexeme]
    rfl
  refine ⟨0, fault, ?_⟩
  rw [scan, List.length_cons, drain, hnext]
  rfl

/-- A literal by itself is the same literal in front of what may follow a value. -/
theorem ScansTo.denotes (h : ScansTo localOffset text value) (hslash : text.head? ≠ some '/') :
    Denotes localOffset FollowsValue text (.literal value) := by
  obtain ⟨blanks, c, body, lexeme, cursor, hlone, htoken⟩ := isLone_of_scan h rfl (.inr rfl)
  have hblanks : blanks = [] := (List.length_eq_zero_iff.mp (congrArg Token.position htoken).symm)
  subst hblanks
  have hlexeme : lexeme = .literal value := by
    cases lexeme with
    | literal other =>
      exact congrArg Lexeme.literal (Option.some.inj (congrArg Token.value htoken)).symm
    | plain symbol => exact nomatch congrArg Token.value htoken
    | splitSign order => exact nomatch congrArg Token.value htoken
  subst hlexeme
  have hstart : c ≠ '/' := by
    rintro rfl
    exact hslash (by rw [hlone.text_eq]; rfl)
  have hread : cursor.passed.reverse = text := by
    rw [← Cursor.textFrom_zero]
    exact (String.ofList_injective (congrArg Token.text htoken)).symm
  refine ⟨c, body, hlone.text_eq, hlone.not_blank, fun passed rest last hrest ↦ ?_⟩
  obtain ⟨hsource, hscan⟩ :=
    hlone.scan_embed (.inr rfl) hstart passed hrest.stops (fun _ ↦ hrest) last
  have hahead : cursor.ahead = [] := by
    rw [Cursor.source, hread] at hsource
    exact List.append_right_eq_self.mp hsource
  have hpassed : cursor.passed = (c :: body).reverse := by
    rw [← List.reverse_reverse cursor.passed, hread, hlone.text_eq, List.nil_append]
  rw [List.reverse_nil, List.nil_append] at hscan
  rw [hscan, Cursor.embed, hahead, hpassed, List.nil_append]

end Lexer

namespace LiteralType

variable {word : List Char} {type : LiteralType}

/-- What the name of a type is like, in any case of its letters. -/
theorem word_chars (h : ofWord? word = some type) : (∀ c ∈ word, isWordChar c = true) ∧
    word.head?.any Text.isLetter = true ∧ (word.takeWhile Text.isHexDigit).length ≠ 8 := by
  have hnames : ∀ entry ∈ names,
      entry.1.toList.all (fun c ↦ Text.isLetter c || Text.isDigit c) = true ∧
        entry.1.toList.head?.any Text.isLetter = true ∧
        (entry.1.toList.length < 8 ∨ entry.1.toList.length = 8 ∧ 't' ∈ entry.1.toList) :=
    forall_mem_of_all (by decide)
  obtain ⟨before, behind, hsplit, -⟩ := List.lookup_eq_some_iff.mp h
  obtain ⟨hchars, hfirst, hlength⟩ :=
    hnames (String.ofList (Text.lowerAscii word), type) (by simp [hsplit])
  rw [String.toList_ofList, Text.lowerAscii] at hchars hfirst hlength
  rw [List.length_map] at hlength
  refine ⟨fun c hc ↦ ?_, ?_, fun hhex ↦ ?_⟩
  · obtain hsame | hc' := toLower_eq_or_isLetter c
    · have hclass := List.all_eq_true.mp hchars _ (List.mem_map_of_mem hc)
      rw [hsame, Bool.or_eq_true] at hclass
      obtain hc' | hdigit := hclass
      · exact Lexeme.isWordChar_of_isLetter hc'
      · exact Lexeme.isWordChar_of_beginsNumber (by simp [Lexeme.beginsNumber, hdigit])
    · exact Lexeme.isWordChar_of_isLetter hc'
  · cases word with
    | nil => exact hfirst
    | cons c rest => exact (Text.isLetter_toLower c).symm.trans hfirst
  · -- All eight characters of a name would be hexadecimal digits, but one of them is a T.
    have hle := length_takeWhile_le Text.isHexDigit word
    obtain hshort | ⟨height, ht⟩ := hlength
    · omega
    · have hall : word.takeWhile Text.isHexDigit = word :=
        (List.takeWhile_prefix _).eq_of_length (hhex.trans height.symm)
      obtain ⟨c, hc, hlower⟩ := List.mem_map.mp ht
      have hdigit := List.takeWhile_eq_self_iff.mp hall c hc
      rw [← Text.isHexDigit_toLower, hlower] at hdigit
      cases hdigit

end LiteralType

namespace Lexer

variable {localOffset : UtcOffset} {word text : List Char} {type : LiteralType} {value : Value}

/-- Behind the name of a type it is up to its scanner what the whole text is. -/
theorem scan_typed (localOffset : UtcOffset) (htype : LiteralType.ofWord? word = some type)
    (text : List Char) : ∃ c body, word ++ ':' :: text = c :: body ∧ Text.isBlank c = false ∧
      Lexeme.scan localOffset none c ⟨[], c :: body⟩ =
        (do return Lexeme.literal (← Literal.scanTyped localOffset 0 type) : Scan Lexeme)
          ⟨':' :: word.reverse, text⟩ := by
  obtain ⟨hword, hfirst, hhex⟩ := LiteralType.word_chars htype
  have hscan : Lexeme.scanWord localOffset ⟨[], word ++ ':' :: text⟩ = _ :=
    Lexeme.scanWord_typed word hword hhex (Literal.isWebScheme_of_ofWord? htype) htype [] text
  cases word with
  | nil => cases hfirst
  | cons c rest =>
    have hbegins := Lexeme.beginsWord_of_isLetter hfirst
    refine ⟨c, rest ++ ':' :: text, rfl, Lexeme.not_blank_of_beginsWord hbegins, ?_⟩
    rw [Lexeme.scan_eq_scanWord hbegins]
    rwa [List.append_nil] at hscan

theorem scansTo_typed (htype : LiteralType.ofWord? word = some type)
    (h : Scan.Recovers (Literal.scanTyped localOffset 0 type) text value []) :
    ScansTo localOffset (word ++ ':' :: text) value := by
  obtain ⟨c, body, htext, hblank, hscan⟩ := scan_typed localOffset htype text
  have hread := h.map (f := Lexeme.literal) (':' :: word.reverse)
  rw [List.append_nil] at hread
  have hpassed : text.reverse ++ ':' :: word.reverse = (c :: body).reverse ++ [] := by
    rw [← htext]
    simp
  rw [hread, hpassed] at hscan
  rw [htext]
  exact scan_of_literal hblank hscan

theorem refuses_typed {fault : LexicalFault} {cursor : Cursor}
    (htype : LiteralType.ofWord? word = some type)
    (h : Literal.scanTyped localOffset 0 type ⟨':' :: word.reverse, text⟩ = .error fault cursor) :
    Refuses localOffset (word ++ ':' :: text) := by
  obtain ⟨c, body, htext, hblank, hscan⟩ := scan_typed localOffset htype text
  rw [bind_error h] at hscan
  rw [htext]
  exact refuses_of_fault hblank hscan

end Lexer

end ResourceQuery
