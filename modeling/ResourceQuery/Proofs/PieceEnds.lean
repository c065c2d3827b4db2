import ResourceQuery.Proofs.BareNames
import ResourceQuery.Proofs.Notations

/-!
# Where names and values end

The text of a path and that of a value may be cut into tokens in many ways. If the tokens are those
of a name or of a value, and what comes next is a token that may follow one, then they take up the
text and nothing else: no token runs across its end, and none is left over in front of it.
-/

namespace ResourceQuery

open Run Lexer

/-! ### Tokens that follow -/

namespace Symbol

/-- Clauses may end in front of the symbol. -/
def endsClauses : Symbol → Bool
  | comma | closeParen | stop => true
  | _ => false

/-- A value may end in front of the symbol. -/
def endsValue : Symbol → Bool
  | joiner _ => true
  | symbol => symbol.endsClauses

/-- A name may end in front of the symbol. -/
def endsWord : Symbol → Bool
  | comparison _ => true
  | symbol => symbol.endsValue

/-- The symbol begins something with parentheses. -/
def opens : Symbol → Bool
  | openParen | function _ => true
  | _ => false

theorem opens_eq_false_of_endsWord {symbol : Symbol} (h : symbol.endsWord = true) :
    symbol.opens = false := by
  cases symbol <;> first | rfl | cases h

end Symbol

namespace Lexeme

variable {localOffset : UtcOffset} {last : Option Symbol} {c : Char} {cursor next : Cursor}
  {lexeme : Lexeme} {passed body rest : List Char} {order : SortOrder}

theorem eq_plain_of_single? {symbol : Symbol} (hsingle : single? c = some symbol)
    (h : scan localOffset last c cursor = .ok lexeme next) : lexeme = .plain symbol := by
  rw [scan, bind_ok (get_eq cursor), hsingle] at h
  cases h
  rfl

theorem endsWord_of_scan (hc : c ∈ stoppers)
    (h : scan localOffset last c cursor = .ok lexeme next) : lexeme.symbol.endsWord = true := by
  obtain ⟨symbol, hsingle, rfl⟩ | ⟨op, rfl⟩ := single_or_comparison (List.mem_cons_of_mem _ hc) h
  · have hends : ∀ c ∈ stoppers, (single? c).all Symbol.endsWord = true :=
      forall_mem_of_all (by decide)
    have hsymbol := hends c hc
    rwa [hsingle] at hsymbol
  · rfl

theorem endsValue_of_scan (hc : c ∈ closers)
    (h : scan localOffset last c cursor = .ok lexeme next) : lexeme.symbol.endsValue = true := by
  have hends : ∀ c ∈ closers, ∃ symbol, single? c = some symbol ∧ symbol.endsValue = true := by
    simp [closers, single?, Symbol.endsValue, Symbol.endsClauses]
  obtain ⟨symbol, hsingle, hsymbol⟩ := hends c hc
  rw [eq_plain_of_single? hsingle h]
  exact hsymbol

/-- What does not begin with a sign of one character ends no value. -/
theorem endsValue_eq_false (hc : single? c = none)
    (h : scan localOffset last c cursor = .ok lexeme next) : lexeme.symbol.endsValue = false := by
  cases recognised_of_scan h with
  | symbol hsymbol =>
    cases hsymbol with
    | single hsingle => cases hc.symm.trans hsingle
    | _ => rfl
  | digits hdigits => cases hdigits <;> rfl
  | word hword => cases hword <;> rfl
  | _ => rfl

/-- A function is recognised in front of an opening parenthesis only. -/
theorem parenFollows_of_scan {keyword : Keyword}
    (h : scan localOffset last c cursor = .ok (.plain (.function keyword)) next) :
    parenFollows next = true := by
  cases recognised_of_scan h with
  | symbol hsymbol =>
    cases hsymbol with
    | single hsingle =>
      unfold single? at hsingle
      split at hsingle <;> cases hsingle
  | digits hdigits => cases hdigits
  | word hword =>
    cases hword with
    | function _ hparen => exact hparen

/-- What is recognised as part of a name is recognised in the text of the name alone. -/
theorem exists_lone_name (hrest : FollowsWord rest) (hc : c ∉ symbols) (hslash : c ≠ '/')
    (hname : IsName lexeme)
    (h : scan localOffset last c ⟨passed, c :: (body ++ rest)⟩ = .ok lexeme next) :
    ∃ inner : Cursor, scan localOffset none c (.start (c :: body)) = .ok lexeme inner ∧
      inner.source = c :: body ∧ next = inner.embed passed rest := by
  have hplace : 1 ≤ (Cursor.start (c :: body)).ahead.length := by simp [Cursor.start]
  have hmoves : Moves IsName passed rest [] [] (.start (c :: body)) (scan localOffset last c)
      (scan localOffset none c) := moves_nameItem hrest followsWord_nil hplace hc hslash
  obtain ⟨inner, hsource, rfl, hlone⟩ := hmoves lexeme next hname h
  have hembed (cursor : Cursor) : cursor.embed [] [] = cursor := by simp [Cursor.embed]
  rw [hembed, hembed] at hlone
  exact ⟨inner, hlone, by simpa using hsource, rfl⟩

/-- The same for values without quotes, in front of what may follow one. -/
theorem exists_lone_value (hrest : FollowsValue rest) (hc : c ∉ symbols) (hslash : c ≠ '/')
    (hquotes : NoQuotes (c :: body))
    (h : scan localOffset last c ⟨passed, c :: (body ++ rest)⟩ = .ok lexeme next) :
    ∃ inner : Cursor, scan localOffset none c (.start (c :: body)) = .ok lexeme inner ∧
      inner.source = c :: body ∧ next = inner.embed passed rest := by
  have hplace : 1 ≤ (Cursor.start (c :: body)).ahead.length := by simp [Cursor.start]
  have hdouble : c ≠ '"' := fun hc ↦ hquotes.1 (by simp [hc])
  have hsingle : c ≠ '\'' := fun hc ↦ hquotes.2 (by simp [hc])
  have hkeeps : KeepsQuotes (Cursor.start (c :: body)).source rest := by
    rw [Cursor.source_start]
    exact keepsQuotes_of_text hquotes
  have hagrees : Scan.Agrees True passed rest (.start (c :: body))
      (scanUnquoted localOffset (Literal.scanAfterWord localOffset) c
        ((Cursor.start (c :: body)).peekAt 1)) _ :=
    agrees_scanValue hrest (fun _ ↦ hkeeps) hplace
  rw [scan_eq_scanItem hc hslash, scanItem_eq_scanUnquoted hdouble hsingle] at h ⊢
  obtain ⟨inner, hlone, hsource, hnext⟩ := hagrees.of_embed trivial h
  exact ⟨inner, hlone, by simpa using hsource, hnext⟩

/-! ### Texts of paths -/

/-- The character may stand in the text of a path, or be the sign of a sort key. -/
def isPathChar (c : Char) : Bool :=
  isWordChar c || c == ':'

theorem not_mem_symbols_of_isPathChar (hc : isPathChar c = true) :
    c ∉ symbols ∧ c ≠ '/' ∧ Text.isBlank c = false := by
  have hsymbols : ∀ c ∈ '/' :: symbols, isPathChar c = false := forall_mem_of_all (by decide)
  have hnot {other : Char} (hmem : other ∈ '/' :: symbols) : c ≠ other := by
    rintro rfl
    rw [hsymbols c hmem] at hc
    cases hc
  refine ⟨fun hmem ↦ hnot (List.mem_cons_of_mem _ hmem) rfl, hnot List.mem_cons_self, ?_⟩
  rw [isPathChar, Bool.or_eq_true, beq_iff_eq] at hc
  obtain hword | rfl := hc
  · exact not_blank_of_isWordChar hword
  · decide

/-- A colon that is left over begins nothing. -/
theorem isWordChar_of_scan (hc : isPathChar c = true)
    (h : scan localOffset last c cursor = .ok lexeme next) : isWordChar c = true := by
  rw [isPathChar, Bool.or_eq_true, beq_iff_eq] at hc
  obtain hword | rfl := hc
  · exact hword
  · rw [scan_eq_scanItem (by decide) (by decide)] at h
    cases h

/-- The first lexeme of a path is not the name of a function. -/
theorem scan_ne_function {keyword : Keyword} (hrest : FollowsWord rest)
    (hpath : ∀ d ∈ c :: body, isPathChar d = true) :
    scan localOffset last c ⟨passed, c :: (body ++ rest)⟩ ≠
      .ok (.plain (.function keyword)) next := by
  intro h
  obtain ⟨hc, hslash, -⟩ := not_mem_symbols_of_isPathChar (hpath c List.mem_cons_self)
  have hname : IsName (.plain (.function keyword)) := isName_of_symbol nofun
  obtain ⟨inner, hlone, hsource, -⟩ := exists_lone_name hrest hc hslash hname h
  have hparen := parenFollows_of_scan hlone
  have hmem : '(' ∈ inner.ahead := by
    rw [parenFollows, beq_iff_eq] at hparen
    exact (List.dropWhile_sublist _).mem (List.mem_of_mem_head? hparen)
  have hin : '(' ∈ c :: body := by
    rw [← hsource]
    exact List.mem_append_right _ hmem
  exact absurd (hpath '(' hin) (by decide)

end Lexeme

namespace Lexer

open Lexeme

variable {localOffset : UtcOffset} {last : Option Symbol} {split : Bool} {c : Char}
  {passed ahead text rest : List Char} {token : Token} {tokens more : List Token}
  {property : Property}

/-- What begins with no blank begins with a lexeme, which is the first token. -/
theorem Yields.uncons (hblank : Text.isBlank c = false)
    (h : Yields ⟨⟨passed, c :: ahead⟩, localOffset, last, split⟩ (token :: tokens)) :
    ∃ lexeme cursor,
      scanLexeme ⟨⟨passed, c :: ahead⟩, localOffset, last, split⟩ c ⟨passed, c :: ahead⟩ =
        .ok lexeme cursor ∧
      token = lexeme.token (String.ofList (cursor.textFrom passed.length)) passed.length ∧
      Yields ⟨cursor, localOffset, some lexeme.symbol, lexeme.isSplitSign⟩ tokens := by
  cases hscan : scanLexeme ⟨⟨passed, c :: ahead⟩, localOffset, last, split⟩ c
      ⟨passed, c :: ahead⟩ with
  | error fault cursor =>
    obtain ⟨other, hnext⟩ := h.next_eq
    rw [next_cons hblank, hscan] at hnext
    cases hnext
  | ok lexeme cursor =>
    have hfirst := next_of_scanLexeme hblank hscan
    cases h with
    | stop hnext hstop =>
      rw [hfirst] at hnext
      cases hnext
      exact absurd hstop (symbol_ne_stop_of_scanLexeme hscan)
    | more hnext hsymbol hrest =>
      rw [hfirst] at hnext
      cases hnext
      exact ⟨lexeme, cursor, rfl, rfl, hrest⟩

theorem Yields.endsWord (hrest : FollowsWord rest)
    (h : Yields ⟨⟨passed, rest⟩, localOffset, last, false⟩ (token :: tokens)) :
    token.symbol.endsWord = true := by
  cases rest with
  | nil =>
    obtain ⟨other, hnext⟩ := h.next_eq
    cases hnext
    rfl
  | cons c rest =>
    have hstoppers : ∀ c ∈ stoppers, Text.isBlank c = false := forall_mem_of_all (by decide)
    obtain ⟨lexeme, cursor, hscan, rfl, -⟩ := h.uncons (hstoppers c (hrest c rfl))
    exact endsWord_of_scan (hrest c rfl) hscan

theorem Yields.endsValue (hrest : FollowsValue rest)
    (h : Yields ⟨⟨passed, rest⟩, localOffset, last, false⟩ (token :: tokens)) :
    token.symbol.endsValue = true := by
  cases rest with
  | nil =>
    obtain ⟨other, hnext⟩ := h.next_eq
    cases hnext
    rfl
  | cons c rest =>
    have hclosers : ∀ c ∈ closers, Text.isBlank c = false := forall_mem_of_all (by decide)
    obtain ⟨lexeme, cursor, hscan, rfl, -⟩ := h.uncons (hclosers c (hrest c rfl))
    exact endsValue_of_scan (hrest c rfl) hscan

theorem isReady_unsplit (cursor : Cursor) (localOffset : UtcOffset) (last : Option Symbol) :
    IsReady ⟨cursor, localOffset, last, false⟩ := nofun

/-- No sign has been split off in front of what follows a word. -/
theorem IsReady.not_split (hready : IsReady ⟨⟨passed, rest⟩, localOffset, last, split⟩)
    (hrest : FollowsWord rest) : split = false := by
  rw [← Bool.not_eq_true]
  intro hsplit
  have hnone : Bars beginsNumber rest := hrest.bars (by decide)
  have hnumber : rest.head?.any beginsNumber = true := hready hsplit
  rw [Bars, hnumber] at hnone
  cases hnone

theorem readWhile_append_of_bars {inClass : Char → Bool} (h : Bars inClass rest) :
    ((⟨passed, text ++ rest⟩ : Cursor).readWhile inClass).2 =
      ⟨(text.takeWhile inClass).reverse ++ passed, text.dropWhile inClass ++ rest⟩ := by
  have hsplit : text ++ rest =
      text.takeWhile inClass ++ (text.dropWhile inClass ++ rest) := by
    rw [← List.append_assoc, List.takeWhile_append_dropWhile]
  rw [Cursor.readWhile, takeWhile_append_of_bars text h, hsplit, Cursor.passOver_append]

/-- Behind a word nothing is left of the text of a path: there could only be a colon, and nothing
begins with one. -/
theorem Yields.dropWhile_eq_nil (hpath : ∀ d ∈ text, isPathChar d = true)
    (h : Yields ⟨⟨passed, text.dropWhile isWordChar ++ rest⟩, localOffset, last, false⟩ tokens) :
    text.dropWhile isWordChar = [] := by
  cases hleft : text.dropWhile isWordChar with
  | nil => rfl
  | cons d left =>
    rw [hleft] at h
    have hd : isPathChar d = true :=
      hpath d ((List.dropWhile_sublist isWordChar).mem (hleft ▸ List.mem_cons_self))
    have hother : isWordChar d = false := by
      have hhead := List.head?_dropWhile_not isWordChar text
      simpa [hleft] using hhead
    cases tokens with
    | nil => cases h
    | cons second tokens =>
      obtain ⟨-, -, hblank⟩ := not_mem_symbols_of_isPathChar hd
      obtain ⟨lexeme, cursor, hscan, -⟩ := h.uncons hblank
      rw [isWordChar_of_scan hd hscan] at hother
      cases hother

/-- If the first token in the text of a path is a word, it is all of the text. -/
theorem Yields.uncons_word (hrest : FollowsWord rest) (hpath : ∀ d ∈ text, isPathChar d = true)
    (hready : IsReady ⟨⟨passed, text ++ rest⟩, localOffset, last, split⟩)
    (h : Yields ⟨⟨passed, text ++ rest⟩, localOffset, last, split⟩ (token :: tokens))
    (htoken : token.symbol = .property) :
    (∀ d ∈ text, isWordChar d = true) ∧ (split = false → IsBareName text) ∧
      token.text = String.ofList text ∧
      Yields ⟨⟨text.reverse ++ passed, rest⟩, localOffset, some .property, false⟩ tokens := by
  cases text with
  | nil =>
    obtain rfl := hready.not_split hrest
    have hends := h.endsWord hrest
    rw [htoken] at hends
    cases hends
  | cons c body =>
    obtain ⟨hc, hslash, hblank⟩ := not_mem_symbols_of_isPathChar (hpath c List.mem_cons_self)
    rw [List.cons_append] at h
    obtain ⟨lexeme, cursor, hscan, rfl, hyields⟩ := h.uncons hblank
    obtain rfl : lexeme = .plain .property := by
      cases lexeme with
      | plain symbol => exact congrArg Lexeme.plain htoken
      | literal value => cases htoken
      | splitSign order => cases htoken
    have hcursor := eq_readWhile_of_scanLexeme hscan
    rw [← List.cons_append, readWhile_append_of_bars (hrest.bars (by decide))] at hcursor
    have hnothing : (c :: body).dropWhile isWordChar = [] := by
      rw [hcursor] at hyields
      exact hyields.dropWhile_eq_nil hpath
    have hwords : ∀ d ∈ c :: body, isWordChar d = true := List.dropWhile_eq_nil_iff.mp hnothing
    have hrun : (c :: body).takeWhile isWordChar = c :: body :=
      List.takeWhile_eq_self_iff.mpr hwords
    rw [hnothing, hrun, List.nil_append] at hcursor
    refine ⟨hwords, ?_, ?_, ?_⟩
    · rintro rfl
      have hname : IsName (.plain .property) := isName_of_symbol nofun
      obtain ⟨inner, hlone, -⟩ := exists_lone_name hrest hc hslash hname hscan
      have hinner := eq_readWhile_of_scan hlone
      rw [Cursor.start, readWhile_word hwords] at hinner
      exact (scan_eq_property_iff hwords).mp (hinner ▸ hlone)
    · have hbetween : Cursor.Between (c :: body) ⟨passed, (c :: body) ++ rest⟩ cursor := by
        rw [hcursor]
        exact ⟨rfl, rfl⟩
      exact congrArg String.ofList hbetween.textFrom_eq
    · rw [← hcursor]
      exact hyields

/-- Neither a parenthesis nor a function comes first in the text of a path. -/
theorem Yields.opens_eq_false (hrest : FollowsWord rest) (hpath : ∀ d ∈ text, isPathChar d = true)
    (hready : IsReady ⟨⟨passed, text ++ rest⟩, localOffset, last, split⟩)
    (h : Yields ⟨⟨passed, text ++ rest⟩, localOffset, last, split⟩ (token :: tokens)) :
    token.symbol.opens = false := by
  cases text with
  | nil =>
    obtain rfl := hready.not_split hrest
    exact Symbol.opens_eq_false_of_endsWord (h.endsWord hrest)
  | cons c body =>
    obtain ⟨hc, hslash, hblank⟩ := not_mem_symbols_of_isPathChar (hpath c List.mem_cons_self)
    obtain ⟨lexeme, cursor, hscan, rfl, -⟩ := h.uncons hblank
    cases split with
    | true =>
      cases hscan
      rfl
    | false =>
      have hlexeme : Lexeme.scan localOffset last c ⟨passed, c :: (body ++ rest)⟩ =
          .ok lexeme cursor := hscan
      cases recognised_of_scan hlexeme with
      | symbol hsymbol => exact absurd hsymbol.mem_symbols hc
      | digits hdigits => cases hdigits <;> rfl
      | word hword =>
        cases hword with
        | function => exact absurd hlexeme (scan_ne_function hrest hpath)
        | _ => rfl
      | _ => rfl

/-- The tokens of a subject in the text of a path are a word, which is all of the text. -/
theorem Yields.fills_subject (hrest : FollowsWord rest) (hpath : ∀ d ∈ text, isPathChar d = true)
    (hready : IsReady ⟨⟨passed, text ++ rest⟩, localOffset, last, split⟩)
    (h : Yields ⟨⟨passed, text ++ rest⟩, localOffset, last, split⟩ (tokens ++ token :: more))
    (hsubject : Grammar.Subject tokens property) :
    (∀ d ∈ text, isWordChar d = true) ∧ (split = false → IsBareName text) ∧
      property = .ofPath (String.ofList text) ∧
      ∃ last', Yields ⟨⟨text.reverse ++ passed, rest⟩, localOffset, last', false⟩
        (token :: more) := by
  cases hsubject with
  | path hpathTokens =>
    obtain ⟨⟨hword⟩, hcontinued⟩ := hpathTokens
    obtain ⟨hwords, hname, htext, hbehind⟩ := Yields.uncons_word hrest hpath hready h hword
    cases hcontinued with
    | nil =>
      refine ⟨hwords, hname, ?_, _, hbehind⟩
      rw [htext, Grammar.concat_cons, List.foldl_nil]
    | cons hsign hitems =>
      have hends := hbehind.endsWord hrest
      rw [hsign] at hends
      cases hends
  | compound hopening =>
    have hopens := Yields.opens_eq_false hrest hpath hready h
    rw [hopening] at hopens
    cases hopens

/-! ### Texts of values -/

/-- The character may stand in a value that is written without quotes. -/
def isValueChar (c : Char) : Bool :=
  (single? c).isNone && !Text.isBlank c && c != '"' && c != '\''

theorem not_endsValue_of_isValueSymbol {symbol : Symbol} (h : Grammar.IsValueSymbol symbol) :
    symbol.endsValue = false := by
  obtain h | ⟨order, rfl⟩ := h
  · simp only [List.mem_cons, List.not_mem_nil, or_false] at h
    obtain rfl | rfl | rfl := h <;> rfl
  · rfl

section Value

variable {body : List Char} {lexeme : Lexeme} {cursor : Cursor}

theorem noQuotes_of_isValueChar (htext : ∀ d ∈ text, isValueChar d = true) : NoQuotes text := by
  have hquotes : isValueChar '"' = false ∧ isValueChar '\'' = false := by decide
  constructor
  · intro hmem
    rw [htext _ hmem] at hquotes
    cases hquotes.1
  · intro hmem
    rw [htext _ hmem] at hquotes
    cases hquotes.2

theorem single?_of_isValueChar (hc : isValueChar c = true) :
    single? c = none ∧ Text.isBlank c = false := by
  simp only [isValueChar, Bool.and_eq_true, Option.isNone_iff_eq_none, Bool.not_eq_true'] at hc
  exact hc.1.1

/-- A lexeme of a value that begins in the text of one does not run across its end. -/
theorem exists_within_of_scanLexeme (hrest : FollowsValue rest)
    (htext : ∀ d ∈ c :: body, isValueChar d = true)
    (hscan : scanLexeme ⟨⟨passed, c :: (body ++ rest)⟩, localOffset, last, split⟩ c
      ⟨passed, c :: (body ++ rest)⟩ = .ok lexeme cursor)
    (hlexeme : Grammar.IsValueSymbol lexeme.symbol) :
    ∃ inner : Cursor, inner.source = c :: body ∧ cursor = inner.embed passed rest := by
  cases split with
  | true =>
    obtain rfl : Lexeme.plain .property = lexeme := by
      cases hscan
      rfl
    have hcursor := eq_readWhile_of_scanLexeme hscan
    rw [← List.cons_append, readWhile_append_of_bars (hrest.bars (by decide))] at hcursor
    refine ⟨⟨((c :: body).takeWhile isWordChar).reverse, (c :: body).dropWhile isWordChar⟩, ?_,
      hcursor⟩
    rw [Cursor.source, List.reverse_reverse, List.takeWhile_append_dropWhile]
  | false =>
    replace hscan : Lexeme.scan localOffset last c ⟨passed, c :: (body ++ rest)⟩ =
      .ok lexeme cursor := hscan
    by_cases hc : c ∈ symbols
    · have hnone := (single?_of_isValueChar (htext c List.mem_cons_self)).1
      obtain ⟨symbol, hsingle, -⟩ | ⟨op, rfl⟩ := single_or_comparison hc hscan
      · rw [hnone] at hsingle
        cases hsingle
      · exact absurd rfl (hlexeme.ne_comparison op)
    by_cases hslash : c = '/'
    · subst hslash
      have hend : FollowsValue [] := by simp [FollowsValue]
      have hplace : 1 ≤ (Cursor.start ('/' :: body)).ahead.length := by simp [Cursor.start]
      have hmoves : Moves (fun _ ↦ True) passed rest passed [] (.start ('/' :: body))
          (Lexeme.scan localOffset last '/') (Lexeme.scan localOffset last '/') :=
        moves_slash rfl hplace (moves_of_agrees
          ((Literal.agrees_scanUri hrest).bind fun _ _ _ _ ↦ Scan.agrees_pure _)
          ((Literal.agrees_scanUri hend).bind fun _ _ _ _ ↦ Scan.agrees_pure _))
      obtain ⟨inner, hsource, rfl, -⟩ := hmoves lexeme cursor trivial hscan
      exact ⟨inner, by simpa using hsource, rfl⟩
    · obtain ⟨inner, -, hsource, hcursor⟩ :=
        exists_lone_value hrest hc hslash (noQuotes_of_isValueChar htext) hscan
      exact ⟨inner, hsource, hcursor⟩

/-- What ends a value is not read where other signs are left over. -/
theorem Yields.eq_nil_of_endsValue
    (htext : ∀ d ∈ text, single? d = none ∧ Text.isBlank d = false)
    (h : Yields ⟨⟨passed, text ++ rest⟩, localOffset, last, split⟩ (token :: more))
    (htoken : token.symbol.endsValue = true) : text = [] := by
  cases text with
  | nil => rfl
  | cons c body =>
    obtain ⟨hsingle, hblank⟩ := htext c List.mem_cons_self
    obtain ⟨lexeme, cursor, hscan, rfl, -⟩ := h.uncons hblank
    cases split with
    | true =>
      cases hscan
      cases htoken
    | false =>
      have hother := endsValue_eq_false hsingle hscan
      rw [Lexeme.token, hother] at htoken
      cases htoken

/-- Tokens of values in the text of a value are all of the text, by induction on the tokens: none of
them runs across the end, and the token behind them cannot begin in front of it. -/
theorem Yields.fills_value (hrest : FollowsValue rest) (htext : ∀ d ∈ text, isValueChar d = true)
    (hready : IsReady ⟨⟨passed, text ++ rest⟩, localOffset, last, split⟩)
    (h : Yields ⟨⟨passed, text ++ rest⟩, localOffset, last, split⟩ (tokens ++ token :: more))
    (htokens : ∀ other ∈ tokens, Grammar.IsValueSymbol other.symbol)
    (htoken : token.symbol.endsValue = true) :
    ∃ last', Yields ⟨⟨text.reverse ++ passed, rest⟩, localOffset, last', false⟩
      (token :: more) := by
  induction tokens generalizing passed text last split with
  | nil =>
    obtain rfl := h.eq_nil_of_endsValue (fun d hd ↦ single?_of_isValueChar (htext d hd)) htoken
    obtain rfl := hready.not_split hrest.stops
    exact ⟨last, h⟩
  | cons first tokens ih =>
    obtain ⟨hfirst, hothers⟩ := List.forall_mem_cons.mp htokens
    cases text with
    | nil =>
      obtain rfl := hready.not_split hrest.stops
      have hends := h.endsValue hrest
      rw [not_endsValue_of_isValueSymbol hfirst] at hends
      cases hends
    | cons c body =>
      obtain ⟨-, hblank⟩ := single?_of_isValueChar (htext c List.mem_cons_self)
      rw [List.cons_append] at hready
      simp only [List.cons_append] at h
      obtain ⟨lexeme, cursor, hscan, rfl, hyields⟩ := h.uncons hblank
      obtain ⟨inner, hsource, rfl⟩ := exists_within_of_scanLexeme hrest htext hscan hfirst
      have hready' := isReady_next hready
      rw [next_of_scanLexeme hblank hscan] at hready'
      have hahead : ∀ d ∈ inner.ahead, isValueChar d = true :=
        fun d hd ↦ htext d (hsource ▸ List.mem_append_right _ hd)
      obtain ⟨last', hbehind⟩ := ih hahead hready' hyields hothers
      have htextPassed : inner.ahead.reverse ++ (inner.passed ++ passed) =
          (c :: body).reverse ++ passed := by
        rw [← hsource]
        simp [Cursor.source]
      exact ⟨last', htextPassed ▸ hbehind⟩

end Value

end Lexer

end ResourceQuery
