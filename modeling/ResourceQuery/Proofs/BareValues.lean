import ResourceQuery.Proofs.PieceEnds
import ResourceQuery.Proofs.PrunedText

/-!
# Bare values

A value without quotes may be cut into a sign, words and slashes, which the parser puts together
again. The string that comes of it is the text that was cut, character for character, whatever
stands in front of the equals sign. Every token is the text between two places, and there are no
blanks between those of a bare value, so their texts make up what is ahead of the first one. Where
that is follows from the last characters of tokens: a comparison sign and a closing parenthesis end
with one that no bare value has, and so does a string in quotes.
-/

namespace ResourceQuery

open Run

/-- The character may stand in a bare value: a slash, or a character of a word. -/
def isBareChar (c : Char) : Bool :=
  c == '/' || isWordChar c

/-- The last character of the text is one that no bare value has. -/
def EndsApart (text : List Char) : Prop :=
  ∃ c, text.getLast? = some c ∧ isBareChar c = false

/-- A string that is no bare value is written so: it ends with a quote, or there is a colon in it
and all else are characters of words. -/
def IsStringText (text : List Char) : Prop :=
  EndsApart text ∨ ':' ∈ text ∧ ∀ c ∈ text, Lexeme.isPathChar c = true

theorem isBareChar_of_isWordChar {c : Char} (h : isWordChar c = true) : isBareChar c = true := by
  rw [isBareChar, h, Bool.or_true]

theorem not_blank_of_isBareChar {c : Char} (h : isBareChar c = true) : Text.isBlank c = false := by
  rw [isBareChar, Bool.or_eq_true, beq_iff_eq] at h
  obtain rfl | hword := h
  · decide
  · exact not_blank_of_isWordChar hword

/-- No blank is left out of a bare text. -/
theorem filter_eq_self_of_isBareChar {text : List Char} (h : ∀ c ∈ text, isBareChar c = true) :
    text.filter (!Text.isBlank ·) = text :=
  List.filter_eq_self.mpr fun c hc ↦ by rw [not_blank_of_isBareChar (h c hc), Bool.not_false]

theorem EndsApart.append {text : List Char} (h : EndsApart text) (front : List Char) :
    EndsApart (front ++ text) := by
  obtain ⟨c, hlast, hc⟩ := h
  exact ⟨c, by rw [List.getLast?_append, hlast]; rfl, hc⟩

theorem endsApart_concat {c : Char} (h : isBareChar c = false) (front : List Char) :
    EndsApart (front ++ [c]) :=
  ⟨c, List.getLast?_concat, h⟩

/-! ### Texts of strings -/

open Scan Cursor

variable {localOffset : UtcOffset} {cursor next : Cursor} {text : String}

namespace Literal

theorem spells_scanText : Spells cursor scanText fun _ run ↦
    EndsApart run ∨ ∀ c ∈ run, isWordChar c = true := by
  have hquoted {quote : Char} (hquote : isBareChar quote = false) :
      Spells cursor (Quoted.scan quote) fun _ run ↦
        EndsApart run ∨ ∀ c ∈ run, isWordChar c = true := by
    refine (spells_quoted quote).mono ?_
    rintro _ _ ⟨quoted, rfl, -⟩
    exact .inl ((endsApart_concat hquote quoted).append _)
  refine spells_look rfl (spells_ite (fun _ ↦ hquoted (by decide)) fun _ ↦ ?_)
  refine spells_look rfl (spells_ite (fun _ ↦ hquoted (by decide)) fun _ ↦ ?_)
  refine (spells_readWhile isWordChar).bind fun word _ run hrun ↦ ?_
  obtain ⟨rfl, hword⟩ := hrun
  refine spells_ite (fun _ _ _ h ↦ by cases h) fun _ ↦ spells_pure (.inr ?_)
  rwa [List.append_nil]

/-- Behind a word and a colon there is a string in quotes or a word. -/
theorem isStringText_of_scanAfterWord {mark : Nat} {word : List Char}
    (hword : ∀ c ∈ word, isWordChar c = true) (hcolon : cursor.peek = some ':')
    (h : scanAfterWord localOffset mark word cursor = .ok (.string text) next) :
    ∃ run, Between run cursor next ∧ IsStringText (word ++ run) := by
  cases fromPrefix_of_scanAfterWord h with
  | typed _ hread =>
    cases fromType_of_scanTyped hread with
    | number hnumber => cases Number.gives_scanTyped _ _ _ _ hnumber
    | string hbody =>
      obtain ⟨tail, hahead⟩ := List.head?_eq_some_iff.mp hcolon
      obtain ⟨run, hrun, hform⟩ := spells_scanText _ _ hbody
      refine ⟨_, (between_passOver cursor 1).append hrun, ?_⟩
      rw [hahead, List.take_succ_cons, List.take_zero]
      obtain hapart | hchars := hform
      · exact .inl ((hapart.append [':']).append word)
      · have hpath {run : List Char} (h : ∀ c ∈ run, isWordChar c = true) :
            ∀ c ∈ run, Lexeme.isPathChar c = true := fun c hc ↦ by
          rw [Lexeme.isPathChar, h c hc, Bool.true_or]
        refine .inr ⟨by simp, List.forall_mem_append.mpr ⟨hpath hword, ?_⟩⟩
        exact List.forall_mem_cons.mpr ⟨by decide, hpath hchars⟩

end Literal

namespace Lexeme

variable {last : Option Symbol} {c : Char} {passed ahead : List Char} {lexeme : Lexeme}

/-- A string that is a literal is not written like a bare value. -/
theorem isStringText_of_scan
    (h : scan localOffset last c cursor = .ok (.literal (.string text)) next) :
    ∃ run, Between run cursor next ∧ IsStringText run := by
  cases recognised_of_scan h with
  | symbol hsymbol => cases hsymbol
  | string _ hread =>
    obtain ⟨run, hrun, quoted, rfl, -⟩ := Literal.spells_quoted '"' _ _ hread
    exact ⟨_, hrun, .inl ((endsApart_concat (by decide) quoted).append _)⟩
  | digits hdigits =>
    cases hdigits with
    | hex _ hread => cases Number.gives_scanHex _ _ _ hread
    | number hread => cases Number.gives_scan? _ _ _ hread _ rfl
  | word hword =>
    cases hword with
    | prefixed hlead hcolon hread =>
      obtain ⟨run, hrun, rfl, hchars⟩ := spells_readWhile isWordChar _ _ hlead
      obtain ⟨more, hmore, hform⟩ := Literal.isStringText_of_scanAfterWord hchars hcolon hread
      exact ⟨run ++ more, hrun.append hmore, hform⟩

/-! ### Texts of other lexemes -/

theorem endsApart_of_comparison? {op : Comparison} {length : Nat}
    (h : comparison? c ahead.head? = some (op, length)) : EndsApart ((c :: ahead).take length) := by
  have hequals : isBareChar '=' = false := by decide
  have hsigns : ∀ sign ∈ ['<', '>'], isBareChar sign = false := forall_mem_of_all (by decide)
  unfold comparison? at h
  cases hdoubled : ahead.head? == some '=' with
  | true =>
    obtain ⟨rest, rfl⟩ := List.head?_eq_some_iff.mp (eq_of_beq hdoubled)
    simp only [hdoubled] at h
    split at h <;> cases h <;> exact endsApart_concat hequals [_]
  | false =>
    simp only [hdoubled] at h
    split at h
    · cases h
    · cases h
      exact endsApart_concat (hsigns '<' (by simp)) []
    · cases h
      exact endsApart_concat (hsigns '>' (by simp)) []
    · cases h

/-- A sign of comparison and a closing parenthesis end with a character that no bare value has. -/
theorem endsApart_of_scan
    (hsymbol : lexeme.symbol = .closeParen ∨ ∃ op, lexeme.symbol = .comparison op)
    (h : scan localOffset last c ⟨passed, c :: ahead⟩ = .ok lexeme next) :
    ∃ run, Between run ⟨passed, c :: ahead⟩ next ∧ EndsApart run := by
  have hsymbols : ∀ c ∈ symbols, isBareChar c = false := forall_mem_of_all (by decide)
  cases recognised_of_scan h with
  | symbol hmark =>
    have hc := hsymbols c hmark.mem_symbols
    cases hmark with
    | single => exact ⟨_, between_passOver _ 1, endsApart_concat hc []⟩
    | equals hequals hread =>
      subst hequals
      obtain ⟨run, hrun, hlast⟩ := spells_scanEquals _ _ hread
      exact ⟨run, hrun, '=', hlast, hc⟩
    | comparison hop =>
      rw [peekAt_one] at hop
      exact ⟨_, between_passOver _ _, endsApart_of_comparison? hop⟩
  | slash | uri | string | char | direction => simp [Lexeme.symbol] at hsymbol
  | digits hdigits => cases hdigits <;> simp [Lexeme.symbol] at hsymbol
  | word hword => cases hword <;> simp [Lexeme.symbol] at hsymbol

/-- A slash is read where it is written. -/
theorem eq_slash_of_scan (hsymbol : lexeme.symbol = .slash)
    (h : scan localOffset last c cursor = .ok lexeme next) :
    c = '/' ∧ next = cursor.passOver 1 := by
  cases recognised_of_scan h with
  | symbol hmark => exact absurd hmark.symbol_not_mem.1 (by simp [hsymbol])
  | slash hc => exact ⟨hc, rfl⟩
  | uri | string | char | direction => cases hsymbol
  | digits hdigits => cases hdigits <;> cases hsymbol
  | word hword => cases hword <;> cases hsymbol

end Lexeme

/-! ### Texts of tokens -/

/-- The text of the token tells whether it may be a part of a bare value: words, signs in front of
them and slashes may, while comparison signs, closing parentheses and strings are not written so. -/
structure Token.IsTelling (token : Token) : Prop where
  word : token.symbol = .property ∨ (∃ order, token.symbol = .direction order) →
    ∀ c ∈ token.text.toList, isBareChar c = true
  slash : token.symbol = .slash → token.text.toList = ['/']
  mark : token.symbol = .closeParen ∨ (∃ op, token.symbol = .comparison op) →
    EndsApart token.text.toList
  string : ∀ text, token.value = some (.string text) → IsStringText token.text.toList
  stop : token.symbol = .stop → token.text.toList = []

namespace Lexer

variable {lexer rest : Lexer} {token : Token} {c : Char} {passed ahead : List Char}
  {lexeme : Lexeme}

/-- Only words are read where a sign has been split off. -/
theorem scan_of_scanLexeme (h : lexer.scanLexeme c cursor = .ok lexeme next)
    (hlexeme : lexeme ≠ .plain .property) :
    Lexeme.scan lexer.localOffset lexer.last c cursor = .ok lexeme next := by
  unfold scanLexeme at h
  split at h
  · cases h
    exact absurd rfl hlexeme
  · exact h

theorem isTelling_of_scanLexeme (place : Nat)
    (h : lexer.scanLexeme c ⟨passed, c :: ahead⟩ = .ok lexeme next) :
    (lexeme.token (String.ofList (next.textFrom passed.length)) place).IsTelling := by
  have htext {run : List Char} (hrun : Between run ⟨passed, c :: ahead⟩ next) :
      (lexeme.token (String.ofList (next.textFrom passed.length)) place).text.toList = run := by
    rw [Lexeme.token, String.toList_ofList]
    exact hrun.textFrom_eq
  constructor
  · rintro (hsymbol | ⟨order, hsymbol⟩)
    · obtain rfl := Lexeme.eq_property_of_symbol hsymbol
      rw [Lexeme.token, String.toList_ofList]
      exact fun d hd ↦ isBareChar_of_isWordChar (word_of_scanLexeme h d hd)
    · have hscan := scan_of_scanLexeme h (by rintro rfl; cases hsymbol)
      obtain ⟨rfl, rfl⟩ := Lexeme.eq_sign_of_scan hscan hsymbol
      have hrun : Between [order.sign] ⟨passed, order.sign :: ahead⟩
          ⟨order.sign :: passed, ahead⟩ := ⟨rfl, rfl⟩
      rw [htext hrun]
      have hsigns : ∀ d ∈ ['+', '-'], isBareChar d = true := forall_mem_of_all (by decide)
      cases order <;> exact List.forall_mem_singleton.mpr (hsigns _ (by decide))
  · intro hsymbol
    have hscan := scan_of_scanLexeme h (by rintro rfl; cases hsymbol)
    obtain ⟨rfl, rfl⟩ := Lexeme.eq_slash_of_scan hsymbol hscan
    exact htext ⟨rfl, rfl⟩
  · intro hsymbol
    have hother : lexeme ≠ .plain .property := by
      rintro rfl
      simp [Lexeme.token, Lexeme.symbol] at hsymbol
    have hscan := scan_of_scanLexeme h hother
    obtain ⟨run, hrun, hapart⟩ := Lexeme.endsApart_of_scan hsymbol hscan
    rwa [htext hrun]
  · intro text hvalue
    obtain rfl := Lexeme.eq_literal_of_value? hvalue
    have hscan := scan_of_scanLexeme h (by simp)
    obtain ⟨run, hrun, hform⟩ := Lexeme.isStringText_of_scan hscan
    rwa [htext hrun]
  · exact fun hsymbol ↦ absurd hsymbol (symbol_ne_stop_of_scanLexeme h)

theorem isTelling_of_next (h : lexer.next = (.ok token, rest)) : token.IsTelling := by
  cases isNext_of_next h with
  | stop => constructor <;> simp [Token.stop]
  | lexeme _ hscan => exact isTelling_of_scanLexeme _ hscan

/-! ### Texts of all tokens -/

variable {tokens : List Token}

theorem Yields.isTelling (h : Yields lexer tokens) : ∀ token ∈ tokens, token.IsTelling := by
  induction h with
  | stop hnext _ => exact List.forall_mem_singleton.mpr (isTelling_of_next hnext)
  | more hnext _ _ ih => exact List.forall_mem_cons.mpr ⟨isTelling_of_next hnext, ih⟩

/-- Blanks aside, the texts of all tokens make up the text. -/
theorem Yields.filter_ahead (h : Yields lexer tokens) (hready : lexer.IsReady) :
    lexer.cursor.ahead.filter (!Text.isBlank ·) =
      (tokens.flatMap (·.text.toList)).filter (!Text.isBlank ·) := by
  have hblank {blanks : List Char} (h : ∀ b ∈ blanks, Text.isBlank b = true) :
      blanks.filter (!Text.isBlank ·) = [] := by
    simpa using h
  induction h with
  | stop hnext hstop =>
    obtain ⟨rfl, -, hblanks⟩ | ⟨blanks, run, htakes⟩ := next_eq_stop_or_takes hready hnext
    · rw [hblank hblanks]
      simp [Token.stop]
    · exact absurd hstop htakes.symbol
  | @more lexer rest token tokens hnext hsymbol hrest ih =>
    obtain ⟨rfl, -⟩ | ⟨blanks, run, htakes⟩ := next_eq_stop_or_takes hready hnext
    · exact absurd rfl hsymbol
    · rw [htakes.between.ahead, List.append_assoc, List.filter_append, List.filter_append,
        hblank htakes.blank, ih htakes.isReady, List.flatMap_cons, List.filter_append, htakes.text]
      rfl

/-- Behind a token reading goes on where its text ends. -/
theorem Yields.behind {front : List Token} (h : Yields lexer (front ++ token :: tokens))
    (hready : lexer.IsReady) (hsymbol : token.symbol ≠ .stop) :
    ∃ rest passed, Yields rest tokens ∧ rest.IsReady ∧ rest.cursor.source = lexer.cursor.source ∧
      rest.cursor.passed.reverse = passed ++ token.text.toList := by
  induction front generalizing lexer with
  | nil =>
    cases h with
    | stop _ hstop => exact absurd hstop hsymbol
    | more hnext _ hrest =>
      obtain ⟨rfl, -⟩ | ⟨blanks, run, htakes⟩ := next_eq_stop_or_takes hready hnext
      · exact absurd rfl hsymbol
      · refine ⟨_, lexer.cursor.passed.reverse ++ blanks, hrest, htakes.isReady,
          htakes.between.source_eq, ?_⟩
        simp [htakes.between.passed, htakes.text]
  | cons first front ih =>
    obtain ⟨middle, hnext, hfirst, hmiddle⟩ := Yields.tail h
      (List.mem_append_right front List.mem_cons_self)
    obtain ⟨rfl, -⟩ | ⟨blanks, run, htakes⟩ := next_eq_stop_or_takes hready hnext
    · exact absurd rfl hfirst
    · obtain ⟨rest, passed, hrest, hrestReady, hsource, hpassed⟩ := ih hmiddle htakes.isReady
      exact ⟨rest, passed, hrest, hrestReady, hsource.trans htakes.between.source_eq, hpassed⟩

/-- Where a token ends apart, all of the value is ahead, and what is more holds the equals sign in
front of the value. -/
theorem ahead_of_endsApart {lead bare text : List Char} (hbare : ∀ c ∈ bare, isBareChar c = true)
    (htext : EndsApart text) (hsource : passed ++ text ++ ahead = lead ++ '=' :: bare) :
    ahead = bare ∨ '=' ∈ ahead := by
  have hsplit : passed ++ text ++ ahead = lead ++ ['='] ++ bare := by rw [hsource]; simp
  obtain ⟨c, hlast, hc⟩ := htext.append passed
  obtain ⟨more, hlead, rfl⟩ | ⟨more, hpassed, rfl⟩ := List.append_eq_append_iff.mp hsplit
  · cases hmore : more.getLast? with
    | none =>
      obtain rfl := List.getLast?_eq_none_iff.mp hmore
      exact .inl (List.nil_append bare)
    | some d =>
      have hequals : (lead ++ ['=']).getLast? = some d := by
        rw [hlead, List.getLast?_append, hmore]
        rfl
      rw [List.getLast?_concat] at hequals
      cases hequals
      exact .inr (List.mem_append_left bare (List.mem_of_getLast? hmore))
  · cases hmore : more.getLast? with
    | none =>
      obtain rfl := List.getLast?_eq_none_iff.mp hmore
      exact .inl (List.nil_append ahead).symm
    | some d =>
      have hmark : (passed ++ text).getLast? = some d := by
        rw [hpassed, List.getLast?_append, hmore]
        rfl
      obtain rfl : c = d := Option.some.inj (hlast.symm.trans hmark)
      have hmem : c ∈ more ++ ahead := List.mem_append_left ahead (List.mem_of_getLast? hmore)
      rw [hbare c hmem] at hc
      cases hc

section Value

variable {localOffset : UtcOffset} {lead bare : List Char} {front : List Token}
  (hbare : ∀ c ∈ bare, isBareChar c = true)
include hbare

/-- Behind a token that ends apart, the other tokens are cut from the value, or from a text with an
equals sign. -/
theorem Yields.behind_of_endsApart
    (h : Yields (start (lead ++ '=' :: bare) localOffset) (front ++ token :: tokens))
    (hsymbol : token.symbol ≠ .stop) (htoken : EndsApart token.text.toList) :
    (tokens.flatMap (·.text.toList)).filter (!Text.isBlank ·) = bare ∨
      '=' ∈ tokens.flatMap (·.text.toList) := by
  obtain ⟨rest, passed, hrest, hready, hsource, hpassed⟩ := h.behind (isReady_start _ _) hsymbol
  rw [start, source_start, source, hpassed] at hsource
  have hfilter := hrest.filter_ahead hready
  obtain hahead | hequals := ahead_of_endsApart hbare htoken hsource
  · rw [hahead, filter_eq_self_of_isBareChar hbare] at hfilter
    exact .inl hfilter.symm
  · have hmem : '=' ∈ rest.cursor.ahead.filter (!Text.isBlank ·) :=
      List.mem_filter.mpr ⟨hequals, by decide⟩
    rw [hfilter] at hmem
    exact .inr (List.mem_filter.mp hmem).1

/-- The last token before the end does not end apart. -/
theorem Yields.not_endsApart {stop : Token} (hne : bare ≠ [])
    (h : Yields (start (lead ++ '=' :: bare) localOffset) (front ++ [token, stop]))
    (hsymbol : token.symbol ≠ .stop) (hstop : stop.symbol = .stop) :
    ¬EndsApart token.text.toList := by
  intro htoken
  have htext := (h.isTelling stop (by simp)).stop hstop
  have hnone : [stop].flatMap (·.text.toList) = [] := by simp [htext]
  obtain hbehind | hequals := h.behind_of_endsApart hbare hsymbol htoken
  · rw [hnone] at hbehind
    exact hne hbehind.symm
  · rw [hnone] at hequals
    cases hequals

end Value

end Lexer

namespace Grammar

variable {tokens : List Token} {words : List String} {text : String}

/-- The text of words with slashes between them is that of their tokens. -/
theorem toList_words (h : Separated .slash BareWord tokens words)
    (htokens : ∀ token ∈ tokens, token.IsTelling) :
    ("/".intercalate words).toList = tokens.flatMap (·.text.toList) := by
  obtain ⟨pieces, hpieces, hall⟩ := h
  induction hpieces generalizing words with
  | single piece =>
    obtain - | ⟨hword, hnil⟩ := hall
    cases hnil
    obtain ⟨-⟩ := hword
    simp
  | cons hsign hrest ih =>
    obtain - | @⟨_, _, _, more, hword, hmore⟩ := hall
    obtain ⟨-⟩ := hword
    have hslash := (htokens _ (by simp)).slash hsign
    have hmany := ih (fun token hmem ↦ htokens token (by simp [hmem])) hmore
    cases more with
    | nil =>
      cases hmore
      cases hrest
    | cons next more =>
      rw [String.intercalate_cons_cons]
      simp [hslash, hmany]

theorem isBareChar_of_words (h : Separated .slash BareWord tokens words)
    (htokens : ∀ token ∈ tokens, token.IsTelling) :
    ∀ c ∈ tokens.flatMap (·.text.toList), isBareChar c = true := by
  have hsymbols : ∀ token ∈ tokens, token.symbol = .slash ∨ token.symbol = .property := by
    refine h.forall_tokens (fun _ ↦ .inl) ?_
    rintro _ _ ⟨hword⟩
    exact List.forall_mem_singleton.mpr (.inr hword)
  intro c hc
  obtain ⟨token, hmem, hc⟩ := List.mem_flatMap.mp hc
  obtain hslash | hword := hsymbols token hmem
  · rw [(htokens token hmem).slash hslash] at hc
    obtain rfl := List.mem_singleton.mp hc
    decide
  · exact (htokens token hmem).word (.inl hword) c hc

/-- A string is a literal, or its text is that of its tokens. -/
theorem Operand.string_cases (h : Operand tokens (.string text))
    (htokens : ∀ token ∈ tokens, token.IsTelling) :
    (∃ literal, tokens = [literal] ∧ literal.symbol = .literal ∧
        IsStringText literal.text.toList) ∨
      text.toList = tokens.flatMap (·.text.toList) ∧ ∀ c ∈ text.toList, isBareChar c = true := by
  generalize hvalue : Value.string text = value at h
  cases h with
  | @literal literal value hsymbol hliteral =>
    subst hvalue
    exact .inl ⟨literal, rfl, hsymbol, (htokens literal (by simp)).string text hliteral⟩
  | bare h =>
    cases hvalue
    rw [toList_words h htokens]
    exact .inr ⟨rfl, isBareChar_of_words h htokens⟩
  | signed hsign h =>
    cases hvalue
    obtain ⟨hfirst, hmore⟩ := List.forall_mem_cons.mp htokens
    rw [String.toList_append, toList_words h hmore]
    refine .inr ⟨rfl, List.forall_mem_append.mpr ⟨?_, isBareChar_of_words h hmore⟩⟩
    exact hfirst.word (.inr ⟨_, hsign⟩)

/-- A string cut from a bare value is the bare value, unless it is a literal that ends apart. -/
theorem Operand.toList_eq {bare : List Char} (hbare : ∀ c ∈ bare, isBareChar c = true)
    (h : Operand tokens (.string text)) (htokens : ∀ token ∈ tokens, token.IsTelling)
    (hcut : (tokens.flatMap (·.text.toList)).filter (!Text.isBlank ·) = bare ∨
      '=' ∈ tokens.flatMap (·.text.toList))
    (hapart : ∀ literal, tokens = [literal] → literal.symbol = .literal →
      ¬EndsApart literal.text.toList) : text.toList = bare := by
  obtain ⟨literal, rfl, hliteral, hform⟩ | ⟨htext, hchars⟩ := h.string_cases htokens
  · rw [List.flatMap_singleton] at hcut
    obtain hends | ⟨hcolon, hpath⟩ := hform
    · exact absurd hends (hapart literal rfl hliteral)
    · -- A colon stands in no bare value, and the equals sign is not in the literal.
      obtain rfl | hequals := hcut
      · have hmem := hbare ':' (List.mem_filter.mpr ⟨hcolon, by decide⟩)
        cases hmem
      · cases hpath '=' hequals
  · rw [← htext, filter_eq_self_of_isBareChar hchars] at hcut
    obtain hsame | hequals := hcut
    · exact hsame
    · cases hchars '=' hequals

/-- A comparison is written with its sign, or it ends with a parenthesis. -/
theorem Clauses.compare_cases {op : Comparison} {property : Property} {value : Value}
    (h : Clauses tokens (.compare op property value)) :
    (∃ front closing, tokens = front ++ [closing] ∧ closing.symbol = .closeParen) ∨
      ∃ front sign second, tokens = front ++ sign :: second ∧ sign.symbol = .comparison op ∧
        Operand second value := by
  cases h with
  | term hterm =>
    cases hterm with
    | within hopening hclauses hclosing => exact .inl ⟨_, _, rfl, hclosing⟩
    | comparison hsubject hsign hoperand => exact .inr ⟨_, _, _, rfl, hsign, hoperand⟩
    | function hcall =>
      obtain ⟨hname, hopening, harguments, hclosing⟩ := hcall
      exact .inl ⟨_, _, rfl, hclosing⟩

end Grammar

namespace Query

open Grammar

variable {options : ReadOptions} {lead bare : List Char} {op : Comparison} {property : Property}
  {text : String}

/-- A bare value is taken as it is written. Whatever stands in front of the equals sign, if the text
is read as a comparison with a string, then the string is what stands behind it, character for
character. -/
theorem bare_value_verbatim (hne : bare ≠ []) (hbare : ∀ c ∈ bare, isBareChar c = true)
    (h : scan options (lead ++ '=' :: bare) = .ok (compare op property (.string text))) :
    text.toList = bare := by
  obtain ⟨tokens, parsed, hscan, hsentence, hfinish⟩ := exists_sentence_of_scan h
  obtain rfl := eq_of_finish_compare hfinish
  have hyields := Lexer.scan_eq_ok_iff.mp hscan
  have htokens := hyields.isTelling
  cases hsentence with
  | clauses hclauses hstop =>
    obtain ⟨front, closing, rfl, hclosing⟩ | ⟨front, sign, second, rfl, hsign, hoperand⟩ :=
      hclauses.compare_cases
    · rw [List.append_assoc] at hyields
      have hapart := (htokens closing (by simp)).mark (.inl hclosing)
      exact absurd hapart (hyields.not_endsApart hbare hne (by simp [hclosing]) hstop)
    · have hapart := (htokens sign (by simp)).mark (.inr ⟨op, hsign⟩)
      rw [List.append_assoc, List.cons_append] at hyields
      have hbehind := hyields.behind_of_endsApart hbare (by simp [hsign]) hapart
      rw [List.flatMap_append, List.flatMap_singleton, (htokens _ (by simp)).stop hstop,
        List.append_nil] at hbehind
      refine hoperand.toList_eq hbare (fun token hmem ↦ htokens token (by simp [hmem])) hbehind ?_
      rintro literal rfl hliteral
      rw [List.append_cons front] at hyields
      exact hyields.not_endsApart hbare hne (by simp [hliteral]) hstop

theorem bare_value_verbatim_signed :
    scan {} ("a/b".toList ++ '=' :: "-2c/d".toList) =
        .ok (compare .eq ⟨["a", "b"]⟩ (.string "-2c/d")) ∧
      "-2c/d".toList = ['-', '2', 'c', '/', 'd'] := by
  have hscan : scan {} ("a/b".toList ++ '=' :: ['-', '2', 'c', '/', 'd']) =
      .ok (compare .eq ⟨["a", "b"]⟩ (.string "-2c/d")) := by cbv
  have hbare : ∀ c ∈ ['-', '2', 'c', '/', 'd'], isBareChar c = true :=
    forall_mem_of_all (by decide)
  exact ⟨hscan, bare_value_verbatim (by simp) hbare hscan⟩

end Query

end ResourceQuery
