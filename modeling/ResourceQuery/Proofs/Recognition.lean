import ResourceQuery.Proofs.LexemeLocality

/-!
# What is recognised

Every way in which the scanners of lexemes succeed, with what was tested and read on that way. What
the lexemes are, how far they reach and where they may begin is a matter of these cases, without a
look at the order of the tests.
-/

namespace ResourceQuery

open Run Scan

namespace Number

variable {cursor middle : Cursor}

/-- A run is no number just if it is no numeral; a numeral without a value is a fault. -/
theorem scan?_eq_none_iff :
    scan? cursor = .ok none middle ↔ Numeral.scan? cursor = .ok none middle := by
  have hposition : Scan.position cursor = .ok cursor.position cursor := rfl
  rw [scan?, bind_ok hposition]
  constructor
  · intro h
    obtain ⟨found, stood, hfound, h⟩ := bind_eq_ok.mp h
    cases found with
    | none =>
      cases h
      exact hfound
    | some numeral =>
      cases hvalue : ofNumeral numeral with
      | ok value =>
        simp only [hvalue] at h
        cases h
      | error fault =>
        simp only [hvalue] at h
        cases h
  · intro h
    rw [bind_ok h]
    rfl

theorem hexAhead_eq_ok {hex : Bool} (h : hexAhead cursor = .ok hex middle) : middle = cursor :=
  (EStateM.Result.ok.inj h).2.symm

end Number

namespace Lexeme

variable {localOffset : UtcOffset} {last : Option Symbol} {c : Char} {cursor middle next : Cursor}
  {lexeme : Lexeme}

theorem followsWord_nil : FollowsWord [] := fun _ h ↦ nomatch h

theorem scan?_source {found : Option Value} (h : Number.scan? cursor = .ok found middle) :
    middle.source = cursor.source := by
  have hagrees : Scan.Agrees False [] [] cursor Number.scan? Number.scan? :=
    Number.agrees_scan? followsWord_nil
  exact (hagrees.embed found middle h).1

/-! ### Runs that begin with digits -/

/-- No literal that begins with digits is recognised at the cursor. -/
structure NoLiteral (cursor : Cursor) : Prop where
  guid : Guid.ahead cursor = false
  hex : Number.hexAhead cursor = .ok false cursor
  span : TimeSpan.ahead cursor = false
  moment : Moment.ahead cursor = false
  numeral : ∃ middle, Numeral.scan? cursor = .ok none middle

/-- What is recognised where digits begin, with or without a sign. -/
inductive FromDigits (localOffset : UtcOffset) (cursor : Cursor) : Lexeme → Cursor → Prop
  | guid {id : Guid} {next : Cursor} (hread : Guid.scan cursor = .ok id next) :
      FromDigits localOffset cursor (literal (.guid id)) next
  | hex {value : Value} {next : Cursor} (hahead : Number.hexAhead cursor = .ok true cursor)
      (hread : Number.scanHex cursor = .ok value next) :
      FromDigits localOffset cursor (literal value) next
  | span {span : TimeSpan} {next : Cursor} (hread : TimeSpan.scan cursor = .ok span next) :
      FromDigits localOffset cursor (literal (.span span)) next
  | moment {moment : Moment} {next : Cursor} (hahead : Moment.ahead cursor = true)
      (hread : Moment.scan .local localOffset cursor = .ok moment next) :
      FromDigits localOffset cursor (literal (.moment moment)) next
  | number {value : Value} {next : Cursor} (hread : Number.scan? cursor = .ok (some value) next) :
      FromDigits localOffset cursor (literal value) next
  | sign {order : SortOrder} (hliteral : NoLiteral cursor)
      (horder : cursor.peek.bind orderOfSign? = some order) :
      FromDigits localOffset cursor (.splitSign order) (cursor.passOver 1)
  | word (hliteral : NoLiteral cursor) (horder : cursor.peek.bind orderOfSign? = none) :
      FromDigits localOffset cursor (.plain .property) (cursor.readWhile isWordChar).2

/-- Where no literal begins, the run is a word or the sign in front of one. -/
theorem scanDigits_of_noLiteral (h : NoLiteral cursor) :
    scanDigits localOffset cursor = scanDigitWord cursor := by
  obtain ⟨middle, hnumeral⟩ := h.numeral
  have hfound := Number.scan?_eq_none_iff.mpr hnumeral
  rw [scanDigits, bind_ok (get_eq cursor), h.guid, if_neg (by decide), bind_ok h.hex,
    if_neg (by decide), h.span, if_neg (by decide), h.moment, if_neg (by decide), bind_ok hfound]
  exact moveTo_bind (scan?_source hfound)

theorem scanDigitWord_eq (cursor : Cursor) :
    scanDigitWord cursor = match cursor.peek.bind orderOfSign? with
      | some order => .ok (.splitSign order) (cursor.passOver 1)
      | none => .ok (.plain .property) (cursor.readWhile isWordChar).2 := by
  have hpeek : Scan.peek cursor = .ok cursor.peek cursor := rfl
  rw [scanDigitWord, bind_ok hpeek]
  cases cursor.peek.bind orderOfSign? <;> rfl

theorem fromDigits_of_noLiteral (hliteral : NoLiteral cursor)
    (h : scanDigitWord cursor = .ok lexeme next) :
    FromDigits localOffset cursor lexeme next := by
  rw [scanDigitWord_eq] at h
  split at h
  · next order horder =>
    cases h
    exact .sign hliteral horder
  · next horder =>
    cases h
    exact .word hliteral horder

theorem fromDigits_of_scanDigits (h : scanDigits localOffset cursor = .ok lexeme next) :
    FromDigits localOffset cursor lexeme next := by
  -- Where all tests fail, the run is read again as a whole.
  have hrun := h
  rw [scanDigits, bind_ok (get_eq cursor)] at h
  by_cases hguid : Guid.ahead cursor = true
  · rw [if_pos hguid] at h
    obtain ⟨id, hread, rfl⟩ := map_eq_ok.mp h
    exact .guid hread
  rw [if_neg hguid] at h
  obtain ⟨hex, stood, hhex, h⟩ := bind_eq_ok.mp h
  obtain rfl := Number.hexAhead_eq_ok hhex
  cases hex with
  | true =>
    obtain ⟨value, hread, rfl⟩ := map_eq_ok.mp h
    exact .hex hhex hread
  | false =>
    rw [if_neg (by decide)] at h
    by_cases hspan : TimeSpan.ahead stood = true
    · rw [if_pos hspan] at h
      obtain ⟨span, hread, rfl⟩ := map_eq_ok.mp h
      exact .span hread
    rw [if_neg hspan] at h
    by_cases hmoment : Moment.ahead stood = true
    · rw [if_pos hmoment] at h
      obtain ⟨moment, hread, rfl⟩ := map_eq_ok.mp h
      exact .moment hmoment hread
    rw [if_neg hmoment] at h
    obtain ⟨found, middle, hfound, h⟩ := bind_eq_ok.mp h
    cases found with
    | some value =>
      cases h
      exact .number hfound
    | none =>
      have hliteral : NoLiteral stood := ⟨by simpa using hguid, hhex, by simpa using hspan,
        by simpa using hmoment, middle, Number.scan?_eq_none_iff.mp hfound⟩
      rw [scanDigits_of_noLiteral hliteral] at hrun
      exact fromDigits_of_noLiteral hliteral hrun

/-! ### Words -/

/-- What is recognised where a word begins. -/
inductive FromWord (localOffset : UtcOffset) (cursor : Cursor) : Lexeme → Cursor → Prop
  | guid {id : Guid} {next : Cursor} (hread : Guid.scan cursor = .ok id next) :
      FromWord localOffset cursor (literal (.guid id)) next
  | prefixed {word : List Char} {middle : Cursor} {value : Value} {next : Cursor}
      (hword : Scan.readWhile isWordChar cursor = .ok word middle)
      (hcolon : middle.peek = some ':')
      (hread : Literal.scanAfterWord localOffset cursor.position word middle = .ok value next) :
      FromWord localOffset cursor (literal value) next
  | function {word : List Char} {keyword : Keyword} {next : Cursor}
      (hword : Scan.readWhile isWordChar cursor = .ok word next)
      (hparen : parenFollows next = true) (hkeyword : keyword? word = some keyword) :
      FromWord localOffset cursor (.plain (.function keyword)) next
  | null {word : List Char} {next : Cursor}
      (hword : Scan.readWhile isWordChar cursor = .ok word next) :
      FromWord localOffset cursor (literal .null) next
  | bool {word : List Char} {b : Bool} {next : Cursor}
      (hword : Scan.readWhile isWordChar cursor = .ok word next) :
      FromWord localOffset cursor (literal (.bool b)) next
  | name {word : List Char} {next : Cursor} (hguid : Guid.ahead cursor = false)
      (hword : Scan.readWhile isWordChar cursor = .ok word next)
      (hname : ofWord word = .plain .property) :
      FromWord localOffset cursor (.plain .property) next

/-- A word by itself is a name or a constant. -/
theorem ofWord_cases (word : List Char) :
    ofWord word = .plain .property ∨ ofWord word = literal .null ∨
      ∃ b, ofWord word = literal (.bool b) := by
  unfold ofWord
  split
  · exact .inr (.inl rfl)
  · exact .inr (.inr ⟨true, rfl⟩)
  · exact .inr (.inr ⟨false, rfl⟩)
  · exact .inl rfl

theorem fromWord_of_ofWord {word : List Char} (hguid : Guid.ahead cursor = false)
    (hword : Scan.readWhile isWordChar cursor = .ok word next) :
    FromWord localOffset cursor (ofWord word) next := by
  obtain hname | hnull | ⟨b, hbool⟩ := ofWord_cases word
  · rw [hname]
    exact .name hguid hword hname
  · rw [hnull]
    exact .null hword
  · rw [hbool]
    exact .bool hword

/-- A word with a colon behind it is the prefix of what is read there. -/
theorem scanWord_of_colon {word : List Char} (hguid : Guid.ahead cursor = false)
    (hword : Scan.readWhile isWordChar cursor = .ok word middle)
    (hcolon : middle.peek.any (· == ':') = true) :
    scanWord localOffset cursor =
      (do return literal (← Literal.scanAfterWord localOffset cursor.position word)) middle := by
  have hnext : Scan.nextIs (· == ':') middle = .ok true middle :=
    congrArg (EStateM.Result.ok · middle) hcolon
  rw [scanWord, bind_ok (get_eq cursor), hguid, if_neg (by decide), bind_ok hword, bind_ok hnext,
    if_pos rfl]

/-- Any other word is the name of a function, if a parenthesis follows, or means what it means by
itself. -/
theorem scanWord_of_no_colon {word : List Char} (hguid : Guid.ahead cursor = false)
    (hword : Scan.readWhile isWordChar cursor = .ok word next)
    (hcolon : next.peek.any (· == ':') = false) :
    scanWord localOffset cursor =
      .ok (if parenFollows next = true then
          match keyword? word with
          | some keyword => .plain (.function keyword)
          | none => ofWord word
        else ofWord word) next := by
  have hnext : Scan.nextIs (· == ':') next = .ok false next :=
    congrArg (EStateM.Result.ok · next) hcolon
  rw [scanWord, bind_ok (get_eq cursor), hguid, if_neg (by decide), bind_ok hword, bind_ok hnext,
    if_neg (by decide), bind_ok (get_eq next)]
  split
  · cases keyword? word <;> rfl
  · rfl

theorem fromWord_of_scanWord (h : scanWord localOffset cursor = .ok lexeme next) :
    FromWord localOffset cursor lexeme next := by
  cases hguid : Guid.ahead cursor with
  | true =>
    rw [scanWord, bind_ok (get_eq cursor), if_pos hguid] at h
    obtain ⟨id, hread, rfl⟩ := map_eq_ok.mp h
    exact .guid hread
  | false =>
    have hword : Scan.readWhile isWordChar cursor = .ok _ _ := rfl
    cases hcolon : (cursor.readWhile isWordChar).2.peek.any (· == ':') with
    | true =>
      rw [scanWord_of_colon hguid hword hcolon] at h
      obtain ⟨value, hread, rfl⟩ := map_eq_ok.mp h
      rw [Cursor.any_beq, beq_iff_eq] at hcolon
      exact .prefixed hword hcolon hread
    | false =>
      rw [scanWord_of_no_colon hguid hword hcolon] at h
      obtain ⟨rfl, rfl⟩ := EStateM.Result.ok.inj h
      split
      · next hparen =>
        split
        · next keyword hkeyword => exact .function hword hparen hkeyword
        · exact fromWord_of_ofWord hguid hword
      · exact fromWord_of_ofWord hguid hword

/-! ### Symbols -/

/-- What is recognised where the character of a symbol comes next. -/
inductive FromSymbol (c : Char) (cursor : Cursor) : Lexeme → Cursor → Prop
  | single {symbol : Symbol} (hsingle : single? c = some symbol) :
      FromSymbol c cursor (.plain symbol) (cursor.passOver 1)
  | equals {op : Comparison} {next : Cursor} (hc : c = '=')
      (hread : scanEquals cursor = .ok (.plain (.comparison op)) next) :
      FromSymbol c cursor (.plain (.comparison op)) next
  | comparison {op : Comparison} {length : Nat}
      (hop : comparison? c (cursor.peekAt 1) = some (op, length)) :
      FromSymbol c cursor (.plain (.comparison op)) (cursor.passOver length)

theorem not_mem_symbols_of_begins_nothing {second : Option Char} (hsingle : single? c = none)
    (hequals : c ≠ '=') (hcomparison : comparison? c second = none) (hbang : c ≠ '!') :
    c ∉ symbols := by
  intro hc
  simp only [symbols, stoppers, List.mem_cons, List.not_mem_nil, or_false] at hc
  rcases hc with rfl | rfl | rfl | rfl | rfl | rfl | rfl | rfl | rfl
  all_goals first
    | exact absurd hsingle (by decide)
    | exact absurd rfl hequals
    | exact absurd rfl hbang
    | cases hcomparison

theorem fromSymbol_of_scan (hc : c ∈ symbols)
    (h : scan localOffset last c cursor = .ok lexeme next) : FromSymbol c cursor lexeme next := by
  rw [scan, bind_ok (get_eq cursor)] at h
  cases hsingle : single? c with
  | some symbol =>
    rw [hsingle] at h
    cases h
    exact .single hsingle
  | none =>
    rw [hsingle] at h
    dsimp only at h
    split at h
    · next hequals =>
      obtain ⟨op, rfl⟩ := gives_scanEquals _ _ _ h
      exact .equals (eq_of_beq hequals) h
    next hequals =>
    cases hcomparison : comparison? c (cursor.peekAt 1) with
    | some sign =>
      rw [hcomparison] at h
      cases h
      exact .comparison hcomparison
    | none =>
      rw [hcomparison] at h
      dsimp only at h
      split at h
      · cases h
      · next hbang =>
        rw [beq_iff_eq] at hequals hbang
        exact absurd hc (not_mem_symbols_of_begins_nothing hsingle hequals hcomparison hbang)

theorem FromSymbol.mem_symbols (h : FromSymbol c cursor lexeme next) : c ∈ symbols := by
  by_contra hc
  cases h with
  | single hsingle => cases (single?_eq_none hc).symm.trans hsingle
  | equals hequals => exact hc (hequals ▸ by decide)
  | comparison hop => cases (comparison?_eq_none hc _).symm.trans hop

/-- The symbols are none of those that words and literals have. -/
theorem FromSymbol.symbol_not_mem (h : FromSymbol c cursor lexeme next) :
    lexeme.symbol ∉ [.slash, .property, .literal, .stop] ∧
      ∀ order, lexeme.symbol ≠ .direction order := by
  cases h with
  | single hsingle =>
    unfold single? at hsingle
    split at hsingle <;> cases hsingle <;> simp [symbol]
  | equals | comparison => simp [symbol]

/-- What begins with the character of a symbol is that symbol or a comparison. -/
theorem single_or_comparison (hc : c ∈ symbols)
    (h : scan localOffset last c cursor = .ok lexeme next) :
    (∃ symbol, single? c = some symbol ∧ lexeme = .plain symbol) ∨ IsComparison lexeme := by
  cases fromSymbol_of_scan hc h with
  | single hsingle => exact .inl ⟨_, hsingle, rfl⟩
  | equals | comparison => exact .inr ⟨_, rfl⟩

theorem symbol_of_mem_symbols (hc : c ∈ symbols)
    (h : scan localOffset last c cursor = .ok lexeme next) :
    lexeme.symbol ∉ [.slash, .property, .literal, .stop] ∧
      ∀ order, lexeme.symbol ≠ .direction order :=
  (fromSymbol_of_scan hc h).symbol_not_mem

/-! ### Lexemes -/

/-- What is recognised where the next character is `c`. -/
inductive Recognised (localOffset : UtcOffset) (last : Option Symbol) (c : Char)
    (cursor : Cursor) : Lexeme → Cursor → Prop
  | symbol {lexeme : Lexeme} {next : Cursor} (h : FromSymbol c cursor lexeme next) :
      Recognised localOffset last c cursor lexeme next
  | slash (hc : c = '/') (hpath : continuesPath last cursor.previous = true) :
      Recognised localOffset last c cursor (.plain .slash) (cursor.passOver 1)
  | uri {text : String} {next : Cursor} (hc : c = '/')
      (hread : Literal.scanUri cursor = .ok text next) :
      Recognised localOffset last c cursor (literal (.uri text)) next
  | string {body : List Char} {next : Cursor} (hc : c = '"')
      (hread : Quoted.scan '"' cursor = .ok body next) :
      Recognised localOffset last c cursor (literal (.string (String.ofList body))) next
  | char {char : Char} {next : Cursor} (hc : c = '\'')
      (hread : Quoted.scanChar cursor = .ok char next) :
      Recognised localOffset last c cursor (literal (.char char)) next
  | digits {lexeme : Lexeme} {next : Cursor} (h : FromDigits localOffset cursor lexeme next)
      (hbegins : beginsDigits c (cursor.peekAt 1) = true) :
      Recognised localOffset last c cursor lexeme next
  | direction {order : SortOrder} (horder : orderOfSign? c = some order) :
      Recognised localOffset last c cursor (.plain (.direction order)) (cursor.passOver 1)
  | word {lexeme : Lexeme} {next : Cursor} (h : FromWord localOffset cursor lexeme next)
      (hsymbol : c ∉ symbols) (hothers : c ∉ ['/', '"', '\'', ':']) :
      Recognised localOffset last c cursor lexeme next

theorem recognised_of_scanItem (hsymbol : c ∉ symbols) (hslash : c ≠ '/')
    (h : scanItem localOffset c cursor = .ok lexeme next) :
    Recognised localOffset last c cursor lexeme next := by
  rw [scanItem, bind_ok (get_eq cursor)] at h
  split at h
  · next hc =>
    obtain ⟨body, hread, rfl⟩ := map_eq_ok.mp h
    exact .string (eq_of_beq hc) hread
  next hdouble =>
  split at h
  · next hc =>
    obtain ⟨char, hread, rfl⟩ := map_eq_ok.mp h
    exact .char (eq_of_beq hc) hread
  next hquote =>
  split at h
  · next hbegins => exact .digits (fromDigits_of_scanDigits h) hbegins
  cases horder : orderOfSign? c with
  | some order =>
    rw [horder] at h
    cases h
    exact .direction horder
  | none =>
    rw [horder] at h
    dsimp only at h
    split at h
    · cases h
    · next hcolon =>
      have hothers : c ∉ ['/', '"', '\'', ':'] := by
        rw [beq_iff_eq] at hdouble hquote hcolon
        simp [hslash, hdouble, hquote, hcolon]
      exact .word (fromWord_of_scanWord h) hsymbol hothers

theorem recognised_of_scan (h : scan localOffset last c cursor = .ok lexeme next) :
    Recognised localOffset last c cursor lexeme next := by
  by_cases hsymbol : c ∈ symbols
  · exact .symbol (fromSymbol_of_scan hsymbol h)
  by_cases hslash : c = '/'
  · subst hslash
    rw [scan_slash] at h
    split at h
    · next hpath =>
      cases h
      exact .slash rfl hpath
    · obtain ⟨text, hread, rfl⟩ := map_eq_ok.mp h
      exact .uri rfl hread
  · rw [scan_eq_scanItem hsymbol hslash] at h
    exact recognised_of_scanItem hsymbol hslash h

/-! ### Signs -/

theorem eq_sign_of_orderOfSign? {order : SortOrder} (h : orderOfSign? c = some order) :
    c = order.sign := by
  unfold orderOfSign? at h
  split at h <;> cases h <;> rfl

/-- A direction is the sign that it is read off. -/
theorem eq_sign_of_scan {passed body : List Char} {order : SortOrder}
    (h : scan localOffset last c ⟨passed, c :: body⟩ = .ok lexeme next)
    (hlexeme : lexeme.symbol = .direction order) :
    c = order.sign ∧ next = ⟨c :: passed, body⟩ := by
  cases recognised_of_scan h with
  | symbol hsymbol => exact absurd hlexeme (hsymbol.symbol_not_mem.2 order)
  | slash | uri | string | char => cases hlexeme
  | digits hdigits =>
    cases hdigits with
    | sign _ horder =>
      cases hlexeme
      exact ⟨eq_sign_of_orderOfSign? horder, rfl⟩
    | _ => cases hlexeme
  | direction horder =>
    cases hlexeme
    exact ⟨eq_sign_of_orderOfSign? horder, rfl⟩
  | word hword => cases hword <;> cases hlexeme

/-! ### No lexeme is the end -/

/-- Only a literal has the symbol of one, and nothing that is read has the symbol of the end. -/
theorem ne_plain_of_scan {symbol : Symbol} (hsymbol : symbol ∈ [.literal, .stop])
    (h : scan localOffset last c cursor = .ok lexeme next) : lexeme ≠ .plain symbol := by
  rintro rfl
  cases recognised_of_scan h with
  | symbol h =>
    have hwider : symbol ∈ [.slash, .property, .literal, .stop] := by
      simp only [List.mem_cons, List.not_mem_nil, or_false] at hsymbol ⊢
      exact .inr (.inr hsymbol)
    exact absurd hwider h.symbol_not_mem.1
  | slash | direction => simp at hsymbol
  | digits hdigits =>
    cases hdigits
    simp at hsymbol
  | word hword => cases hword <;> simp at hsymbol

theorem symbol_ne_stop (h : scan localOffset last c cursor = .ok lexeme next) :
    lexeme.symbol ≠ .stop := by
  cases lexeme with
  | plain symbol =>
    rintro rfl
    exact ne_plain_of_scan (by simp) h rfl
  | literal value => exact nofun
  | splitSign order => exact nofun

/-- Where no path goes on, a slash begins a reference. -/
theorem eq_uri_of_scan_slash (h : scan localOffset none '/' cursor = .ok lexeme next) :
    ∃ text, lexeme = .literal (.uri text) := by
  rw [scan_slash, if_neg (by simp [continuesPath])] at h
  obtain ⟨text, _, _, hlexeme⟩ := bind_eq_ok.mp h
  cases hlexeme
  exact ⟨text, rfl⟩

end Lexeme

end ResourceQuery
