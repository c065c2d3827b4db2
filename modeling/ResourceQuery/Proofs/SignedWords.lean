import ResourceQuery.Proofs.Lexing

/-!
# Signs in front of words

A sort key may be a sign and a word. In front of a word that begins like a number the sign is first
tried as part of one, with the same outcome as for the word alone; only then it is split off, and
the word is read without looking at it again. In front of other words the sign is a token of its
own.
-/

namespace ResourceQuery

open Run

namespace Numeral

variable {sign c : Char} {passed text : List Char} {middle : Cursor}

/-- A sign in front of a run that is no numeral does not make it one. -/
theorem scan?_sign (hsign : isSign sign = true) (hc : isSign c = false)
    (h : scan? ⟨sign :: passed, c :: text⟩ = .ok none middle) :
    scan? ⟨passed, sign :: c :: text⟩ = .ok none middle := by
  have hunsigned : Scan.readIf isSign ⟨sign :: passed, c :: text⟩ =
      .ok none ⟨sign :: passed, c :: text⟩ :=
    Scan.readIf_eq_ok (by simp [Cursor.readIf, Cursor.peek, hc])
  have hsigned : Scan.readIf isSign ⟨passed, sign :: c :: text⟩ =
      .ok (some sign) ⟨sign :: passed, c :: text⟩ :=
    Scan.readIf_eq_ok (by simp [Cursor.readIf, Cursor.peek, hsign, Cursor.read, Cursor.passOver])
  rw [scan?, bind_ok hunsigned] at h
  rw [scan?, bind_ok hsigned]
  obtain ⟨whole, _, hwhole, h⟩ := bind_eq_ok.mp h
  obtain ⟨fraction, _, hfraction, h⟩ := bind_eq_ok.mp h
  rw [bind_ok hwhole, bind_ok hfraction]
  by_cases hempty : (whole.isEmpty && fraction.isEmpty) = true
  · rw [if_pos hempty] at h ⊢
    exact h
  rw [if_neg hempty] at h ⊢
  obtain ⟨exponent, _, hexponent, h⟩ := bind_eq_ok.mp h
  rw [bind_ok hexponent]
  by_cases hdigits : exponent.any (·.digits.isEmpty) = true
  · rw [if_pos hdigits] at h ⊢
    exact h
  rw [if_neg hdigits] at h ⊢
  obtain ⟨suffix, _, hsuffix, h⟩ := bind_eq_ok.mp h
  obtain ⟨boundary, _, hboundary, h⟩ := bind_eq_ok.mp h
  rw [bind_ok hsuffix, bind_ok hboundary]
  by_cases hnumeral : (isSuffix suffix && boundary) = true
  · rw [if_pos hnumeral] at h
    cases h
  · rw [if_neg hnumeral] at h ⊢
    exact h

end Numeral

theorem TimeSpan.ahead_sign {sign c : Char} (hsign : isSign sign = true) (hc : isSign c = false)
    {passed text : List Char} :
    ahead ⟨passed, sign :: c :: text⟩ = ahead ⟨sign :: passed, c :: text⟩ := by
  have hfirst : (⟨passed, sign :: c :: text⟩ : Cursor).peek.any isSign = true := hsign
  have hsecond : (⟨sign :: passed, c :: text⟩ : Cursor).peek.any isSign = false := hc
  unfold ahead
  dsimp only
  rw [show (fun c ↦ c == '+' || c == '-') = isSign from rfl, hfirst, hsecond]
  rfl

namespace Number

variable {cursor middle : Cursor}

theorem scan?_eq_some {numeral : Numeral} {value : Value}
    (h : Numeral.scan? cursor = .ok (some numeral) middle)
    (hvalue : ofNumeral numeral = .ok value) : scan? cursor = .ok (some value) middle := by
  have hposition : Scan.position cursor = .ok cursor.position cursor := rfl
  rw [scan?, bind_ok hposition, bind_ok h]
  simp only [hvalue]
  rfl

end Number

namespace Lexeme

variable {localOffset : UtcOffset} {last : Option Symbol} {cursor middle next : Cursor}
  {passed body : List Char} {c : Char} {order : SortOrder}

/-- A run of digits is read as a word just if it is no literal and has no sign. -/
theorem scanDigits_eq_property_iff :
    scanDigits localOffset cursor = .ok (.plain .property) next ↔
      NoLiteral cursor ∧ cursor.peek.bind orderOfSign? = none ∧
        next = (cursor.readWhile isWordChar).2 := by
  constructor
  · intro h
    cases fromDigits_of_scanDigits h with
    | word hliteral horder => exact ⟨hliteral, horder, rfl⟩
  · rintro ⟨hliteral, horder, rfl⟩
    rw [scanDigits_of_noLiteral hliteral, scanDigitWord_eq, horder]

theorem scanWord_eq_property (h : scanWord localOffset cursor = .ok (.plain .property) next) :
    Guid.ahead cursor = false ∧ ofWord (cursor.readWhile isWordChar).1 = .plain .property ∧
      next = (cursor.readWhile isWordChar).2 := by
  cases fromWord_of_scanWord h with
  | name hguid hword hname =>
    obtain ⟨rfl, rfl⟩ := EStateM.Result.ok.inj hword
    exact ⟨hguid, hname, rfl⟩

/-- The character begins a number, or looks as if it did. -/
def beginsNumber (c : Char) : Bool :=
  Text.isDigit c || c == '.'

theorem ne_of_beginsNumber (hc : beginsNumber c = true) {other : Char}
    (hother : beginsNumber other = false) : (c == other) = false := by
  rw [beq_eq_false_iff_ne]
  rintro rfl
  rw [hc] at hother
  cases hother

theorem not_blank_of_beginsNumber (hc : beginsNumber c = true) : Text.isBlank c = false := by
  rw [beginsNumber, Bool.or_eq_true, beq_iff_eq] at hc
  obtain hdigit | rfl := hc
  · have hrange := (isDigit_iff c).mp hdigit
    simp only [Text.isBlank, Bool.or_eq_false_iff, Bool.and_eq_false_iff, beq_eq_false_iff_ne,
      decide_eq_false_iff_not]
    omega
  · decide

theorem isWordChar_of_beginsNumber (hc : beginsNumber c = true) : isWordChar c = true := by
  have hothers (others : List Char) (hothers : others.any beginsNumber = false) :
      others.contains c = false := by
    rw [List.contains_eq_mem, decide_eq_false_iff_not]
    exact fun hmem ↦ List.any_eq_false.mp hothers c hmem hc
  rw [isWordChar, isTerminator, not_blank_of_beginsNumber hc, hothers _ (by decide)]
  rfl

theorem isSign_of_beginsNumber (hc : beginsNumber c = true) : isSign c = false := by
  rw [isSign, ne_of_beginsNumber hc (by decide), ne_of_beginsNumber hc (by decide)]
  rfl

theorem peekAt_one (passed body : List Char) (c : Char) :
    (⟨passed, c :: body⟩ : Cursor).peekAt 1 = body.head? := by
  simp [Cursor.peekAt, List.head?_eq_getElem?]

theorem orderOfSign?_of_isSign (hsign : isSign c = false) : orderOfSign? c = none := by
  unfold orderOfSign?
  split
  · cases hsign
  · cases hsign
  · rfl

/-- What a character without a sign begins is a run of digits or a word. -/
theorem scan_unsigned (hword : isWordChar c = true) (hsign : isSign c = false)
    (localOffset : UtcOffset) (last : Option Symbol) (passed body : List Char) :
    scan localOffset last c ⟨passed, c :: body⟩ =
      if beginsDigits c body.head? = true then scanDigits localOffset ⟨passed, c :: body⟩
      else scanWord localOffset ⟨passed, c :: body⟩ := by
  have hne {other : Char} (hother : isWordChar other = false) : (c == other) = false := by
    rw [beq_eq_false_iff_ne]
    rintro rfl
    rw [hword] at hother
    cases hother
  have hsymbols : ∀ other ∈ symbols, isWordChar other = false := forall_mem_of_all (by decide)
  have hc : c ∉ symbols := fun hmem ↦ by simpa using hne (hsymbols c hmem)
  have hslash : c ≠ '/' := beq_eq_false_iff_ne.mp (hne (by decide))
  rw [scan_eq_scanItem hc hslash, scanItem, bind_ok (get_eq _), hne (by decide), hne (by decide),
    if_neg (by decide), if_neg (by decide), peekAt_one, orderOfSign?_of_isSign hsign]
  split
  · rfl
  · dsimp only
    rw [hne (by decide), if_neg (by decide)]

theorem scan_number (hc : beginsNumber c = true) (localOffset : UtcOffset) (last : Option Symbol)
    (passed body : List Char) :
    scan localOffset last c ⟨passed, c :: body⟩ =
      if beginsDigits c body.head? = true then scanDigits localOffset ⟨passed, c :: body⟩
      else scanWord localOffset ⟨passed, c :: body⟩ :=
  scan_unsigned (isWordChar_of_beginsNumber hc) (isSign_of_beginsNumber hc) localOffset last passed
    body

/-- Where neither digits nor a sign come first, only a GUID could be recognised. -/
theorem noLiteral_of_not_beginsDigits (hsign : isSign c = false)
    (hdigits : beginsDigits c body.head? = false)
    (hguid : Guid.ahead ⟨passed, c :: body⟩ = false) : NoLiteral ⟨passed, c :: body⟩ := by
  rw [beginsDigits, hsign, Bool.false_and, Bool.or_false, Bool.or_eq_false_iff] at hdigits
  obtain ⟨hdigit, hpoint⟩ := hdigits
  have hcount : (⟨passed, c :: body⟩ : Cursor).countAhead Text.isDigit = 0 := by
    simp [Cursor.countAhead, hdigit]
  have hzero : (c == '0') = false := by
    rw [beq_eq_false_iff_ne]
    rintro rfl
    cases hdigit
  have hfraction : Numeral.scanFraction ⟨passed, c :: body⟩ = .ok [] ⟨passed, c :: body⟩ := by
    have hfirst : Scan.nextIs (· == '.') ⟨passed, c :: body⟩ =
        .ok (c == '.') ⟨passed, c :: body⟩ := rfl
    have hsecond : Scan.secondIs Text.isDigit ⟨passed, c :: body⟩ =
        .ok (body.head?.any Text.isDigit) ⟨passed, c :: body⟩ := by
      rw [List.head?_eq_getElem?]
      rfl
    rw [Numeral.scanFraction, bind_ok hfirst, bind_ok hsecond, hpoint]
    rfl
  refine ⟨hguid, ?_, ?_, ?_, ⟨passed, c :: body⟩, ?_⟩
  · have hfirst : Scan.nextIs (· == '0') ⟨passed, c :: body⟩ =
        .ok false ⟨passed, c :: body⟩ := congrArg (EStateM.Result.ok · _) hzero
    rw [Number.hexAhead, bind_ok hfirst]
    rfl
  · have hunsigned : (⟨passed, c :: body⟩ : Cursor).peek.any (fun c ↦ c == '+' || c == '-') =
        false := hsign
    have hpass : (⟨passed, c :: body⟩ : Cursor).passOver 0 = ⟨passed, c :: body⟩ := rfl
    rw [TimeSpan.ahead, hunsigned]
    simp only [Bool.false_eq_true, if_false, hpass, hcount]
    rfl
  · rw [Moment.ahead, hcount]
    simp
  · have hread : Scan.readIf isSign ⟨passed, c :: body⟩ = .ok none ⟨passed, c :: body⟩ :=
      Scan.readIf_eq_ok (by simp [Cursor.readIf, Cursor.peek, hsign])
    have hwhole : Scan.readWhile Text.isDigit ⟨passed, c :: body⟩ =
        .ok [] ⟨passed, c :: body⟩ := by
      change EStateM.Result.ok _ _ = _
      simp [Cursor.passOver, hdigit]
    rw [Numeral.scan?, bind_ok hread, bind_ok hwhole, bind_ok hfraction]
    rfl

/-- A word is not recognised as any literal. -/
theorem scan_eq_property (hword : isWordChar c = true) (hsign : isSign c = false)
    (h : scan localOffset last c ⟨passed, c :: body⟩ = .ok (.plain .property) next) :
    NoLiteral ⟨passed, c :: body⟩ ∧
      next = ((⟨passed, c :: body⟩ : Cursor).readWhile isWordChar).2 := by
  rw [scan_unsigned hword hsign] at h
  by_cases hdigits : beginsDigits c body.head? = true
  · rw [if_pos hdigits] at h
    obtain ⟨hliteral, -, hnext⟩ := scanDigits_eq_property_iff.mp h
    exact ⟨hliteral, hnext⟩
  · rw [if_neg hdigits] at h
    obtain ⟨hguid, -, hnext⟩ := scanWord_eq_property h
    exact ⟨noLiteral_of_not_beginsDigits hsign (by simpa using hdigits) hguid, hnext⟩

theorem exists_sign_of_isSign (hsign : isSign c = true) : ∃ order : SortOrder, c = order.sign := by
  rw [isSign, Bool.or_eq_true, beq_iff_eq, beq_iff_eq] at hsign
  obtain rfl | rfl := hsign
  · exact ⟨.ascending, rfl⟩
  · exact ⟨.descending, rfl⟩

theorem beginsDigits_sign (order : SortOrder) (second : Option Char) :
    beginsDigits order.sign second = second.any beginsNumber := by
  cases order <;> rfl

/-- A sign is tried as part of a number in front of what begins like one, and is a token of its own
otherwise. -/
theorem scan_sign (localOffset : UtcOffset) (last : Option Symbol) (order : SortOrder)
    (passed body : List Char) :
    scan localOffset last order.sign ⟨passed, order.sign :: body⟩ =
      if body.head?.any beginsNumber = true then
        scanDigits localOffset ⟨passed, order.sign :: body⟩
      else .ok (.plain (.direction order)) ⟨order.sign :: passed, body⟩ := by
  have hsymbol : order.sign ∉ symbols ∧ order.sign ≠ '/' := by cases order <;> decide
  have hquotes : (order.sign == '"') = false ∧ (order.sign == '\'') = false := by
    cases order <;> decide
  have horder : orderOfSign? order.sign = some order := by cases order <;> rfl
  rw [scan_eq_scanItem hsymbol.1 hsymbol.2, scanItem, bind_ok (get_eq _), hquotes.1, hquotes.2,
    if_neg (by decide), if_neg (by decide), peekAt_one, beginsDigits_sign, horder]
  split <;> rfl

/-- Where the word behind it is neither a time span nor a numeral, a sign is split off. -/
theorem scanDigits_sign (hc : beginsNumber c = true)
    (htime : TimeSpan.ahead ⟨order.sign :: passed, c :: body⟩ = false)
    (hnumeral : Numeral.scan? ⟨order.sign :: passed, c :: body⟩ = .ok none middle) :
    scanDigits localOffset ⟨passed, order.sign :: c :: body⟩ =
      .ok (.splitSign order) ⟨order.sign :: passed, c :: body⟩ := by
  have hguid : Guid.ahead ⟨passed, order.sign :: c :: body⟩ = false := by cases order <;> rfl
  have hhex : Number.hexAhead ⟨passed, order.sign :: c :: body⟩ =
      .ok false ⟨passed, order.sign :: c :: body⟩ := by cases order <;> rfl
  have hsigned : isSign order.sign = true := by cases order <;> rfl
  have hunsigned : isSign c = false := isSign_of_beginsNumber hc
  have hspan : TimeSpan.ahead ⟨passed, order.sign :: c :: body⟩ = false := by
    rw [← htime, TimeSpan.ahead_sign hsigned hunsigned]
  have hmoment : Moment.ahead ⟨passed, order.sign :: c :: body⟩ = false := by
    cases order <;> rfl
  have hliteral : NoLiteral ⟨passed, order.sign :: c :: body⟩ :=
    ⟨hguid, hhex, hspan, hmoment, middle, Numeral.scan?_sign hsigned hunsigned hnumeral⟩
  rw [scanDigits_of_noLiteral hliteral, scanDigitWord_eq]
  cases order <;> rfl

end Lexeme

namespace Lexer

variable {localOffset : UtcOffset} {last : Option Symbol} {cursor : Cursor}
  {passed ahead blanks body text word : List Char} {c : Char} {order : SortOrder}

/-- Behind a sign that was split off, a word is read whatever it begins with. -/
theorem next_afterSplitSign (hblank : Text.isBlank c = false)
    (h : Scan.readWhile isWordChar ⟨passed, c :: ahead⟩ = .ok word cursor) :
    next ⟨⟨passed, c :: ahead⟩, localOffset, last, true⟩ =
      (.ok ((Lexeme.plain .property).token (String.ofList (cursor.textFrom passed.length))
        passed.length), ⟨cursor, localOffset, some .property, false⟩) := by
  have hlexeme : scanLexeme ⟨⟨passed, c :: ahead⟩, localOffset, last, true⟩ c
      ⟨passed, c :: ahead⟩ = .ok (.plain .property) cursor := by
    change (Scan.readWhile isWordChar >>= fun _ ↦ pure (Lexeme.plain .property)) _ = _
    rw [bind_ok h]
    rfl
  exact next_of_scanLexeme hblank hlexeme

/-- A sign and the word behind it. -/
def IsSignedWord (order : SortOrder) (text : String) (tokens : List Token) : Prop :=
  ∃ sign word, tokens = [sign, word] ∧ sign.symbol = .direction order ∧
    word.symbol = .property ∧ word.text = text

theorem isBlank_sign (order : SortOrder) : Text.isBlank order.sign = false := by
  cases order <;> decide

theorem reads_sign (order : SortOrder) :
    Reads localOffset (fun rest ↦ rest.head?.any Lexeme.beginsNumber = false)
      (IsToken (.direction order)) [order.sign] := by
  have hdenotes : Denotes localOffset (fun rest ↦ rest.head?.any Lexeme.beginsNumber = false)
      [order.sign] (.plain (.direction order)) := by
    refine ⟨order.sign, [], rfl, isBlank_sign order, fun passed rest last hrest ↦ ?_⟩
    rw [List.nil_append, Lexeme.scan_sign, hrest]
    rfl
  exact reads_lexeme hdenotes rfl

/-- A sign is split off the word behind it if that begins like a number, and the word is read on its
own. -/
theorem scan_splitSign (h : IsLone localOffset text [] c body (.plain .property) cursor)
    (hc : Lexeme.beginsNumber c = true) (order : SortOrder) (passed : List Char)
    {rest : List Char} (hrest : FollowsWord rest) (last : Option Symbol) :
    Lexeme.scan localOffset last order.sign ⟨passed, order.sign :: c :: (body ++ rest)⟩ =
        .ok (.splitSign order) ⟨order.sign :: passed, c :: (body ++ rest)⟩ ∧
      Scan.readWhile isWordChar ⟨order.sign :: passed, c :: (body ++ rest)⟩ =
        .ok ((c :: body).takeWhile isWordChar) (cursor.embed (order.sign :: passed) rest) := by
  obtain ⟨⟨-, -, htime, -, middle, hnumeral⟩, hcursor⟩ :=
    Lexeme.scan_eq_property (Lexeme.isWordChar_of_beginsNumber hc)
      (Lexeme.isSign_of_beginsNumber hc) h.scan_eq
  have hembed : (⟨[].reverse, c :: body⟩ : Cursor).embed (order.sign :: passed) rest =
      ⟨order.sign :: passed, c :: (body ++ rest)⟩ := rfl
  constructor
  · have hnospan : TimeSpan.ahead ⟨order.sign :: passed, c :: (body ++ rest)⟩ = false := by
      rw [← hembed, TimeSpan.ahead_embed hrest]
      exact htime
    have hagrees : Scan.Agrees False (order.sign :: passed) rest ⟨[].reverse, c :: body⟩
        Numeral.scan? Numeral.scan? := Numeral.agrees_scan? hrest
    have hnonumeral := (hagrees.embed none middle hnumeral).2
    rw [hembed] at hnonumeral
    rw [Lexeme.scan_sign, List.head?_cons, Option.any_some, if_pos hc,
      Lexeme.scanDigits_sign hc hnospan hnonumeral]
  · have hclass : Bars isWordChar rest := hrest.bars (by decide)
    have halone : Scan.readWhile isWordChar ⟨[].reverse, c :: body⟩ =
        .ok ((c :: body).takeWhile isWordChar) cursor := by
      rw [hcursor]
      rfl
    have hagrees : Scan.Agrees False (order.sign :: passed) rest ⟨[].reverse, c :: body⟩
        (Scan.readWhile isWordChar) (Scan.readWhile isWordChar) := Scan.agrees_readWhile hclass
    have hread := (hagrees.embed _ cursor halone).2
    rwa [hembed] at hread

/-- A sign is split off a word that begins like a number. -/
theorem reads_sign_number (h : IsLone localOffset text [] c body (.plain .property) cursor)
    (hc : Lexeme.beginsNumber c = true) (order : SortOrder) :
    Reads localOffset FollowsWord (IsSignedWord order (String.ofList (cursor.textFrom 0)))
      (order.sign :: text) := by
  intro passed rest last hrest
  have hslash : c ≠ '/' := beq_eq_false_iff_ne.mp (Lexeme.ne_of_beginsNumber hc (by decide))
  obtain ⟨hsource, -⟩ := h.scan_embed (.inl rfl) hslash passed hrest nofun last
  obtain ⟨hscan, hread⟩ := scan_splitSign h hc order passed hrest last
  have hsign := next_of_scan (isBlank_sign order) hscan
  have hplace : (order.sign :: passed).length = 0 + (order.sign :: passed).length := by simp
  have hword : next ⟨⟨order.sign :: passed, c :: (body ++ rest)⟩, localOffset,
      some (.direction order), true⟩ = _ := next_afterSplitSign h.not_blank hread
  rw [hplace, Cursor.textFrom_embed] at hword
  have hform (text : String) (first second : Nat) :
      IsSignedWord order (String.ofList (cursor.textFrom 0))
        [(Lexeme.splitSign order).token text first,
          (Lexeme.plain .property).token (String.ofList (cursor.textFrom 0)) second] :=
    ⟨_, _, rfl, rfl, rfl, rfl⟩
  have htext : (order.sign :: text).reverse ++ passed =
      text.reverse ++ (order.sign :: passed) := by simp
  have hyields (more : List Token) (hmore : Yields
      ⟨⟨text.reverse ++ (order.sign :: passed), rest⟩, localOffset, _, false⟩ more) :=
    Yields.more hsign nofun (.more hword nofun (h.yields hsource hmore))
  rw [htext, h.text_eq]
  rw [h.text_eq] at hyields
  exact ⟨_, _, hform _ _ _, by simp, hyields⟩

theorem reads_signed (h : IsLone localOffset text blanks c body (.plain .property) cursor)
    (hslash : c ≠ '/') (order : SortOrder) :
    Reads localOffset FollowsWord
      (IsSignedWord order (String.ofList (cursor.textFrom blanks.length)))
      (order.sign :: text) := by
  cases hnumber : text.head?.any Lexeme.beginsNumber with
  | true =>
    have hblanks : blanks = [] := by
      cases blanks with
      | nil => rfl
      | cons b blanks =>
        have hb : Lexeme.beginsNumber b = true := by simpa [h.text_eq] using hnumber
        have hblank := h.blanks_before b (by simp)
        rw [Lexeme.not_blank_of_beginsNumber hb] at hblank
        cases hblank
    subst hblanks
    have hc : Lexeme.beginsNumber c = true := by simpa [h.text_eq] using hnumber
    exact reads_sign_number h hc order
  | false =>
    have hfollows (rest : List Char) (_ : FollowsWord rest) :
        (text ++ rest).head?.any Lexeme.beginsNumber = false := by
      rw [List.head?_append_of_ne_nil _ (by simp [h.text_eq]), hnumber]
    have hword := reads_of_isLone h (.inl rfl) hslash fun rest (hrest : FollowsWord rest) ↦
      ⟨hrest, nofun⟩
    apply (reads_sign order).append hword hfollows
    rintro _ _ ⟨sign, rfl, hsign⟩ ⟨position, rfl⟩
    exact ⟨_, _, rfl, hsign, rfl, rfl⟩

end Lexer

end ResourceQuery
