import ResourceQuery.Proofs.WholeLiterals

/-!
# Numerals by themselves

Digits with a sign in front of them, and with a fraction and a suffix behind them, are read as just
that numeral up to the end of the text. A literal of another kind that begins with a digit or a sign
has a hyphen, a slash, a colon or an `x` somewhere behind its first character, and a numeral without
an exponent has none of these.
-/

namespace ResourceQuery

open Run

theorem isSign_of_isDigit {c : Char} (h : Text.isDigit c = true) : isSign c = false := by
  have hnumber : Lexeme.beginsNumber c = true := by
    rw [Lexeme.beginsNumber, h]
    rfl
  exact Lexeme.isSign_of_beginsNumber hnumber

/-- A text of one class does not begin with a character of another. -/
theorem bars_of_class {inClass other : Char → Bool} {text : List Char}
    (htext : ∀ c ∈ text, inClass c = true) (hclass : ∀ c, other c = true → inClass c = false) :
    Bars other text := by
  cases text with
  | nil => rfl
  | cons c rest =>
    change other c = false
    rw [← Bool.not_eq_true]
    intro hc
    have hin := htext c List.mem_cons_self
    rw [hclass c hc] at hin
    cases hin

theorem Scan.failFrom_eq {α : Type} {rest : List Char} (passed text : List Char)
    (fault : String → LexicalFault) :
    (failFrom passed.length fault : Scan α) ⟨text.reverse ++ passed, rest⟩ =
      .error (fault (String.ofList text)) ⟨text.reverse ++ passed, rest⟩ := by
  have htext : (⟨text.reverse ++ passed, rest⟩ : Cursor).textFrom passed.length = text := by
    simp [Cursor.textFrom, Cursor.position]
  change EStateM.Result.error _ _ = _
  rw [htext]

/-! ### Marks of other literals -/

section Tail

variable {text passed : List Char} {localOffset : UtcOffset} {c : Char}

theorem Cursor.mem_tail_of_peekAt {place : Nat}
    (h : (⟨passed, text⟩ : Cursor).peekAt (place + 1) = some c) : c ∈ text.tail := by
  refine List.mem_of_getElem? (i := place) ?_
  rw [List.getElem?_tail]
  exact h

theorem guidAhead_of_tail (h : '-' ∉ text.tail) : Guid.ahead ⟨passed, text⟩ = false := by
  have hhyphen : ((⟨passed, text⟩ : Cursor).peekAt 8 == some '-') = false :=
    beq_eq_false_iff_ne.mpr fun hpeek ↦ h (Cursor.mem_tail_of_peekAt hpeek)
  rw [Guid.ahead, hhyphen, Bool.and_false]

theorem hexAhead_of_tail (hlower : 'x' ∉ text.tail) (hupper : 'X' ∉ text.tail) :
    Number.hexAhead ⟨passed, text⟩ = .ok false ⟨passed, text⟩ := by
  have hsecond : ((⟨passed, text⟩ : Cursor).peekAt 1).any (fun c ↦ c == 'x' || c == 'X') =
      false := by
    rw [← Bool.not_eq_true, Option.any_eq_true]
    rintro ⟨c, hpeek, hmark⟩
    rw [Bool.or_eq_true, beq_iff_eq, beq_iff_eq] at hmark
    obtain rfl | rfl := hmark
    · exact hlower (Cursor.mem_tail_of_peekAt hpeek)
    · exact hupper (Cursor.mem_tail_of_peekAt hpeek)
  change EStateM.Result.ok (_ && Option.any _ _) _ = _
  rw [hsecond, Bool.and_false]

theorem spanAhead_of_tail (h : ':' ∉ text.tail) : TimeSpan.ahead ⟨passed, text⟩ = false := by
  have hcolon (signs digits : Nat) (hdigits : 0 < digits) :
      (((⟨passed, text⟩ : Cursor).passOver signs).peekAt digits == some ':') = false := by
    obtain ⟨digits, rfl⟩ := Nat.exists_eq_add_one.mpr hdigits
    refine beq_eq_false_iff_ne.mpr fun hpeek ↦ h ?_
    rw [Cursor.peekAt, Cursor.passOver, List.getElem?_drop, ← Nat.add_assoc] at hpeek
    exact Cursor.mem_tail_of_peekAt hpeek
  unfold TimeSpan.ahead
  dsimp only
  rw [Bool.and_eq_false_imp]
  exact fun hdigits ↦ hcolon _ _ (of_decide_eq_true hdigits)

theorem momentAhead_of_tail (hhyphen : '-' ∉ text.tail) (hslash : '/' ∉ text.tail) :
    Moment.ahead ⟨passed, text⟩ = false := by
  rw [Moment.ahead]
  generalize (⟨passed, text⟩ : Cursor).countAhead Text.isDigit = lead
  dsimp only
  split
  · next separator rest hdrop =>
    cases lead with
    | zero => exact Bool.and_false _
    | succ lead =>
      have hmem : separator ∈ text.tail := by
        refine List.mem_of_mem_drop (i := lead) ?_
        rw [← List.drop_one, List.drop_drop, Nat.add_comm, hdrop]
        exact List.mem_cons_self
      have hseparator : Moment.isSeparator separator = false := by
        rw [Moment.isSeparator, Bool.or_eq_false_iff, beq_eq_false_iff_ne, beq_eq_false_iff_ne]
        exact ⟨fun h ↦ hhyphen (h ▸ hmem), fun h ↦ hslash (h ▸ hmem)⟩
      rw [hseparator, Bool.false_and]
  · rfl

/-- Without such marks the text is tried as a number. -/
theorem Lexeme.scanDigits_of_tail (h : ∀ c ∈ ['-', '/', ':', 'x', 'X'], c ∉ text.tail) :
    scanDigits localOffset ⟨passed, text⟩ =
      (do match ← Number.scan? with
        | some value => return literal value
        | none =>
          Scan.moveTo passed.length
          scanDigitWord : Scan Lexeme) ⟨passed, text⟩ := by
  rw [scanDigits, bind_ok (get_eq _), guidAhead_of_tail (h '-' (by simp)), if_neg (by decide),
    bind_ok (hexAhead_of_tail (h 'x' (by simp)) (h 'X' (by simp))), if_neg (by decide),
    spanAhead_of_tail (h ':' (by simp)), if_neg (by decide),
    momentAhead_of_tail (h '-' (by simp)) (h '/' (by simp)), if_neg (by decide)]
  rfl

/-- Digits, and a sign in front of them, are tried as a literal of some kind. -/
theorem Lexeme.scan_eq_scanDigits {sign : Option Char} {digits rest body : List Char}
    {last : Option Symbol} (hsign : ∀ c ∈ sign, isSign c = true) (hne : digits ≠ [])
    (hdigits : ∀ c ∈ digits, Text.isDigit c = true)
    (htext : sign.toList ++ (digits ++ rest) = c :: body) :
    Text.isBlank c = false ∧ scan localOffset last c ⟨passed, c :: body⟩ =
      scanDigits localOffset ⟨passed, c :: body⟩ := by
  obtain ⟨d, digits, rfl⟩ := List.exists_cons_of_ne_nil hne
  have hdigit : Text.isDigit d = true := hdigits d List.mem_cons_self
  have hnumber : beginsNumber d = true := by simp [beginsNumber, hdigit]
  cases sign with
  | none =>
    obtain ⟨rfl, rfl⟩ := List.cons.inj htext
    refine ⟨not_blank_of_beginsNumber hnumber, ?_⟩
    rw [scan_number hnumber, if_pos (by simp [beginsDigits, hdigit])]
  | some sign =>
    obtain ⟨rfl, rfl⟩ := List.cons.inj htext
    obtain ⟨order, rfl⟩ := exists_sign_of_isSign (hsign sign rfl)
    refine ⟨Lexer.isBlank_sign order, ?_⟩
    rw [scan_sign, if_pos (by simpa using hnumber)]

end Tail

/-! ### Reading a numeral -/

namespace Numeral

open Scan Text

variable {numeral : Numeral} {passed : List Char} {localOffset : UtcOffset}

/-- A numeral as it may be written, with some digit in front of the point and without an
exponent. -/
structure IsPlain (numeral : Numeral) : Prop where
  isSign_sign : ∀ c ∈ numeral.sign, isSign c = true
  whole_ne_nil : numeral.whole ≠ []
  isDigit_whole : ∀ c ∈ numeral.whole, isDigit c = true
  isDigit_fraction : ∀ c ∈ numeral.fraction, isDigit c = true
  exponent_eq : numeral.exponent = none
  isSuffixLetter_suffix : ∀ c ∈ numeral.suffix, isSuffixLetter c = true
  length_suffix : numeral.suffix.length ≤ 2
  isSuffix_suffix : isSuffix numeral.suffix = true

def chars (numeral : Numeral) : List Char :=
  numeral.sign.toList ++ (numeral.whole ++ (afterPoint numeral.fraction ++ numeral.suffix))

theorem IsPlain.hasForm (h : numeral.IsPlain) : numeral.HasForm where
  isSign_sign := h.isSign_sign
  isDigit_whole := h.isDigit_whole
  isDigit_fraction := h.isDigit_fraction
  has_digit := .inl h.whole_ne_nil
  isSign_exponent := by simp [h.exponent_eq]
  isDigit_exponent := by simp [h.exponent_eq]
  exponent_ne_nil := by simp [h.exponent_eq]

theorem isSuffixLetter_of_isDigit {c : Char} (h : isDigit c = true) : isSuffixLetter c = false := by
  have hrange := (Lexeme.isDigit_iff c).mp h
  rw [← Bool.not_eq_true]
  intro hsuffix
  have hletter := (Lexeme.isLetter_iff c).mp (isLetter_of_isSuffixLetter hsuffix)
  omega

theorem isWordChar_of_isSuffixLetter {c : Char} (h : isSuffixLetter c = true) :
    isWordChar c = true :=
  Lexeme.isWordChar_of_isLetter (isLetter_of_isSuffixLetter h)

/-- The fraction of a numeral is read up to a character that is neither a point nor a digit. -/
theorem recovers_scanFraction {digits rest : List Char} (hdigits : ∀ c ∈ digits, isDigit c = true)
    (hpoint : Bars (· == '.') rest) (hrest : Bars isDigit rest) :
    Recovers scanFraction (afterPoint digits) digits rest := by
  cases digits with
  | nil =>
    refine recovers_look (a := false) (fun passed ↦ congrArg (EStateM.Result.ok · _) hpoint) ?_
    exact recovers_look (a := rest[1]?.any isDigit) (fun passed ↦ rfl) recovers_pure
  | cons digit digits =>
    have hsecond : isDigit digit = true := hdigits digit List.mem_cons_self
    refine recovers_look (a := true) (fun passed ↦ rfl) ?_
    refine recovers_look (a := true) (fun passed ↦ congrArg (EStateM.Result.ok · _) hsecond) ?_
    exact Recovers.bind_cons (recovers_skip ['.']) (recovers_readWhile hdigits hrest)

/-- The fraction of a second is read like that of a number. -/
theorem scanFraction_span : TimeSpan.scanFraction =
    (do return TimeSpan.nanosOfFraction (← scanFraction) : Scan Nat) := by
  funext cursor
  have hdigits : scanFraction cursor = (if (cursor.peek.any (· == '.') &&
      (cursor.peekAt 1).any isDigit) = true then do
        skip 1
        readWhile isDigit
      else pure [] : Scan (List Char)) cursor := rfl
  rw [bind_congr hdigits]
  change (if (cursor.peek.any (· == '.') && (cursor.peekAt 1).any isDigit) = true then _
    else pure 0 : Scan Nat) cursor = _
  split <;> rfl

theorem recovers_nanos {digits rest : List Char} (hdigits : ∀ c ∈ digits, isDigit c = true)
    (hpoint : Bars (· == '.') rest) (hrest : Bars isDigit rest) :
    Recovers TimeSpan.scanFraction (afterPoint digits) (TimeSpan.nanosOfFraction digits) rest := by
  rw [scanFraction_span]
  exact (recovers_scanFraction hdigits hpoint hrest).map

/-- An exponent is read if it has digits, and none if there is no mark. -/
theorem recovers_scanExponent {mark : Char} {exponent : Option Exponent} {rest : List Char}
    (hmark : isExponentMark mark = true)
    (hsign : ∀ e ∈ exponent, ∀ c ∈ e.sign, isSign c = true)
    (hdigits : ∀ e ∈ exponent, ∀ c ∈ e.digits, isDigit c = true)
    (hne : ∀ e ∈ exponent, e.digits ≠ []) (hnone : Bars isExponentMark rest)
    (hrest : Bars isDigit rest) :
    Recovers scanExponent (exponentText mark exponent) exponent rest := by
  cases exponent with
  | none =>
    refine recovers_look (a := false) (fun passed ↦ congrArg (EStateM.Result.ok · _) hnone) ?_
    exact recovers_look (a := rest[1]?.any _) (fun passed ↦ rfl) recovers_pure
  | some e =>
    obtain ⟨digit, digits, hcons⟩ := List.exists_cons_of_ne_nil (hne e rfl)
    have hdigit : isDigit digit = true := hdigits e rfl digit (hcons ▸ List.mem_cons_self)
    have hsecond : (e.sign.toList ++ e.digits ++ rest).head?.any
        (fun c ↦ isDigit c || isSign c) = true := by
      cases hfound : e.sign with
      | none => simp [hcons, hdigit]
      | some sign => simp [hsign e rfl sign hfound]
    have hunsigned : e.sign = none → Bars isSign (e.digits ++ rest) := by
      intro _
      rw [hcons]
      exact isSign_of_isDigit hdigit
    refine recovers_look (a := true) (fun passed ↦ congrArg (EStateM.Result.ok · _) hmark) ?_
    refine recovers_look (a := true) (fun passed ↦ ?_) ?_
    · rw [List.head?_eq_getElem?] at hsecond
      exact congrArg (EStateM.Result.ok · _) hsecond
    refine Recovers.bind_cons (recovers_skip [mark]) ?_
    refine (recovers_readIf_option (hsign e rfl) hunsigned).bind ?_
    exact (recovers_readWhile (hdigits e rfl) hrest).map

section Form

variable {mark : Char} {inClass : Char → Bool} {rest : List Char}

/-- A suffix does not begin with a character of another class. -/
theorem IsSuffixText.bars {letters : List Char} (h : IsSuffixText letters)
    (hclass : ∀ c, inClass c = true → Numeral.isSuffixLetter c = false)
    (hrest : Bars inClass rest) : Bars inClass (letters ++ rest) := by
  have hsuffix : Bars inClass letters := bars_of_class h.isSuffixLetter hclass
  cases letters with
  | nil => exact hrest
  | cons c letters => exact hsuffix

theorem bars_exponent {exponent : Option Exponent} (hmark : inClass mark = false)
    (hrest : Bars inClass rest) : Bars inClass (exponentText mark exponent ++ rest) := by
  cases exponent with
  | none => exact hrest
  | some exponent => exact hmark

theorem bars_afterPoint {digits : List Char} (hpoint : inClass '.' = false)
    (hrest : Bars inClass rest) : Bars inClass (afterPoint digits ++ rest) := by
  cases digits with
  | nil => exact hrest
  | cons digit digits => exact hpoint

theorem classes_of_isExponentMark {c : Char} (h : isExponentMark c = true) :
    isSuffixLetter c = false ∧ isDigit c = false ∧ (c == '.') = false ∧ isWordChar c = true := by
  rw [isExponentMark, Bool.or_eq_true, beq_iff_eq, beq_iff_eq] at h
  obtain rfl | rfl := h <;> decide

/-- Behind its sign a numeral begins with a digit or with the point. -/
theorem HasForm.bars_sign (h : numeral.HasForm) (behind : List Char) :
    Bars isSign (numeral.whole ++ (afterPoint numeral.fraction ++ behind)) := by
  cases hwhole : numeral.whole with
  | cons digit digits =>
    exact isSign_of_isDigit (h.isDigit_whole digit (hwhole ▸ List.mem_cons_self))
  | nil =>
    obtain ⟨digit, digits, hfraction⟩ :=
      List.exists_cons_of_ne_nil (h.has_digit.resolve_left (not_not.mpr hwhole))
    rw [hfraction]
    rfl

/-- A numeral is read up to where no word goes on. -/
theorem HasForm.recovers_scan? (h : numeral.HasForm) (hletters : IsSuffixText numeral.suffix)
    (hmark : isExponentMark mark = true) (hrest : Bars isWordChar rest) :
    Recovers scan? (numeral.text mark ++ numeral.suffix) (some numeral) rest := by
  have hdigit : Bars isDigit (numeral.suffix ++ rest) :=
    hletters.bars (fun _ ↦ isSuffixLetter_of_isDigit) (hrest.mono fun _ ↦ isWordChar_of_isDigit)
  have hpoint : Bars (· == '.') (numeral.suffix ++ rest) :=
    hletters.bars (fun c hc ↦ eq_of_beq hc ▸ by decide)
      (hrest.mono fun c hc ↦ eq_of_beq hc ▸ by decide)
  have hnomark : Bars isExponentMark (numeral.suffix ++ rest) :=
    hletters.bars (fun _ hc ↦ (classes_of_isExponentMark hc).1)
      (hrest.mono fun _ hc ↦ (classes_of_isExponentMark hc).2.2.2)
  obtain ⟨-, hmarkDigit, hmarkPoint, -⟩ := classes_of_isExponentMark hmark
  have hunpointed : Bars (· == '.') (exponentText mark numeral.exponent ++
      (numeral.suffix ++ rest)) := bars_exponent hmarkPoint hpoint
  have hended : Bars isDigit (exponentText mark numeral.exponent ++ (numeral.suffix ++ rest)) :=
    bars_exponent hmarkDigit hdigit
  have hsome : (numeral.whole.isEmpty && numeral.fraction.isEmpty) = false := by
    rw [Bool.and_eq_false_iff, List.isEmpty_eq_false_iff, List.isEmpty_eq_false_iff]
    exact h.has_digit
  have hcomplete : numeral.exponent.any (·.digits.isEmpty) = false := by
    rw [Option.any_eq_false]
    exact fun e he ↦ List.isEmpty_eq_false_iff.mpr (h.exponent_ne_nil e he)
  have hsuffix : Recovers (readAtMost 2 isSuffixLetter) numeral.suffix numeral.suffix rest :=
    recovers_readAtMost_of_bars hletters.length_le hletters.isSuffixLetter
      (hrest.mono fun _ ↦ isWordChar_of_isSuffixLetter)
  have htext : numeral.text mark ++ numeral.suffix = numeral.sign.toList ++ (numeral.whole ++
      (afterPoint numeral.fraction ++ (exponentText mark numeral.exponent ++ numeral.suffix))) := by
    simp only [text, List.append_assoc]
  rw [htext]
  refine (recovers_readIf_option h.isSign_sign fun _ ↦ by simpa using h.bars_sign _).bind ?_
  refine (recovers_readWhile h.isDigit_whole (by simpa using bars_afterPoint rfl hended)).bind ?_
  refine (recovers_scanFraction h.isDigit_fraction (by simpa using hunpointed)
    (by simpa using hended)).bind ?_
  rw [hsome, if_neg (by decide)]
  refine (recovers_scanExponent hmark h.isSign_exponent h.isDigit_exponent h.exponent_ne_nil hnomark
    hdigit).bind ?_
  rw [hcomplete, if_neg (by decide)]
  intro passed
  have hboundary : atBoundary ⟨numeral.suffix.reverse ++ passed, rest⟩ =
      .ok true ⟨numeral.suffix.reverse ++ passed, rest⟩ :=
    congrArg (EStateM.Result.ok · _) (Cursor.atBoundary_iff.mpr hrest)
  rw [bind_ok (hsuffix passed), hletters.isSuffix, bind_ok hboundary]
  rfl

end Form

/-- A numeral is read up to where no word goes on. -/
theorem IsPlain.recovers_scan? (h : numeral.IsPlain) {rest : List Char}
    (hrest : Bars isWordChar rest) : Recovers scan? numeral.chars (some numeral) rest := by
  have hchars : numeral.text 'e' ++ numeral.suffix = numeral.chars := by
    rw [text, h.exponent_eq, chars]
    simp [exponentText]
  rw [← hchars]
  exact h.hasForm.recovers_scan? ⟨h.isSuffixLetter_suffix, h.length_suffix, h.isSuffix_suffix⟩ rfl
    hrest

/-- A numeral is a number by its value, or a fault if it has none. -/
theorem IsPlain.scanNumber_eq (h : numeral.IsPlain) {rest : List Char}
    (hrest : Bars isWordChar rest) :
    Number.scan? ⟨passed, numeral.chars ++ rest⟩ =
      match Number.ofNumeral numeral with
      | .ok value => .ok (some value) ⟨numeral.chars.reverse ++ passed, rest⟩
      | .error fault => .error (.number (String.ofList numeral.chars) fault)
        ⟨numeral.chars.reverse ++ passed, rest⟩ := by
  have hread := h.recovers_scan? hrest passed
  have hposition : position ⟨passed, numeral.chars ++ rest⟩ =
      .ok passed.length ⟨passed, numeral.chars ++ rest⟩ := rfl
  cases hvalue : Number.ofNumeral numeral with
  | ok value => exact Number.scan?_eq_some hread hvalue
  | error fault =>
    rw [Number.scan?, bind_ok hposition, bind_ok hread]
    simp only [hvalue]
    exact failFrom_eq passed _ _

/-! ### Whole texts -/

/-- Behind the first character of a numeral there is no mark of another literal. -/
theorem IsPlain.not_mem_tail (h : numeral.IsPlain) :
    ∀ c ∈ ['-', '/', ':', 'x', 'X'], c ∉ numeral.chars.tail := by
  have hmarks : ∀ c ∈ ['-', '/', ':', 'x', 'X'], isDigit c = false ∧ isSuffixLetter c = false ∧
      c ≠ '.' := forall_mem_of_all (by decide)
  intro c hc hmem
  obtain ⟨hdigit, hletter, hpoint⟩ := hmarks c hc
  have hbehind : c ∈ numeral.whole ++ (afterPoint numeral.fraction ++ numeral.suffix) := by
    rw [chars] at hmem
    cases hsign : numeral.sign with
    | none => exact List.mem_of_mem_tail (by simpa [hsign] using hmem)
    | some sign => simpa [hsign] using hmem
  obtain hwhole | hrest := List.mem_append.mp hbehind
  · rw [h.isDigit_whole c hwhole] at hdigit
    cases hdigit
  obtain hfraction | hsuffix := List.mem_append.mp hrest
  · cases hdigits : numeral.fraction with
    | nil => simp [hdigits, afterPoint] at hfraction
    | cons digit rest =>
      rw [hdigits] at hfraction
      obtain rfl | hfraction := List.mem_cons.mp hfraction
      · exact hpoint rfl
      · rw [h.isDigit_fraction c (hdigits ▸ hfraction)] at hdigit
        cases hdigit
  · rw [h.isSuffixLetter_suffix c hsuffix] at hletter
    cases hletter

/-- A numeral as a whole text is a literal, or a fault if it has no value. -/
theorem IsPlain.scanDigits_eq (h : numeral.IsPlain) :
    Lexeme.scanDigits localOffset ⟨passed, numeral.chars⟩ =
      match Number.ofNumeral numeral with
      | .ok value => .ok (.literal value) ⟨numeral.chars.reverse ++ passed, []⟩
      | .error fault => .error (.number (String.ofList numeral.chars) fault)
        ⟨numeral.chars.reverse ++ passed, []⟩ := by
  have hread : Number.scan? ⟨passed, numeral.chars ++ []⟩ = _ :=
    h.scanNumber_eq (show Bars isWordChar [] from rfl)
  rw [List.append_nil] at hread
  rw [Lexeme.scanDigits_of_tail h.not_mem_tail]
  cases hvalue : Number.ofNumeral numeral with
  | ok value =>
    rw [hvalue] at hread
    rw [bind_ok hread]
    rfl
  | error fault =>
    rw [hvalue] at hread
    rw [bind_error hread]

theorem IsPlain.scan_eq (h : numeral.IsPlain) (localOffset : UtcOffset) :
    ∃ c body, numeral.chars = c :: body ∧ Text.isBlank c = false ∧
      Lexeme.scan localOffset none c ⟨[], c :: body⟩ =
        Lexeme.scanDigits localOffset ⟨[], numeral.chars⟩ := by
  obtain ⟨c, body, htext⟩ : ∃ c body, numeral.chars = c :: body :=
    List.exists_cons_of_ne_nil (List.append_ne_nil_of_right_ne_nil _
      (List.append_ne_nil_of_left_ne_nil h.whole_ne_nil _))
  have hscan : Text.isBlank c = false ∧ Lexeme.scan localOffset none c ⟨[], c :: body⟩ =
      Lexeme.scanDigits localOffset ⟨[], c :: body⟩ :=
    Lexeme.scan_eq_scanDigits h.isSign_sign h.whole_ne_nil h.isDigit_whole htext
  exact ⟨c, body, htext, hscan.1, htext ▸ hscan.2⟩

/-- A numeral with a value is the literal of that by itself. -/
theorem IsPlain.scansTo (h : numeral.IsPlain) {value : Value}
    (hvalue : Number.ofNumeral numeral = .ok value) :
    Lexer.ScansTo localOffset numeral.chars value := by
  obtain ⟨c, body, htext, hblank, hscan⟩ := h.scan_eq localOffset
  rw [h.scanDigits_eq, hvalue, htext] at hscan
  rw [htext]
  exact Lexer.scan_of_literal hblank hscan

end Numeral

end ResourceQuery
