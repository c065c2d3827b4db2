import ResourceQuery.Members
import ResourceQuery.Proofs.BareNames
import ResourceQuery.Proofs.IntegerLiterals

/-!
# Segments between slashes

Behind a slash every segment of a path is recognised by itself, and so may turn out to be something
else than what it is in a dotted path: a constant, a number that no type holds, or the first field
of a date that goes on in the segments behind it. Apart from these a segment is read up to the next
slash, as a word or as a whole number.
-/

namespace ResourceQuery

open Run Lexer Grammar

/-- Decimal digits, at least one. -/
def isWholeNumber (text : List Char) : Bool :=
  !text.isEmpty && text.all Text.isDigit

/-- A segment that may stand behind another one. -/
def isPathSegment (text : List Char) : Bool :=
  Members.isIdentifier text || isWholeNumber text

/-- The words that name a value in any case of their letters. -/
def IsConstant (text : List Char) : Prop :=
  Text.lowerAscii text ∈ ["null".toList, "true".toList, "false".toList]

/-- The first of the segments is taken for the year or the month of a date. -/
inductive BeginsDate : List (List Char) → Prop
  | year {year month : List Char} {behind : List (List Char)} (hyear : isWholeNumber year = true)
      (hlength : year.length = 4) (hmonth : isWholeNumber month = true) :
      BeginsDate (year :: month :: behind)
  | month {month day year : List Char} {behind : List (List Char)}
      (hmonth : isWholeNumber month = true) (hmonthLength : month.length ≤ 2)
      (hday : isWholeNumber day = true) (hdayLength : day.length ≤ 2)
      (hyear : isWholeNumber year = true) (hyearLength : year.length = 4) :
      BeginsDate (month :: day :: year :: behind)

/-- Between slashes each of the segments is read as it is written. -/
structure IsSlashable (segments : List (List Char)) : Prop where
  noConstant : ∀ segment ∈ segments, ¬IsConstant segment
  inRange : ∀ segment ∈ segments, isWholeNumber segment = true →
    Text.ofDigits segment < twoTo 64
  noDate : ∀ behind, behind <:+ segments → ¬BeginsDate behind

/-! ### Characters of segments -/

section Segment

variable {text rest passed next : List Char} {localOffset : UtcOffset}

theorem isWholeNumber_iff : isWholeNumber text = true ↔
    text ≠ [] ∧ ∀ c ∈ text, Text.isDigit c = true := by
  simp [isWholeNumber]

theorem Members.isIdentifier_iff : Members.isIdentifier text = true ↔
    ∃ c body, text = c :: body ∧ Members.isIdentifierStart c = true ∧
      ∀ d ∈ body, Members.isIdentifierStart d = true ∨ Text.isDigit d = true := by
  cases text with
  | nil => simp [Members.isIdentifier]
  | cons c body => simp [Members.isIdentifier]

theorem Members.beginsWord_of_isIdentifierStart {c : Char}
    (h : Members.isIdentifierStart c = true) : Lexeme.beginsWord c = true := by
  rw [Members.isIdentifierStart, Bool.or_eq_true, beq_iff_eq] at h
  obtain hletter | rfl := h
  · exact Lexeme.beginsWord_of_isLetter hletter
  · decide

theorem Members.isDigit_of_isIdentifierStart {c : Char} (h : Members.isIdentifierStart c = true) :
    Text.isDigit c = false := by
  have hword := Members.beginsWord_of_isIdentifierStart h
  simp only [Lexeme.beginsWord, Bool.and_eq_true, Bool.not_eq_true'] at hword
  exact hword.1.2

theorem isWholeNumber_of_isIdentifier (h : Members.isIdentifier text = true) :
    isWholeNumber text = false := by
  obtain ⟨c, body, rfl, hc, -⟩ := Members.isIdentifier_iff.mp h
  simp [isWholeNumber, Members.isDigit_of_isIdentifierStart hc]

theorem isPathSegment_of_isIdentifier (h : Members.isIdentifier text = true) :
    isPathSegment text = true := by
  rw [isPathSegment, h, Bool.true_or]

/-- Only letters, digits and underscores stand in a segment. -/
theorem isWordChar_of_isPathSegment (h : isPathSegment text = true) :
    ∀ c ∈ text, isWordChar c = true ∧ c ∉ ['.', '-', '%', '?'] := by
  have hmarks : ∀ c ∈ ['.', '-', '%', '?'],
      Members.isIdentifierStart c = false ∧ Text.isDigit c = false := forall_mem_of_all (by decide)
  have hstart {c : Char} (hc : Members.isIdentifierStart c = true) :
      isWordChar c = true ∧ c ∉ ['.', '-', '%', '?'] := by
    refine ⟨?_, fun hmem ↦ absurd hc (by simp [hmarks c hmem])⟩
    rw [Members.isIdentifierStart, Bool.or_eq_true, beq_iff_eq] at hc
    obtain hletter | rfl := hc
    · exact Lexeme.isWordChar_of_isLetter hletter
    · decide
  have hdigit {c : Char} (hc : Text.isDigit c = true) :
      isWordChar c = true ∧ c ∉ ['.', '-', '%', '?'] :=
    ⟨isWordChar_of_isDigit hc, fun hmem ↦ absurd hc (by simp [hmarks c hmem])⟩
  rw [isPathSegment, Bool.or_eq_true, Members.isIdentifier_iff, isWholeNumber_iff] at h
  obtain ⟨c, body, rfl, hc, hbody⟩ | ⟨-, hdigits⟩ := h
  · exact List.forall_mem_cons.mpr ⟨hstart hc, fun d hd ↦ (hbody d hd).elim hstart hdigit⟩
  · exact fun c hc ↦ hdigit (hdigits c hc)

theorem ne_nil_of_isPathSegment (h : isPathSegment text = true) : text ≠ [] := by
  rintro rfl
  cases h

theorem not_blank_of_isPathSegment (h : isPathSegment text = true) :
    ∀ c ∈ text, Text.isBlank c = false :=
  fun c hc ↦ not_blank_of_isWordChar (isWordChar_of_isPathSegment h c hc).1

theorem isSegment_of_isPathSegment (h : isPathSegment text = true) : IsSegment text := by
  refine ⟨ne_nil_of_isPathSegment h, fun c hc ↦ ?_⟩
  obtain ⟨hword, hmarks⟩ := isWordChar_of_isPathSegment h c hc
  refine isSegmentChar_of_isWordChar hword ?_
  rintro rfl
  exact hmarks List.mem_cons_self

/-- What stands behind a segment: a slash, or what may follow a word. -/
def FollowsSegment (rest : List Char) : Prop :=
  ∀ c ∈ rest.head?, c ∈ '/' :: stoppers

theorem FollowsSegment.bars (h : FollowsSegment rest) {inClass : Char → Bool}
    (hclass : ('/' :: stoppers).any inClass = false) : Bars inClass rest :=
  bars_of_head h hclass

/-- Segments behind slashes. -/
def slashes (segments : List (List Char)) : List Char :=
  segments.flatMap ('/' :: ·)

theorem followsSegment_slashes (hrest : FollowsWord rest) (segments : List (List Char)) :
    FollowsSegment (slashes segments ++ rest) := by
  cases segments with
  | nil => exact fun c hc ↦ List.mem_cons_of_mem '/' (hrest c hc)
  | cons segment segments =>
    rintro _ ⟨⟩
    exact List.mem_cons_self

/-! ### Recognising a segment -/

/-- Eight hexadecimal digits and a hyphen are not found where there is no hyphen. -/
theorem guidAhead_of_segment (htext : '-' ∉ text) (hrest : FollowsSegment rest) :
    Guid.ahead ⟨passed, text ++ rest⟩ = false := by
  rw [Guid.ahead, Bool.and_eq_false_imp, beq_iff_eq, beq_eq_false_iff_ne]
  intro hcount hpeek
  have hdigits : Bars Text.isHexDigit rest := hrest.bars (by decide)
  have hhyphen : Bars (· == '-') rest := hrest.bars (by decide)
  rw [Cursor.countAhead, takeWhile_append_of_bars text hdigits] at hcount
  have hle : 8 ≤ text.length := hcount ▸ length_takeWhile_le Text.isHexDigit text
  have hplace : ((text ++ rest)[8]?).any (· == '-') = text[8]?.any (· == '-') :=
    any_getElem?_append hle hhyphen
  rw [show (text ++ rest)[8]? = some '-' from hpeek] at hplace
  obtain ⟨c, hc, hsame⟩ := Option.any_eq_true _ _ |>.mp hplace.symm
  exact htext (eq_of_beq hsame ▸ List.mem_of_getElem? hc)

/-- An identifier is a word up to what follows it. -/
theorem scanWord_segment (hword : ∀ c ∈ text, isWordChar c = true) (htext : '-' ∉ text)
    (hrest : FollowsSegment rest) :
    Lexeme.scanWord localOffset ⟨passed, text ++ rest⟩ =
      .ok (Lexeme.ofWord text) ⟨text.reverse ++ passed, rest⟩ := by
  have hread : Scan.readWhile isWordChar ⟨passed, text ++ rest⟩ =
      .ok text ⟨text.reverse ++ passed, rest⟩ :=
    Scan.recovers_readWhile hword (hrest.bars (by decide)) passed
  have hcolon : Bars (· == ':') rest := hrest.bars (by decide)
  have hparen : Lexeme.parenFollows ⟨text.reverse ++ passed, rest⟩ = false := by
    have hblank : Bars Text.isBlank rest := hrest.bars (by decide)
    have hopen : Bars (· == '(') rest := hrest.bars (by decide)
    cases rest with
    | nil => rfl
    | cons c behind =>
      have hc : Text.isBlank c = false := hblank
      have hne : (c == '(') = false := hopen
      simpa [Lexeme.parenFollows, hc] using hne
  rw [Lexeme.scanWord_of_no_colon (guidAhead_of_segment htext hrest) hread hcolon, hparen,
    if_neg (by decide)]

/-! ### Numbers -/

/-- The integer that a segment of digits spells. -/
def DecimalInteger.ofSegment (text : List Char) (h : isWholeNumber text = true) :
    DecimalInteger where
  sign := none
  digits := text
  isSign_sign := by simp
  digits_ne_nil := (isWholeNumber_iff.mp h).1
  isDigit_digits := (isWholeNumber_iff.mp h).2

theorem DecimalInteger.isPlain_ofSegment (h : isWholeNumber text = true) :
    ((ofSegment text h).numeral []).IsPlain :=
  isPlain_numeral _ ⟨_, List.mem_cons_self⟩

theorem DecimalInteger.chars_ofSegment (h : isWholeNumber text = true) :
    ((ofSegment text h).numeral []).chars = text := by
  rw [chars_numeral, List.append_nil]
  rfl

/-- Bare digits are a number just if they stay below the end of the widest type. -/
theorem ofNumeral_segment (h : isWholeNumber text = true) :
    (Text.ofDigits text < twoTo 64 ∧ ∃ n, Number.ofNumeral
        ((DecimalInteger.ofSegment text h).numeral []) = .ok (.integer n)) ∨
      (¬Text.ofDigits text < twoTo 64 ∧ ∃ fault, Number.ofNumeral
        ((DecimalInteger.ofSegment text h).numeral []) = .error fault) := by
  let types : List IntegerType := [.int32, .int64, .uint64]
  obtain ⟨target, hnumber⟩ : ∃ target, Number.ofNumeral
      ((DecimalInteger.ofSegment text h).numeral []) =
        Number.asInteger types target ((DecimalInteger.ofSegment text h).numeral []) :=
    Number.ofNumeral_eq List.mem_cons_self
  have hvalue : ((DecimalInteger.ofSegment text h).numeral []).integer =
      (Text.ofDigits text : Int) := by
    rw [DecimalInteger.integer_numeral, DecimalInteger.value, ← DecimalInteger.ofDigits_eq]
    exact Int.one_mul _
  rw [hnumber]
  by_cases hrange : Text.ofDigits text < twoTo 64
  · refine .inl ⟨hrange, ?_⟩
    have hwidest : IntegerType.uint64.Contains (Text.ofDigits text : Int) := by
      have hlow : IntegerType.uint64.lowest = 0 := by decide
      have hhigh : IntegerType.uint64.highest = (twoTo 64 : Int) - 1 := by decide
      exact ⟨by omega, by omega⟩
    rw [← hvalue] at hwidest
    have hsome : (types.find? fun type ↦ decide (type.Contains
        ((DecimalInteger.ofSegment text h).numeral []).integer)).isSome = true :=
      List.find?_isSome.mpr ⟨.uint64, by simp [types], decide_eq_true hwidest⟩
    obtain ⟨type, hfirst⟩ := Option.isSome_iff_exists.mp hsome
    have hfound : type.Contains ((DecimalInteger.ofSegment text h).numeral []).integer := by
      simpa using List.find?_some hfirst
    exact ⟨_, Number.asInteger_of_find? hfound hfirst⟩
  · refine .inr ⟨hrange, Number.asInteger_of_forall ?_⟩
    have hhighest : ∀ type ∈ types, type.highest < (twoTo 64 : Int) := by decide
    rw [hvalue]
    rintro type hmem ⟨-, hhigh⟩
    have hbound := hhighest type hmem
    omega

theorem hexAhead_of_segment (h : isWholeNumber text = true) (hrest : FollowsSegment rest) :
    Number.hexAhead ⟨passed, text ++ rest⟩ = .ok false ⟨passed, text ++ rest⟩ := by
  obtain ⟨hne, hdigits⟩ := isWholeNumber_iff.mp h
  have hsecond : (text ++ rest)[1]?.any (fun c ↦ c == 'x' || c == 'X') = false := by
    rw [any_getElem?_append (List.length_pos_iff.mpr hne) (hrest.bars (by decide)),
      ← Bool.not_eq_true, Option.any_eq_true]
    rintro ⟨c, hc, hmark⟩
    rw [Bool.or_eq_true, beq_iff_eq, beq_iff_eq] at hmark
    have hdigit := hdigits c (List.mem_of_getElem? hc)
    obtain rfl | rfl := hmark <;> cases hdigit
  change EStateM.Result.ok (_ && Option.any _ _) _ = _
  rw [show (⟨passed, text ++ rest⟩ : Cursor).peekAt 1 = (text ++ rest)[1]? from rfl, hsecond,
    Bool.and_false]

theorem spanAhead_of_segment (h : isWholeNumber text = true) (hrest : FollowsSegment rest) :
    TimeSpan.ahead ⟨passed, text ++ rest⟩ = false := by
  obtain ⟨hne, hdigits⟩ := isWholeNumber_iff.mp h
  have hcount : (⟨passed, text ++ rest⟩ : Cursor).countAhead Text.isDigit = text.length :=
    Cursor.countAhead_run hdigits (hrest.bars (by decide))
  have hunsigned : (⟨passed, text ++ rest⟩ : Cursor).peek.any (fun c ↦ c == '+' || c == '-') =
      false := by
    obtain ⟨d, digits, rfl⟩ := List.exists_cons_of_ne_nil hne
    exact isSign_of_isDigit (hdigits d List.mem_cons_self)
  have hpass : (⟨passed, text ++ rest⟩ : Cursor).passOver 0 = ⟨passed, text ++ rest⟩ := rfl
  -- the colon would have to stand behind the digits, where the segment ends
  have hcolon : ((⟨passed, text ++ rest⟩ : Cursor).peekAt text.length == some ':') = false := by
    have hbars : Bars (· == ':') rest := hrest.bars (by decide)
    rw [Cursor.peekAt, List.getElem?_append_right (Nat.le_refl _), Nat.sub_self,
      ← List.head?_eq_getElem?]
    cases rest with
    | nil => rfl
    | cons c behind =>
      have hc : (c == ':') = false := hbars
      simpa using hc
  unfold TimeSpan.ahead
  dsimp only
  rw [hunsigned, if_neg (by decide), hpass, hcount, hcolon, Bool.and_false]

/-- What a segment of digits is tried as: a date, or else a number. -/
theorem scanDigits_segment (h : isWholeNumber text = true) (hrest : FollowsSegment rest) :
    Lexeme.scanDigits localOffset ⟨passed, text ++ rest⟩ =
      if Moment.ahead ⟨passed, text ++ rest⟩ = true then
        (do return Lexeme.literal (.moment (← Moment.scan .local localOffset)) : Scan Lexeme)
          ⟨passed, text ++ rest⟩
      else match Number.ofNumeral ((DecimalInteger.ofSegment text h).numeral []) with
        | .ok value => .ok (.literal value) ⟨text.reverse ++ passed, rest⟩
        | .error fault => .error (.number (String.ofList text) fault)
          ⟨text.reverse ++ passed, rest⟩ := by
  have hhyphen : '-' ∉ text := fun hmem ↦
    absurd ((isWholeNumber_iff.mp h).2 '-' hmem) (by decide)
  rw [Lexeme.scanDigits, bind_ok (Lexeme.get_eq _), guidAhead_of_segment hhyphen hrest,
    if_neg (by decide), bind_ok (hexAhead_of_segment h hrest), if_neg (by decide),
    spanAhead_of_segment h hrest, if_neg (by decide)]
  split
  · rfl
  have hread : Number.scan? ⟨passed, ((DecimalInteger.ofSegment text h).numeral []).chars ++ rest⟩ =
      _ := (DecimalInteger.isPlain_ofSegment h).scanNumber_eq (hrest.bars (by decide))
  rw [DecimalInteger.chars_ofSegment] at hread
  cases hvalue : Number.ofNumeral ((DecimalInteger.ofSegment text h).numeral []) with
  | ok value =>
    rw [hvalue] at hread
    rw [bind_ok hread]
    rfl
  | error fault =>
    rw [hvalue] at hread
    rw [bind_error hread]

/-! ### Dates between slashes -/

section Dates

variable {day month : List Char} {behind : List (List Char)}

theorem beginsDate_cons_cons_iff : BeginsDate (month :: day :: behind) ↔
    isWholeNumber month = true ∧ isWholeNumber day = true ∧
      (month.length = 4 ∨ month.length ≤ 2 ∧ day.length ≤ 2 ∧
        ∃ year more, behind = year :: more ∧ isWholeNumber year = true ∧ year.length = 4) := by
  constructor
  · rintro (⟨hyear, hlength, hmonth⟩ | ⟨hmonth, hmonthLength, hday, hdayLength, hyear, hlength⟩)
    · exact ⟨hyear, hmonth, .inl hlength⟩
    · exact ⟨hmonth, hday, .inr ⟨hmonthLength, hdayLength, _, _, rfl, hyear, hlength⟩⟩
  · rintro ⟨hmonth, hday, hlength | ⟨hmonthLength, hdayLength, year, more, rfl, hyear, hlength⟩⟩
    · exact .year hmonth hlength hday
    · exact .month hmonth hmonthLength hday hdayLength hyear hlength

/-- At the front of a segment there are digits just if it is a number. -/
theorem any_isDigit_segment (h : isPathSegment text = true) (rest : List Char) :
    (text ++ rest).head?.any Text.isDigit = isWholeNumber text := by
  rw [isPathSegment, Bool.or_eq_true] at h
  obtain hname | hnumber := h
  · rw [isWholeNumber_of_isIdentifier hname]
    obtain ⟨c, body, rfl, hc, -⟩ := Members.isIdentifier_iff.mp hname
    exact Members.isDigit_of_isIdentifierStart hc
  · obtain ⟨hne, hdigits⟩ := isWholeNumber_iff.mp hnumber
    obtain ⟨d, digits, rfl⟩ := List.exists_cons_of_ne_nil hne
    rw [hnumber]
    exact hdigits d List.mem_cons_self

/-- The run of digits at the front of a segment is all of the segment or nothing. -/
theorem length_digits_segment (h : isPathSegment text = true) (hrest : Bars Text.isDigit rest)
    (limit : Nat) : (((text ++ rest).take limit).takeWhile Text.isDigit).length =
      if isWholeNumber text = true then min limit text.length else 0 := by
  rw [takeWhile_take_append_of_bars limit text hrest]
  split
  · next hnumber =>
    have hdigits : ∀ c ∈ text.take limit, Text.isDigit c = true :=
      fun c hc ↦ (isWholeNumber_iff.mp hnumber).2 c (List.mem_of_mem_take hc)
    rw [List.takeWhile_eq_self_iff.mpr hdigits, List.length_take]
  · next hnumber =>
    have hfirst := any_isDigit_segment h []
    rw [List.append_nil, eq_false_of_ne_true hnumber] at hfirst
    cases text with
    | nil => simp
    | cons c body =>
      have hc : Text.isDigit c = false := hfirst
      cases limit <;> simp [hc]

theorem dayAndYearAhead_iff (hday : isPathSegment day = true)
    (hbehind : ∀ segment ∈ behind, isPathSegment segment = true) (hrest : FollowsWord rest) :
    Moment.dayAndYearAhead '/' (day ++ (slashes behind ++ rest)) = true ↔
      isWholeNumber day = true ∧ day.length ≤ 2 ∧
        ∃ year more, behind = year :: more ∧ isWholeNumber year = true ∧ year.length = 4 := by
  have hdigits : Bars Text.isDigit (slashes behind ++ rest) :=
    (followsSegment_slashes hrest behind).bars (by decide)
  unfold Moment.dayAndYearAhead
  dsimp only
  rw [length_digits_segment hday hdigits]
  by_cases hnumber : isWholeNumber day = true
  case neg => simp [hnumber]
  rw [if_pos hnumber]
  have hpos : 0 < day.length := List.length_pos_iff.mpr (isWholeNumber_iff.mp hnumber).1
  by_cases hshort : day.length ≤ 2
  case neg =>
    have hlong : min 3 day.length = 3 := by omega
    simp [hlong, hshort]
  have hlength : min 3 day.length = day.length := by omega
  have hone : (day.length == 1 || day.length == 2) = true := by
    rw [Bool.or_eq_true, beq_iff_eq, beq_iff_eq]
    omega
  rw [hlength, List.drop_left, hone, Bool.true_and]
  cases behind with
  | nil =>
    have hhead : rest.head? ≠ some '/' := fun hhead ↦ absurd (hrest '/' hhead) (by decide)
    simp [slashes, hhead]
  | cons year more =>
    have hyear : isPathSegment year = true := hbehind year List.mem_cons_self
    have htail : slashes (year :: more) ++ rest = '/' :: (year ++ (slashes more ++ rest)) := by
      simp [slashes]
    have hmore : Bars Text.isDigit (slashes more ++ rest) :=
      (followsSegment_slashes hrest more).bars (by decide)
    rw [htail, List.drop_one, List.tail_cons, length_digits_segment hyear hmore]
    by_cases hnumberYear : isWholeNumber year = true
    · have hfour : min 5 year.length = 4 ↔ year.length = 4 := by omega
      simp [hnumber, hshort, hnumberYear, hfour]
    · simp [hnumberYear]

/-- A number between slashes is committed to being a date just if it begins one. -/
theorem momentAhead_iff (h : isWholeNumber month = true)
    (hbehind : ∀ segment ∈ behind, isPathSegment segment = true) (hrest : FollowsWord rest) :
    Moment.ahead ⟨passed, month ++ (slashes behind ++ rest)⟩ = true ↔
      BeginsDate (month :: behind) := by
  obtain ⟨hne, hdigits⟩ := isWholeNumber_iff.mp h
  have hcount : (⟨passed, month ++ (slashes behind ++ rest)⟩ : Cursor).countAhead Text.isDigit =
      month.length :=
    Cursor.countAhead_run hdigits ((followsSegment_slashes hrest behind).bars (by decide))
  have hpos : 0 < month.length := List.length_pos_iff.mpr hne
  unfold Moment.ahead
  dsimp only
  rw [hcount, List.drop_left]
  cases behind with
  | nil =>
    refine iff_of_false ?_ (by rintro ⟨⟩)
    cases rest with
    | nil => simp [slashes]
    | cons c rest =>
      have hstoppers : ∀ c ∈ stoppers, Moment.isSeparator c = false := forall_mem_of_all (by decide)
      simp [slashes, hstoppers c (hrest c rfl)]
  | cons day more =>
    obtain ⟨hday, hmore⟩ := List.forall_mem_cons.mp hbehind
    have htail : slashes (day :: more) ++ rest = '/' :: (day ++ (slashes more ++ rest)) := by
      simp [slashes]
    have hslash : Moment.isSeparator '/' = true := by decide
    rw [htail]
    dsimp only
    rw [hslash, Bool.true_and, Bool.or_eq_true, Bool.and_eq_true, Bool.and_eq_true,
      any_isDigit_segment hday, dayAndYearAhead_iff hday hmore hrest, beginsDate_cons_cons_iff,
      Bool.or_eq_true, beq_iff_eq, beq_iff_eq, beq_iff_eq]
    constructor
    · rintro (⟨hlength, hnumber⟩ | ⟨hlength, hnumber, hdayLength, hyear⟩)
      · exact ⟨h, hnumber, .inl hlength⟩
      · exact ⟨h, hnumber, .inr ⟨by omega, hdayLength, hyear⟩⟩
    · rintro ⟨-, hnumber, hlength | ⟨hlength, hdayLength, hyear⟩⟩
      · exact .inl ⟨hlength, hnumber⟩
      · exact .inr ⟨by omega, hnumber, hdayLength, hyear⟩

end Dates

/-! ### Segments between slashes -/

/-- In front of the segments behind it the segment is read as it is written. -/
structure FitsPath (text : List Char) (behind : List (List Char)) : Prop where
  noConstant : ¬IsConstant text
  inRange : isWholeNumber text = true → Text.ofDigits text < twoTo 64
  noDate : ¬BeginsDate (text :: behind)

theorem isSlashable_nil : IsSlashable [] where
  noConstant := List.forall_mem_nil _
  inRange := List.forall_mem_nil _
  noDate behind h := by
    obtain rfl := List.suffix_nil.mp h
    rintro ⟨⟩

theorem isSlashable_cons_iff {behind : List (List Char)} :
    IsSlashable (text :: behind) ↔ FitsPath text behind ∧ IsSlashable behind := by
  constructor
  · intro h
    obtain ⟨hconstant, hconstants⟩ := List.forall_mem_cons.mp h.noConstant
    obtain ⟨hrange, hranges⟩ := List.forall_mem_cons.mp h.inRange
    exact ⟨⟨hconstant, hrange, h.noDate _ List.suffix_rfl⟩, hconstants, hranges,
      fun more hmore ↦ h.noDate more (hmore.trans (List.suffix_cons text behind))⟩
  · rintro ⟨hfits, h⟩
    refine ⟨List.forall_mem_cons.mpr ⟨hfits.noConstant, h.noConstant⟩,
      List.forall_mem_cons.mpr ⟨hfits.inRange, h.inRange⟩, fun more hmore ↦ ?_⟩
    obtain rfl | hmore := List.suffix_cons_iff.mp hmore
    · exact hfits.noDate
    · exact h.noDate more hmore

/-- What a path may have between slashes: a word or a whole number. -/
def Lexeme.IsPart (lexeme : Lexeme) : Prop :=
  lexeme = .plain .property ∨ ∃ n, lexeme = .literal (.integer n)

section Scan

variable {behind : List (List Char)} {lexeme : Lexeme} {cursor : Cursor} {last : Option Symbol}
  {c : Char} {body : List Char}

theorem scan_identifier (h : Members.isIdentifier (c :: body) = true)
    (hrest : FollowsSegment rest) (localOffset : UtcOffset) (last : Option Symbol)
    (passed : List Char) :
    Lexeme.scan localOffset last c ⟨passed, c :: (body ++ rest)⟩ =
      .ok (Lexeme.ofWord (c :: body)) ⟨(c :: body).reverse ++ passed, rest⟩ := by
  have hchars := isWordChar_of_isPathSegment (isPathSegment_of_isIdentifier h)
  obtain ⟨_, _, hcons, hc, -⟩ := Members.isIdentifier_iff.mp h
  obtain ⟨rfl, rfl⟩ := List.cons.inj hcons
  rw [Lexeme.scan_eq_scanWord (Members.beginsWord_of_isIdentifierStart hc)]
  have hdash : '-' ∉ c :: body := fun hmem ↦ (hchars '-' hmem).2 (by simp)
  exact scanWord_segment (fun d hd ↦ (hchars d hd).1) hdash hrest

theorem scan_wholeNumber (h : isWholeNumber (c :: body) = true) :
    Lexeme.scan localOffset last c ⟨passed, c :: (body ++ rest)⟩ =
      Lexeme.scanDigits localOffset ⟨passed, c :: body ++ rest⟩ := by
  obtain ⟨hne, hdigits⟩ := isWholeNumber_iff.mp h
  have hsign : ∀ d ∈ (none : Option Char), isSign d = true := by simp
  exact (Lexeme.scan_eq_scanDigits hsign hne hdigits rfl).2

theorem ofWord_isPart_iff : (Lexeme.ofWord text).IsPart ↔ ¬IsConstant text := by
  rw [Lexeme.IsPart, Lexeme.ofWord_eq_property_iff, IsConstant, or_iff_left]
  rintro ⟨n, hn⟩
  obtain h | h | ⟨b, h⟩ := Lexeme.ofWord_cases text <;> cases h.symm.trans hn

theorem not_isConstant_of_isWholeNumber (h : isWholeNumber text = true) : ¬IsConstant text := by
  obtain ⟨hne, hdigits⟩ := isWholeNumber_iff.mp h
  obtain ⟨d, digits, rfl⟩ := List.exists_cons_of_ne_nil hne
  exact Lexeme.lowerAscii_not_mem (by simp [Lexeme.beginsNumber, hdigits d List.mem_cons_self])

theorem not_beginsDate_of_isIdentifier (h : Members.isIdentifier text = true) :
    ¬BeginsDate (text :: behind) := by
  have hnumber := isWholeNumber_of_isIdentifier h
  rintro (⟨hyear, -, -⟩ | ⟨hmonth, -, -, -, -, -⟩)
  · rw [hnumber] at hyear
    cases hyear
  · rw [hnumber] at hmonth
    cases hmonth

/-- An identifier fits in front of any segments unless it is a constant. -/
theorem fitsPath_of_isIdentifier (h : Members.isIdentifier text = true)
    (hconstant : ¬IsConstant text) (behind : List (List Char)) : FitsPath text behind where
  noConstant := hconstant
  inRange hnumber := by
    rw [isWholeNumber_of_isIdentifier h] at hnumber
    cases hnumber
  noDate := not_beginsDate_of_isIdentifier h

/-- A segment that fits is read up to the next slash. -/
theorem FitsPath.scan_eq (hfits : FitsPath (c :: body) behind)
    (h : isPathSegment (c :: body) = true)
    (hbehind : ∀ segment ∈ behind, isPathSegment segment = true) (hrest : FollowsWord rest)
    (localOffset : UtcOffset) (last : Option Symbol) (passed : List Char) :
    ∃ lexeme, lexeme.IsPart ∧
      Lexeme.scan localOffset last c ⟨passed, c :: (body ++ (slashes behind ++ rest))⟩ =
        .ok lexeme ⟨(c :: body).reverse ++ passed, slashes behind ++ rest⟩ := by
  have htail := followsSegment_slashes hrest behind
  rw [isPathSegment, Bool.or_eq_true] at h
  obtain hname | hnumber := h
  · exact ⟨_, ofWord_isPart_iff.mpr hfits.noConstant, scan_identifier hname htail _ _ _⟩
  · have hmoment : ¬Moment.ahead ⟨passed, c :: body ++ (slashes behind ++ rest)⟩ = true := by
      rw [momentAhead_iff hnumber hbehind hrest]
      exact hfits.noDate
    obtain ⟨-, n, hn⟩ | ⟨hrange, -⟩ := ofNumeral_segment hnumber
    · refine ⟨_, .inr ⟨n, rfl⟩, ?_⟩
      rw [scan_wholeNumber hnumber, scanDigits_segment hnumber htail, if_neg hmoment, hn]
    · exact absurd (hfits.inRange hnumber) hrange

/-- If a segment is read as a part of a path, it fits, and nothing else has been read. -/
theorem fitsPath_of_scan (h : isPathSegment (c :: body) = true)
    (hbehind : ∀ segment ∈ behind, isPathSegment segment = true) (hrest : FollowsWord rest)
    (hscan : Lexeme.scan localOffset last c ⟨passed, c :: (body ++ (slashes behind ++ rest))⟩ =
      .ok lexeme cursor) (hpart : lexeme.IsPart) :
    FitsPath (c :: body) behind ∧
      cursor = ⟨(c :: body).reverse ++ passed, slashes behind ++ rest⟩ := by
  have htail := followsSegment_slashes hrest behind
  rw [isPathSegment, Bool.or_eq_true] at h
  obtain hname | hnumber := h
  · rw [scan_identifier hname htail] at hscan
    obtain ⟨rfl, rfl⟩ := EStateM.Result.ok.inj hscan
    exact ⟨fitsPath_of_isIdentifier hname (ofWord_isPart_iff.mp hpart) behind, rfl⟩
  · rw [scan_wholeNumber hnumber, scanDigits_segment hnumber htail] at hscan
    by_cases hmoment : Moment.ahead ⟨passed, c :: body ++ (slashes behind ++ rest)⟩ = true
    · rw [if_pos hmoment] at hscan
      obtain ⟨moment, next, -, hpure⟩ := bind_eq_ok.mp hscan
      cases hpure
      obtain hplain | ⟨n, hn⟩ := hpart
      · cases hplain
      · cases hn
    · rw [if_neg hmoment] at hscan
      rw [momentAhead_iff hnumber hbehind hrest] at hmoment
      obtain ⟨hrange, n, hn⟩ | ⟨-, fault, hfault⟩ := ofNumeral_segment hnumber
      · rw [hn] at hscan
        obtain ⟨-, rfl⟩ := EStateM.Result.ok.inj hscan
        exact ⟨⟨not_isConstant_of_isWholeNumber hnumber, fun _ ↦ hrange, hmoment⟩, rfl⟩
      · rw [hfault] at hscan
        cases hscan

end Scan

end Segment

end ResourceQuery
