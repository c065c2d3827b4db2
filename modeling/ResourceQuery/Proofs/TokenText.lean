import ResourceQuery.Proofs.NumeralForm
import ResourceQuery.Proofs.SignedWords

/-!
# The text of words and whole numbers

The text of a token is what the scanner has passed while it read the token. A word consists of
characters of words, and a whole number has neither a point nor a blank in it, in whatever notation
it is written.
-/

namespace ResourceQuery

open Run

/-- The character may stand in a segment of a path: a point ends one, and a colon stands behind the
prefix of a number only. -/
def isSegmentChar (c : Char) : Bool :=
  c != '.' && (isWordChar c || c == ':')

/-- The text has characters, and each may stand in a segment. -/
def IsSegment (segment : List Char) : Prop :=
  segment ≠ [] ∧ ∀ c ∈ segment, isSegmentChar c = true

theorem IsSegment.append {segment more : List Char} (h : IsSegment segment)
    (hmore : ∀ c ∈ more, isSegmentChar c = true) : IsSegment (segment ++ more) :=
  ⟨by simp [h.1], List.forall_mem_append.mpr ⟨h.2, hmore⟩⟩

/-! ### Characters of words and numbers -/

theorem not_blank_of_isWordChar {c : Char} (h : isWordChar c = true) : Text.isBlank c = false := by
  rw [isWordChar, isTerminator, Bool.not_eq_true', Bool.or_eq_false_iff] at h
  exact h.1

theorem isSegmentChar_of_isWordChar {c : Char} (h : isWordChar c = true) (hpoint : c ≠ '.') :
    isSegmentChar c = true := by
  simp [isSegmentChar, h, hpoint]

theorem isWordChar_of_isDigit {c : Char} (h : Text.isDigit c = true) : isWordChar c = true :=
  Lexeme.isWordChar_of_beginsNumber (by rw [Lexeme.beginsNumber, h]; rfl)

theorem isSegmentChar_of_isDigit {c : Char} (h : Text.isDigit c = true) :
    isSegmentChar c = true := by
  apply isSegmentChar_of_isWordChar (isWordChar_of_isDigit h)
  rintro rfl
  cases h

theorem isSegmentChar_of_isLetter {c : Char} (h : Text.isLetter c = true) :
    isSegmentChar c = true := by
  apply isSegmentChar_of_isWordChar (Lexeme.isWordChar_of_isLetter h)
  rintro rfl
  cases h

theorem isSegmentChar_of_isSign {c : Char} (h : isSign c = true) : isSegmentChar c = true := by
  rw [isSign, Bool.or_eq_true, beq_iff_eq, beq_iff_eq] at h
  obtain rfl | rfl := h <;> decide

namespace Text

theorem toNat_toLower (c : Char) :
    c.toLower.toNat = if 65 ≤ c.toNat ∧ c.toNat ≤ 90 then c.toNat + 32 else c.toNat := by
  unfold Char.toLower
  split
  · next hupper =>
    have hlow : 65 ≤ c.val.toNat := UInt32.le_iff_toNat_le.mp hupper.1
    have hhigh : c.val.toNat ≤ 90 := UInt32.le_iff_toNat_le.mp hupper.2
    have hcode : (c.val + ('a'.val - 'A'.val)).toNat = (c.val.toNat + 32) % 2 ^ 32 :=
      UInt32.toNat_add _ _
    rw [if_pos ⟨hlow, hhigh⟩]
    change (c.val + ('a'.val - 'A'.val)).toNat = c.val.toNat + 32
    omega
  · next hupper =>
    rw [if_neg]
    exact fun h ↦ hupper ⟨UInt32.le_iff_toNat_le.mpr h.1, UInt32.le_iff_toNat_le.mpr h.2⟩

theorem isLetter_toLower (c : Char) : isLetter c.toLower = isLetter c := by
  rw [Bool.eq_iff_iff, Lexeme.isLetter_iff, Lexeme.isLetter_iff, toNat_toLower]
  split <;> omega

theorem isHexDigit_iff (c : Char) : isHexDigit c = true ↔
    (48 ≤ c.toNat ∧ c.toNat ≤ 57) ∨ (97 ≤ c.toNat ∧ c.toNat ≤ 102) ∨
      (65 ≤ c.toNat ∧ c.toNat ≤ 70) := by
  simp [isHexDigit, isDigit, Char.le_def, UInt32.le_iff_toNat_le, or_assoc]

/-- What holds of all characters of ASCII holds of a character that is one. -/
theorem of_toNat_lt {P : Char → Prop} (h : ∀ n < 128, P (Char.ofNat n)) {c : Char}
    (hc : c.toNat < 128) : P c := by
  rw [← Char.ofNat_toNat c]
  exact h c.toNat hc

theorem of_isHexDigit {P : Char → Prop}
    (h : ∀ n < 128, isHexDigit (Char.ofNat n) = true → P (Char.ofNat n)) {c : Char}
    (hhex : isHexDigit c = true) : P c := by
  have hrange := (isHexDigit_iff c).mp hhex
  exact of_toNat_lt (P := fun c ↦ isHexDigit c = true → P c) h (by omega) hhex

theorem hexValue_lt {c : Char} (hhex : isHexDigit c = true) : hexValue c < 16 :=
  of_isHexDigit (P := fun c ↦ hexValue c < 16) (by decide) hhex

theorem isHexDigit_toLower (c : Char) : isHexDigit c.toLower = isHexDigit c := by
  rw [Bool.eq_iff_iff, isHexDigit_iff, isHexDigit_iff, toNat_toLower]
  split <;> omega

end Text

theorem isSegmentChar_of_isHexDigit {c : Char} (h : Text.isHexDigit c = true) :
    isSegmentChar c = true := by
  have hrange := (Text.isHexDigit_iff c).mp h
  obtain hdigit | hletter : Text.isDigit c = true ∨ Text.isLetter c = true := by
    rw [Lexeme.isDigit_iff, Lexeme.isLetter_iff]
    omega
  · exact isSegmentChar_of_isDigit hdigit
  · exact isSegmentChar_of_isLetter hletter

/-- Lower case changes letters only. -/
theorem toLower_eq_or_isLetter (c : Char) : c.toLower = c ∨ Text.isLetter c = true := by
  unfold Char.toLower
  split
  · next hupper =>
    have hlow := UInt32.le_iff_toNat_le.mp hupper.1
    have hhigh := UInt32.le_iff_toNat_le.mp hupper.2
    exact .inr ((Lexeme.isLetter_iff c).mpr (.inr ⟨hlow, hhigh⟩))
  · exact .inl rfl

theorem isSegmentChar_of_toLower {c : Char} (h : isSegmentChar c.toLower = true) :
    isSegmentChar c = true := by
  obtain hsame | hletter := toLower_eq_or_isLetter c
  · rwa [hsame] at h
  · exact isSegmentChar_of_isLetter hletter

theorem Numeral.isLetter_of_isSuffixLetter {c : Char} (h : isSuffixLetter c = true) :
    Text.isLetter c = true := by
  have hletters : ∀ d ∈ ['u', 'l', 'f', 'd', 'm'], Text.isLetter d = true :=
    forall_mem_of_all (by decide)
  rw [← Text.isLetter_toLower]
  exact hletters _ (List.contains_iff_mem.mp h)

theorem isSegmentChar_of_isSuffixLetter {c : Char} (h : Numeral.isSuffixLetter c = true) :
    isSegmentChar c = true :=
  isSegmentChar_of_isLetter (Numeral.isLetter_of_isSuffixLetter h)

/-! ### Whole numbers -/

open Scan Cursor

variable {cursor : Cursor}

namespace Numeral

/-- A numeral without a point and an exponent has a sign, digits and the letters of a suffix. -/
theorem isSegment_text {numeral : Numeral} (h : numeral.HasForm)
    (hletters : IsSuffixText numeral.suffix) (hreal : numeral.isReal = false) (mark : Char) :
    IsSegment (numeral.text mark ++ numeral.suffix) := by
  obtain ⟨hfraction, hexponent⟩ : numeral.fraction = [] ∧ numeral.exponent = none := by
    simpa [isReal] using hreal
  have hwhole : numeral.whole ≠ [] := h.has_digit.resolve_right (not_not.mpr hfraction)
  rw [text, hfraction, hexponent]
  constructor
  · simp [hwhole]
  · simp only [exponentText, Text.afterPoint, List.mem_append, List.not_mem_nil, or_false,
      Option.mem_toList]
    rintro c ((hc | hc) | hc)
    · exact isSegmentChar_of_isSign (h.isSign_sign c hc)
    · exact isSegmentChar_of_isDigit (h.isDigit_whole c hc)
    · exact isSegmentChar_of_isSuffixLetter (hletters.isSuffixLetter c hc)

theorem spells_segment :
    Spells cursor scan? fun found run ↦
      ∀ numeral ∈ found, run ≠ [] ∧ (numeral.isReal = false → IsSegment run) := by
  refine spells_scan?.mono fun found run hfound numeral hnumeral ↦ ?_
  obtain ⟨hform, hletters, mark, -, rfl⟩ := hfound numeral hnumeral
  exact ⟨List.append_ne_nil_of_left_ne_nil (hform.text_ne_nil mark) _,
    fun hreal ↦ isSegment_text hform hletters hreal mark⟩

end Numeral

namespace Number

theorem asReal_ne_integer (numeral : Numeral) (n : SizedInteger) :
    asDouble numeral ≠ .ok (.integer n) ∧ asFloat numeral ≠ .ok (.integer n) ∧
      asDecimal numeral ≠ .ok (.integer n) := by
  refine ⟨?_, ?_, ?_⟩
  · rw [asDouble]
    cases asFloating .binary64 "double" numeral <;> exact nofun
  · rw [asFloat]
    cases asFloating .binary32 "float" numeral <;> exact nofun
  · rw [asDecimal]
    cases decimal? numeral <;> exact nofun

/-- Only a numeral without a point and an exponent is a whole number. -/
theorem isReal_of_ofNumeral {numeral : Numeral} {n : SizedInteger}
    (h : ofNumeral numeral = .ok (.integer n)) : numeral.isReal = false := by
  obtain ⟨hdouble, hfloat, hdecimal⟩ := asReal_ne_integer numeral n
  unfold ofNumeral at h
  split at h
  all_goals first | assumption | contradiction

/-- The value, if it is a whole number, is written as a segment. -/
def IsWritten (value : Value) (run : List Char) : Prop :=
  ∀ n, value = .integer n → IsSegment run

theorem spells_scan? :
    Spells cursor scan? fun found run ↦ ∀ value ∈ found, run ≠ [] ∧ IsWritten value run := by
  have hposition : Scan.position cursor = .ok cursor.position cursor := rfl
  refine spells_look hposition (Numeral.spells_segment.bind fun found _ run hfound ↦ ?_)
  cases found with
  | none => exact spells_pure fun _ h ↦ nomatch h
  | some numeral =>
    cases hvalue : ofNumeral numeral with
    | error fault =>
      simp only [hvalue]
      exact spells_failFrom _ _
    | ok value =>
      simp only [hvalue]
      refine spells_pure ?_
      rintro _ ⟨⟩
      rw [List.append_nil]
      obtain ⟨hne, hsegment⟩ := hfound numeral rfl
      refine ⟨hne, ?_⟩
      rintro n rfl
      exact hsegment (isReal_of_ofNumeral hvalue)

/-- The marks in front of hexadecimal digits come next. -/
def HexMarked (cursor : Cursor) : Prop :=
  ∃ mark rest, cursor.ahead = '0' :: mark :: rest ∧ (mark = 'x' ∨ mark = 'X')

theorem hexMarked_of_hexAhead {next : Cursor} (h : hexAhead cursor = .ok true next) :
    HexMarked cursor ∧ next = cursor := by
  have hok : hexAhead cursor = .ok (cursor.peek.any (· == '0') &&
      (cursor.peekAt 1).any fun c ↦ c == 'x' || c == 'X') cursor := rfl
  rw [hok] at h
  obtain ⟨hboth, rfl⟩ := EStateM.Result.ok.inj h
  obtain ⟨hfirst, hsecond⟩ := Bool.and_eq_true_iff.mp hboth
  obtain ⟨passed, ahead⟩ := cursor
  match ahead, hfirst, hsecond with
  | c :: mark :: rest, hfirst, hsecond =>
    obtain rfl : c = '0' := eq_of_beq hfirst
    have hmark : (mark == 'x' || mark == 'X') = true := hsecond
    rw [Bool.or_eq_true, beq_iff_eq, beq_iff_eq] at hmark
    exact ⟨⟨mark, rest, rfl, hmark⟩, rfl⟩

theorem HexMarked.isSegment (h : HexMarked cursor) : IsSegment (cursor.ahead.take 2) := by
  obtain ⟨mark, rest, hahead, rfl | rfl⟩ := h
  · rw [hahead]
    change IsSegment ['0', 'x']
    exact ⟨by decide, forall_mem_of_all (by decide)⟩
  · rw [hahead]
    change IsSegment ['0', 'X']
    exact ⟨by decide, forall_mem_of_all (by decide)⟩

theorem spells_scanHexDigits (h : HexMarked cursor) :
    Spells cursor scanHexDigits fun _ run ↦ IsSegment run := by
  refine spells_look rfl ((spells_skip 2).bind fun _ _ lead hlead ↦ ?_)
  subst hlead
  refine (spells_readWhile Text.isHexDigit).bind fun digits _ run hdigits ↦ ?_
  obtain ⟨rfl, hdigits⟩ := hdigits
  refine spells_ite (fun _ ↦ spells_failFrom_bind) fun _ ↦ ?_
  refine spells_ite (fun _ ↦ spells_failFrom_bind) fun _ ↦ spells_pure ?_
  rw [List.append_nil]
  exact h.isSegment.append fun c hc ↦ isSegmentChar_of_isHexDigit (hdigits c hc)

theorem spells_scanHex (h : HexMarked cursor) :
    Spells cursor scanHex fun _ run ↦ IsSegment run := by
  refine spells_look rfl ((spells_scanHexDigits h).bind fun digits _ lead hlead ↦ ?_)
  refine (spells_readAtMost 2 _).bind fun suffix _ run hsuffix ↦ ?_
  obtain ⟨rfl, hsuffix, -⟩ := hsuffix
  refine spells_look rfl (spells_ite (fun _ ↦ spells_pure ?_) fun _ ↦ spells_failFrom_bind)
  rw [List.append_nil]
  refine hlead.append fun c hc ↦ ?_
  have hletters : ∀ d ∈ ['u', 'l'], isSegmentChar d = true := forall_mem_of_all (by decide)
  exact isSegmentChar_of_toLower (hletters _ (by simpa using hsuffix c hc))

theorem spells_scanTypedHex (target : NumberType) (h : HexMarked cursor) :
    Spells cursor (scanTypedHex target) fun _ run ↦ IsSegment run := by
  refine spells_look rfl ((spells_scanHexDigits h).bind fun digits _ run hrun ↦ ?_)
  refine spells_look rfl (spells_ite (fun _ ↦ ?_) fun _ ↦ spells_failFrom_bind)
  split
  · exact spells_pure (by rwa [List.append_nil])
  · exact spells_failFrom _ _

/-- A value that is read as a type is a whole number just if the type has no others. -/
theorem isInteger_of_ofTyped {target : NumberType} {numeral : Numeral} {n : SizedInteger}
    (h : ofTyped target numeral = .ok (.integer n)) : target.isInteger = true := by
  obtain ⟨hdouble, hfloat, hdecimal⟩ := asReal_ne_integer numeral n
  cases target with
  | integer type => rfl
  | float => exact absurd h hfloat
  | double => exact absurd h hdouble
  | decimal => exact absurd h hdecimal

theorem spells_scanTypedNumeral (target : NumberType) :
    Spells cursor (scanTypedNumeral target) IsWritten := by
  refine spells_look rfl (Numeral.spells_segment.bind fun found _ run hfound ↦ ?_)
  split
  · next numeral hnumeral =>
    refine spells_ite (fun _ ↦ spells_failFrom_bind) fun hreal ↦ ?_
    split
    · next value hvalue =>
      refine spells_pure fun n hn ↦ ?_
      subst hn
      rw [isInteger_of_ofTyped hvalue, Bool.and_true, Bool.not_eq_true] at hreal
      rw [List.append_nil]
      exact (hfound numeral (Option.filter_eq_some_iff.mp hnumeral).1).2 hreal
    · exact spells_failFrom _ _
  · exact spells_failFrom _ _

theorem spells_scanTyped (target : NumberType) :
    Spells cursor (scanTyped target) IsWritten := by
  intro value last hok
  obtain ⟨hex, stood, hhex, hvalue⟩ := bind_eq_ok.mp hok
  cases hex with
  | true =>
    obtain ⟨hmarked, rfl⟩ := hexMarked_of_hexAhead hhex
    obtain ⟨run, hrun, hsegment⟩ := spells_scanTypedHex target hmarked value last hvalue
    exact ⟨run, hrun, fun _ _ ↦ hsegment⟩
  | false =>
    obtain rfl : cursor = stood := (EStateM.Result.ok.inj hhex).2
    exact spells_scanTypedNumeral target value last hvalue

end Number

namespace LiteralType

/-- A word that names a type is a segment. -/
theorem isSegment_of_ofWord? {word : List Char} {type : LiteralType}
    (h : ofWord? word = some type) : IsSegment word := by
  have hnames : ∀ entry ∈ names, entry.1.toList ≠ [] ∧ entry.1.toList.all isSegmentChar = true := by
    decide
  have hsome : (names.lookup (String.ofList (Text.lowerAscii word))).isSome = true := by
    rw [ofWord?] at h
    rw [h, Option.isSome_some]
  obtain ⟨entry, hmem, hentry⟩ := List.lookup_isSome_iff.mp hsome
  obtain ⟨hne, hall⟩ := hnames entry hmem
  rw [← eq_of_beq hentry, String.toList_ofList, Text.lowerAscii] at hne hall
  refine ⟨by simpa using hne, fun c hc ↦ ?_⟩
  exact isSegmentChar_of_toLower (List.all_eq_true.mp hall _ (List.mem_map_of_mem hc))

end LiteralType

namespace Literal

variable {localOffset : UtcOffset} {mark : Nat} {n : SizedInteger} {last : Cursor}

/-- The word in front of a colon and the number behind it are segments. -/
theorem isSegment_of_scanAfterWord {word : List Char}
    (h : scanAfterWord localOffset mark word cursor = .ok (.integer n) last) :
    IsSegment word ∧ ∃ run, Between (cursor.ahead.take 1 ++ run) cursor last ∧ IsSegment run := by
  cases fromPrefix_of_scanAfterWord h with
  | typed htype hread =>
    cases fromType_of_scanTyped hread with
    | number hnumber =>
      obtain ⟨run, hrun, hwritten⟩ := Number.spells_scanTyped _ _ _ hnumber
      exact ⟨LiteralType.isSegment_of_ofWord? htype, run,
        (between_passOver cursor 1).append hrun, hwritten n rfl⟩

end Literal

/-! ### Lexemes -/

namespace Lexeme

variable {localOffset : UtcOffset} {last next : Cursor} {n : SizedInteger}

/-- A word is passed as a whole, and nothing else. -/
theorem eq_readWhile_of_scan {symbol : Option Symbol} {c : Char}
    (h : scan localOffset symbol c cursor = .ok (plain .property) last) :
    last = (cursor.readWhile isWordChar).2 := by
  cases recognised_of_scan h with
  | symbol hsymbol => exact absurd hsymbol.symbol_not_mem.1 (by simp [Lexeme.symbol])
  | digits hdigits =>
    cases hdigits
    rfl
  | word hname =>
    cases hname with
    | name _ hword => exact (EStateM.Result.ok.inj hword).2.symm

/-- The text of a whole number is a segment, the type in front of it and the colon included. -/
theorem isSegment_of_scan {symbol : Option Symbol} {c : Char}
    (h : scan localOffset symbol c cursor = .ok (literal (.integer n)) last) :
    ∃ run, Between run cursor last ∧ IsSegment run := by
  cases recognised_of_scan h with
  | symbol hsymbol => cases hsymbol
  | digits hdigits =>
    cases hdigits with
    | hex hahead hread =>
      exact Number.spells_scanHex (Number.hexMarked_of_hexAhead hahead).1 _ _ hread
    | number hread =>
      obtain ⟨run, hrun, hwritten⟩ := Number.spells_scan? _ _ hread
      exact ⟨run, hrun, (hwritten _ rfl).2 n rfl⟩
  | word hprefixed =>
    cases hprefixed with
    | @prefixed _ middle _ _ hword hcolon hread =>
      obtain ⟨hsegment, run, hrun, hnumber⟩ := Literal.isSegment_of_scanAfterWord hread
      obtain ⟨lead, hlead, rfl, -⟩ := spells_readWhile _ _ _ hword
      obtain ⟨ahead, hahead⟩ := List.head?_eq_some_iff.mp hcolon
      have hsign : ∀ c ∈ middle.ahead.take 1, isSegmentChar c = true := by
        simp [hahead, isSegmentChar]
      exact ⟨_, hlead.append hrun,
        hsegment.append (List.forall_mem_append.mpr ⟨hsign, hnumber.2⟩)⟩

end Lexeme

end ResourceQuery
