import Mathlib.Computability.RegularExpressions
import ResourceQuery.Proofs.Numerals

/-!
# The language of numerals

What may be written as a numeral is a regular language: one expression says what may stand in front
of the suffix, and one what the suffix may be. A numeral is read at a cursor just if words of the
two stand there with a boundary behind them. There is only one way to cut a text like that, so the
words are those that have been read.
-/

namespace ResourceQuery

open Run

namespace Numeral

open Text

variable {word : List Char}

/-! ### Regular expressions -/

section Expressions

variable {chars : List Char} {expression : RegularExpression Char}

/-- Any one of the characters. -/
def oneOf : List Char → RegularExpression Char
  | [] => 0
  | c :: others => .char c + oneOf others

def optional (expression : RegularExpression Char) : RegularExpression Char :=
  1 + expression

/-- Once or more often. -/
def repeated (expression : RegularExpression Char) : RegularExpression Char :=
  expression * expression.star

def signs : RegularExpression Char :=
  oneOf ['+', '-']

def digitChars : List Char :=
  ['0', '1', '2', '3', '4', '5', '6', '7', '8', '9']

def digits : RegularExpression Char :=
  repeated (oneOf digitChars)

/-- Digits with a fraction or without one, or a fraction alone. -/
def decimals : RegularExpression Char :=
  digits * optional (.char '.' * digits) + .char '.' * digits

def exponents : RegularExpression Char :=
  oneOf ['e', 'E'] * optional signs * digits

/-- What may stand in front of the suffix of a numeral. With `D` for a digit it is
`[+-]?(D+(.D+)?|.D+)([eE][+-]?D+)?`. -/
def mantissas : RegularExpression Char :=
  optional signs * decimals * optional exponents

def suffixLetters : List Char :=
  ['u', 'U', 'l', 'L', 'f', 'F', 'd', 'D', 'm', 'M']

/-- No letter, one letter, or `u` and `l` in either order, all in either case. -/
def suffixes : RegularExpression Char :=
  1 + oneOf suffixLetters +
    (oneOf ['u', 'U'] * oneOf ['l', 'L'] + oneOf ['l', 'L'] * oneOf ['u', 'U'])

theorem mem_char {c : Char} : word ∈ (RegularExpression.char c).matches' ↔ word = [c] :=
  Set.mem_singleton_iff

theorem mem_oneOf : word ∈ (oneOf chars).matches' ↔ ∃ c ∈ chars, word = [c] := by
  induction chars with
  | nil => simp [oneOf]
  | cons c others ih =>
    rw [oneOf, RegularExpression.matches'_add, Language.mem_add, mem_char, ih]
    simp

theorem mem_optional : word ∈ (optional expression).matches' ↔
    word = [] ∨ word ∈ expression.matches' := by
  rw [optional, RegularExpression.matches'_add, Language.mem_add,
    RegularExpression.matches'_epsilon, Language.mem_one]

theorem mem_star_oneOf : word ∈ (oneOf chars).star.matches' ↔ ∀ c ∈ word, c ∈ chars := by
  rw [RegularExpression.matches'_star, Language.mem_kstar]
  constructor
  · rintro ⟨words, rfl, hwords⟩ c hc
    obtain ⟨single, hsingle, hc⟩ := List.mem_flatten.mp hc
    obtain ⟨d, hd, rfl⟩ := mem_oneOf.mp (hwords single hsingle)
    rwa [List.mem_singleton.mp hc]
  · intro h
    refine ⟨word.map ([·]), by simp [← List.flatMap_def], fun single hsingle ↦ ?_⟩
    obtain ⟨c, hc, rfl⟩ := List.mem_map.mp hsingle
    exact mem_oneOf.mpr ⟨c, h c hc, rfl⟩

theorem mem_repeated_oneOf : word ∈ (repeated (oneOf chars)).matches' ↔
    word ≠ [] ∧ ∀ c ∈ word, c ∈ chars := by
  rw [repeated, RegularExpression.matches'_mul, Language.mem_mul]
  constructor
  · rintro ⟨first, hfirst, others, hothers, rfl⟩
    obtain ⟨c, hc, rfl⟩ := mem_oneOf.mp hfirst
    exact ⟨List.cons_ne_nil c others, List.forall_mem_cons.mpr ⟨hc, mem_star_oneOf.mp hothers⟩⟩
  · rintro ⟨hne, h⟩
    obtain ⟨c, others, rfl⟩ := List.exists_cons_of_ne_nil hne
    obtain ⟨hc, hothers⟩ := List.forall_mem_cons.mp h
    exact ⟨[c], mem_oneOf.mpr ⟨c, hc, rfl⟩, others, mem_star_oneOf.mpr hothers, rfl⟩

end Expressions

/-! ### Classes of characters -/

theorem isDigit_iff_mem (c : Char) : isDigit c = true ↔ c ∈ digitChars := by
  constructor
  · intro h
    have hrange := (Lexeme.isDigit_iff c).mp h
    exact of_toNat_lt (P := fun c ↦ isDigit c = true → c ∈ digitChars) (by decide) (by omega) h
  · have hclass : ∀ d ∈ digitChars, isDigit d = true := forall_mem_of_all (by decide)
    exact hclass c

theorem isSign_iff_mem (c : Char) : isSign c = true ↔ c ∈ ['+', '-'] := by
  simp [isSign]

theorem isExponentMark_iff_mem (c : Char) : isExponentMark c = true ↔ c ∈ ['e', 'E'] := by
  simp [isExponentMark]

theorem isSuffixLetter_iff_mem (c : Char) : isSuffixLetter c = true ↔ c ∈ suffixLetters := by
  constructor
  · intro h
    have hletter := (Lexeme.isLetter_iff c).mp (isLetter_of_isSuffixLetter h)
    exact of_toNat_lt (P := fun c ↦ isSuffixLetter c = true → c ∈ suffixLetters) (by decide)
      (by omega) h
  · have hclass : ∀ d ∈ suffixLetters, isSuffixLetter d = true := forall_mem_of_all (by decide)
    exact hclass c

/-! ### Words of the expressions -/

theorem mem_signs : word ∈ (optional signs).matches' ↔
    ∃ sign : Option Char, (∀ c ∈ sign, isSign c = true) ∧ word = sign.toList := by
  rw [mem_optional, signs, mem_oneOf]
  constructor
  · rintro (rfl | ⟨c, hc, rfl⟩)
    · exact ⟨none, nofun, rfl⟩
    · refine ⟨some c, ?_, rfl⟩
      rintro _ ⟨⟩
      exact (isSign_iff_mem c).mpr hc
  · rintro ⟨_ | c, hsign, rfl⟩
    · exact .inl rfl
    · exact .inr ⟨c, (isSign_iff_mem c).mp (hsign c rfl), rfl⟩

theorem mem_digits : word ∈ digits.matches' ↔ word ≠ [] ∧ ∀ c ∈ word, isDigit c = true := by
  simp only [digits, mem_repeated_oneOf, isDigit_iff_mem]

theorem mem_pointed : word ∈ (RegularExpression.char '.' * digits).matches' ↔
    ∃ fraction, fraction ≠ [] ∧ (∀ c ∈ fraction, isDigit c = true) ∧
      word = afterPoint fraction := by
  rw [RegularExpression.matches'_mul, Language.mem_mul]
  constructor
  · rintro ⟨_, hpoint, fraction, hfraction, rfl⟩
    obtain rfl := mem_char.mp hpoint
    obtain ⟨hne, hdigits⟩ := mem_digits.mp hfraction
    obtain ⟨digit, others, rfl⟩ := List.exists_cons_of_ne_nil hne
    exact ⟨_, hne, hdigits, rfl⟩
  · rintro ⟨fraction, hne, hdigits, rfl⟩
    obtain ⟨digit, others, rfl⟩ := List.exists_cons_of_ne_nil hne
    exact ⟨['.'], mem_char.mpr rfl, _, mem_digits.mpr ⟨hne, hdigits⟩, rfl⟩

theorem mem_decimals : word ∈ decimals.matches' ↔
    ∃ whole fraction, (∀ c ∈ whole, isDigit c = true) ∧ (∀ c ∈ fraction, isDigit c = true) ∧
      (whole ≠ [] ∨ fraction ≠ []) ∧ word = whole ++ afterPoint fraction := by
  rw [decimals, RegularExpression.matches'_add, Language.mem_add, RegularExpression.matches'_mul,
    Language.mem_mul, mem_pointed]
  constructor
  · rintro (⟨whole, hwhole, behind, hbehind, rfl⟩ | ⟨fraction, hne, hfraction, rfl⟩)
    · obtain ⟨hne, hwhole⟩ := mem_digits.mp hwhole
      obtain rfl | hbehind := mem_optional.mp hbehind
      · exact ⟨whole, [], hwhole, List.forall_mem_nil _, .inl hne, rfl⟩
      · obtain ⟨fraction, -, hfraction, rfl⟩ := mem_pointed.mp hbehind
        exact ⟨whole, fraction, hwhole, hfraction, .inl hne, rfl⟩
    · exact ⟨[], fraction, List.forall_mem_nil _, hfraction, .inr hne, rfl⟩
  · rintro ⟨whole, fraction, hwhole, hfraction, hdigit, rfl⟩
    by_cases hne : whole = []
    · subst hne
      exact .inr ⟨fraction, hdigit.resolve_left (not_not.mpr rfl), hfraction, rfl⟩
    · refine .inl ⟨whole, mem_digits.mpr ⟨hne, hwhole⟩, _, mem_optional.mpr ?_, rfl⟩
      by_cases hpoint : fraction = []
      · exact .inl (afterPoint_eq_nil_iff.mpr hpoint)
      · exact .inr (mem_pointed.mpr ⟨fraction, hpoint, hfraction, rfl⟩)

theorem mem_exponents : word ∈ exponents.matches' ↔
    ∃ mark exponent, isExponentMark mark = true ∧
      (∀ c ∈ exponent.sign, isSign c = true) ∧ exponent.digits ≠ [] ∧
      (∀ c ∈ exponent.digits, isDigit c = true) ∧ word = exponentText mark (some exponent) := by
  simp only [exponents, RegularExpression.matches'_mul, Language.mem_mul, mem_oneOf]
  constructor
  · rintro ⟨_, ⟨_, ⟨mark, hmark, rfl⟩, _, hfirst, rfl⟩, digits, hlast, rfl⟩
    obtain ⟨sign, hsign, rfl⟩ := mem_signs.mp hfirst
    obtain ⟨hne, hdigits⟩ := mem_digits.mp hlast
    exact ⟨mark, ⟨sign, digits⟩, (isExponentMark_iff_mem mark).mpr hmark, hsign, hne, hdigits, rfl⟩
  · rintro ⟨mark, exponent, hmark, hsign, hne, hdigits, rfl⟩
    exact ⟨_, ⟨_, ⟨mark, (isExponentMark_iff_mem mark).mp hmark, rfl⟩, _,
      mem_signs.mpr ⟨exponent.sign, hsign, rfl⟩, rfl⟩, _, mem_digits.mpr ⟨hne, hdigits⟩, rfl⟩

/-- The words of the first expression are what stands in front of the suffix of some numeral,
whatever the suffix is. -/
theorem mem_mantissas (suffix : List Char) : word ∈ mantissas.matches' ↔
    ∃ (mark : Char) (numeral : Numeral), isExponentMark mark = true ∧ numeral.HasForm ∧
      numeral.suffix = suffix ∧ word = numeral.text mark := by
  rw [mantissas, RegularExpression.matches'_mul, Language.mem_mul]
  simp only [RegularExpression.matches'_mul, Language.mem_mul]
  constructor
  · rintro ⟨_, ⟨_, hfirst, _, hsecond, rfl⟩, _, hthird, rfl⟩
    obtain ⟨sign, hsign, rfl⟩ := mem_signs.mp hfirst
    obtain ⟨whole, fraction, hwhole, hfraction, hdigit, rfl⟩ := mem_decimals.mp hsecond
    obtain rfl | hexponent := mem_optional.mp hthird
    · refine ⟨'e', ⟨sign, whole, fraction, none, suffix⟩, rfl, ?_, rfl,
        by simp [text, exponentText]⟩
      exact ⟨hsign, hwhole, hfraction, hdigit, by simp, by simp, by simp⟩
    · obtain ⟨mark, exponent, hmark, hexponentSign, hne, hdigits, rfl⟩ := mem_exponents.mp hexponent
      refine ⟨mark, ⟨sign, whole, fraction, some exponent, suffix⟩, hmark, ?_, rfl, by simp [text]⟩
      refine ⟨hsign, hwhole, hfraction, hdigit, ?_, ?_, ?_⟩ <;> rintro _ ⟨⟩ <;> assumption
  · rintro ⟨mark, numeral, hmark, h, -, rfl⟩
    refine ⟨_, ⟨_, mem_signs.mpr ⟨numeral.sign, h.isSign_sign, rfl⟩, _, mem_decimals.mpr
      ⟨numeral.whole, numeral.fraction, h.isDigit_whole, h.isDigit_fraction, h.has_digit, rfl⟩,
      rfl⟩, exponentText mark numeral.exponent, mem_optional.mpr ?_, by simp [text]⟩
    cases hexponent : numeral.exponent with
    | none => exact .inl rfl
    | some e =>
      exact .inr (mem_exponents.mpr ⟨mark, e, hmark, h.isSign_exponent e hexponent,
        h.exponent_ne_nil e hexponent, h.isDigit_exponent e hexponent, rfl⟩)

theorem isSuffix_pair_iff {c d : Char} (hc : c ∈ suffixLetters) (hd : d ∈ suffixLetters) :
    isSuffix [c, d] = true ↔
      c ∈ ['u', 'U'] ∧ d ∈ ['l', 'L'] ∨ c ∈ ['l', 'L'] ∧ d ∈ ['u', 'U'] := by
  have hlower : ∀ c ∈ suffixLetters,
      (c ∈ ['u', 'U'] ↔ c.toLower = 'u') ∧ (c ∈ ['l', 'L'] ↔ c.toLower = 'l') :=
    forall_mem_of_all (by decide)
  obtain ⟨hcu, hcl⟩ := hlower c hc
  obtain ⟨hdu, hdl⟩ := hlower d hd
  rw [hcu, hcl, hdu, hdl]
  simp [isSuffix, lowerAscii]

/-- The words of the second expression are the suffixes that may be written. -/
theorem mem_suffixes : word ∈ suffixes.matches' ↔ IsSuffixText word := by
  have hletters : ∀ c ∈ suffixLetters, isSuffixLetter c = true := forall_mem_of_all (by decide)
  have hmem : ∀ c, c ∈ ['u', 'U'] ∨ c ∈ ['l', 'L'] → c ∈ suffixLetters := by
    rintro c (hc | hc)
    · exact forall_mem_of_all (P := (· ∈ suffixLetters)) (by decide) c hc
    · exact forall_mem_of_all (P := (· ∈ suffixLetters)) (by decide) c hc
  have htwo {c d : Char} (hc : c ∈ suffixLetters) (hd : d ∈ suffixLetters)
      (h : isSuffix [c, d] = true) : IsSuffixText [c, d] :=
    ⟨List.forall_mem_cons.mpr ⟨hletters c hc, List.forall_mem_singleton.mpr (hletters d hd)⟩,
      le_refl 2, h⟩
  simp only [suffixes, RegularExpression.matches'_add, RegularExpression.matches'_mul,
    RegularExpression.matches'_epsilon, Language.mem_add, Language.mem_mul, Language.mem_one,
    mem_oneOf]
  constructor
  · rintro ((rfl | ⟨c, hc, rfl⟩) | ⟨_, ⟨c, hc, rfl⟩, _, ⟨d, hd, rfl⟩, rfl⟩ |
      ⟨_, ⟨c, hc, rfl⟩, _, ⟨d, hd, rfl⟩, rfl⟩)
    · exact ⟨List.forall_mem_nil _, Nat.zero_le 2, rfl⟩
    · exact ⟨List.forall_mem_singleton.mpr (hletters c hc), Nat.le_succ 1, rfl⟩
    · have hc' := hmem c (.inl hc)
      have hd' := hmem d (.inr hd)
      exact htwo hc' hd' ((isSuffix_pair_iff hc' hd').mpr (.inl ⟨hc, hd⟩))
    · have hc' := hmem c (.inr hc)
      have hd' := hmem d (.inl hd)
      exact htwo hc' hd' ((isSuffix_pair_iff hc' hd').mpr (.inr ⟨hc, hd⟩))
  · rintro ⟨hclass, hlength, hsuffix⟩
    match word with
    | [] => exact .inl (.inl rfl)
    | [c] => exact .inl (.inr ⟨c, (isSuffixLetter_iff_mem c).mp (hclass c (by simp)), rfl⟩)
    | [c, d] =>
      have hc := (isSuffixLetter_iff_mem c).mp (hclass c (by simp))
      have hd := (isSuffixLetter_iff_mem d).mp (hclass d (by simp))
      obtain ⟨hc, hd⟩ | ⟨hc, hd⟩ := (isSuffix_pair_iff hc hd).mp hsuffix
      · exact .inr (.inl ⟨[c], ⟨c, hc, rfl⟩, [d], ⟨d, hd, rfl⟩, rfl⟩)
      · exact .inr (.inr ⟨[c], ⟨c, hc, rfl⟩, [d], ⟨d, hd, rfl⟩, rfl⟩)
    | _ :: _ :: _ :: _ => exact absurd hlength (by simp)

/-! ### Reading words -/

/-- The character is written in numerals with a fraction or an exponent only. -/
def isRealMark (c : Char) : Bool :=
  c == '.' || isExponentMark c

theorem isRealMark_of_isDigit {c : Char} (h : isDigit c = true) : isRealMark c = false :=
  forall_mem_of_all (P := fun c ↦ isRealMark c = false) (by decide) c ((isDigit_iff_mem c).mp h)

theorem isRealMark_of_isSign {c : Char} (h : isSign c = true) : isRealMark c = false :=
  forall_mem_of_all (P := fun c ↦ isRealMark c = false) (by decide) c ((isSign_iff_mem c).mp h)

theorem HasForm.isReal_eq {numeral : Numeral} {mark : Char} (h : numeral.HasForm)
    (hmark : isExponentMark mark = true) : numeral.isReal = (numeral.text mark).any isRealMark := by
  have hsign : numeral.sign.toList.any isRealMark = false := List.any_eq_false.mpr fun c hc ↦
    Bool.eq_false_iff.mp (isRealMark_of_isSign (h.isSign_sign c (Option.mem_toList.mp hc)))
  have hwhole : numeral.whole.any isRealMark = false := List.any_eq_false.mpr fun c hc ↦
    Bool.eq_false_iff.mp (isRealMark_of_isDigit (h.isDigit_whole c hc))
  have hfraction : (afterPoint numeral.fraction).any isRealMark = !numeral.fraction.isEmpty := by
    cases numeral.fraction <;> rfl
  have hexponent :
      (exponentText mark numeral.exponent).any isRealMark = numeral.exponent.isSome := by
    cases numeral.exponent with
    | none => rfl
    | some e => simp [exponentText, isRealMark, hmark]
  rw [text, List.any_append, List.any_append, List.any_append, hsign, hwhole, hfraction, hexponent,
    Bool.false_or, Bool.false_or, isReal]

/-- What has been read of a numeral, by its characters: what stands in front of the suffix, the
suffix, and whether a point or the mark of an exponent stands there. -/
structure Written where
  text : List Char
  suffix : List Char
  isReal : Bool
  deriving DecidableEq, Repr

/-- Reads a numeral by its characters. -/
def scanWritten : Scan (Option Written) := do
  let mark ← Scan.position
  let some numeral ← scan? | return none
  let run := (← get).textFrom mark
  return some ⟨run.take (run.length - numeral.suffix.length), numeral.suffix, numeral.isReal⟩

section Reading

variable {cursor last : Cursor} {numeral : Numeral} {written : Written} {front : List Char}

theorem scanWritten_eq_none (h : scan? cursor = .ok none last) :
    scanWritten cursor = .ok none last := by
  have hposition : Scan.position cursor = .ok cursor.position cursor := rfl
  rw [scanWritten, bind_ok hposition, bind_ok h]
  rfl

theorem scanWritten_eq_some (h : scan? cursor = .ok (some numeral) last)
    (hrun : Cursor.Between (front ++ numeral.suffix) cursor last) :
    scanWritten cursor = .ok (some ⟨front, numeral.suffix, numeral.isReal⟩) last := by
  have hposition : Scan.position cursor = .ok cursor.position cursor := rfl
  have hfront : (front ++ numeral.suffix).take
      ((front ++ numeral.suffix).length - numeral.suffix.length) = front := by
    rw [List.length_append, Nat.add_sub_cancel, List.take_left]
  rw [scanWritten, bind_ok hposition, bind_ok h]
  dsimp only
  rw [bind_ok (Lexeme.get_eq last), hrun.textFrom_eq, hfront]
  rfl

/-- The words of the two expressions are read wherever a boundary stands behind them, and nothing
else is. -/
theorem scanWritten_eq_some_iff : scanWritten cursor = .ok (some written) last ↔
    written.text ∈ mantissas.matches' ∧ written.suffix ∈ suffixes.matches' ∧
      written.isReal = written.text.any isRealMark ∧
      Cursor.Between (written.text ++ written.suffix) cursor last ∧ last.atBoundary = true := by
  constructor
  · intro h
    obtain ⟨_, _, hposition, hread⟩ := bind_eq_ok.mp h
    obtain ⟨rfl, rfl⟩ := EStateM.Result.ok.inj hposition
    obtain ⟨found, middle, hscan, hread⟩ := bind_eq_ok.mp hread
    cases found with
    | none => cases hread
    | some numeral =>
      obtain ⟨run, hrun, hfound⟩ := spells_scan? (some numeral) middle hscan
      obtain ⟨hform, hletters, mark, hmark, rfl⟩ := hfound numeral rfl
      rw [scanWritten_eq_some hscan hrun] at h
      cases h
      exact ⟨(mem_mantissas _).mpr ⟨mark, numeral, hmark, hform, rfl, rfl⟩,
        mem_suffixes.mpr hletters, hform.isReal_eq hmark, hrun, atBoundary_of_scan? hscan⟩
  · obtain ⟨front, suffix, isReal⟩ := written
    rintro ⟨hfront, hsuffix, hreal, hrun, hboundary⟩
    obtain rfl : isReal = front.any isRealMark := hreal
    obtain ⟨mark, numeral, hmark, hform, rfl, rfl⟩ := (mem_mantissas suffix).mp hfront
    have hread := hform.recovers_scan? (mem_suffixes.mp hsuffix) hmark
      (Cursor.atBoundary_iff.mp hboundary) cursor.passed
    rw [← hrun.ahead, ← hrun.passed] at hread
    rw [scanWritten_eq_some hread hrun, hform.isReal_eq hmark]

end Reading

end Numeral

end ResourceQuery
