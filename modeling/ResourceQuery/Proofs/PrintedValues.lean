import Mathlib.Tactic.SplitIfs
import ResourceQuery.Proofs.Lexing
import ResourceQuery.Query.Printer

/-!
# The texts of values

What is printed for a value has no percent sign and no blank at its two ends, so the preparation of
a query leaves it alone wherever it stands. Numbers, times and codes are made of plain characters
only, and Base64 of these, slashes and equals signs; in a quoted text, which may have blanks inside,
the percent sign is escaped.
-/

namespace ResourceQuery.Text

variable {text a b : List Char} {c : Char}

/-- The character is a letter, a digit or one of the signs in numbers, times and codes. -/
def isPlain (c : Char) : Bool :=
  isLetter c || isDigit c || ['+', '-', '.', ':'].contains c

/-- Every character of the text is plain. -/
def IsPlain (text : List Char) : Prop :=
  ∀ c ∈ text, isPlain c = true

instance (text : List Char) : Decidable (IsPlain text) :=
  decidable_of_iff (text.all isPlain = true) List.all_eq_true

@[simp] theorem isPlain_nil : IsPlain [] := nofun

@[simp] theorem isPlain_cons : IsPlain (c :: text) ↔ isPlain c = true ∧ IsPlain text :=
  List.forall_mem_cons

@[simp] theorem isPlain_append : IsPlain (a ++ b) ↔ IsPlain a ∧ IsPlain b :=
  List.forall_mem_append

theorem IsPlain.subset (h : IsPlain b) (hsubset : a ⊆ b) : IsPlain a :=
  fun c hc ↦ h c (hsubset hc)

theorem IsPlain.percent_not_mem (h : IsPlain text) : '%' ∉ text :=
  fun hmem ↦ absurd (h '%' hmem) (by decide)

/-- What is not plain is not among plain characters. -/
theorem not_mem_of_isPlain (h : isPlain c = true) {others : List Char}
    (hothers : others.any isPlain = false) : c ∉ others :=
  fun hmem ↦ List.any_eq_false.mp hothers c hmem h

theorem not_blank_of_isPlain (h : isPlain c = true) : isBlank c = false := by
  have hsigns : ∀ c ∈ ['+', '-', '.', ':'], isBlank c = false := forall_mem_of_all (by decide)
  rw [isPlain, Bool.or_eq_true, Bool.or_eq_true, List.contains_iff_mem] at h
  obtain (hletter | hdigit) | hsign := h
  · exact Lexeme.not_blank_of_isLetter hletter
  · have hrange := (Lexeme.isDigit_iff c).mp hdigit
    simp only [isBlank, Bool.or_eq_false_iff, Bool.and_eq_false_iff, beq_eq_false_iff_ne,
      decide_eq_false_iff_not]
    omega
  · exact hsigns c hsign

/-- The text neither begins nor ends with a blank. -/
structure NoBlankEnds (text : List Char) : Prop where
  front : ∀ c ∈ text.head?, isBlank c = false
  back : ∀ c ∈ text.getLast?, isBlank c = false

theorem NoBlankEnds.append (ha : NoBlankEnds a) (hb : NoBlankEnds b) : NoBlankEnds (a ++ b) := by
  constructor
  · intro c hc
    rw [List.head?_append] at hc
    obtain hc | ⟨-, hc⟩ := Option.or_eq_some_iff.mp hc
    · exact ha.front c hc
    · exact hb.front c hc
  · intro c hc
    rw [List.getLast?_append] at hc
    obtain hc | ⟨-, hc⟩ := Option.or_eq_some_iff.mp hc
    · exact hb.back c hc
    · exact ha.back c hc

/-- What stands between two texts is at neither end. -/
theorem NoBlankEnds.around (ha : NoBlankEnds a) (hb : NoBlankEnds b) (hane : a ≠ []) (hbne : b ≠ [])
    (middle : List Char) : NoBlankEnds (a ++ middle ++ b) := by
  constructor
  · intro c hc
    rw [List.append_assoc, List.head?_append_of_ne_nil _ hane] at hc
    exact ha.front c hc
  · intro c hc
    rw [List.getLast?_append_of_ne_nil _ hbne] at hc
    exact hb.back c hc

theorem noBlankEnds_of_not_blank (h : ∀ c ∈ text, isBlank c = false) : NoBlankEnds text :=
  ⟨fun c hc ↦ h c (List.mem_of_head? hc), fun c hc ↦ h c (List.mem_of_getLast? hc)⟩

theorem IsPlain.noBlankEnds (h : IsPlain text) : NoBlankEnds text :=
  noBlankEnds_of_not_blank fun c hc ↦ not_blank_of_isPlain (h c hc)

/-! ### Digits -/

theorem isPlain_digitChar {n : Nat} (h : n < 16) : isPlain n.digitChar = true :=
  (by decide : ∀ n < 16, isPlain n.digitChar = true) n h

@[simp] theorem isPlain_decimal (n : Nat) : IsPlain (decimal n) := by
  induction n using decimal.induct with
  | case1 n h =>
    rw [decimal, if_pos h]
    simpa using isPlain_digitChar (by omega)
  | case2 n h ih =>
    rw [decimal, if_neg h]
    simpa [ih] using isPlain_digitChar (by omega)

@[simp] theorem isPlain_decimalInt (n : Int) : IsPlain (decimalInt n) := by
  unfold decimalInt
  split
  · simp [(by decide : isPlain '-' = true)]
  · simp

@[simp] theorem isPlain_decimalPadded (width n : Nat) : IsPlain (decimalPadded width n) := by
  have hzeros : IsPlain (List.replicate (width - (decimal n).length) '0') := by
    intro c hc
    rw [List.eq_of_mem_replicate hc]
    decide
  exact isPlain_append.mpr ⟨hzeros, isPlain_decimal n⟩

@[simp] theorem isPlain_decimalPlaces (places n : Nat) : IsPlain (decimalPlaces places n) := by
  have hdigits := isPlain_decimalPadded (places + 1) n
  unfold decimalPlaces
  dsimp only
  split
  · exact hdigits
  · refine isPlain_append.mpr ⟨hdigits.subset (List.take_subset _ _), isPlain_cons.mpr ⟨?_, ?_⟩⟩
    · decide
    · exact hdigits.subset (List.drop_subset _ _)

@[simp] theorem isPlain_hexadecimal (width n : Nat) : IsPlain (hexadecimal width n) := by
  induction width generalizing n with
  | zero => exact isPlain_nil
  | succ width ih => simpa [hexadecimal, ih] using isPlain_digitChar (Nat.mod_lt n (by omega))

end ResourceQuery.Text

namespace ResourceQuery

open Text

/-! ### Codes and times -/

theorem Guid.isPlain_hyphenate (widths : List Nat) {digits : List Char} (h : IsPlain digits) :
    IsPlain (hyphenate widths digits) := by
  induction widths, digits using hyphenate.induct with
  | case1 digits => exact isPlain_nil
  | case2 width digits => exact h.subset (List.take_subset _ _)
  | case3 width widths digits hne ih =>
    have hfirst : IsPlain (digits.take width) := h.subset (List.take_subset _ _)
    have hrest := ih (h.subset (List.drop_subset _ _))
    rw [hyphenate]
    · exact isPlain_append.mpr ⟨hfirst, isPlain_cons.mpr ⟨by decide, hrest⟩⟩
    · exact hne

/-- The characters of Base64 that are not plain. -/
def Base64.signs : List Char := ['/', '=']

theorem Base64.isPlain_or_mem_symbol (n : Nat) : isPlain (symbol n) = true ∨ symbol n ∈ signs := by
  by_cases h : n < 63
  · exact .inl ((by decide : ∀ n < 63, isPlain (symbol n) = true) n h)
  · have hslash : symbol n = '/' := by
      rw [symbol, if_neg (by omega), if_neg (by omega), if_neg (by omega), if_neg (by omega)]
    rw [hslash]
    exact .inr (by decide)

theorem Base64.isPlain_or_mem_encode (bytes : List UInt8) :
    ∀ c ∈ encode bytes, isPlain c = true ∨ c ∈ signs := by
  have hpad : isPlain '=' = true ∨ '=' ∈ signs := .inr (by decide)
  induction bytes using encode.induct with
  | case1 => exact List.forall_mem_nil _
  | case2 a => simp [encode, isPlain_or_mem_symbol, hpad]
  | case3 a b => simp [encode, isPlain_or_mem_symbol, hpad]
  | case4 a b c rest ih =>
    rw [encode]
    simp only [List.forall_mem_cons, isPlain_or_mem_symbol, true_and]
    exact ih

theorem UtcOffset.isPlain_print (offset : UtcOffset) : IsPlain offset.print := by
  have hsigns : isPlain '-' = true ∧ isPlain '+' = true ∧ isPlain ':' = true := by decide
  unfold print
  split <;> simp [hsigns]

theorem Moment.isPlain_print (moment : Moment) : IsPlain moment.print := by
  have hsigns : isPlain '-' = true ∧ isPlain '+' = true ∧ isPlain ':' = true ∧
      isPlain '.' = true ∧ isPlain 'T' = true ∧ isPlain 'Z' = true := by decide
  have hyear (year : Int) : IsPlain (printYear year) := by
    unfold printYear
    split_ifs <;> simp [hsigns]
  have hfraction : IsPlain (printFraction moment.nanos) := by
    unfold printFraction
    split_ifs <;> simp [hsigns]
  have hzone : IsPlain moment.printZone := by
    unfold printZone
    split
    · simp [hsigns]
    · exact moment.offset.isPlain_print
  simp [print, hsigns, hyear, hfraction, hzone]

theorem TimeSpan.isPlain_print (span : TimeSpan) : IsPlain span.print := by
  have hsigns : isPlain '-' = true ∧ isPlain ':' = true ∧ isPlain '.' = true := by decide
  have hfraction (nanos : Nat) : IsPlain (printFraction nanos) := by
    unfold printFraction
    split
    · exact isPlain_nil
    · refine isPlain_cons.mpr ⟨hsigns.2.2, (isPlain_decimalPadded 9 nanos).subset ?_⟩
      intro c hc
      have hdigit := (List.dropWhile_sublist _).mem (List.mem_reverse.mp hc)
      exact List.mem_reverse.mp hdigit
  unfold print
  dsimp only
  split <;> simp [hsigns, hfraction]

/-! ### Numbers -/

theorem SizedInteger.isPlain_print (number : SizedInteger) : IsPlain number.print := by
  have hmarks (type : IntegerType) :
      IsPlain type.marks.1.toList ∧ IsPlain type.marks.2.toList := by
    cases type <;> simp [IntegerType.marks] <;> decide
  simp [print, hmarks]

theorem FloatingPoint.isPlain_plain {format : FloatFormat} (x : FloatingPoint format) :
    IsPlain x.plain := by
  have hsign : IsPlain x.sign := by
    unfold sign
    split <;> simp [(by decide : isPlain '-' = true)]
  simp [plain, hsign]

theorem ScaledDecimal.isPlain_print (x : ScaledDecimal) : IsPlain x.print := by
  unfold print
  split <;> simp [(by decide : isPlain '-' = true)]

/-! ### Quoted texts -/

theorem Quoted.percent_not_mem_escape {quote : Char} (hquote : quote ≠ '%') (c : Char) :
    '%' ∉ escape quote c := by
  have hcode : '%' ∉ '\\' :: 'u' :: hexadecimal 4 c.toNat := by
    rw [List.mem_cons, List.mem_cons, or_iff_right (by decide), or_iff_right (by decide)]
    exact (isPlain_hexadecimal 4 c.toNat).percent_not_mem
  unfold escape
  split_ifs with _ hpercent _ _ _ _ hself
  · decide
  · exact hcode
  · decide
  · decide
  · decide
  · decide
  · simpa [hself] using hquote.symm
  · exact hcode
  · simpa using Ne.symm hpercent

theorem Quoted.percent_not_mem_encode {quote : Char} (hquote : quote ≠ '%') (text : List Char) :
    '%' ∉ encode quote text := by
  have hbody : '%' ∉ text.flatMap (escape quote) := by
    intro hmem
    obtain ⟨c, -, hc⟩ := List.mem_flatMap.mp hmem
    exact percent_not_mem_escape hquote c hc
  simp [encode, hquote.symm, hbody]

theorem Quoted.noBlankEnds_encode {quote : Char} (hquote : isBlank quote = false)
    (text : List Char) : NoBlankEnds (encode quote text) := by
  have hends : NoBlankEnds [quote] := noBlankEnds_of_not_blank (by simpa using hquote)
  exact hends.around hends (by simp) (by simp) (text.flatMap (escape quote))

namespace Value

/-- The value is printed between quotes. -/
inductive IsQuoted : Value → Prop
  | string (text : String) : IsQuoted (string text)
  | uri (text : String) : IsQuoted (uri text)
  | char (c : Char) : IsQuoted (char c)

/-- The text is plain, but for signs of Base64 behind a plain front. -/
structure IsUnquoted (text : List Char) : Prop where
  chars : ∀ c ∈ text, isPlain c = true ∨ c ∈ Base64.signs
  front : IsPlain (text.take 3)

theorem isUnquoted_of_isPlain {text : List Char} (h : IsPlain text) :
    IsUnquoted text :=
  ⟨fun c hc ↦ .inl (h c hc), h.subset (List.take_subset 3 text)⟩

/-- A value is printed in plain characters, in Base64 or between quotes. -/
theorem printChars_cases (value : Value) :
    IsPlain value.printChars ∨ (∃ bytes, value = binary bytes) ∨ value.IsQuoted := by
  have hmarks : isPlain 'F' = true ∧ isPlain 'D' = true ∧ isPlain 'M' = true := by decide
  cases value with
  | null => exact .inl (by decide)
  | bool value => exact .inl (by cases value <;> decide)
  | char c => exact .inr (.inr (.char c))
  | string text => exact .inr (.inr (.string text))
  | integer number => exact .inl number.isPlain_print
  | float number => exact .inl (by simp [printChars, number.isPlain_plain, hmarks])
  | double number => exact .inl (by simp [printChars, number.isPlain_plain, hmarks])
  | decimal number => exact .inl (by simp [printChars, number.isPlain_print, hmarks])
  | moment instant =>
    refine .inl (isPlain_append.mpr ⟨?_, instant.isPlain_print⟩)
    cases instant.anchor <;> decide
  | span length => exact .inl length.isPlain_print
  | guid id => exact .inl (Guid.isPlain_hyphenate _ (isPlain_hexadecimal 32 _))
  | binary bytes => exact .inr (.inl ⟨bytes, rfl⟩)
  | uri text => exact .inr (.inr (.uri text))

theorem isUnquoted_or_isQuoted (value : Value) : IsUnquoted value.printChars ∨ value.IsQuoted := by
  obtain hplain | ⟨bytes, rfl⟩ | hquoted := value.printChars_cases
  · exact .inl (isUnquoted_of_isPlain hplain)
  · have hfront : IsPlain "bin:".toList := by decide
    refine .inl ⟨List.forall_mem_append.mpr ⟨fun c hc ↦ .inl (hfront c hc), ?_⟩, ?_⟩
    · exact Base64.isPlain_or_mem_encode bytes
    · exact (by decide : IsPlain "bin".toList)
  · exact .inr hquoted

theorem IsQuoted.exists_encode {value : Value} (h : value.IsQuoted) :
    ∃ front quote text, value.printChars = front ++ Quoted.encode quote text ∧ IsPlain front ∧
      quote ∈ ['"', '\''] := by
  cases h with
  | string text => exact ⟨[], '"', text.toList, rfl, isPlain_nil, by decide⟩
  | uri text => exact ⟨"uri:".toList, '"', text.toList, rfl, by decide, by decide⟩
  | char c => exact ⟨[], '\'', [c], rfl, isPlain_nil, by decide⟩

theorem IsUnquoted.not_mem {text : List Char} (h : IsUnquoted text) {c : Char}
    (hc : isPlain c = false ∧ c ∉ Base64.signs) : c ∉ text := by
  intro hmem
  obtain hplain | hsign := h.chars c hmem
  · rw [hc.1] at hplain
    cases hplain
  · exact hc.2 hsign

theorem IsUnquoted.not_blank {text : List Char} (h : IsUnquoted text) :
    ∀ c ∈ text, isBlank c = false := by
  have hsigns : ∀ c ∈ Base64.signs, isBlank c = false := forall_mem_of_all (by decide)
  exact fun c hc ↦ (h.chars c hc).elim not_blank_of_isPlain (hsigns c)

theorem percent_not_mem_print (value : Value) : '%' ∉ value.print.toList := by
  have hquotes : ∀ quote ∈ ['"', '\''], quote ≠ '%' := forall_mem_of_all (by decide)
  rw [print, String.toList_ofList]
  obtain hunquoted | hquoted := value.isUnquoted_or_isQuoted
  · exact hunquoted.not_mem (by decide)
  · obtain ⟨front, quote, text, htext, hfront, hquote⟩ := hquoted.exists_encode
    rw [htext, List.mem_append, not_or]
    exact ⟨hfront.percent_not_mem, Quoted.percent_not_mem_encode (hquotes quote hquote) text⟩

theorem noBlankEnds_print (value : Value) : NoBlankEnds value.print.toList := by
  have hquotes : ∀ quote ∈ ['"', '\''], isBlank quote = false := forall_mem_of_all (by decide)
  rw [print, String.toList_ofList]
  obtain hunquoted | hquoted := value.isUnquoted_or_isQuoted
  · exact noBlankEnds_of_not_blank hunquoted.not_blank
  · obtain ⟨front, quote, text, htext, hfront, hquote⟩ := hquoted.exists_encode
    rw [htext]
    exact hfront.noBlankEnds.append (Quoted.noBlankEnds_encode (hquotes quote hquote) text)

end Value

end ResourceQuery
