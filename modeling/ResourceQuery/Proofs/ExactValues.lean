import ResourceQuery.Proofs.CodeText
import ResourceQuery.Proofs.IntegerLiterals
import ResourceQuery.Proofs.MomentText

/-!
# Values that are printed exactly

The texts of null, truth values, integers, decimals, GUIDs and binary data leave nothing out. Each
of them is one literal by itself, and again in front of a sign that may follow a value: the suffix
or prefix of an integer names its type, a decimal is a numeral with all its places, and the texts of
codes are those that were taken apart before.
-/

namespace ResourceQuery

open Run Text

/-- The sign that is printed in front of a number. -/
def Text.minus? (n : Int) : Option Char :=
  if n < 0 then some '-' else none

theorem Text.toList_minus? (n : Int) : (minus? n).toList = if n < 0 then ['-'] else [] := by
  rw [minus?]
  split <;> rfl

theorem Text.isSign_of_mem_minus? {n : Int} : ∀ c ∈ minus? n, isSign c = true := by
  rw [minus?]
  split
  · rintro _ ⟨⟩
    rfl
  · exact nofun

theorem Text.minus?_eq_minus_iff {n : Int} : minus? n = some '-' ↔ n < 0 := by
  rw [minus?]
  split <;> simp [*]

/-! ### Integers -/

namespace DecimalInteger

variable {type : IntegerType} {n : Int} {localOffset : UtcOffset}

/-- An integer as it is printed. -/
def ofInt (n : Int) : DecimalInteger where
  sign := minus? n
  digits := decimal n.natAbs
  isSign_sign := isSign_of_mem_minus?
  digits_ne_nil := decimal_ne_nil _
  isDigit_digits := isDigit_of_mem_decimal _

theorem chars_ofInt (n : Int) : (ofInt n).chars = decimalInt n := by
  rw [chars, ofInt, toList_minus?, decimalInt]
  split <;> rfl

theorem value_ofInt (n : Int) : (ofInt n).value = n := by
  rw [value, ← ofDigits_eq, ofInt, ofDigits_decimal]
  by_cases hn : n < 0
  · rw [if_pos (minus?_eq_minus_iff.mpr hn)]
    omega
  · rw [if_neg (hn ∘ minus?_eq_minus_iff.mp)]
    omega

theorem scansTo_suffix (more : List IntegerType) (hn : type.Contains n) {suffix : List Char}
    (h : (String.ofList (lowerAscii suffix), type :: more) ∈ integerSuffixes) :
    Lexer.ScansTo localOffset (decimalInt n ++ suffix) (.integer ⟨type, n, hn⟩) := by
  have hscans : ScansAs localOffset ((ofInt n).chars ++ suffix) _ (ofInt n).value :=
    scansAs_suffix (ofInt n) h
  rw [chars_ofInt, value_ofInt] at hscans
  exact hscans.of_find? hn (List.find?_cons_of_pos (decide_eq_true hn))

theorem scansTo_typed (hn : type.Contains n) {word : List Char}
    (h : (String.ofList (lowerAscii word), type) ∈ integerPrefixes) :
    Lexer.ScansTo localOffset (word ++ ':' :: decimalInt n) (.integer ⟨type, n, hn⟩) := by
  have hscans : ScansAs localOffset (word ++ ':' :: (ofInt n).chars) _ (ofInt n).value :=
    scansAs_prefix (ofInt n) h
  rw [chars_ofInt, value_ofInt] at hscans
  exact hscans.of_find? hn (List.find?_cons_of_pos (decide_eq_true hn))

end DecimalInteger

/-- What is written with an integer asks for its type before any other. -/
theorem SizedInteger.scansTo_print (number : SizedInteger) (localOffset : UtcOffset) :
    Lexer.ScansTo localOffset number.print (.integer number) := by
  obtain ⟨type, n, hn⟩ := number
  have hsuffix (suffix : List Char) (hmarks : type.marks = ("", String.ofList suffix)) :
      (⟨type, n, hn⟩ : SizedInteger).print = decimalInt n ++ suffix := by
    simp [print, hmarks]
  have hfront (word : List Char) (hmarks : type.marks = (String.ofList (word ++ [':']), "")) :
      (⟨type, n, hn⟩ : SizedInteger).print = word ++ ':' :: decimalInt n := by
    simp [print, hmarks]
  cases type with
  | int8 =>
    rw [hfront "int8".toList rfl]
    exact DecimalInteger.scansTo_typed hn (by decide)
  | int16 =>
    rw [hfront "int16".toList rfl]
    exact DecimalInteger.scansTo_typed hn (by decide)
  | int32 =>
    rw [hsuffix [] rfl]
    exact DecimalInteger.scansTo_suffix [.int64, .uint64] hn (by decide)
  | int64 =>
    rw [hsuffix ['L'] rfl]
    exact DecimalInteger.scansTo_suffix [] hn (by decide)
  | uint8 =>
    rw [hfront "byte".toList rfl]
    exact DecimalInteger.scansTo_typed hn (by decide)
  | uint16 =>
    rw [hfront "uint16".toList rfl]
    exact DecimalInteger.scansTo_typed hn (by decide)
  | uint32 =>
    rw [hsuffix ['U'] rfl]
    exact DecimalInteger.scansTo_suffix [.uint64] hn (by decide)
  | uint64 =>
    rw [hsuffix ['U', 'L'] rfl]
    exact DecimalInteger.scansTo_suffix [] hn (by decide)

/-! ### Decimals -/

namespace ScaledDecimal

theorem ofDigits_append (digits more : List Char) : ofDigits (digits ++ more) =
    more.foldl (fun value c ↦ 10 * value + digitValue c) (ofDigits digits) :=
  List.foldl_append

theorem le_foldl (digits : List Char) (start : Nat) :
    start ≤ digits.foldl (fun value c ↦ 10 * value + digitValue c) start := by
  induction digits generalizing start with
  | nil => exact Nat.le_refl _
  | cons c rest ih =>
    have hstart : start ≤ 10 * start + digitValue c := by omega
    exact hstart.trans (ih _)

/-- All digits of a fraction are kept if there is room for them. -/
theorem appendFraction_eq {magnitude scale : Nat} {fraction : List Char}
    (hscale : scale + fraction.length ≤ 28)
    (hlimit : fraction.foldl (fun value c ↦ 10 * value + digitValue c) magnitude < twoTo 96) :
    appendFraction magnitude scale fraction =
      .ok (fraction.foldl (fun value c ↦ 10 * value + digitValue c) magnitude,
        scale + fraction.length) := by
  induction fraction generalizing magnitude scale with
  | nil => rfl
  | cons c rest ih =>
    have hgrows : 10 * magnitude + digitValue c ≤
        rest.foldl (fun value c ↦ 10 * value + digitValue c) (10 * magnitude + digitValue c) :=
      le_foldl _ _
    rw [List.length_cons] at hscale
    rw [List.foldl_cons] at hlimit ⊢
    rw [appendFraction, decide_eq_false (by omega), decide_eq_false (by omega), if_neg (by decide),
      ih (by omega) hlimit, List.length_cons, Nat.add_right_comm, Nat.add_assoc]

theorem ofDigits?_eq (x : ScaledDecimal) {whole fraction : List Char}
    (hdigits : ofDigits (whole ++ fraction) = x.coefficient.natAbs)
    (hlength : fraction.length = x.scale) :
    ofDigits? (x.coefficient < 0) whole fraction = .ok x := by
  have hlimit := x.coefficient_lt
  have hscale := x.scale_le
  have hwhole := le_foldl fraction (ofDigits whole)
  rw [← ofDigits_append, hdigits] at hwhole
  have hfraction : appendFraction (ofDigits whole) 0 fraction =
      .ok (x.coefficient.natAbs, x.scale) := by
    rw [appendFraction_eq (by omega) (by rw [← ofDigits_append]; omega), ← ofDigits_append, hdigits,
      hlength, Nat.zero_add]
  have hmake : make (x.coefficient < 0) x.coefficient.natAbs x.scale = .ok x := by
    have hcoefficient : (if decide (x.coefficient < 0) = true then -(x.coefficient.natAbs : Int)
        else x.coefficient.natAbs) = x.coefficient := by
      split
      · next h =>
        have hnegative := of_decide_eq_true h
        omega
      · next h =>
        have hpositive := of_decide_eq_false (Bool.not_eq_true _ ▸ h)
        omega
    rw [make, dif_pos hscale, dif_pos hlimit]
    simp only [hcoefficient]
  rw [ofDigits?, if_neg (by omega), hfraction]
  exact hmake

/-- The digits on both sides of the point, if there is one. -/
theorem exists_places (places n : Nat) : ∃ whole fraction,
    decimalPlaces places n = whole ++ afterPoint fraction ∧ whole ≠ [] ∧
      whole ++ fraction = decimalPadded (places + 1) n ∧ fraction.length = places := by
  obtain rfl | hplaces := Nat.eq_zero_or_pos places
  · exact ⟨decimalPadded 1 n, [], (List.append_nil _).symm, decimalPadded_ne_nil 1 n,
      List.append_nil _, rfl⟩
  · obtain ⟨whole, fraction, htext, hdigits, hlength⟩ := exists_decimalPlaces hplaces n
    refine ⟨whole, fraction, ?_, ?_, hdigits, hlength⟩
    · rw [htext]
      cases fraction with
      | nil => exact absurd hlength hplaces.ne
      | cons c rest => rfl
    · rintro rfl
      have hle := length_decimalPadded_ge (places + 1) n
      rw [← hdigits, List.nil_append, hlength] at hle
      omega

/-- What is printed for a decimal, as a numeral. -/
theorem exists_numeral (x : ScaledDecimal) : ∃ numeral : Numeral, numeral.IsPlain ∧
    numeral.chars = x.print ++ ['M'] ∧ Number.ofNumeral numeral = .ok (.decimal x) := by
  obtain ⟨whole, fraction, htext, hwhole, hdigits, hlength⟩ :=
    exists_places x.scale x.coefficient.natAbs
  have hclass : ∀ c ∈ whole ++ fraction, isDigit c = true :=
    hdigits ▸ isDigit_of_mem_decimalPadded (x.scale + 1) x.coefficient.natAbs
  let numeral : Numeral := ⟨minus? x.coefficient, whole, fraction, none, ['M']⟩
  have hsuffix : ∀ c ∈ ['M'], Numeral.isSuffixLetter c = true :=
    List.forall_mem_singleton.mpr (by decide)
  have hnegative : numeral.isNegative = decide (x.coefficient < 0) := by
    rw [Numeral.isNegative, beq_eq_decide]
    exact decide_eq_decide.mpr minus?_eq_minus_iff
  have hchars : numeral.chars = x.print ++ ['M'] := by
    rw [Numeral.chars, print, htext, ← toList_minus?, List.append_assoc, List.append_assoc]
  have hdecimal : Number.decimal? numeral = .ok x := by
    rw [Number.decimal?, hnegative,
      x.ofDigits?_eq (by rw [hdigits, ofDigits_decimalPadded]) hlength]
    rfl
  have hvalue : Number.ofNumeral numeral = Number.asDecimal numeral := by
    rw [Number.ofNumeral]
    cases numeral.isReal <;> rfl
  refine ⟨numeral, ⟨isSign_of_mem_minus?, hwhole, fun c hc ↦ hclass c (List.mem_append_left _ hc),
    fun c hc ↦ hclass c (List.mem_append_right _ hc), rfl, hsuffix, Nat.le_succ 1, rfl⟩, hchars, ?_⟩
  rw [hvalue, Number.asDecimal, hdecimal]

theorem scansTo_print (x : ScaledDecimal) (localOffset : UtcOffset) :
    Lexer.ScansTo localOffset (x.print ++ ['M']) (.decimal x) := by
  obtain ⟨numeral, hplain, hchars, hvalue⟩ := x.exists_numeral
  exact hchars ▸ hplain.scansTo hvalue

end ScaledDecimal

/-! ### Values -/

namespace Value

/-- The value is of a type whose texts have always been read back exactly. -/
def isExact : Value → Bool
  | null | bool _ | integer _ | decimal _ | guid _ | binary _ => true
  | char _ | string _ | float _ | double _ | moment _ | span _ | uri _ => false

theorem scansTo_print {value : Value} (h : value.isExact = true) (localOffset : UtcOffset) :
    Lexer.ScansTo localOffset value.print.toList value := by
  rw [print, String.toList_ofList]
  cases value with
  | null => rfl
  | bool value => cases value <;> rfl
  | integer number => exact number.scansTo_print localOffset
  | decimal number => exact number.scansTo_print localOffset
  | guid id => exact id.scansTo_print localOffset
  | binary bytes => exact Base64.scansTo_encode bytes localOffset
  | char _ | string _ | float _ | double _ | moment _ | span _ | uri _ => cases h

theorem head?_print_ne_slash {value : Value} (h : value.isExact = true) :
    value.print.toList.head? ≠ some '/' := by
  rw [print, String.toList_ofList]
  intro hslash
  obtain hunquoted | hquoted := value.isUnquoted_or_isQuoted
  · obtain ⟨rest, htext⟩ := List.head?_eq_some_iff.mp hslash
    cases hunquoted.front '/' (htext ▸ List.mem_cons_self)
  · cases hquoted <;> cases h

/-- What is printed for an exact value is one literal token of just that value, which takes up the
whole text, and then the end; and so it is in front of a sign that may follow a value, whatever
stands before the text and behind the sign. -/
theorem reads_print_of_isExact {value : Value} (h : value.isExact = true)
    (localOffset : UtcOffset) :
    Lexer.scan value.print.toList localOffset =
      .ok ⟨[⟨.literal, some value, value.print, 0⟩, .stop value.print.length]⟩ ∧
    ∀ sign ∈ [')', ',', '&', '|'], ∀ passed rest last,
      Lexer.next ⟨⟨passed, value.print.toList ++ sign :: rest⟩, localOffset, last, false⟩ =
        (.ok ⟨.literal, some value, value.print, passed.length⟩,
          ⟨⟨value.print.toList.reverse ++ passed, sign :: rest⟩, localOffset, some .literal,
            false⟩) := by
  have hscans := scansTo_print h localOffset
  refine ⟨?_, fun sign hsign passed rest last ↦ ?_⟩
  · rw [Lexer.ScansTo, String.ofList_toList] at hscans
    exact hscans
  · have hnext := (hscans.denotes (head?_print_ne_slash h)).next_eq passed
      (followsValue_cons hsign rest) last
    rw [String.ofList_toList] at hnext
    exact hnext

/-- A payload whose symbols are slashes, in front of a closing parenthesis. -/
theorem reads_print_of_isExact_slashes :
    (binary [0xff, 0xff]).isExact = true ∧ (binary [0xff, 0xff]).print = "bin://8=" ∧
    Lexer.scan "bin://8=".toList .utc =
      .ok ⟨[⟨.literal, some (binary [0xff, 0xff]), "bin://8=", 0⟩, .stop 8]⟩ ∧
    (Lexer.next (Lexer.start "bin://8=)".toList .utc)).1 =
      .ok ⟨.literal, some (binary [0xff, 0xff]), "bin://8=", 0⟩ := by
  have hexact : (binary [0xff, 0xff]).isExact = true := rfl
  have hreads := reads_print_of_isExact hexact .utc
  have hprint : (binary [0xff, 0xff]).print = "bin://8=" := by decide
  rw [hprint] at hreads
  exact ⟨rfl, hprint, hreads.1, congrArg Prod.fst (hreads.2 ')' (by decide) [] [] none)⟩

end Value

end ResourceQuery
