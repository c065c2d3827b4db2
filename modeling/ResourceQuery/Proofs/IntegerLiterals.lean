import Mathlib.Data.Nat.Digits.Defs
import ResourceQuery.Proofs.Numerals

/-!
# Integer literals

A whole text of digits, with a sign in front or not, is the number that the digits denote in the
first type that holds it. Which types come into question is told by a suffix or by a prefix; without
either they go from narrow to wide. Such a text is never taken for any other kind of literal, and
as every type is far narrower than the 128 bits that are read, it is an error just if no type holds
the number.
-/

namespace ResourceQuery

open Run

/-- An integer in decimal notation, with whatever zeros in front. -/
structure DecimalInteger where
  sign : Option Char
  digits : List Char
  isSign_sign : ∀ c ∈ sign, isSign c = true
  digits_ne_nil : digits ≠ []
  isDigit_digits : ∀ c ∈ digits, Text.isDigit c = true

/-- The suffixes of integers in lower case, with the types that each allows, the preferred first. -/
def integerSuffixes : List (String × List IntegerType) :=
  [("", [.int32, .int64, .uint64]), ("u", [.uint32, .uint64]), ("l", [.int64]),
    ("ul", [.uint64]), ("lu", [.uint64])]

/-- The prefixes of integers in lower case, with the type that each asks for. -/
def integerPrefixes : List (String × IntegerType) :=
  [("byte", .uint8), ("uint8", .uint8), ("sbyte", .int8), ("int8", .int8), ("short", .int16),
    ("int16", .int16), ("ushort", .uint16), ("uint16", .uint16), ("int", .int32),
    ("int32", .int32), ("integer", .int32), ("uint", .uint32), ("uint32", .uint32),
    ("long", .int64), ("int64", .int64), ("ulong", .uint64), ("uint64", .uint64)]

/-- The text is a literal by itself, the number in the first of the types that holds it; it is a
lexical error just if none of them does. -/
structure ScansAs (localOffset : UtcOffset) (text : List Char) (types : List IntegerType)
    (n : Int) : Prop where
  of_find? {type : IntegerType} (hn : type.Contains n)
    (hfirst : types.find? (fun type ↦ decide (type.Contains n)) = some type) :
    Lexer.scan text localOffset =
      .ok ⟨[⟨.literal, some (.integer ⟨type, n, hn⟩), String.ofList text, 0⟩, .stop text.length]⟩
  error_iff : (∃ position fault, Lexer.scan text localOffset = .error (.lexical position fault)) ↔
    ∀ type ∈ types, ¬type.Contains n

/-! ### Characters of integers -/

/-- The letters of suffixes, in either case. -/
def isIntegerLetter (c : Char) : Bool :=
  ['u', 'l'].contains c.toLower

theorem isSuffixLetter_of_isIntegerLetter {c : Char} (h : isIntegerLetter c = true) :
    Numeral.isSuffixLetter c = true := by
  have hletters : ∀ d ∈ ['u', 'l'], d ∈ ['u', 'l', 'f', 'd', 'm'] := forall_mem_of_all (by decide)
  exact List.contains_iff_mem.mpr (hletters _ (List.contains_iff_mem.mp h))

/-- The letters are the suffix of an integer. -/
def IsIntegerSuffix (suffix : List Char) : Prop :=
  ∃ types, (String.ofList (Text.lowerAscii suffix), types) ∈ integerSuffixes

theorem IsIntegerSuffix.isIntegerLetter {suffix : List Char} (h : IsIntegerSuffix suffix) :
    ∀ c ∈ suffix, isIntegerLetter c = true := by
  obtain ⟨types, hmem⟩ := h
  have hletters : ∀ entry ∈ integerSuffixes, entry.1.toList.all ['u', 'l'].contains = true :=
    forall_mem_of_all (by decide)
  have hsuffix := hletters _ hmem
  rw [String.toList_ofList] at hsuffix
  exact fun c hc ↦ List.all_eq_true.mp hsuffix _ (List.mem_map_of_mem hc)

theorem IsIntegerSuffix.isSuffix {suffix : List Char} (h : IsIntegerSuffix suffix) :
    suffix.length ≤ 2 ∧ Numeral.isSuffix suffix = true := by
  obtain ⟨types, hmem⟩ := h
  have hlower : ∀ entry ∈ integerSuffixes, entry.1.toList.length ≤ 2 ∧
      (entry.1.toList.length ≤ 1 || ["ul".toList, "lu".toList].contains entry.1.toList) = true :=
    forall_mem_of_all (by decide)
  have hsuffix := hlower _ hmem
  rw [String.toList_ofList, Text.lowerAscii, List.length_map] at hsuffix
  exact hsuffix

namespace DecimalInteger

variable (n : DecimalInteger) {suffix passed : List Char} {localOffset : UtcOffset}

def chars : List Char :=
  n.sign.toList ++ n.digits

/-- The number that the digits denote, the last of them being the ones. -/
def value : Int :=
  (if n.sign = some '-' then -1 else 1) *
    (Nat.ofDigits 10 (n.digits.reverse.map Text.digitValue) : Nat)

/-- What is read of the integer with a suffix. -/
def numeral (suffix : List Char) : Numeral :=
  ⟨n.sign, n.digits, [], none, suffix⟩

theorem ofDigits_eq (digits : List Char) :
    Text.ofDigits digits = Nat.ofDigits 10 (digits.reverse.map Text.digitValue) := by
  rw [Nat.ofDigits_eq_foldr, List.foldr_map, List.foldr_reverse]
  simp [Text.ofDigits, Nat.add_comm]

theorem integer_numeral (suffix : List Char) : (n.numeral suffix).integer = n.value := by
  have hnegative : (n.numeral suffix).isNegative = decide (n.sign = some '-') := by
    rw [Numeral.isNegative, beq_eq_decide]
    rfl
  rw [Numeral.integer, hnegative, numeral, value, ofDigits_eq]
  by_cases hsign : n.sign = some '-' <;> simp [hsign]

theorem isPlain_numeral (h : IsIntegerSuffix suffix) : (n.numeral suffix).IsPlain where
  isSign_sign := n.isSign_sign
  whole_ne_nil := n.digits_ne_nil
  isDigit_whole := n.isDigit_digits
  isDigit_fraction := List.forall_mem_nil _
  exponent_eq := rfl
  isSuffixLetter_suffix c hc := isSuffixLetter_of_isIntegerLetter (h.isIntegerLetter c hc)
  length_suffix := h.isSuffix.1
  isSuffix_suffix := h.isSuffix.2

theorem chars_numeral (suffix : List Char) : (n.numeral suffix).chars = n.chars ++ suffix :=
  (List.append_assoc _ _ _).symm

/-- Behind a prefix an integer is read like one by itself, but without a suffix. -/
theorem scanTyped_eq (type : IntegerType) :
    Number.scanTyped (.integer type) ⟨passed, n.chars⟩ =
      match Number.asInteger [type] type.name (n.numeral []) with
      | .ok value => .ok value ⟨n.chars.reverse ++ passed, []⟩
      | .error fault => .error (.number (String.ofList n.chars) fault)
        ⟨n.chars.reverse ++ passed, []⟩ := by
  have hplain : (n.numeral []).IsPlain := n.isPlain_numeral ⟨_, List.mem_cons_self⟩
  have htext : (n.numeral []).chars = n.chars := by rw [chars_numeral, List.append_nil]
  have hread := hplain.recovers_scan? (show Bars isWordChar [] from rfl) passed
  have hhex : Number.hexAhead ⟨passed, n.chars⟩ = .ok false ⟨passed, n.chars⟩ := by
    rw [← htext]
    exact hexAhead_of_tail (hplain.not_mem_tail 'x' (by simp)) (hplain.not_mem_tail 'X' (by simp))
  have hposition : Scan.position ⟨passed, n.chars⟩ = .ok passed.length ⟨passed, n.chars⟩ := rfl
  rw [List.append_nil, htext] at hread
  rw [Number.scanTyped, bind_ok hhex, if_neg (by decide), Number.scanTypedNumeral,
    bind_ok hposition, bind_ok hread]
  change (match Number.asInteger [type] type.name (n.numeral []) with
    | .ok value => pure value
    | .error fault => Scan.failFrom passed.length (.number · fault)) _ = _
  cases Number.asInteger [type] type.name (n.numeral []) with
  | ok value => rfl
  | error fault => exact Scan.failFrom_eq _ _ _

end DecimalInteger

/-! ### Values of integers -/

namespace Number

/-- The range of every type lies within 128 bits. -/
theorem within_of_contains {type : IntegerType} {n : Int} (h : type.Contains n) :
    -(twoTo 127 : Int) ≤ n ∧ n < twoTo 127 := by
  have hrange : -(twoTo 127 : Int) ≤ type.lowest ∧ type.highest < twoTo 127 := by
    cases type <;> decide
  exact ⟨Int.le_trans hrange.1 h.1, Int.lt_of_le_of_lt h.2 hrange.2⟩

/-- An integer is a number of the first type that holds it. -/
theorem asInteger_of_find? {types : List IntegerType} {type : IntegerType} {target : String}
    {numeral : Numeral} (hn : type.Contains numeral.integer)
    (hfirst : types.find? (fun type ↦ decide (type.Contains numeral.integer)) = some type) :
    asInteger types target numeral = .ok (.integer ⟨type, numeral.integer, hn⟩) := by
  have hfits : firstFitting? types numeral.integer =
      some (.integer ⟨type, numeral.integer, hn⟩) := by
    induction types with
    | nil => cases hfirst
    | cons head rest ih =>
      rw [firstFitting?, List.findSome?_cons, IntegerType.ofInt?]
      rw [List.find?_cons] at hfirst
      split
      · next hsome =>
        split at hsome
        · next hhead =>
          cases hsome
          simp only [hhead, decide_true, Option.some.injEq] at hfirst
          subst hfirst
          rfl
        · cases hsome
      · next hnone =>
        split at hnone
        · cases hnone
        · next hhead =>
          simp only [hhead, decide_false] at hfirst
          exact ih hfirst
  have hwithin : integer? numeral = .ok numeral.integer := if_pos (within_of_contains hn)
  rw [asInteger, hwithin]
  simp only [bind, Except.bind, hfits]
  rfl

/-- An integer that no type holds has no value. -/
theorem asInteger_of_forall {types : List IntegerType} {target : String} {numeral : Numeral}
    (h : ∀ type ∈ types, ¬type.Contains numeral.integer) :
    ∃ fault, asInteger types target numeral = .error fault := by
  have hfits : firstFitting? types numeral.integer = none := by
    rw [firstFitting?, Option.map_eq_none_iff, List.findSome?_eq_none_iff]
    exact fun type hmem ↦ dif_neg (h type hmem)
  rw [asInteger, integer?]
  split
  · simp only [bind, Except.bind, hfits]
    exact ⟨_, rfl⟩
  · exact ⟨_, rfl⟩

/-- A suffix tells the types that come into question. -/
theorem ofNumeral_eq {n : DecimalInteger} {suffix : List Char} {types : List IntegerType}
    (h : (String.ofList (Text.lowerAscii suffix), types) ∈ integerSuffixes) :
    ∃ target, ofNumeral (n.numeral suffix) = asInteger types target (n.numeral suffix) := by
  have hreal : (n.numeral suffix).isReal = false := rfl
  have hsuffix : (n.numeral suffix).suffix = suffix := rfl
  rw [ofNumeral, hreal, hsuffix]
  simp only [integerSuffixes, List.mem_cons, List.not_mem_nil, or_false, Prod.mk.injEq] at h
  rcases h with ⟨hlower, rfl⟩ | ⟨hlower, rfl⟩ | ⟨hlower, rfl⟩ | ⟨hlower, rfl⟩ | ⟨hlower, rfl⟩ <;>
    rw [hlower] <;> exact ⟨_, rfl⟩

end Number

/-! ### Whole texts -/

/-- A whole text that is read by the types that come into question scans as the number. -/
theorem scansAs_of_scan {localOffset : UtcOffset} {c : Char} {body : List Char}
    {types : List IntegerType} {target : String} {numeral : Numeral}
    {wrap : NumberFault → LexicalFault} {stop : Cursor} (hblank : Text.isBlank c = false)
    (hscan : Lexeme.scan localOffset none c ⟨[], c :: body⟩ =
      match Number.asInteger types target numeral with
      | .ok value => .ok (.literal value) ⟨(c :: body).reverse ++ [], []⟩
      | .error fault => .error (wrap fault) stop) :
    ScansAs localOffset (c :: body) types numeral.integer := by
  have hliteral {type : IntegerType} (hn : type.Contains numeral.integer)
      (hfirst : types.find? (fun type ↦ decide (type.Contains numeral.integer)) = some type) := by
    rw [Number.asInteger_of_find? hn hfirst] at hscan
    exact Lexer.scan_of_literal hblank hscan
  refine ⟨hliteral, ?_, fun hnone ↦ ?_⟩
  · rintro ⟨position, fault, herror⟩ type hmem hn
    cases hfirst : types.find? (fun type ↦ decide (type.Contains numeral.integer)) with
    | none => exact List.find?_eq_none.mp hfirst type hmem (decide_eq_true hn)
    | some first =>
      have hholds := List.find?_some hfirst
      rw [hliteral (of_decide_eq_true hholds) hfirst] at herror
      cases herror
  · obtain ⟨fault, hfault⟩ := Number.asInteger_of_forall hnone
    rw [hfault] at hscan
    exact Lexer.refuses_of_fault hblank hscan

namespace DecimalInteger

variable (n : DecimalInteger) {localOffset : UtcOffset} {suffix word : List Char}

/-- An integer by itself, with or without a suffix. -/
theorem scansAs_suffix {types : List IntegerType}
    (h : (String.ofList (Text.lowerAscii suffix), types) ∈ integerSuffixes) :
    ScansAs localOffset (n.chars ++ suffix) types n.value := by
  have hplain := n.isPlain_numeral ⟨types, h⟩
  obtain ⟨target, htypes⟩ := Number.ofNumeral_eq h
  obtain ⟨c, body, htext, hblank, hscan⟩ := hplain.scan_eq localOffset
  rw [hplain.scanDigits_eq, htypes, htext] at hscan
  rw [← chars_numeral, htext, ← n.integer_numeral suffix]
  exact scansAs_of_scan hblank hscan

/-- The prefixes are all the words that name a type of integers. -/
theorem mem_integerPrefixes_iff {type : IntegerType} :
    (String.ofList (Text.lowerAscii word), type) ∈ integerPrefixes ↔
      LiteralType.ofWord? word = some (.number (.integer type)) := by
  have hprefixes : ∀ entry ∈ integerPrefixes,
      LiteralType.names.lookup entry.1 = some (.number (.integer entry.2)) :=
    forall_mem_of_all (by decide)
  have hnames : ∀ entry ∈ LiteralType.names, ∀ type ∈ integerPrefixes.map (·.2),
      entry.2 = .number (.integer type) → (entry.1, type) ∈ integerPrefixes :=
    forall_mem_of_all (by decide)
  have htypes : type ∈ integerPrefixes.map (·.2) := by cases type <;> decide
  refine ⟨hprefixes _, fun h ↦ ?_⟩
  obtain ⟨before, behind, hsplit, -⟩ := List.lookup_eq_some_iff.mp h
  exact hnames (String.ofList (Text.lowerAscii word), .number (.integer type)) (by simp [hsplit])
    type htypes rfl

/-- An integer behind a prefix. -/
theorem scansAs_prefix {type : IntegerType}
    (h : (String.ofList (Text.lowerAscii word), type) ∈ integerPrefixes) :
    ScansAs localOffset (word ++ ':' :: n.chars) [type] n.value := by
  obtain ⟨c, body, htext, hblank, hscan⟩ :=
    Lexer.scan_typed localOffset (mem_integerPrefixes_iff.mp h) n.chars
  have hpassed : n.chars.reverse ++ ':' :: word.reverse = (c :: body).reverse ++ [] := by
    rw [← htext]
    simp
  have hvalue : Number.scanTyped (.integer type) ⟨':' :: word.reverse, n.chars⟩ = _ :=
    n.scanTyped_eq type
  rw [hpassed] at hvalue
  have hread : (do return Lexeme.literal (← Literal.scanTyped localOffset 0
      (.number (.integer type))) : Scan Lexeme) ⟨':' :: word.reverse, n.chars⟩ =
      match Number.asInteger [type] type.name (n.numeral []) with
      | .ok value => .ok (.literal value) ⟨(c :: body).reverse ++ [], []⟩
      | .error fault => .error (.number (String.ofList n.chars) fault)
        ⟨(c :: body).reverse ++ [], []⟩ := by
    cases hnumber : Number.asInteger [type] type.name (n.numeral []) with
    | ok value =>
      rw [hnumber] at hvalue
      exact bind_ok hvalue
    | error fault =>
      rw [hnumber] at hvalue
      exact bind_error hvalue
  rw [htext, ← n.integer_numeral []]
  exact scansAs_of_scan hblank (hscan.trans hread)

/-- A decimal integer as a whole text is the literal of just the number that its digits denote. By
itself and behind each suffix it has the first type of those allowed that holds the number, and
behind a prefix the type that this asks for; where none holds the number, scanning fails. -/
theorem scansAs_integer (n : DecimalInteger) (localOffset : UtcOffset) :
    (∀ suffix types, (String.ofList (Text.lowerAscii suffix), types) ∈ integerSuffixes →
      ScansAs localOffset (n.chars ++ suffix) types n.value) ∧
    ∀ word type, (String.ofList (Text.lowerAscii word), type) ∈ integerPrefixes →
      ScansAs localOffset (word ++ ':' :: n.chars) [type] n.value :=
  ⟨fun _ _ ↦ n.scansAs_suffix, fun _ _ ↦ n.scansAs_prefix⟩

/-- A number just below the range of the first type, a zero with a sign, and a suffix that asks for
a type without negative numbers. -/
theorem scansAs_integer_bounds :
    let low : DecimalInteger := ⟨some '-', "002147483649".toList, by rintro _ ⟨⟩; rfl,
      by decide, List.all_eq_true.mp (by decide)⟩
    let zero : DecimalInteger := ⟨some '-', "0".toList, by rintro _ ⟨⟩; rfl, by decide,
      List.all_eq_true.mp (by decide)⟩
    low.value = -2147483649 ∧ zero.value = 0 ∧
    Lexer.scan "-002147483649".toList .utc = .ok ⟨[⟨.literal,
      some (.integer ⟨.int64, -2147483649, by decide⟩), "-002147483649", 0⟩, .stop 13]⟩ ∧
    Lexer.scan "UShort:-0".toList .utc = .ok ⟨[⟨.literal,
      some (.integer ⟨.uint16, 0, by decide⟩), "UShort:-0", 0⟩, .stop 9]⟩ ∧
    ∃ position fault, Lexer.scan "-002147483649lU".toList .utc =
      .error (.lexical position fault) := by
  intro low zero
  have hlow : low.value = -2147483649 := by decide
  have hzero : zero.value = 0 := by decide
  have hwide := (scansAs_integer low .utc).1 [] [.int32, .int64, .uint64] (by decide)
  have hprefix := (scansAs_integer zero .utc).2 "UShort".toList .uint16 (by decide)
  have hnone := (scansAs_integer low .utc).1 "lU".toList [.uint64] (by decide)
  rw [hlow] at hwide hnone
  rw [hzero] at hprefix
  exact ⟨hlow, hzero, hwide.of_find? (by decide) (by decide),
    hprefix.of_find? (by decide) (by decide), hnone.error_iff.mpr (by decide)⟩

end DecimalInteger

end ResourceQuery
