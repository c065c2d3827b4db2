import Mathlib.Data.Int.ModEq
import Mathlib.Data.Nat.Digits.Lemmas
import ResourceQuery.Proofs.IntegerLiterals

/-!
# Hexadecimal literals

Hexadecimal digits are bits. Without a suffix the number of digits tells the type, a suffix tells it
otherwise, and behind a prefix there may be as many digits as the type has room for. In a type with
a sign the number is congruent to what the digits denote, in any other type it is just that.
-/

namespace ResourceQuery

open Run

/-- An integer in hexadecimal notation, possibly without digits, or with too many. -/
structure HexadecimalInteger where
  mark : Char
  digits : List Char
  isMark_mark : mark = 'x' ∨ mark = 'X'
  isHexDigit_digits : ∀ c ∈ digits, Text.isHexDigit c = true

/-- The types of hexadecimal integers without a suffix, each with the most digits that it holds. -/
def hexadecimalTypes : List (Nat × IntegerType) :=
  [(2, .uint8), (4, .uint16), (8, .uint32), (16, .uint64)]

/-- The prefixes of numbers that are not integers. -/
def realPrefixes : List String :=
  ["float", "single", "double", "decimal"]

namespace IntegerType

variable {type : IntegerType} {bits : Nat}

theorem wrap_modEq (type : IntegerType) (bits : Nat) :
    type.wrap bits ≡ bits [ZMOD 2 ^ type.width] := by
  have hwidth : ((twoTo type.width : Nat) : Int) = 2 ^ type.width := Nat.cast_pow 2 type.width
  rw [wrap, ← hwidth]
  split
  · exact Int.bmod_emod
  · exact Int.mod_modEq _ _

/-- In a type without a sign all bits that there is room for count as they are. -/
theorem wrap_of_lt (hsign : type.isSigned = false) (h : bits < 2 ^ type.width) :
    type.wrap bits = bits := by
  rw [wrap, hsign, if_neg (by decide)]
  exact Int.emod_eq_of_lt (Int.natCast_nonneg bits) (Int.ofNat_lt.mpr h)

end IntegerType

namespace HexadecimalInteger

variable (n : HexadecimalInteger) {suffix passed rest word : List Char} {localOffset : UtcOffset}

def chars : List Char :=
  '0' :: n.mark :: n.digits

/-- The number that the digits denote, the last of them being the ones. -/
def value : Nat :=
  Nat.ofDigits 16 (n.digits.reverse.map Text.hexValue)

/-- There are digits, and no more than so many. -/
def HasDigits (limit : Nat) : Prop :=
  1 ≤ n.digits.length ∧ n.digits.length ≤ limit

instance (limit : Nat) : Decidable (n.HasDigits limit) :=
  inferInstanceAs (Decidable (_ ∧ _))

/-- The narrowest of the types that have room for the digits. -/
def bareType : IntegerType :=
  ((hexadecimalTypes.find? fun entry ↦ n.digits.length ≤ entry.1).getD (16, .uint64)).2

/-- The suffixes in lower case, with the type that each tells. -/
def suffixTypes : List (String × IntegerType) :=
  [("", n.bareType), ("u", if n.value < 2 ^ 32 then .uint32 else .uint64), ("l", .int64),
    ("ul", .uint64), ("lu", .uint64)]

/-- The text is a literal by itself if there are digits and no more than so many, namely their bits
in the type; otherwise it is a lexical error. -/
structure ReadsBits (localOffset : UtcOffset) (text : List Char) (limit : Nat)
    (type : IntegerType) : Prop where
  scansTo (hdigits : n.HasDigits limit) : ∃ bits, ∃ hbits : type.Contains bits,
    bits ≡ n.value [ZMOD 2 ^ type.width] ∧ (type.isSigned = false → bits = n.value) ∧
      Lexer.ScansTo localOffset text (.integer ⟨type, bits, hbits⟩)
  refuses (hdigits : ¬n.HasDigits limit) : Lexer.Refuses localOffset text

theorem ofHexDigits_eq (digits : List Char) :
    Text.ofHexDigits digits = Nat.ofDigits 16 (digits.reverse.map Text.hexValue) := by
  rw [Nat.ofDigits_eq_foldr, List.foldr_map, List.foldr_reverse]
  simp [Text.ofHexDigits, Nat.add_comm]

theorem value_lt : n.value < 16 ^ n.digits.length := by
  have hdigits : ∀ d ∈ n.digits.reverse.map Text.hexValue, d < 16 := by
    intro d hd
    obtain ⟨c, hc, rfl⟩ := List.mem_map.mp hd
    exact Text.hexValue_lt (n.isHexDigit_digits c (List.mem_reverse.mp hc))
  have hlt := Nat.ofDigits_lt_base_pow_length (by decide) hdigits
  rwa [List.length_map, List.length_reverse] at hlt

/-- So many digits fit a type of four times as many bits. -/
theorem value_lt_of_hasDigits {width : Nat} (h : 4 * n.digits.length ≤ width) :
    n.value < 2 ^ width := by
  calc n.value < 16 ^ n.digits.length := n.value_lt
    _ = 2 ^ (4 * n.digits.length) := (Nat.pow_mul 2 4 n.digits.length).symm
    _ ≤ 2 ^ width := Nat.pow_le_pow_right (by decide) h

/-! ### Reading the digits -/

theorem recovers_scanHexDigits (hdigits : n.HasDigits 16) (hrest : Bars Text.isHexDigit rest) :
    Scan.Recovers Number.scanHexDigits n.chars n.digits rest := by
  have hsome : n.digits.isEmpty = false := by
    rw [List.isEmpty_eq_false_iff]
    exact List.ne_nil_of_length_pos hdigits.1
  refine Scan.recovers_position fun mark ↦ ?_
  refine (Scan.recovers_skip ['0', n.mark]).bind ?_
  intro passed
  rw [bind_ok (Scan.recovers_readWhile n.isHexDigit_digits hrest passed), hsome,
    if_neg (by decide), if_neg (Nat.not_lt.mpr hdigits.2)]
  rfl

theorem exists_fault_of_scanHexDigits (hdigits : ¬n.HasDigits 16)
    (hrest : Bars Text.isHexDigit rest) (passed : List Char) :
    ∃ fault cursor, Number.scanHexDigits ⟨passed, n.chars ++ rest⟩ = .error fault cursor := by
  have hposition : Scan.position ⟨passed, n.chars ++ rest⟩ =
      .ok passed.length ⟨passed, n.chars ++ rest⟩ := rfl
  have hskip : Scan.skip 2 ⟨passed, n.chars ++ rest⟩ =
      .ok () ⟨n.mark :: '0' :: passed, n.digits ++ rest⟩ := rfl
  have hread := Scan.recovers_readWhile n.isHexDigit_digits hrest (n.mark :: '0' :: passed)
  rw [Number.scanHexDigits, bind_ok hposition, bind_ok hskip, bind_ok hread]
  by_cases hempty : n.digits.isEmpty = true
  · rw [if_pos hempty]
    exact ⟨_, _, rfl⟩
  · have hmany : 16 < n.digits.length := by
      rw [HasDigits] at hdigits
      rw [List.isEmpty_iff_length_eq_zero] at hempty
      omega
    rw [if_neg hempty, if_pos hmany]
    exact ⟨_, _, rfl⟩

theorem hexAhead (rest : List Char) : Number.hexAhead ⟨passed, n.chars ++ rest⟩ =
    .ok true ⟨passed, n.chars ++ rest⟩ := by
  have hmark : (n.mark == 'x' || n.mark == 'X') = true := by
    obtain hmark | hmark := n.isMark_mark <;> rw [hmark] <;> rfl
  exact congrArg (EStateM.Result.ok · _) hmark

/-- The mark is no hexadecimal digit, as would be the second of eight in a GUID. -/
theorem guidAhead (rest : List Char) : Guid.ahead ⟨passed, n.chars ++ rest⟩ = false := by
  have hbars : Bars Text.isHexDigit (n.mark :: (n.digits ++ rest)) := by
    obtain hmark | hmark := n.isMark_mark <;> rw [hmark] <;> rfl
  have hcount : (⟨passed, ['0'] ++ n.mark :: (n.digits ++ rest)⟩ : Cursor).countAhead
      Text.isHexDigit = 1 := by
    rw [Cursor.countAhead, takeWhile_append_of_bars _ hbars]
    rfl
  change Guid.ahead ⟨passed, ['0'] ++ n.mark :: (n.digits ++ rest)⟩ = false
  rw [Guid.ahead, hcount]
  rfl

/-! ### Literals without a prefix -/

theorem bars_suffix (h : IsIntegerSuffix suffix) : Bars Text.isHexDigit suffix := by
  refine bars_of_class h.isIntegerLetter fun c hc ↦ ?_
  have hdigit := (Text.isHexDigit_toLower c).trans hc
  rw [isIntegerLetter, ← Bool.not_eq_true, List.contains_iff_mem]
  intro hletter
  have hletters : ∀ d ∈ ['u', 'l'], Text.isHexDigit d = false := forall_mem_of_all (by decide)
  rw [hletters _ hletter] at hdigit
  cases hdigit

theorem isIntegerSuffix_of_mem {type : IntegerType}
    (h : (String.ofList (Text.lowerAscii suffix), type) ∈ n.suffixTypes) :
    IsIntegerSuffix suffix := by
  have hnames : n.suffixTypes.map Prod.fst = integerSuffixes.map Prod.fst := rfl
  have hmem := List.mem_map_of_mem (f := Prod.fst) h
  rw [hnames] at hmem
  obtain ⟨⟨name, types⟩, hmem, rfl⟩ := List.mem_map.mp hmem
  exact ⟨types, hmem⟩

theorem hexType_eq (hdigits : n.HasDigits 16) : Number.hexType n.digits.length = n.bareType ∧
    4 * n.digits.length ≤ n.bareType.width := by
  have hlimit := hdigits.2
  rw [Number.hexType, bareType, hexadecimalTypes]
  by_cases htwo : n.digits.length ≤ 2
  · simp [htwo, IntegerType.width]
    omega
  by_cases hfour : n.digits.length ≤ 4
  · simp [htwo, hfour, IntegerType.width]
    omega
  by_cases height : n.digits.length ≤ 8
  · simp [htwo, hfour, height, IntegerType.width]
    omega
  · simp [htwo, hfour, height, hlimit, IntegerType.width]
    omega

/-- A suffix tells the type of the bits, and in that there is room for the digits. -/
theorem hexTarget_eq {type : IntegerType}
    (h : (String.ofList (Text.lowerAscii suffix), type) ∈ n.suffixTypes)
    (hdigits : n.HasDigits 16) :
    Number.hexTarget (Text.lowerAscii suffix) n.digits.length n.value = type ∧
      n.value < 2 ^ type.width := by
  have hchars {name : String} (hname : String.ofList (Text.lowerAscii suffix) = name) :
      Text.lowerAscii suffix = name.toList := by
    rw [← hname, String.toList_ofList]
  have hwide : n.value < 2 ^ 64 := n.value_lt_of_hasDigits (by have hlimit := hdigits.2; omega)
  obtain ⟨hbare, hroom⟩ := n.hexType_eq hdigits
  simp only [suffixTypes, List.mem_cons, List.not_mem_nil, or_false, Prod.mk.injEq] at h
  rcases h with ⟨hname, rfl⟩ | ⟨hname, rfl⟩ | ⟨hname, rfl⟩ | ⟨hname, rfl⟩ | ⟨hname, rfl⟩ <;>
    rw [hchars hname]
  · exact ⟨hbare, n.value_lt_of_hasDigits hroom⟩
  · refine ⟨rfl, ?_⟩
    split
    · assumption
    · exact hwide
  · exact ⟨rfl, hwide⟩
  · exact ⟨rfl, hwide⟩
  · exact ⟨rfl, hwide⟩

theorem recovers_scanHex (h : IsIntegerSuffix suffix) (hdigits : n.HasDigits 16) :
    Scan.Recovers Number.scanHex (n.chars ++ suffix) (.integer ((Number.hexTarget
      (Text.lowerAscii suffix) n.digits.length n.value).ofBits n.value)) [] := by
  obtain ⟨hlength, hsuffix⟩ := h.isSuffix
  have hletters : ∀ c ∈ suffix, (c.toLower == 'u' || c.toLower == 'l') = true := by
    intro c hc
    simpa [isIntegerLetter] using h.isIntegerLetter c hc
  have hends : Bars Text.isHexDigit (suffix ++ []) := by
    rw [List.append_nil]
    exact bars_suffix h
  refine Scan.recovers_position fun mark ↦ ?_
  refine (n.recovers_scanHexDigits hdigits hends).bind ?_
  intro passed
  have hread := Scan.recovers_readAtMost_of_bars hlength hletters
    (rfl : Bars (fun c ↦ c.toLower == 'u' || c.toLower == 'l') []) passed
  have hboundary : Scan.atBoundary ⟨suffix.reverse ++ passed, []⟩ =
      .ok true ⟨suffix.reverse ++ passed, []⟩ := rfl
  rw [bind_ok hread, bind_ok hboundary, if_pos (by rw [hsuffix]; rfl), ofHexDigits_eq]
  rfl

theorem exists_fault_of_scanHex (h : IsIntegerSuffix suffix) (hdigits : ¬n.HasDigits 16)
    (passed : List Char) :
    ∃ fault cursor, Number.scanHex ⟨passed, n.chars ++ suffix⟩ = .error fault cursor := by
  obtain ⟨fault, cursor, hfault⟩ := n.exists_fault_of_scanHexDigits hdigits (bars_suffix h) passed
  have hposition : Scan.position ⟨passed, n.chars ++ suffix⟩ =
      .ok passed.length ⟨passed, n.chars ++ suffix⟩ := rfl
  refine ⟨fault, cursor, ?_⟩
  rw [Number.scanHex, bind_ok hposition, bind_error hfault]

/-- A zero and the mark are no other literal than a hexadecimal integer. -/
theorem scan_eq (rest : List Char) :
    Lexeme.scan localOffset none '0' ⟨[], n.chars ++ rest⟩ =
      (do return Lexeme.literal (← Number.scanHex) : Scan Lexeme) ⟨[], n.chars ++ rest⟩ := by
  have hdigits : Lexeme.scan localOffset none '0' ⟨[], n.chars ++ rest⟩ =
      Lexeme.scanDigits localOffset ⟨[], n.chars ++ rest⟩ := by
    change Lexeme.scan localOffset none '0' ⟨[], '0' :: (n.mark :: n.digits ++ rest)⟩ = _
    rw [Lexeme.scan_number rfl]
    exact if_pos rfl
  rw [hdigits, Lexeme.scanDigits, bind_ok (Lexeme.get_eq _), n.guidAhead, if_neg (by decide),
    bind_ok (n.hexAhead rest), if_pos rfl]

theorem readsBits_suffix {type : IntegerType}
    (h : (String.ofList (Text.lowerAscii suffix), type) ∈ n.suffixTypes) :
    n.ReadsBits localOffset (n.chars ++ suffix) 16 type := by
  have hsuffix := n.isIntegerSuffix_of_mem h
  refine ⟨fun hdigits ↦ ?_, fun hdigits ↦ ?_⟩
  · obtain ⟨htarget, hroom⟩ := n.hexTarget_eq h hdigits
    have hread := ((n.recovers_scanHex hsuffix hdigits).map (f := Lexeme.literal)) []
    rw [List.append_nil, htarget] at hread
    exact ⟨type.wrap n.value, type.contains_wrap n.value, IntegerType.wrap_modEq type n.value,
      fun hsign ↦ IntegerType.wrap_of_lt hsign hroom,
      Lexer.scan_of_literal rfl ((n.scan_eq suffix).trans hread)⟩
  · obtain ⟨fault, cursor, hfault⟩ := n.exists_fault_of_scanHex hsuffix hdigits []
    exact Lexer.refuses_of_fault rfl ((n.scan_eq suffix).trans (bind_error hfault))

/-! ### Literals behind a prefix -/

theorem scanTyped_eq (target : NumberType) : Number.scanTyped target ⟨passed, n.chars⟩ =
    Number.scanTypedHex target ⟨passed, n.chars⟩ := by
  have hhex : Number.hexAhead ⟨passed, n.chars⟩ = .ok true ⟨passed, n.chars⟩ := by
    simpa using n.hexAhead []
  rw [Number.scanTyped, bind_ok hhex, if_pos rfl]

/-- Digits that the type has room for are read as their bits. -/
theorem recovers_scanTyped {type : IntegerType} (h : 1 ≤ n.digits.length)
    (hroom : 4 * n.digits.length ≤ type.width) :
    Scan.Recovers (Number.scanTyped (.integer type)) n.chars (.integer (type.ofBits n.value))
      [] := by
  have hwidth : type.width ≤ 64 := by cases type <;> decide
  have hvalue : Number.ofHex (.integer type) n.digits = .ok (.integer (type.ofBits n.value)) := by
    rw [Number.ofHex, if_neg (by omega), ofHexDigits_eq]
    rfl
  intro passed
  have hread := n.recovers_scanHexDigits ⟨h, by omega⟩ (rfl : Bars Text.isHexDigit []) passed
  have hposition : Scan.position ⟨passed, n.chars⟩ = .ok passed.length ⟨passed, n.chars⟩ := rfl
  have hboundary : Scan.atBoundary ⟨n.chars.reverse ++ passed, []⟩ =
      .ok true ⟨n.chars.reverse ++ passed, []⟩ := rfl
  rw [List.append_nil] at hread ⊢
  rw [n.scanTyped_eq, Number.scanTypedHex, bind_ok hposition, bind_ok hread, bind_ok hboundary,
    if_pos rfl, hvalue]
  rfl

/-- Without digits, with too many, or with a type that is not one of integers there is no number. -/
theorem exists_fault_of_scanTyped {target : NumberType}
    (h : ∀ type, target = .integer type → ¬n.HasDigits (type.width / 4)) (passed : List Char) :
    ∃ fault cursor, Number.scanTyped target ⟨passed, n.chars⟩ = .error fault cursor := by
  have hposition : Scan.position ⟨passed, n.chars⟩ = .ok passed.length ⟨passed, n.chars⟩ := rfl
  rw [n.scanTyped_eq, Number.scanTypedHex, bind_ok hposition]
  by_cases hdigits : n.HasDigits 16
  · have hread := n.recovers_scanHexDigits hdigits (rfl : Bars Text.isHexDigit []) passed
    have hboundary : Scan.atBoundary ⟨n.chars.reverse ++ passed, []⟩ =
        .ok true ⟨n.chars.reverse ++ passed, []⟩ := rfl
    have hvalue : ∃ fault, Number.ofHex target n.digits = .error fault := by
      cases target with
      | integer type =>
        have hmany := h type rfl
        have hone := hdigits.1
        rw [HasDigits] at hmany
        exact ⟨_, if_pos (by omega)⟩
      | float => exact ⟨_, rfl⟩
      | double => exact ⟨_, rfl⟩
      | decimal => exact ⟨_, rfl⟩
    obtain ⟨fault, hvalue⟩ := hvalue
    rw [List.append_nil] at hread
    rw [bind_ok hread, bind_ok hboundary, if_pos rfl, hvalue]
    exact ⟨_, _, rfl⟩
  · obtain ⟨fault, cursor, hfault⟩ :=
      n.exists_fault_of_scanHexDigits hdigits (rfl : Bars Text.isHexDigit []) passed
    rw [List.append_nil] at hfault
    exact ⟨fault, cursor, bind_error hfault⟩

theorem readsBits_prefix {type : IntegerType}
    (h : (String.ofList (Text.lowerAscii word), type) ∈ integerPrefixes) :
    n.ReadsBits localOffset (word ++ ':' :: n.chars) (type.width / 4) type := by
  have htype := DecimalInteger.mem_integerPrefixes_iff.mp h
  refine ⟨fun hdigits ↦ ?_, fun hdigits ↦ ?_⟩
  · have hroom : 4 * n.digits.length ≤ type.width := by
      have hlimit := hdigits.2
      omega
    exact ⟨type.wrap n.value, type.contains_wrap n.value, IntegerType.wrap_modEq type n.value,
      fun hsign ↦ IntegerType.wrap_of_lt hsign (n.value_lt_of_hasDigits hroom),
      Lexer.scansTo_typed htype (n.recovers_scanTyped hdigits.1 hroom)⟩
  · have hnone : ∀ other, NumberType.integer type = .integer other →
        ¬n.HasDigits (other.width / 4) := by
      rintro _ ⟨⟩
      exact hdigits
    obtain ⟨fault, cursor, hfault⟩ := n.exists_fault_of_scanTyped hnone (':' :: word.reverse)
    exact Lexer.refuses_typed htype hfault

theorem refuses_real (h : String.ofList (Text.lowerAscii word) ∈ realPrefixes) :
    Lexer.Refuses localOffset (word ++ ':' :: n.chars) := by
  have hnames : ∀ name ∈ realPrefixes, ∃ target, LiteralType.names.lookup name =
      some (.number target) ∧ target.isInteger = false := by
    intro name hname
    simp only [realPrefixes, List.mem_cons, List.not_mem_nil, or_false] at hname
    rcases hname with rfl | rfl | rfl | rfl
    · exact ⟨.float, by decide, rfl⟩
    · exact ⟨.float, by decide, rfl⟩
    · exact ⟨.double, by decide, rfl⟩
    · exact ⟨.decimal, by decide, rfl⟩
  obtain ⟨target, htype, hreal⟩ := hnames _ h
  have hnone : ∀ type, target = .integer type → ¬n.HasDigits (type.width / 4) := by
    rintro type rfl
    cases hreal
  obtain ⟨fault, cursor, hfault⟩ := n.exists_fault_of_scanTyped hnone (':' :: word.reverse)
  exact Lexer.refuses_typed htype hfault

/-- A hexadecimal integer as a whole text is the literal of just the bits that its digits denote,
if there are digits and the type has room for them; otherwise scanning fails. The type is the one
that the suffix or the prefix tells, and the prefix of a type that is not one of integers is an
error. -/
theorem reads_bits (n : HexadecimalInteger) (localOffset : UtcOffset) :
    (∀ suffix type, (String.ofList (Text.lowerAscii suffix), type) ∈ n.suffixTypes →
      n.ReadsBits localOffset (n.chars ++ suffix) 16 type) ∧
    (∀ word type, (String.ofList (Text.lowerAscii word), type) ∈ integerPrefixes →
      n.ReadsBits localOffset (word ++ ':' :: n.chars) (type.width / 4) type) ∧
    ∀ word, String.ofList (Text.lowerAscii word) ∈ realPrefixes →
      Lexer.Refuses localOffset (word ++ ':' :: n.chars) :=
  ⟨fun _ _ ↦ n.readsBits_suffix, fun _ _ ↦ n.readsBits_prefix, fun _ ↦ n.refuses_real⟩

/-- The sign bit of a type, a suffix that needs the wider type, and one digit too many. -/
theorem reads_bits_edges :
    let high : HexadecimalInteger := ⟨'x', "80".toList, .inl rfl, forall_mem_of_all (by decide)⟩
    let wide : HexadecimalInteger :=
      ⟨'X', "100000000".toList, .inr rfl, forall_mem_of_all (by decide)⟩
    high.value = 128 ∧ wide.value = 4294967296 ∧
    Lexer.ScansTo .utc "0x80".toList (.integer ⟨.uint8, 128, by decide⟩) ∧
    Lexer.ScansTo .utc "SByte:0x80".toList (.integer ⟨.int8, -128, by decide⟩) ∧
    Lexer.ScansTo .utc "0X100000000U".toList (.integer ⟨.uint64, 4294967296, by decide⟩) ∧
    Lexer.Refuses .utc "int32:0X100000000".toList ∧ Lexer.Refuses .utc "double:0x80".toList := by
  intro high wide
  have hhigh : high.value = 128 := by decide
  have hwide : wide.value = 4294967296 := by decide
  obtain ⟨hbare, htyped, hreal⟩ := reads_bits high .utc
  obtain ⟨hsuffix, hnarrow, -⟩ := reads_bits wide .utc
  obtain ⟨bits, hbits, -, hvalue, hscan⟩ := (hbare [] .uint8 (by decide)).scansTo (by decide)
  obtain rfl : bits = 128 := by rw [hvalue rfl, hhigh]; rfl
  obtain ⟨signed, hsigned, hmod, -, hscanSigned⟩ :=
    (htyped "SByte".toList .int8 (by decide)).scansTo (by decide)
  obtain rfl : signed = -128 := by
    rw [hhigh] at hmod
    have hrange : -128 ≤ signed ∧ signed ≤ 127 := hsigned
    have hcongruent : signed % 256 = 128 := hmod
    omega
  obtain ⟨long, hlong, -, hvalueLong, hscanLong⟩ :=
    (hsuffix "U".toList .uint64 (by decide)).scansTo (by decide)
  obtain rfl : long = 4294967296 := by rw [hvalueLong rfl, hwide]; rfl
  exact ⟨hhigh, hwide, hscan, hscanSigned, hscanLong,
    (hnarrow "int32".toList .int32 (by decide)).refuses (by decide),
    hreal "double".toList (by decide)⟩

end HexadecimalInteger

end ResourceQuery
