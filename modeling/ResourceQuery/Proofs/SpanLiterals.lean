import ResourceQuery.Proofs.DistinctTexts
import ResourceQuery.Proofs.IntegerLiterals
import ResourceQuery.Proofs.MomentText

/-!
# Time span literals

A time span is read from just the texts of its written form, and it is just the number of
nanoseconds that the fields denote. Nothing in between is too large for the numbers of 64 and of 32
bits with which it is computed. What is printed for a span that can be written is one of its written
forms, and is the literal of the same span.
-/

namespace ResourceQuery

open Run

/-- The written form of a time span, whose minutes and seconds may yet be too large. -/
structure SpanText where
  sign : Option Char
  hours : List Char
  minutes : List Char
  seconds : List Char
  /-- The digits behind the point; none when there is no point. -/
  fraction : List Char
  isSign_sign : ∀ c ∈ sign, isSign c = true
  length_hours : 0 < hours.length ∧ hours.length ≤ 9
  length_minutes : minutes.length = 2
  length_seconds : seconds.length = 2
  isDigit_hours : ∀ c ∈ hours, Text.isDigit c = true
  isDigit_minutes : ∀ c ∈ minutes, Text.isDigit c = true
  isDigit_seconds : ∀ c ∈ seconds, Text.isDigit c = true
  isDigit_fraction : ∀ c ∈ fraction, Text.isDigit c = true

namespace SpanText

variable (s : SpanText)

def chars : List Char :=
  s.sign.toList ++
    (s.hours ++ ':' :: (s.minutes ++ ':' :: (s.seconds ++ Text.afterPoint s.fraction)))

/-- Minutes and seconds are below sixty. -/
def InRange : Prop :=
  Text.ofDigits s.minutes < 60 ∧ Text.ofDigits s.seconds < 60

instance : Decidable s.InRange :=
  inferInstanceAs (Decidable (_ ∧ _))

/-- The first nine digits of the fraction, with zeros behind them where there are fewer. -/
def nanos : Nat :=
  Text.ofDigits ((s.fraction ++ List.replicate 9 '0').take 9)

def wholeSeconds : Nat :=
  Text.ofDigits s.hours * 3600 + Text.ofDigits s.minutes * 60 + Text.ofDigits s.seconds

/-- The span that the fields denote. -/
def value : TimeSpan :=
  ⟨(if s.sign = some '-' then -1 else 1) * (s.wholeSeconds * 10 ^ 9 + s.nanos : Nat)⟩

end SpanText

/-! ### Fractions -/

namespace TimeSpan

open Scan Text

variable {cursor next : Cursor} {digits rest : List Char} {mark : Nat} {part : SpanPart}

theorem nanosOfFraction_eq (digits : List Char) :
    nanosOfFraction digits = ofDigits ((digits ++ List.replicate 9 '0').take 9) := by
  have hkept : 9 - (digits.take 9).length = 9 - digits.length := by
    rw [List.length_take]
    omega
  rw [nanosOfFraction, hkept, List.take_append, List.take_replicate,
    Nat.min_eq_left (Nat.sub_le _ _), ofDigits_append_zeros]

/-! ### Fields -/

theorem recovers_scanTwoDigits (hlength : digits.length = 2)
    (hdigits : ∀ c ∈ digits, isDigit c = true) :
    Recovers (scanTwoDigits mark part) digits (ofDigits digits) rest := by
  intro passed
  have hread : Recovers (readAtMost 2 isDigit) digits digits rest :=
    hlength ▸ recovers_readAtMost hdigits
  rw [scanTwoDigits, bind_ok (hread passed), if_neg (by omega)]
  rfl

theorem spells_scanTwoDigits :
    Spells cursor (scanTwoDigits mark part) fun n run ↦ run.length = 2 ∧
      (∀ c ∈ run, isDigit c = true) ∧ n = ofDigits run := by
  refine (spells_readAtMost 2 isDigit).bind ?_
  rintro _ middle digits ⟨rfl, hdigits, -⟩
  refine spells_ite (fun _ ↦ spells_failFrom_bind) fun hlength ↦ spells_pure ?_
  rw [List.append_nil]
  exact ⟨not_ne_iff.mp hlength, hdigits, rfl⟩

theorem recovers_scanColon : Recovers (scanColon mark part) [':'] () rest := by
  intro passed
  rw [scanColon, bind_ok (recovers_accept passed)]
  rfl

theorem spells_scanColon : Spells cursor (scanColon mark part) fun _ run ↦ run = [':'] := by
  refine (spells_accept ':').bind fun accepted _ run hrun ↦ ?_
  cases accepted with
  | false => exact spells_failFrom _ _
  | true => exact spells_pure (by rw [hrun, if_pos rfl, List.append_nil])

/-! ### Whole spans -/

theorem ofParts_eq (s : SpanText) :
    ofParts (s.sign == some '-') (ofDigits s.hours) (ofDigits s.minutes) (ofDigits s.seconds)
      (nanosOfFraction s.fraction) = s.value := by
  rw [ofParts, nanosOfFraction_eq, SpanText.value, SpanText.nanos, SpanText.wholeSeconds]
  by_cases hsign : s.sign = some '-' <;> simp [hsign, nanosPerSecond]

/-- The written form of a span is read up to a boundary. -/
theorem recovers_scan {s : SpanText} (hrange : s.InRange) (hrest : Bars isWordChar rest) :
    Recovers scan s.chars s.value rest := by
  have hbars {inClass : Char → Bool} (hclass : ∀ c, inClass c = true → isWordChar c = true) :
      Bars inClass rest := hrest.mono hclass
  have hsigns : s.sign = none → Bars isSign (s.hours ++ ':' :: (s.minutes ++ ':' :: (s.seconds ++
      afterPoint s.fraction)) ++ rest) := by
    intro _
    obtain ⟨digit, hours, hhours⟩ := List.exists_cons_of_length_pos s.length_hours.1
    rw [hhours]
    exact isSign_of_isDigit (s.isDigit_hours digit (hhours ▸ List.mem_cons_self))
  have hours : s.hours.isEmpty = false := by
    rw [List.isEmpty_eq_false_iff]
    exact List.ne_nil_of_length_pos s.length_hours.1
  refine recovers_position fun mark ↦ ?_
  refine (recovers_readIf_option s.isSign_sign hsigns).bind ?_
  refine (recovers_readAtMost_of_bars s.length_hours.2 s.isDigit_hours (by rfl)).bind ?_
  rw [hours, if_neg (by decide)]
  refine Recovers.bind_cons recovers_scanColon ?_
  refine (recovers_scanTwoDigits s.length_minutes s.isDigit_minutes).bind ?_
  refine Recovers.bind_cons recovers_scanColon ?_
  refine (recovers_scanTwoDigits s.length_seconds s.isDigit_seconds).bind ?_
  intro passed
  have hfraction : Recovers scanFraction (afterPoint s.fraction)
      (nanosOfFraction s.fraction) rest :=
    Numeral.recovers_nanos s.isDigit_fraction (hbars fun c hc ↦ eq_of_beq hc ▸ rfl)
      (hbars fun c ↦ isWordChar_of_isDigit)
  have hboundary : atBoundary ⟨(afterPoint s.fraction).reverse ++ passed, rest⟩ =
      .ok true ⟨(afterPoint s.fraction).reverse ++ passed, rest⟩ :=
    congrArg (EStateM.Result.ok · _) (Cursor.atBoundary_iff.mpr hrest)
  have hsixty : ¬(59 < ofDigits s.minutes ∨ 59 < ofDigits s.seconds) := by
    rw [SpanText.InRange] at hrange
    omega
  rw [bind_ok (hfraction passed), bind_ok hboundary, if_pos rfl, if_neg (by simpa using hsixty),
    ofParts_eq]
  rfl

/-- A span is read from its written form alone. -/
theorem exists_text_of_scan {span : TimeSpan} (h : scan cursor = .ok span next) :
    ∃ s : SpanText, s.InRange ∧ Cursor.Between s.chars cursor next ∧ next.atBoundary = true ∧
      span = s.value := by
  obtain ⟨mark, start, hmark, h⟩ := bind_eq_ok.mp h
  obtain ⟨rfl, rfl⟩ := EStateM.Result.ok.inj hmark
  obtain ⟨sign, _, hread, h⟩ := bind_eq_ok.mp h
  obtain ⟨_, hsignRun, rfl, hsign⟩ := spells_readIf _ _ _ hread
  obtain ⟨_, _, hread, h⟩ := bind_eq_ok.mp h
  obtain ⟨hours, hhoursRun, rfl, hhours, hlength⟩ := spells_readAtMost _ _ _ _ hread
  split at h
  · exact nomatch h
  next hne =>
  obtain ⟨_, _, hread, h⟩ := bind_eq_ok.mp h
  obtain ⟨_, hcolonRun, rfl⟩ := spells_scanColon _ _ hread
  obtain ⟨_, _, hread, h⟩ := bind_eq_ok.mp h
  obtain ⟨minutes, hminutesRun, htwoMinutes, hminutes, rfl⟩ := spells_scanTwoDigits _ _ hread
  obtain ⟨_, _, hread, h⟩ := bind_eq_ok.mp h
  obtain ⟨_, hsecondColonRun, rfl⟩ := spells_scanColon _ _ hread
  obtain ⟨_, _, hread, h⟩ := bind_eq_ok.mp h
  obtain ⟨seconds, hsecondsRun, htwoSeconds, hseconds, rfl⟩ := spells_scanTwoDigits _ _ hread
  obtain ⟨_, _, hread, h⟩ := bind_eq_ok.mp h
  obtain ⟨_, hfractionRun, fraction, hfraction, rfl, rfl⟩ := spells_scanFraction _ _ hread
  obtain ⟨boundary, _, hread, h⟩ := bind_eq_ok.mp h
  obtain ⟨rfl, rfl⟩ := EStateM.Result.ok.inj hread
  split at h
  next hboundary =>
    split at h
    · exact nomatch h
    next hsixty =>
    obtain ⟨rfl, rfl⟩ := pure_eq_ok.mp h
    have hlow : 0 < hours.length := List.length_pos_iff.mpr (by simpa using hne)
    have hrange : ofDigits minutes < 60 ∧ ofDigits seconds < 60 := by
      simp only [Bool.or_eq_true, decide_eq_true_eq] at hsixty
      omega
    let s : SpanText := ⟨sign, hours, minutes, seconds, fraction, hsign, ⟨hlow, hlength⟩,
      htwoMinutes, htwoSeconds, hhours, hminutes, hseconds, hfraction⟩
    refine ⟨s, hrange, ?_, hboundary, ofParts_eq s⟩
    exact hsignRun.append (hhoursRun.append (hcolonRun.append (hminutesRun.append
      (hsecondColonRun.append (hsecondsRun.append hfractionRun)))))
  · exact nomatch h

end TimeSpan

/-! ### Arithmetic of a fixed width -/

/-- The result of a computation in a type; outside its range there is none. -/
def IntegerType.within? (type : IntegerType) (n : Int) : Option Int :=
  if type.Contains n then some n else none

theorem IntegerType.within?_of_le {type : IntegerType} {n : Nat} (h : (n : Int) ≤ type.highest) :
    type.within? n = some (n : Int) := by
  have hlow : type.lowest ≤ 0 := by cases type <;> decide
  exact if_pos ⟨by omega, h⟩

/-- A length of time in nanoseconds, up to as many milliseconds as 64 bits hold. -/
def TimeSpan.within? (nanoseconds : Int) : Option Int :=
  if nanoseconds.natAbs ≤ IntegerType.int64.highest * 1000000 then some nanoseconds else none

theorem TimeSpan.within?_of_lt {n : Int} (h : n.natAbs < 10 ^ 24) : within? n = some n := by
  have hhighest : IntegerType.int64.highest = 9223372036854775807 := by decide
  rw [within?, if_pos (by omega)]

namespace SpanText

variable (s : SpanText)

/-- The fraction in nanoseconds, computed with 32 bits. -/
def computedNanos? : Option Int := do
  if s.fraction = [] then return 0
  else
    let kept := s.fraction.take 9
    let digits ← IntegerType.uint32.within? (Text.ofDigits kept : Nat)
    let scale ← IntegerType.uint32.within? (tenTo (9 - kept.length) : Nat)
    IntegerType.uint32.within? (digits * scale)

/-- The seconds of the fields, computed with 64 bits. -/
def computedSeconds? : Option Int := do
  let hours ← IntegerType.int64.within? (Text.ofDigits s.hours : Nat)
  let minutes ← IntegerType.int64.within? (Text.ofDigits s.minutes : Nat)
  let seconds ← IntegerType.int64.within? (Text.ofDigits s.seconds : Nat)
  let hourly ← IntegerType.int64.within? (hours * 3600)
  let minutely ← IntegerType.int64.within? (minutes * 60)
  let sum ← IntegerType.int64.within? (hourly + minutely)
  IntegerType.int64.within? (sum + seconds)

/-- The span as it is computed step by step. There is none if digits are no number of their type, if
a product or a sum leaves the range of its type, or if a length of time is too long. -/
def computed? : Option TimeSpan := do
  let nanos ← s.computedNanos?
  let seconds ← s.computedSeconds?
  let whole ← TimeSpan.within? (seconds * TimeSpan.nanosPerSecond)
  let length ← TimeSpan.within? (whole + nanos)
  if s.sign = some '-' then return ⟨← TimeSpan.within? (-length)⟩ else return ⟨length⟩

theorem ofDigits_fields_lt : Text.ofDigits s.hours < 10 ^ 9 ∧ Text.ofDigits s.minutes < 10 ^ 2 ∧
    Text.ofDigits s.seconds < 10 ^ 2 := by
  refine ⟨?_, ?_, ?_⟩
  · exact (Text.ofDigits_lt s.isDigit_hours).trans_le
      (Nat.pow_le_pow_right (by decide) s.length_hours.2)
  · exact (Text.ofDigits_lt s.isDigit_minutes).trans_eq (by rw [s.length_minutes])
  · exact (Text.ofDigits_lt s.isDigit_seconds).trans_eq (by rw [s.length_seconds])

theorem wholeSeconds_lt : s.wholeSeconds < 10 ^ 13 := by
  obtain ⟨hhours, hminutes, hseconds⟩ := s.ofDigits_fields_lt
  rw [wholeSeconds]
  omega

theorem nanos_lt : s.nanos < 10 ^ 9 := by
  have hdigits : ∀ c ∈ (s.fraction ++ List.replicate 9 '0').take 9, Text.isDigit c = true := by
    intro c hc
    obtain hc | hc := List.mem_append.mp (List.mem_of_mem_take hc)
    · exact s.isDigit_fraction c hc
    · obtain rfl := List.eq_of_mem_replicate hc
      decide
  refine (Text.ofDigits_lt hdigits).trans_le (Nat.pow_le_pow_right (by decide) ?_)
  exact List.length_take_le _ _

theorem computedNanos?_eq : s.computedNanos? = some (s.nanos : Int) := by
  have hnanos := s.nanos_lt
  have hhighest : IntegerType.uint32.highest = 4294967295 := by decide
  by_cases hempty : s.fraction = []
  · rw [computedNanos?, if_pos hempty, nanos, hempty]
    rfl
  · let kept := s.fraction.take 9
    have hproduct : Text.ofDigits kept * tenTo (9 - kept.length) = s.nanos :=
      TimeSpan.nanosOfFraction_eq s.fraction
    have hkept : Text.ofDigits kept < 10 ^ 9 := by
      have hdigits : ∀ c ∈ kept, Text.isDigit c = true := fun c hc ↦
        s.isDigit_fraction c (List.mem_of_mem_take hc)
      exact (Text.ofDigits_lt hdigits).trans_le
        (Nat.pow_le_pow_right (by decide) (List.length_take_le _ _))
    have hscale : tenTo (9 - kept.length) ≤ 10 ^ 9 :=
      Nat.pow_le_pow_right (by decide) (Nat.sub_le _ _)
    have hfits {n : Nat} (hn : n ≤ 10 ^ 9) : IntegerType.uint32.within? n = some (n : Int) :=
      IntegerType.within?_of_le (by omega)
    have hnumber : IntegerType.uint32.within?
        ((Text.ofDigits kept : Nat) * (tenTo (9 - kept.length) : Nat) : Int) =
          some (s.nanos : Int) := by
      rw [← Int.natCast_mul, hproduct, hfits hnanos.le]
    rw [computedNanos?, if_neg hempty]
    refine Option.bind_eq_some_iff.mpr ⟨_, hfits hkept.le, ?_⟩
    exact Option.bind_eq_some_iff.mpr ⟨_, hfits hscale, hnumber⟩

theorem computedSeconds?_eq : s.computedSeconds? = some (s.wholeSeconds : Int) := by
  obtain ⟨hhours, hminutes, hseconds⟩ := s.ofDigits_fields_lt
  have hhighest : IntegerType.int64.highest = 9223372036854775807 := by decide
  have hfits {n : Int} (hn : 0 ≤ n ∧ n < 10 ^ 15) : IntegerType.int64.within? n = some n := by
    obtain ⟨n, rfl⟩ := Int.eq_ofNat_of_zero_le hn.1
    exact IntegerType.within?_of_le (by omega)
  simp only [computedSeconds?, Option.bind_eq_bind]
  rw [hfits (by omega), Option.bind_some, hfits (by omega), Option.bind_some, hfits (by omega),
    Option.bind_some, hfits (by omega), Option.bind_some, hfits (by omega), Option.bind_some,
    hfits (by omega), Option.bind_some, hfits (by omega)]
  simp [wholeSeconds]

/-- Nothing in the computation of a span is too large. -/
theorem computed?_eq : s.computed? = some s.value := by
  have hseconds := s.wholeSeconds_lt
  have hnanos := s.nanos_lt
  have hwhole : TimeSpan.within? (s.wholeSeconds * TimeSpan.nanosPerSecond) =
      some (s.wholeSeconds * TimeSpan.nanosPerSecond : Int) :=
    TimeSpan.within?_of_lt (by simp only [TimeSpan.nanosPerSecond]; omega)
  have hlength : TimeSpan.within? (s.wholeSeconds * TimeSpan.nanosPerSecond + s.nanos) =
      some (s.wholeSeconds * TimeSpan.nanosPerSecond + s.nanos : Int) :=
    TimeSpan.within?_of_lt (by simp only [TimeSpan.nanosPerSecond]; omega)
  have hnegative : TimeSpan.within? (-(s.wholeSeconds * TimeSpan.nanosPerSecond + s.nanos)) =
      some (-(s.wholeSeconds * TimeSpan.nanosPerSecond + s.nanos : Int)) :=
    TimeSpan.within?_of_lt (by simp only [TimeSpan.nanosPerSecond]; omega)
  refine Option.bind_eq_some_iff.mpr ⟨_, s.computedNanos?_eq, ?_⟩
  refine Option.bind_eq_some_iff.mpr ⟨_, s.computedSeconds?_eq, ?_⟩
  refine Option.bind_eq_some_iff.mpr ⟨_, hwhole, Option.bind_eq_some_iff.mpr ⟨_, hlength, ?_⟩⟩
  by_cases hsign : s.sign = some '-'
  · rw [if_pos hsign]
    refine Option.bind_eq_some_iff.mpr ⟨_, hnegative, ?_⟩
    simp [value, hsign, TimeSpan.nanosPerSecond]
  · rw [if_neg hsign]
    simp [value, hsign, TimeSpan.nanosPerSecond]

end SpanText

/-! ### Printed spans -/

namespace SpanText

open Text

theorem isSign_of_printed {negative : Bool} :
    ∀ c ∈ if negative then some '-' else none, isSign c = true := by
  cases negative <;> simp [isSign]

/-- The written form that is printed, with two digits each for the minutes and the seconds. -/
def printed (negative : Bool) (seconds : Nat) (fraction : List Char)
    (hseconds : seconds < 10 ^ 9 * 3600) (hfraction : ∀ c ∈ fraction, isDigit c = true) :
    SpanText where
  sign := if negative then some '-' else none
  hours := decimal (seconds / 3600)
  minutes := decimalPadded 2 (seconds / 60 % 60)
  seconds := decimalPadded 2 (seconds % 60)
  fraction := fraction
  isSign_sign := isSign_of_printed
  length_hours := ⟨List.length_pos_of_ne_nil (decimal_ne_nil _),
    length_decimal_le (by decide) (by omega)⟩
  length_minutes := length_decimalPadded (by decide) (by omega)
  length_seconds := length_decimalPadded (by decide) (by omega)
  isDigit_hours := isDigit_of_mem_decimal _
  isDigit_minutes := isDigit_of_mem_decimalPadded 2 _
  isDigit_seconds := isDigit_of_mem_decimalPadded 2 _
  isDigit_fraction := hfraction

variable {negative : Bool} {seconds : Nat} {fraction : List Char}
  {hseconds : seconds < 10 ^ 9 * 3600} {hfraction : ∀ c ∈ fraction, isDigit c = true}

theorem inRange_printed : (printed negative seconds fraction hseconds hfraction).InRange := by
  rw [InRange, printed, ofDigits_decimalPadded, ofDigits_decimalPadded]
  exact ⟨Nat.mod_lt _ (by decide), Nat.mod_lt _ (by decide)⟩

theorem value_printed : (printed negative seconds fraction hseconds hfraction).value =
    ⟨(if negative then -1 else 1) *
      (seconds * 10 ^ 9 + TimeSpan.nanosOfFraction fraction : Nat)⟩ := by
  have hwhole : (printed negative seconds fraction hseconds hfraction).wholeSeconds = seconds := by
    rw [wholeSeconds, printed, ofDigits_decimal, ofDigits_decimalPadded, ofDigits_decimalPadded]
    omega
  rw [value, hwhole, nanos, ← TimeSpan.nanosOfFraction_eq]
  cases negative <;> rfl

end SpanText

namespace TimeSpan

/-- What is printed for a span of hours that nine digits can tell is a written form of it. -/
theorem exists_text_of_print {span : TimeSpan}
    (h : span.nanoseconds.natAbs < 10 ^ 9 * 3600 * 10 ^ 9) :
    ∃ s : SpanText, s.InRange ∧ s.chars = span.print ∧ s.value = span := by
  have hseconds : span.nanoseconds.natAbs / nanosPerSecond < 10 ^ 9 * 3600 :=
    Nat.div_lt_of_lt_mul (by rw [nanosPerSecond]; omega)
  have hnanos : span.nanoseconds.natAbs % nanosPerSecond < 10 ^ 9 := Nat.mod_lt _ (by decide)
  obtain ⟨fraction, hprint, hfraction⟩ := exists_isFraction hnanos
  refine ⟨.printed (span.nanoseconds < 0) _ fraction hseconds hfraction.isDigit_chars,
    SpanText.inRange_printed, ?_, ?_⟩
  · rw [print, hprint]
    by_cases hnegative : span.nanoseconds < 0 <;> simp [SpanText.chars, SpanText.printed, hnegative]
  · have habs : span.nanoseconds.natAbs / nanosPerSecond * 10 ^ 9 +
        span.nanoseconds.natAbs % nanosPerSecond = span.nanoseconds.natAbs :=
      Nat.div_add_mod' _ nanosPerSecond
    rw [SpanText.value_printed, hfraction.nanosOfFraction_eq, habs]
    by_cases hnegative : span.nanoseconds < 0
    · rw [if_pos (decide_eq_true hnegative)]
      congr 1
      omega
    · rw [if_neg (by simpa using hnegative)]
      congr 1
      omega

end TimeSpan

/-! ### Whole texts -/

namespace SpanText

variable (s : SpanText) {passed : List Char} {localOffset : UtcOffset}

theorem natAbs_value_lt (h : s.InRange) : s.value.nanoseconds.natAbs < 10 ^ 9 * 3600 * 10 ^ 9 := by
  obtain ⟨hhours, -, -⟩ := s.ofDigits_fields_lt
  have hnanos := s.nanos_lt
  have hlength : s.value.nanoseconds.natAbs = s.wholeSeconds * 10 ^ 9 + s.nanos := by
    change ((if s.sign = some '-' then -1 else 1) *
      ((s.wholeSeconds * 10 ^ 9 + s.nanos : Nat) : Int)).natAbs = _
    rw [Int.natAbs_mul, Int.natAbs_natCast]
    split <;> exact Nat.one_mul _
  rw [InRange] at h
  rw [hlength, wholeSeconds]
  omega

/-- What is written behind the hours. -/
def behind : List Char :=
  ':' :: (s.minutes ++ ':' :: (s.seconds ++ Text.afterPoint s.fraction))

/-- What a span is made of behind its first character. -/
def isSpanChar (c : Char) : Bool :=
  Text.isDigit c || [':', '.'].contains c

theorem isSpanChar_of_isDigit {digits : List Char} (h : ∀ c ∈ digits, Text.isDigit c = true) :
    ∀ c ∈ digits, isSpanChar c = true := by
  intro c hc
  rw [isSpanChar, h c hc, Bool.true_or]

theorem isSpanChar_of_mem_afterPoint {digits : List Char}
    (h : ∀ c ∈ digits, Text.isDigit c = true) :
    ∀ c ∈ Text.afterPoint digits, isSpanChar c = true := by
  cases digits with
  | nil => exact List.forall_mem_nil _
  | cons digit rest => exact List.forall_mem_cons.mpr ⟨rfl, isSpanChar_of_isDigit h⟩

theorem isSpanChar_of_mem_fields : ∀ c ∈ s.hours ++ s.behind, isSpanChar c = true := by
  have hseconds := List.forall_mem_append.mpr ⟨isSpanChar_of_isDigit s.isDigit_seconds,
    isSpanChar_of_mem_afterPoint s.isDigit_fraction⟩
  have hminutes := List.forall_mem_append.mpr ⟨isSpanChar_of_isDigit s.isDigit_minutes,
    List.forall_mem_cons.mpr ⟨(rfl : isSpanChar ':' = true), hseconds⟩⟩
  exact List.forall_mem_append.mpr ⟨isSpanChar_of_isDigit s.isDigit_hours,
    List.forall_mem_cons.mpr ⟨(rfl : isSpanChar ':' = true), hminutes⟩⟩

theorem isPlain_chars : Text.IsPlain s.chars := by
  refine List.forall_mem_append.mpr ⟨fun c hc ↦ ?_, fun c hc ↦ ?_⟩
  · have hsign := s.isSign_sign c (by simpa using hc)
    simp only [isSign, Bool.or_eq_true, beq_iff_eq] at hsign
    obtain rfl | rfl := hsign <;> rfl
  · have hfield := s.isSpanChar_of_mem_fields c hc
    simp only [isSpanChar, Bool.or_eq_true, List.contains_iff_mem, List.mem_cons,
      List.not_mem_nil, or_false] at hfield
    obtain hdigit | rfl | rfl := hfield
    · simp [Text.isPlain, hdigit]
    · rfl
    · rfl

/-- Behind the first character there are only digits, colons and a point. -/
theorem not_mem_tail {c : Char} (h : isSpanChar c = false) : c ∉ s.chars.tail := by
  have htail : ∀ c ∈ s.chars.tail, isSpanChar c = true := by
    rw [chars]
    cases s.sign with
    | none => exact fun c hc ↦ s.isSpanChar_of_mem_fields c (List.mem_of_mem_tail hc)
    | some sign => exact s.isSpanChar_of_mem_fields
  intro hc
  rw [htail c hc] at h
  cases h

/-- The hours and the first colon tell a span from every other literal. -/
theorem spanAhead : TimeSpan.ahead ⟨passed, s.chars⟩ = true := by
  have hsigned : (⟨passed, s.chars⟩ : Cursor).peek.any isSign = s.sign.isSome := by
    obtain ⟨digit, hours, hhours⟩ := List.exists_cons_of_length_pos s.length_hours.1
    rw [chars, hhours]
    cases hsign : s.sign with
    | none => exact isSign_of_isDigit (s.isDigit_hours digit (by simp [hhours]))
    | some sign => exact s.isSign_sign sign hsign
  have hrest : (⟨passed, s.chars⟩ : Cursor).passOver (if s.sign.isSome then 1 else 0) =
      ⟨s.sign.toList.reverse ++ passed, s.hours ++ s.behind⟩ := by
    rw [chars]
    cases s.sign <;> rfl
  have hcount : (⟨s.sign.toList.reverse ++ passed, s.hours ++ s.behind⟩ : Cursor).countAhead
      Text.isDigit = s.hours.length :=
    Cursor.countAhead_run s.isDigit_hours (show Bars Text.isDigit s.behind from rfl)
  have hcolon : (⟨s.sign.toList.reverse ++ passed, s.hours ++ s.behind⟩ : Cursor).peekAt
      s.hours.length = some ':' := by
    rw [Cursor.peekAt, List.getElem?_append_right (Nat.le_refl _), Nat.sub_self]
    rfl
  unfold TimeSpan.ahead
  dsimp only
  rw [show (fun c ↦ c == '+' || c == '-') = isSign from rfl, hsigned, hrest, hcount, hcolon,
    decide_eq_true s.length_hours.1]
  rfl

theorem scanDigits_eq : Lexeme.scanDigits localOffset ⟨passed, s.chars⟩ =
    (do return .literal (.span (← TimeSpan.scan)) : Scan Lexeme) ⟨passed, s.chars⟩ := by
  rw [Lexeme.scanDigits, bind_ok (Lexeme.get_eq _), guidAhead_of_tail (s.not_mem_tail rfl),
    if_neg (by decide), bind_ok (hexAhead_of_tail (s.not_mem_tail rfl) (s.not_mem_tail rfl)),
    if_neg (by decide), s.spanAhead, if_pos rfl]

/-- The written form of a span is a literal by itself. -/
theorem scansTo_chars (h : s.InRange) : Lexer.ScansTo localOffset s.chars (.span s.value) := by
  have hspan : Scan.Recovers TimeSpan.scan s.chars s.value [] := TimeSpan.recovers_scan h rfl
  have hread := hspan.map (f := Lexeme.literal ∘ Value.span) []
  rw [List.append_nil] at hread
  have hhours : s.hours ≠ [] := List.ne_nil_of_length_pos s.length_hours.1
  obtain ⟨c, body, htext⟩ : ∃ c body, s.chars = c :: body :=
    List.exists_cons_of_ne_nil (List.append_ne_nil_of_right_ne_nil _
      (List.append_ne_nil_of_left_ne_nil hhours _))
  have hscan : Text.isBlank c = false ∧ Lexeme.scan localOffset none c ⟨[], c :: body⟩ =
      Lexeme.scanDigits localOffset ⟨[], c :: body⟩ :=
    Lexeme.scan_eq_scanDigits s.isSign_sign hhours s.isDigit_hours htext
  have hdigits : Lexeme.scanDigits localOffset ⟨[], s.chars⟩ = _ := s.scanDigits_eq.trans hread
  rw [htext] at hdigits ⊢
  exact Lexer.scan_of_literal hscan.1 (hscan.2.trans hdigits)

end SpanText

namespace TimeSpan

/-- A time span is read from just the texts that are a written form with minutes and seconds below
sixty, up to a boundary, and it is the span that the fields denote, which is computed without
anything being too large. What is printed for it is a literal by itself, of the same span. -/
theorem scan_exact (cursor next : Cursor) (span : TimeSpan) :
    (scan cursor = .ok span next ↔ ∃ s : SpanText, s.InRange ∧ Cursor.Between s.chars cursor next ∧
      next.atBoundary = true ∧ s.value = span) ∧
    (∀ s : SpanText, s.computed? = some s.value) ∧
    ∀ s : SpanText, s.InRange → ∀ localOffset,
      Lexer.ScansTo localOffset (Value.span s.value).print.toList (.span s.value) := by
  refine ⟨⟨fun h ↦ ?_, ?_⟩, SpanText.computed?_eq, fun s hrange localOffset ↦ ?_⟩
  · obtain ⟨s, hrange, hbetween, hboundary, rfl⟩ := exists_text_of_scan h
    exact ⟨s, hrange, hbetween, hboundary, rfl⟩
  · rintro ⟨s, hrange, ⟨hpassed, hahead⟩, hboundary, rfl⟩
    have hread := recovers_scan hrange (Cursor.atBoundary_iff.mp hboundary) cursor.passed
    rw [← hahead, ← hpassed] at hread
    exact hread
  · obtain ⟨printed, hprinted, htext, hvalue⟩ := exists_text_of_print (s.natAbs_value_lt hrange)
    rw [Value.print, Value.printChars, String.toList_ofList, ← htext, ← hvalue]
    exact printed.scansTo_chars hprinted

/-- A span shorter than a second with more digits than nanoseconds have, and the longest of all. -/
theorem scan_exact_bounds :
    let short : SpanText := ⟨some '-', "0".toList, "00".toList, "00".toList, "1234567898".toList,
      by rintro c ⟨⟩; rfl, by decide, by decide, by decide, forall_mem_of_all (by decide),
      forall_mem_of_all (by decide), forall_mem_of_all (by decide), forall_mem_of_all (by decide)⟩
    let long : SpanText := ⟨none, "999999999".toList, "59".toList, "59".toList,
      "999999999".toList, by rintro c ⟨⟩, by decide, by decide, by decide,
      forall_mem_of_all (by decide), forall_mem_of_all (by decide), forall_mem_of_all (by decide),
      forall_mem_of_all (by decide)⟩
    scan (Cursor.start "-0:00:00.1234567898 ".toList) =
      .ok ⟨-123456789⟩ ⟨short.chars.reverse, [' ']⟩ ∧
    long.value = ⟨3599999999999999999999⟩ ∧ long.computed? = some long.value ∧
    Lexer.scan "999999999:59:59.999999999".toList .utc = .ok ⟨[⟨.literal,
      some (.span ⟨3599999999999999999999⟩), "999999999:59:59.999999999", 0⟩, .stop 25]⟩ := by
  intro short long
  have hshort : short.value = ⟨-123456789⟩ := by decide +kernel
  have hlong : long.value = ⟨3599999999999999999999⟩ := by decide +kernel
  have hprint : (Value.span long.value).print = "999999999:59:59.999999999" := by
    rw [hlong]
    decide +kernel
  obtain ⟨hscan, hcomputed, -⟩ := scan_exact (Cursor.start "-0:00:00.1234567898 ".toList)
    ⟨short.chars.reverse, [' ']⟩ ⟨-123456789⟩
  obtain ⟨-, -, hliteral⟩ := scan_exact (Cursor.start []) (Cursor.start []) ⟨0⟩
  have htokens := hliteral long (by decide +kernel) .utc
  rw [hprint, hlong] at htokens
  exact ⟨hscan.mpr ⟨short, by decide, ⟨by decide +kernel, by decide +kernel⟩, rfl, hshort⟩, hlong,
    hcomputed long, htokens⟩

end TimeSpan

end ResourceQuery
