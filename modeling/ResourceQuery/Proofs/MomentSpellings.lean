import Mathlib.Data.List.Induction
import ResourceQuery.Proofs.Calendar
import ResourceQuery.Proofs.Numerals

/-!
# Spellings of a moment

A date can be written with its year first or last, a time of day with its seconds or without them,
and a zone in several ways or not at all. Whichever way is taken, the scanner reads the whole text
and finds the day, the time of that day and the zone that were meant.
-/

namespace ResourceQuery

open Run

/-! ### What is spelled -/

namespace Text

/-- A field of `least` to `most` digits, with whatever zeros in front, says `n`. -/
structure IsField (least most n : Nat) (text : List Char) : Prop where
  isDigit_chars : ∀ c ∈ text, isDigit c = true
  length_bounds : least ≤ text.length ∧ text.length ≤ most
  ofDigits_eq : ofDigits text = n

/-- At most nine digits behind a point say so many nanoseconds; no digits say that there are none.
-/
structure IsFraction (nanos : Nat) (digits : List Char) : Prop where
  isDigit_chars : ∀ c ∈ digits, isDigit c = true
  length_le : digits.length ≤ 9
  ofDigits_eq : ofDigits digits * 10 ^ (9 - digits.length) = nanos

end Text

/-- A day of the years that have four digits, and a time of that day. -/
structure CivilTime where
  date : Date
  hour : Nat
  minute : Nat
  second : Nat
  nanos : Nat
  year_bounds : 0 ≤ date.year ∧ date.year ≤ 9999
  hour_lt : hour < 24
  minute_lt : minute < 60
  second_lt : second < 60
  nanos_lt : nanos < 10 ^ 9

namespace CivilTime

open Text

def secondOfDay (civil : CivilTime) : Nat :=
  civil.hour * 3600 + civil.minute * 60 + civil.second

/-- The date with hyphens or with slashes, and the year in front or at the end. -/
inductive SpellsDate (civil : CivilTime) : List Char → Prop
  | yearFirst {separator : Char} {year month day : List Char} (hseparator : separator ∈ ['-', '/'])
      (hyear : IsField 4 4 civil.date.year.toNat year) (hmonth : IsField 1 2 civil.date.month month)
      (hday : IsField 1 2 civil.date.day day) :
      SpellsDate civil (year ++ separator :: (month ++ separator :: day))
  | monthFirst {separator : Char} {year month day : List Char} (hseparator : separator ∈ ['-', '/'])
      (hyear : IsField 4 4 civil.date.year.toNat year) (hmonth : IsField 1 2 civil.date.month month)
      (hday : IsField 1 2 civil.date.day day) :
      SpellsDate civil (month ++ separator :: (day ++ separator :: year))

/-- The time of day, whose seconds may be left out if there are none. -/
inductive SpellsClock (civil : CivilTime) : List Char → Prop
  | full {hour minute second fraction : List Char} (hhour : IsField 1 2 civil.hour hour)
      (hminute : IsField 2 2 civil.minute minute) (hsecond : IsField 2 2 civil.second second)
      (hfraction : IsFraction civil.nanos fraction) :
      SpellsClock civil (hour ++ ':' :: (minute ++ ':' :: (second ++ afterPoint fraction)))
  | short {hour minute : List Char} (hhour : IsField 1 2 civil.hour hour)
      (hminute : IsField 2 2 civil.minute minute) (hsecond : civil.second = 0)
      (hnanos : civil.nanos = 0) : SpellsClock civil (hour ++ ':' :: minute)

/-- The time of day with any number of digits behind the point, of which nine count. -/
inductive WritesClock (civil : CivilTime) : List Char → Prop
  | full {hour minute second digits : List Char} (hhour : IsField 1 2 civil.hour hour)
      (hminute : IsField 2 2 civil.minute minute) (hsecond : IsField 2 2 civil.second second)
      (hdigits : ∀ c ∈ digits, isDigit c = true)
      (hnanos : TimeSpan.nanosOfFraction digits = civil.nanos) :
      WritesClock civil (hour ++ ':' :: (minute ++ ':' :: (second ++ afterPoint digits)))
  | short {hour minute : List Char} (hhour : IsField 1 2 civil.hour hour)
      (hminute : IsField 2 2 civil.minute minute) (hsecond : civil.second = 0)
      (hnanos : civil.nanos = 0) : WritesClock civil (hour ++ ':' :: minute)

end CivilTime

namespace UtcOffset

open Text

/-- The sign of an offset that is so many hours and minutes ahead of UTC or behind it. -/
def IsClock (offset : UtcOffset) (sign : Char) (hours minutes : Nat) : Prop :=
  sign = '+' ∧ offset.seconds = hours * 3600 + minutes * 60 ∨
    sign = '-' ∧ offset.seconds = -(hours * 3600 + minutes * 60)

/-- No zone, UTC by one of its names, or an offset in hours or in hours and minutes. -/
inductive Spells : Option UtcOffset → List Char → Prop
  | missing : Spells none []
  | zulu {c : Char} (h : c ∈ ['Z', 'z']) : Spells (some .utc) [c]
  | gmt {blanks word : List Char} (hblanks : blanks ∈ [[], [' ']])
      (hword : lowerAscii word = ['g', 'm', 't']) : Spells (some .utc) (blanks ++ word)
  | hours {offset : UtcOffset} {sign : Char} {h : Nat} {hours : List Char}
      (hoffset : offset.IsClock sign h 0) (hlt : h < 24) (hhours : IsField 2 2 h hours) :
      Spells (some offset) (sign :: hours)
  | minutes {offset : UtcOffset} {sign : Char} {h m : Nat} {hours colon minutes : List Char}
      (hoffset : offset.IsClock sign h m) (hlt : h < 24 ∧ m < 60) (hhours : IsField 2 2 h hours)
      (hcolon : colon ∈ [[], [':']]) (hminutes : IsField 2 2 m minutes) :
      Spells (some offset) (sign :: (hours ++ (colon ++ minutes)))

end UtcOffset

/-- A date, `T` or one space, a time of day and a zone. -/
inductive CivilTime.Spells (civil : CivilTime) (zone : Option UtcOffset) : List Char → Prop
  | intro {date clock zoneText : List Char} {gap : Char} (hdate : civil.SpellsDate date)
      (hgap : gap ∈ ['T', 't', ' ']) (hclock : civil.SpellsClock clock)
      (hzone : UtcOffset.Spells zone zoneText) :
      Spells civil zone (date ++ gap :: (clock ++ zoneText))

/-! ### Fields -/

namespace Text

open Scan

variable {least most n mark : Nat} {text rest : List Char}

/-- So many digits are less than the power of ten behind them. -/
theorem ofDigits_lt {digits : List Char} (h : ∀ c ∈ digits, isDigit c = true) :
    ofDigits digits < 10 ^ digits.length := by
  induction digits using List.reverseRecOn with
  | nil => decide
  | append_singleton digits c ih =>
    obtain ⟨hdigits, hc⟩ := List.forall_mem_append.mp h
    have hvalue : digitValue c ≤ 9 := by
      have hrange := (Lexeme.isDigit_iff c).mp (hc c (List.mem_singleton_self c))
      have hzero : '0'.toNat = 48 := rfl
      rw [digitValue]
      omega
    have hlead := ih hdigits
    rw [ofDigits_append_singleton, List.length_append, List.length_singleton, Nat.pow_succ]
    omega

theorem IsField.lt_pow (h : IsField least most n text) : n < 10 ^ most := by
  rw [← h.ofDigits_eq]
  exact Nat.lt_of_lt_of_le (ofDigits_lt h.isDigit_chars)
    (Nat.pow_le_pow_right (by decide) h.length_bounds.2)

theorem IsField.recovers_scanDigits (h : IsField least most n text)
    (hrest : text.length < most → Bars isDigit rest) (part : DatePart) :
    Recovers (Moment.scanDigits mark least most part) text n rest := by
  obtain ⟨hleast, hmost⟩ := h.length_bounds
  have hread : Recovers (readAtMost most isDigit) text text rest := by
    obtain hshort | hfull := Nat.lt_or_eq_of_le hmost
    · exact recovers_readAtMost_of_bars hmost h.isDigit_chars (hrest hshort)
    · exact hfull ▸ recovers_readAtMost h.isDigit_chars
  intro passed
  rw [Moment.scanDigits, bind_ok (hread passed), if_neg (Nat.not_lt.mpr hleast), h.ofDigits_eq]
  rfl

/-- A field of a fixed width is read whatever follows. -/
theorem IsField.recovers_fixed (h : IsField most most n text) (part : DatePart) :
    Recovers (Moment.scanDigits mark most most part) text n rest :=
  h.recovers_scanDigits (fun hshort ↦ absurd h.length_bounds.1 (Nat.not_le.mpr hshort)) part

theorem IsFraction.nanosOfFraction_eq (h : IsFraction n text) :
    TimeSpan.nanosOfFraction text = n := by
  rw [TimeSpan.nanosOfFraction, List.take_of_length_le h.length_le]
  exact h.ofDigits_eq

/-- Fractions that are written alike are equal. -/
theorem IsFraction.eq_of_afterPoint {m n : Nat} {digits others : List Char}
    (hm : IsFraction m digits) (hn : IsFraction n others)
    (h : afterPoint digits = afterPoint others) : m = n := by
  obtain rfl := afterPoint_injective h
  exact hm.ofDigits_eq.symm.trans hn.ofDigits_eq

end Text

/-! ### Dates -/

theorem Date.of?_self (date : Date) : of? date.year date.month date.day = some date :=
  dif_pos ⟨date.month_bounds, date.day_bounds⟩

theorem Date.eq_of_of? {year : Int} {month day : Nat} {date : Date}
    (h : of? year month day = some date) :
    date.year = year ∧ date.month = month ∧ date.day = day := by
  unfold Date.of? at h
  split at h
  · cases h
    exact ⟨rfl, rfl, rfl⟩
  · cases h

namespace Moment

open Scan Text

variable {separator : Char} {rest : List Char} {mark : Nat}

theorem recovers_scanSeparator (separator : Char) :
    Recovers (scanSeparator mark separator) [separator] () rest := by
  intro passed
  rw [scanSeparator, bind_ok (recovers_accept passed)]
  rfl

/-- A separator ends a field of digits. -/
theorem bars_digit_of_separator (h : separator ∈ ['-', '/']) (rest : List Char) :
    Bars isDigit (separator :: rest) :=
  (forall_mem_of_all (by decide) : ∀ c ∈ ['-', '/'], isDigit c = false) separator h

/-- Behind the first field of a date, the separator decides that of the other two. -/
theorem recovers_scanDate_of {first more : List Char} {year month day : Nat} {date : Date}
    (hfirst : ∀ c ∈ first, isDigit c = true) (hseparator : separator ∈ ['-', '/'])
    (hmore : Recovers (scanAfterFirst mark first separator) more (year, month, day) rest)
    (hdate : Date.of? year month day = some date) :
    Recovers (scanDate mark) (first ++ separator :: more) date rest := by
  have hclass : ∀ c ∈ ['-', '/'], Moment.isSeparator c = true := forall_mem_of_all (by decide)
  refine (recovers_readWhile hfirst (bars_digit_of_separator hseparator _)).bind ?_
  refine Recovers.bind_cons (recovers_readIf (hclass separator hseparator)) ?_
  intro passed
  dsimp only
  rw [bind_ok (hmore passed)]
  dsimp only
  rw [hdate]
  rfl

end Moment

namespace CivilTime

open Scan Text Moment

variable {civil : CivilTime} {zone : Option UtcOffset} {text rest : List Char} {mark : Nat}

theorem SpellsDate.recovers_scanDate (h : civil.SpellsDate text) (hrest : Bars isDigit rest) :
    Recovers (scanDate mark) text civil.date rest := by
  have hdate :
      Date.of? civil.date.year.toNat civil.date.month civil.date.day = some civil.date := by
    rw [Int.toNat_of_nonneg civil.year_bounds.1]
    exact civil.date.of?_self
  cases h with
  | @yearFirst separator year month day hseparator hyear hmonth hday =>
    refine recovers_scanDate_of hyear.isDigit_chars hseparator ?_ hdate
    have hlength : year.length = 4 := Nat.le_antisymm hyear.length_bounds.2 hyear.length_bounds.1
    have hfields : Recovers (do
        let month ← Moment.scanDigits mark 1 2 .month
        scanSeparator mark separator
        let day ← Moment.scanDigits mark 1 2 .day
        return (ofDigits year, month, day)) (month ++ separator :: day)
        (ofDigits year, civil.date.month, civil.date.day) rest :=
      (hmonth.recovers_scanDigits (fun _ ↦ bars_digit_of_separator hseparator _) .month).bind <|
        Recovers.bind_cons (recovers_scanSeparator separator) <|
          (hday.recovers_scanDigits (fun _ ↦ hrest) .day).map
    unfold scanAfterFirst
    rw [hlength, hyear.ofDigits_eq]
    rw [hyear.ofDigits_eq] at hfields
    exact hfields
  | @monthFirst separator year month day hseparator hyear hmonth hday =>
    refine recovers_scanDate_of hmonth.isDigit_chars hseparator ?_ hdate
    have hfields : Recovers (do
        let day ← Moment.scanDigits mark 1 2 .day
        scanSeparator mark separator
        let year ← Moment.scanDigits mark 4 4 .year
        return (year, ofDigits month, day)) (day ++ separator :: year)
        (civil.date.year.toNat, ofDigits month, civil.date.day) rest :=
      (hday.recovers_scanDigits (fun _ ↦ bars_digit_of_separator hseparator _) .day).bind <|
        Recovers.bind_cons (recovers_scanSeparator separator) <|
          (hyear.recovers_fixed .year).map
    rw [hmonth.ofDigits_eq] at hfields
    unfold scanAfterFirst
    rw [hmonth.ofDigits_eq]
    obtain hlength | hlength : month.length = 1 ∨ month.length = 2 := by
      have hbounds := hmonth.length_bounds
      omega
    · rw [hlength]
      exact hfields
    · rw [hlength]
      exact hfields

/-! ### Times of day -/

theorem SpellsClock.writes (h : civil.SpellsClock text) : civil.WritesClock text := by
  cases h with
  | full hhour hminute hsecond hfraction =>
    exact .full hhour hminute hsecond hfraction.isDigit_chars hfraction.nanosOfFraction_eq
  | short hhour hminute hsecond hnanos => exact .short hhour hminute hsecond hnanos

theorem WritesClock.recovers_scanClock (h : civil.WritesClock text)
    (hrest : ∀ c ∈ rest.head?, c ∈ ['Z', 'z', ' ', 'G', 'g', '+', '-']) :
    Recovers (scanClock mark) text ⟨civil.secondOfDay, civil.nanos⟩ rest := by
  have hrange : ¬((23 < civil.hour ∨ 59 < civil.minute) ∨ 59 < civil.second) := by
    have hhour := civil.hour_lt
    have hminute := civil.minute_lt
    have hsecond := civil.second_lt
    omega
  -- What is read of the seconds decides, in either form, the rest of the scan.
  have hfields {hour minute more : List Char} (hhour : IsField 1 2 civil.hour hour)
      (hminute : IsField 2 2 civil.minute minute)
      (hseconds : Recovers (scanSeconds mark) more (civil.second, civil.nanos) rest) :
      Recovers (scanClock mark) (hour ++ ':' :: (minute ++ more))
        ⟨civil.secondOfDay, civil.nanos⟩ rest := by
    have hcolon : Bars isDigit (':' :: (minute ++ more) ++ rest) := rfl
    refine (hhour.recovers_scanDigits (fun _ ↦ hcolon) .hour).bind ?_
    refine Recovers.bind_cons (recovers_scanSeparator ':') ?_
    refine (hminute.recovers_fixed .minute).bind ?_
    intro passed
    rw [bind_ok (hseconds passed)]
    dsimp only
    rw [if_neg (by simpa using hrange)]
    rfl
  cases h with
  | full hhour hminute hsecond hdigits hnanos =>
    refine hfields hhour hminute ?_
    refine Recovers.bind_cons recovers_accept ?_
    refine (hsecond.recovers_fixed .second).bind ?_
    rw [← hnanos]
    exact (Numeral.recovers_nanos hdigits (bars_of_head hrest (by decide))
      (bars_of_head hrest (by decide))).map
  | short hhour hminute hsecond hnanos =>
    have hcolon : rest.head? ≠ some ':' := fun hhead ↦ absurd (hrest ':' hhead) (by decide)
    have hnone : Recovers (scanSeconds mark) [] (civil.second, civil.nanos) rest := by
      rw [hsecond, hnanos]
      exact recovers_look (fun passed ↦ accept_eq_false hcolon) recovers_pure
    have hread := hfields hhour hminute hnone
    rwa [List.append_nil] at hread

end CivilTime

/-! ### Zones -/

namespace UtcOffset

open Scan Text Moment

variable {zone : Option UtcOffset} {offset : UtcOffset} {text : List Char} {mark : Nat}

theorem eq_or_eq_of_toLower {c : Char} (h : c.toLower = 'g') : c = 'g' ∨ c = 'G' := by
  have hcode := congrArg Char.toNat h
  rw [Text.toNat_toLower] at hcode
  have hlower : 'g'.toNat = 103 := rfl
  have hupper : 'G'.toNat = 71 := rfl
  rw [← Char.toNat_inj, ← Char.toNat_inj]
  split at hcode <;> omega

/-- The name of UTC begins with its letter in either case. -/
theorem exists_gmt {word : List Char} (h : lowerAscii word = ['g', 'm', 't']) :
    ∃ c more, word = c :: more ∧ (c = 'g' ∨ c = 'G') ∧ word.length = 3 ∧
      startsWithGmt word = true := by
  have hlength : word.length = 3 := by
    have hlower := congrArg List.length h
    rwa [lowerAscii, List.length_map] at hlower
  have hstarts : startsWithGmt word = true := by
    rw [startsWithGmt, List.take_of_length_le hlength.le, h]
    rfl
  cases word with
  | nil => cases h
  | cons c more => exact ⟨c, more, rfl, eq_or_eq_of_toLower (List.cons.inj h).1, hlength, hstarts⟩

theorem IsClock.head? {sign : Char} {h m : Nat} (hoffset : offset.IsClock sign h m) :
    ∀ c ∈ (sign :: text).head?, c ∈ ['Z', 'z', ' ', 'G', 'g', '+', '-'] := by
  rintro _ ⟨⟩
  obtain ⟨rfl, -⟩ | ⟨rfl, -⟩ := hoffset <;> decide

/-- What a zone may begin with. -/
theorem Spells.head? (h : Spells zone text) :
    ∀ c ∈ text.head?, c ∈ ['Z', 'z', ' ', 'G', 'g', '+', '-'] := by
  cases h with
  | missing => exact nofun
  | zulu h =>
    rintro _ ⟨⟩
    exact List.mem_append_left [' ', 'G', 'g', '+', '-'] h
  | gmt hblanks hword =>
    obtain ⟨c, more, rfl, hc, -⟩ := exists_gmt hword
    obtain rfl | hblank := List.mem_cons.mp hblanks
    · rintro _ ⟨⟩
      obtain rfl | rfl := hc <;> decide
    · rw [List.mem_singleton.mp hblank]
      rintro _ ⟨⟩
      decide
  | hours hoffset => exact hoffset.head?
  | minutes hoffset => exact hoffset.head?

theorem ofClock?_eq {sign : Char} {hours minutes : Nat} (h : offset.IsClock sign hours minutes) :
    ∃ behind, sign = (if behind then '-' else '+') ∧
      ofClock? behind hours minutes = some offset := by
  have hday (seconds : Int) (hseconds : offset.seconds = seconds) :
      ofSeconds? seconds = some offset := by
    subst hseconds
    exact dif_pos offset.lt_day
  obtain ⟨rfl, hseconds⟩ | ⟨rfl, hseconds⟩ := h
  · exact ⟨false, rfl, hday _ hseconds⟩
  · exact ⟨true, rfl, hday _ hseconds⟩

theorem recovers_signed {behind : Bool} (h : Recovers (scanOffset mark behind) text offset []) :
    Recovers (do
      let behind ← accept '-'
      unless behind do skip 1
      return some (← scanOffset mark behind))
      ((if behind then '-' else '+') :: text) (some offset) [] := by
  cases behind with
  | true => exact Recovers.bind_cons recovers_accept h.map
  | false =>
    have hplus (passed : List Char) : accept '-' ⟨passed, '+' :: text ++ []⟩ =
        .ok false ⟨passed, '+' :: text ++ []⟩ :=
      accept_eq_false (by simp [Cursor.peek])
    exact recovers_look hplus (Recovers.bind_cons (recovers_skip ['+']) h.map)

/-- Behind its sign an offset is read as it is reckoned. -/
theorem IsClock.recovers_scanZone? {sign : Char} {h m : Nat} {hours colon minutes : List Char}
    {found : Bool} (hoffset : offset.IsClock sign h m) (hhours : IsField 2 2 h hours)
    (hcolon : Recovers (accept ':') colon found (minutes ++ []))
    (hminutes : Recovers (scanOffsetMinutes mark) minutes m []) :
    Recovers (scanZone? mark) (sign :: (hours ++ (colon ++ minutes))) (some offset) [] := by
  obtain ⟨behind, rfl, hclock⟩ := ofClock?_eq hoffset
  have hread : Recovers (scanOffset mark behind) (hours ++ (colon ++ minutes)) offset [] := by
    refine (hhours.recovers_fixed .offsetHours).bind (hcolon.bind fun passed ↦ ?_)
    rw [bind_ok (hminutes passed), hclock]
    rfl
  obtain ⟨digit, body, rfl⟩ :=
    List.exists_cons_of_length_pos (Nat.lt_of_lt_of_le Nat.zero_lt_two hhours.length_bounds.1)
  have hdigit : isDigit digit = true := hhours.isDigit_chars digit List.mem_cons_self
  have hsign : (if behind then '-' else '+') = '+' ∨ (if behind then '-' else '+') = '-' := by
    cases behind <;> simp
  exact fun passed ↦ (scanZone?_signed hsign hdigit).trans (recovers_signed hread passed)

theorem IsClock.recovers_minutes {sign : Char} {h m : Nat} {hours colon minutes : List Char}
    (hoffset : offset.IsClock sign h m) (hhours : IsField 2 2 h hours)
    (hcolon : colon ∈ [[], [':']]) (hminutes : IsField 2 2 m minutes) :
    Recovers (scanZone? mark) (sign :: (hours ++ (colon ++ minutes))) (some offset) [] := by
  obtain ⟨digit, body, rfl⟩ :=
    List.exists_cons_of_length_pos (Nat.lt_of_lt_of_le Nat.zero_lt_two hminutes.length_bounds.1)
  have hdigit : isDigit digit = true := hminutes.isDigit_chars digit List.mem_cons_self
  have hread : Recovers (scanOffsetMinutes mark) (digit :: body) m [] :=
    recovers_look (fun _ ↦ congrArg (EStateM.Result.ok · _) hdigit)
      (hminutes.recovers_fixed .offsetMinutes)
  obtain rfl | hcolon := List.mem_cons.mp hcolon
  · have hnone (passed : List Char) : accept ':' ⟨passed, digit :: body ++ []⟩ =
        .ok false ⟨passed, digit :: body ++ []⟩ :=
      accept_eq_false (by rintro ⟨⟩; cases hdigit)
    exact hoffset.recovers_scanZone? hhours hnone hread
  · rw [List.mem_singleton.mp hcolon]
    exact hoffset.recovers_scanZone? hhours recovers_accept hread

theorem recovers_gmt {blanks word : List Char} (hblanks : blanks ∈ [[], [' ']])
    (hword : lowerAscii word = ['g', 'm', 't']) :
    Recovers (scanZone? mark) (blanks ++ word) (some .utc) [] := by
  obtain ⟨c, more, rfl, hc, hlength, hstarts⟩ := exists_gmt hword
  have hskip {count : Nat} {text : List Char} (hcount : count = text.length) (passed : List Char) :
      (do
        skip count
        return some UtcOffset.utc : Scan (Option UtcOffset)) ⟨passed, text⟩ =
        .ok (some .utc) ⟨text.reverse ++ passed, []⟩ := by
    have hread : skip text.length ⟨passed, text ++ []⟩ = .ok () ⟨text.reverse ++ passed, []⟩ :=
      recovers_skip text passed
    rw [List.append_nil] at hread
    rw [hcount, bind_ok hread]
    rfl
  intro passed
  obtain rfl | hblank := List.mem_cons.mp hblanks
  · have hname : scanZone? mark ⟨passed, c :: more ++ []⟩ =
        (if startsWithGmt (c :: more ++ []) then do
          skip 3
          return some UtcOffset.utc
        else return none : Scan (Option UtcOffset)) ⟨passed, c :: more ++ []⟩ := by
      obtain rfl | rfl := hc <;> rfl
    rw [List.append_nil] at hname
    rw [List.nil_append, List.append_nil, hname, if_pos hstarts]
    exact hskip hlength.symm passed
  · rw [List.mem_singleton.mp hblank]
    have hname : scanZone? mark ⟨passed, ' ' :: (c :: more ++ [])⟩ =
        (if startsWithGmt (c :: more ++ []) then do
          skip 4
          return some UtcOffset.utc
        else return none : Scan (Option UtcOffset)) ⟨passed, ' ' :: (c :: more ++ [])⟩ := rfl
    rw [List.append_nil] at hname
    rw [List.append_nil, List.singleton_append, hname, if_pos hstarts]
    exact hskip (by rw [List.length_cons, hlength]) passed

theorem Spells.recovers_scanZone? (h : Spells zone text) :
    Recovers (scanZone? mark) text zone [] := by
  cases h with
  | missing => exact fun _ ↦ rfl
  | zulu h =>
    simp only [List.mem_cons, List.not_mem_nil, or_false] at h
    obtain rfl | rfl := h <;> exact fun _ ↦ rfl
  | gmt hblanks hword => exact recovers_gmt hblanks hword
  | @hours offset sign h hours hoffset hlt hhours =>
    have hcolon : Recovers (accept ':') [] false ([] ++ []) := fun _ ↦ rfl
    have hread : Recovers (scanZone? mark) (sign :: (hours ++ ([] ++ []))) (some offset) [] :=
      hoffset.recovers_scanZone? hhours hcolon fun _ ↦ rfl
    rwa [List.append_nil, List.append_nil] at hread
  | minutes hoffset hlt hhours hcolon hminutes =>
    exact hoffset.recovers_minutes hhours hcolon hminutes

end UtcOffset

/-! ### Moments -/

/-- The offset that a literal without a zone refers to, and in which a moment is shown. -/
def Anchor.home (localOffset : UtcOffset) : Anchor → UtcOffset
  | .local => localOffset
  | .utc => .utc

namespace CivilTime

open Scan Text

variable {civil : CivilTime} {zone : Option UtcOffset} {text rest : List Char} {mark : Nat}

/-- The moment that is meant where there is a local offset to refer to. -/
def moment (civil : CivilTime) (zone : Option UtcOffset) (anchor : Anchor)
    (localOffset : UtcOffset) : Moment :=
  .ofCivil anchor civil.date civil.secondOfDay civil.nanos (zone.getD (anchor.home localOffset))
    (anchor.home localOffset)

theorem WritesClock.exists_hour (h : civil.WritesClock text) :
    ∃ hour more, text = hour ++ ':' :: more ∧ IsField 1 2 civil.hour hour := by
  cases h with
  | full hhour => exact ⟨_, _, rfl, hhour⟩
  | short hhour => exact ⟨_, _, rfl, hhour⟩

/-- Behind a date the hour and its colon tell that a time of day follows. -/
theorem WritesClock.clockAhead (h : civil.WritesClock text) {gap : Char}
    (hgap : gap ∈ ['T', 't', ' ']) (passed rest : List Char) :
    Moment.clockAhead ⟨passed, gap :: (text ++ rest)⟩ = true := by
  obtain ⟨hour, more, rfl, hhour⟩ := h.exists_hour
  have hbars : Bars isDigit (':' :: (more ++ rest)) := rfl
  have hdigits : ((hour ++ ':' :: (more ++ rest)).take 2).takeWhile isDigit = hour :=
    takeWhile_take_run hhour.length_bounds.2 hhour.isDigit_chars hbars
  simp only [List.mem_cons, List.not_mem_nil, or_false] at hgap
  obtain rfl | rfl | rfl := hgap
  · rfl
  · rfl
  · rw [List.append_assoc, List.cons_append]
    change (decide (0 < (((hour ++ ':' :: (more ++ rest)).take 2).takeWhile isDigit).length) &&
      (hour ++ ':' :: (more ++ rest))[(((hour ++ ':' :: (more ++ rest)).take 2).takeWhile
        isDigit).length]? == some ':') = true
    rw [hdigits, List.getElem?_append_right (Nat.le_refl _), Nat.sub_self]
    simpa using Nat.lt_of_succ_le hhour.length_bounds.1

theorem bars_gap {gap : Char} (h : gap ∈ ['T', 't', ' ']) (rest : List Char) :
    Bars isDigit (gap :: rest) :=
  (forall_mem_of_all (by decide) : ∀ c ∈ ['T', 't', ' '], isDigit c = false) gap h

theorem recovers_scanClockAndZone {gap : Char} {clock zoneText : List Char}
    (hgap : gap ∈ ['T', 't', ' ']) (hclock : civil.WritesClock clock)
    (hhead : ∀ c ∈ zoneText.head?, c ∈ ['Z', 'z', ' ', 'G', 'g', '+', '-'])
    (hzone : Recovers (Moment.scanZone? mark) zoneText zone []) :
    Recovers (Moment.scanClockAndZone mark) (gap :: (clock ++ zoneText))
      (⟨civil.secondOfDay, civil.nanos⟩, zone) [] := by
  have hstarts : ∀ c ∈ (zoneText ++ []).head?, c ∈ ['Z', 'z', ' ', 'G', 'g', '+', '-'] := by
    rwa [List.append_nil]
  have hread : Recovers (do
      skip 1
      let clock ← Moment.scanClock mark
      return (clock, ← Moment.scanZone? mark)) (gap :: (clock ++ zoneText))
      (⟨civil.secondOfDay, civil.nanos⟩, zone) [] :=
    Recovers.bind_cons (recovers_skip [gap]) <|
      (hclock.recovers_scanClock hstarts).bind hzone.map
  intro passed
  have hahead : Moment.clockAhead ⟨passed, gap :: (clock ++ zoneText) ++ []⟩ = true := by
    rw [List.append_nil]
    exact hclock.clockAhead hgap passed zoneText
  rw [Moment.scanClockAndZone, bind_ok (Lexeme.get_eq _), if_pos hahead]
  exact hread passed

theorem recovers_scan_of {date clock zoneText : List Char} {gap : Char}
    (hdate : civil.SpellsDate date) (hgap : gap ∈ ['T', 't', ' '])
    (hclock : civil.WritesClock clock)
    (hhead : ∀ c ∈ zoneText.head?, c ∈ ['Z', 'z', ' ', 'G', 'g', '+', '-'])
    (hzone : ∀ mark, Recovers (Moment.scanZone? mark) zoneText zone []) (anchor : Anchor)
    (localOffset : UtcOffset) :
    Recovers (Moment.scan anchor localOffset) (date ++ gap :: (clock ++ zoneText))
      (civil.moment zone anchor localOffset) [] := by
  refine recovers_position fun mark ↦ ?_
  refine (hdate.recovers_scanDate (bars_gap hgap _)).bind fun passed ↦ ?_
  rw [bind_ok (recovers_scanClockAndZone hgap hclock hhead (hzone mark) passed)]
  rfl

/-- A spelling is read as the moment that is meant. -/
theorem Spells.recovers_scan (h : civil.Spells zone text) (anchor : Anchor)
    (localOffset : UtcOffset) :
    Recovers (Moment.scan anchor localOffset) text (civil.moment zone anchor localOffset) [] := by
  obtain ⟨hdate, hgap, hclock, hzone⟩ := h
  exact recovers_scan_of hdate hgap hclock.writes hzone.head? (fun _ ↦ hzone.recovers_scanZone?)
    anchor localOffset

end CivilTime

/-! ### Literals -/

namespace Lexeme

open Scan Text

variable {localOffset : UtcOffset} {passed lead rest : List Char} {separator : Char}

/-- A text that begins like a date: with up to four digits and a separator, and with what commits
to a date behind them. -/
structure BeginsDate (lead : List Char) (separator : Char) (rest : List Char) : Prop where
  digits : ∀ c ∈ lead, isDigit c = true
  length_bounds : 0 < lead.length ∧ lead.length ≤ 4
  separates : separator ∈ ['-', '/']
  commits : lead.length = 4 ∧ rest.head?.any isDigit = true ∨
    (lead.length = 1 ∨ lead.length = 2) ∧ Moment.dayAndYearAhead separator rest = true

theorem BeginsDate.bars (h : BeginsDate lead separator rest) {inClass : Char → Bool}
    (hclass : ['-', '/'].any inClass = false) : Bars inClass (separator :: rest) := by
  refine bars_of_head ?_ hclass
  rintro _ ⟨⟩
  exact h.separates

theorem BeginsDate.countAhead_eq (h : BeginsDate lead separator rest) {inClass : Char → Bool}
    (hdigit : ∀ c, isDigit c = true → inClass c = true)
    (hclass : ['-', '/'].any inClass = false) :
    (⟨passed, lead ++ separator :: rest⟩ : Cursor).countAhead inClass = lead.length :=
  Cursor.countAhead_run (fun c hc ↦ hdigit c (h.digits c hc)) (h.bars hclass)

theorem BeginsDate.momentAhead (h : BeginsDate lead separator rest) :
    Moment.ahead ⟨passed, lead ++ separator :: rest⟩ = true := by
  have hcount : (⟨passed, lead ++ separator :: rest⟩ : Cursor).countAhead isDigit = lead.length :=
    h.countAhead_eq (fun _ hc ↦ hc) (by decide)
  have hseparator : Moment.isSeparator separator = true :=
    (forall_mem_of_all (by decide) : ∀ c ∈ ['-', '/'], Moment.isSeparator c = true) _ h.separates
  rw [Moment.ahead, hcount]
  dsimp only
  rw [List.drop_left]
  dsimp only
  rw [hseparator, Bool.true_and, Bool.or_eq_true]
  obtain ⟨hfour, hnext⟩ | ⟨hshort, hdate⟩ := h.commits
  · rw [hfour, hnext]
    exact .inl rfl
  · rw [hdate]
    obtain hlength | hlength := hshort <;> rw [hlength] <;> exact .inr rfl

theorem BeginsDate.guidAhead (h : BeginsDate lead separator rest) :
    Guid.ahead ⟨passed, lead ++ separator :: rest⟩ = false := by
  have hcount : ((⟨passed, lead ++ separator :: rest⟩ : Cursor).countAhead isHexDigit == 8) =
      false := by
    have hlength := h.length_bounds
    rw [h.countAhead_eq (fun c hc ↦ by rw [isHexDigit, hc]; rfl) (by decide),
      beq_eq_false_iff_ne]
    omega
  rw [Guid.ahead, hcount, Bool.false_and]

theorem BeginsDate.exists_head (h : BeginsDate lead separator rest) :
    ∃ c more, lead = c :: more ∧ isDigit c = true ∧ ∀ d ∈ more, isDigit d = true := by
  obtain ⟨c, more, rfl⟩ := List.exists_cons_of_ne_nil (List.ne_nil_of_length_pos h.length_bounds.1)
  exact ⟨c, more, rfl, List.forall_mem_cons.mp h.digits⟩

/-- The second character is a digit or a separator and not the mark of a hexadecimal number. -/
theorem BeginsDate.hexAhead (h : BeginsDate lead separator rest) :
    Number.hexAhead ⟨passed, lead ++ separator :: rest⟩ =
      .ok false ⟨passed, lead ++ separator :: rest⟩ := by
  have hmark : ((lead ++ separator :: rest)[1]?).any (fun c ↦ c == 'x' || c == 'X') = false := by
    obtain ⟨c, more, rfl, -, hmore⟩ := h.exists_head
    cases more with
    | nil =>
      have hbars : Bars (fun c ↦ c == 'x' || c == 'X') (separator :: rest) := h.bars (by decide)
      exact hbars
    | cons d more =>
      have hdigit := (List.forall_mem_cons.mp hmore).1
      change (d == 'x' || d == 'X') = false
      rw [Bool.or_eq_false_iff, beq_eq_false_iff_ne, beq_eq_false_iff_ne]
      constructor <;> (rintro rfl; cases hdigit)
  change EStateM.Result.ok (_ && Option.any _ _) _ = _
  rw [Cursor.peekAt, hmark, Bool.and_false]

/-- The digits are followed by a separator, where a time span has a colon. -/
theorem BeginsDate.spanAhead (h : BeginsDate lead separator rest) :
    TimeSpan.ahead ⟨passed, lead ++ separator :: rest⟩ = false := by
  have hcount : (⟨passed, lead ++ separator :: rest⟩ : Cursor).countAhead isDigit = lead.length :=
    h.countAhead_eq (fun _ hc ↦ hc) (by decide)
  have hcolon : ((⟨passed, lead ++ separator :: rest⟩ : Cursor).peekAt lead.length == some ':') =
      false := by
    rw [Cursor.peekAt, List.getElem?_append_right (Nat.le_refl _), Nat.sub_self]
    have hbars : Bars (· == ':') (separator :: rest) := h.bars (by decide)
    exact hbars
  have hpeek : (⟨passed, lead ++ separator :: rest⟩ : Cursor).peek.any
      (fun c ↦ c == '+' || c == '-') = false := by
    obtain ⟨c, more, rfl, hdigit, -⟩ := h.exists_head
    exact isSign_of_isDigit hdigit
  have hpass : (⟨passed, lead ++ separator :: rest⟩ : Cursor).passOver 0 =
      ⟨passed, lead ++ separator :: rest⟩ := rfl
  rw [TimeSpan.ahead, hpeek]
  simp only [Bool.false_eq_true, if_false, hpass, hcount, hcolon, Bool.and_false]

/-- What begins like a date is no other literal. -/
theorem BeginsDate.scanDigits_eq (h : BeginsDate lead separator rest) :
    scanDigits localOffset ⟨passed, lead ++ separator :: rest⟩ =
      (do return literal (.moment (← Moment.scan .local localOffset)) : Scan Lexeme)
        ⟨passed, lead ++ separator :: rest⟩ := by
  rw [scanDigits, bind_ok (get_eq _), h.guidAhead, if_neg (by decide), bind_ok h.hexAhead,
    if_neg (by decide), h.spanAhead, if_neg (by decide), h.momentAhead, if_pos rfl]

end Lexeme

namespace CivilTime

open Scan Text

variable {civil : CivilTime} {zone : Option UtcOffset} {text : List Char}
  {localOffset : UtcOffset}

/-- One or two digits for the day and four for the year commit to a date. -/
theorem dayAndYearAhead_of_fields {separator gap : Char} {d y : Nat} {day year : List Char}
    (hseparator : separator ∈ ['-', '/']) (hgap : gap ∈ ['T', 't', ' ']) (hday : IsField 1 2 d day)
    (hyear : IsField 4 4 y year) (rest : List Char) :
    Moment.dayAndYearAhead separator (day ++ separator :: (year ++ gap :: rest)) = true := by
  have hends := Moment.bars_digit_of_separator hseparator (year ++ gap :: rest)
  have hdayRun : ((day ++ separator :: (year ++ gap :: rest)).take 3).takeWhile isDigit = day :=
    takeWhile_take_run (Nat.le_succ_of_le hday.length_bounds.2) hday.isDigit_chars hends
  have hyearRun : ((year ++ gap :: rest).take 5).takeWhile isDigit = year :=
    takeWhile_take_run (Nat.le_succ_of_le hyear.length_bounds.2) hyear.isDigit_chars
      (bars_gap hgap rest)
  have hlength : year.length = 4 :=
    Nat.le_antisymm hyear.length_bounds.2 hyear.length_bounds.1
  have hshort : day.length = 1 ∨ day.length = 2 := by
    have hbounds := hday.length_bounds
    omega
  rw [Moment.dayAndYearAhead, hdayRun, List.drop_left, List.drop_one, List.tail_cons, hyearRun,
    hlength]
  simpa using hshort

theorem Spells.exists_beginsDate (h : civil.Spells zone text) :
    ∃ lead separator rest, text = lead ++ separator :: rest ∧
      Lexeme.BeginsDate lead separator rest := by
  obtain ⟨hdate, hgap, -, -⟩ := h
  cases hdate with
  | @yearFirst separator year month day hseparator hyear hmonth hday =>
    have hlength : year.length = 4 :=
      Nat.le_antisymm hyear.length_bounds.2 hyear.length_bounds.1
    refine ⟨year, separator, _, by rw [List.append_assoc, List.cons_append], hyear.isDigit_chars,
      by omega, hseparator, .inl ⟨hlength, ?_⟩⟩
    obtain ⟨digit, more, rfl⟩ := List.exists_cons_of_length_pos hmonth.length_bounds.1
    exact hmonth.isDigit_chars digit List.mem_cons_self
  | @monthFirst separator year month day hseparator hyear hmonth hday =>
    have hbounds := hmonth.length_bounds
    refine ⟨month, separator, _, by rw [List.append_assoc, List.cons_append],
      hmonth.isDigit_chars, by omega, hseparator, .inr ⟨by omega, ?_⟩⟩
    rw [List.append_assoc, List.cons_append]
    exact dayAndYearAhead_of_fields hseparator hgap hday hyear _

/-- A spelling begins with a digit. -/
theorem Spells.exists_head (h : civil.Spells zone text) :
    ∃ c body, text = c :: body ∧ isDigit c = true := by
  obtain ⟨lead, separator, rest, rfl, hbegins⟩ := h.exists_beginsDate
  obtain ⟨c, more, rfl, hdigit, -⟩ := hbegins.exists_head
  exact ⟨c, more ++ separator :: rest, rfl, hdigit⟩

/-- By itself a spelling is one literal. -/
theorem Spells.scan_eq (h : civil.Spells zone text) (localOffset : UtcOffset) :
    ∃ c body, text = c :: body ∧ isBlank c = false ∧
      Lexeme.scan localOffset none c ⟨[], c :: body⟩ =
        .ok (.literal (.moment (civil.moment zone .local localOffset)))
          ⟨(c :: body).reverse ++ [], []⟩ := by
  obtain ⟨lead, separator, rest, htext, hbegins⟩ := h.exists_beginsDate
  obtain ⟨c, more, hlead, -⟩ := hbegins.exists_head
  have hdigits := hbegins.digits
  have hunsigned : ∀ d ∈ (none : Option Char), isSign d = true := nofun
  have hread : (do return Lexeme.literal (.moment (← Moment.scan .local localOffset)) :
      Scan Lexeme) ⟨[], text ++ []⟩ = .ok _ ⟨text.reverse ++ [], []⟩ :=
    (h.recovers_scan .local localOffset).map []
  rw [List.append_nil, htext, ← hbegins.scanDigits_eq, hlead, List.cons_append] at hread
  obtain ⟨hblank, hscan⟩ : isBlank c = false ∧
      Lexeme.scan localOffset none c ⟨[], c :: (more ++ separator :: rest)⟩ =
        Lexeme.scanDigits localOffset ⟨[], c :: (more ++ separator :: rest)⟩ :=
    Lexeme.scan_eq_scanDigits hunsigned (List.cons_ne_nil c more) (hlead ▸ hdigits) rfl
  rw [htext, hlead]
  exact ⟨c, more ++ separator :: rest, rfl, hblank, hscan.trans hread⟩

end CivilTime

end ResourceQuery
