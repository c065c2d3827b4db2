import ResourceQuery.Proofs.MomentSpellings

/-!
# Dates and times as they are written

What is read as a date and time is a day by itself or with a letter for its zone, or a day and a
time of it with any zone or none. Everything is checked on the way but the minutes of an offset, of
which there may be sixty or more, or none behind the colon that announces them. What else is to be
said of a moment that is read, or of its text, follows from the form that the text has.
-/

namespace ResourceQuery

open Run Cursor

/-! ### What is read -/

/-- An offset that breaks off behind its colon, or has the minutes of an hour or more. -/
inductive UtcOffset.Misspells (offset : UtcOffset) : List Char → Prop
  | noMinutes {sign : Char} {h : Nat} {hours : List Char} (hoffset : offset.IsClock sign h 0)
      (hhours : Text.IsField 2 2 h hours) : Misspells offset (sign :: (hours ++ [':']))
  | manyMinutes {sign : Char} {h m : Nat} {hours colon minutes : List Char}
      (hoffset : offset.IsClock sign h m) (hmany : 60 ≤ m) (hhours : Text.IsField 2 2 h hours)
      (hcolon : colon ∈ [[], [':']]) (hminutes : Text.IsField 2 2 m minutes) :
      Misspells offset (sign :: (hours ++ (colon ++ minutes)))

/-- A zone as it is read, which may be misspelled. -/
def UtcOffset.IsRead (zone : Option UtcOffset) (text : List Char) : Prop :=
  Spells zone text ∨ ∃ offset ∈ zone, offset.Misspells text

/-- A date and time as it is read: a day by itself or with a letter for its zone, or a day and a
time of it with any zone. -/
inductive CivilTime.IsScanned (civil : CivilTime) : Option UtcOffset → List Char → Prop
  | day {date : List Char} (hdate : civil.SpellsDate date) (hsecond : civil.secondOfDay = 0)
      (hnanos : civil.nanos = 0) : IsScanned civil none date
  | zulu {date : List Char} {c : Char} (hdate : civil.SpellsDate date)
      (hsecond : civil.secondOfDay = 0) (hnanos : civil.nanos = 0) (hc : c ∈ ['Z', 'z']) :
      IsScanned civil (some .utc) (date ++ [c])
  | clock {zone : Option UtcOffset} {date clock zoneText : List Char} {gap : Char}
      (hdate : civil.SpellsDate date) (hgap : gap ∈ ['T', 't', ' '])
      (hclock : civil.WritesClock clock) (hzone : UtcOffset.IsRead zone zoneText) :
      IsScanned civil zone (date ++ gap :: (clock ++ zoneText))

theorem CivilTime.SpellsDate.ne_nil {civil : CivilTime} {text : List Char}
    (h : civil.SpellsDate text) : text ≠ [] := by
  cases h <;> simp

theorem CivilTime.IsScanned.ne_nil {civil : CivilTime} {zone : Option UtcOffset}
    {text : List Char} (h : civil.IsScanned zone text) : text ≠ [] := by
  cases h with
  | day hdate => exact hdate.ne_nil
  | zulu => simp
  | clock => simp

/-! ### Fractions -/

namespace TimeSpan

open Scan Text

variable {cursor : Cursor}

theorem nanosOfFraction_lt {digits : List Char} (h : ∀ c ∈ digits, isDigit c = true) :
    nanosOfFraction digits < 10 ^ 9 := by
  have hkept := ofDigits_lt fun c hc ↦ h c (List.mem_of_mem_take (i := 9) hc)
  have hlength : (digits.take 9).length ≤ 9 := List.length_take_le 9 digits
  have hpositive : 0 < 10 ^ (9 - (digits.take 9).length) := Nat.pow_pos (by decide)
  calc nanosOfFraction digits
    _ = ofDigits (digits.take 9) * 10 ^ (9 - (digits.take 9).length) := rfl
    _ < 10 ^ (digits.take 9).length * 10 ^ (9 - (digits.take 9).length) :=
      Nat.mul_lt_mul_of_pos_right hkept hpositive
    _ = 10 ^ 9 := by rw [← Nat.pow_add, Nat.add_sub_cancel' hlength]

theorem spells_scanFraction :
    Spells cursor scanFraction fun nanos run ↦ ∃ digits, (∀ c ∈ digits, isDigit c = true) ∧
      run = afterPoint digits ∧ nanos = nanosOfFraction digits := by
  rw [Numeral.scanFraction_span]
  refine Numeral.spells_scanFraction.bind fun digits _ run hdigits ↦ spells_pure ?_
  exact ⟨digits, hdigits.2, (List.append_nil run).trans hdigits.1, rfl⟩

end TimeSpan

/-! ### Dates -/

section Scanners

open Scan Text Moment

variable {cursor next : Cursor} {mark : Nat}

theorem Moment.spells_scanSeparator (separator : Char) :
    Scan.Spells cursor (scanSeparator mark separator) fun _ run ↦ run = [separator] := by
  refine (spells_accept separator).bind fun found _ run hrun ↦ ?_
  subst hrun
  cases found with
  | false => exact spells_failFrom _ _
  | true => exact spells_pure rfl

theorem Moment.spells_scanDigits (least most : Nat) (part : DatePart) :
    Spells cursor (scanDigits mark least most part) (IsField least most) := by
  intro n last hok
  obtain ⟨digits, middle, hread, hok⟩ := bind_eq_ok.mp hok
  obtain ⟨run, hrun, rfl, hdigits, hlength⟩ := spells_readAtMost _ _ _ _ hread
  by_cases hleast : run.length < least
  · rw [if_pos hleast] at hok
    cases hok
  · rw [if_neg hleast] at hok
    cases hok
    exact ⟨run, hrun, hdigits, ⟨Nat.not_lt.mp hleast, hlength⟩, rfl⟩

namespace CivilTime

/-- The first field decides whether the year stands in front or at the end. -/
theorem spells_scanAfterFirst {first : List Char} {separator : Char}
    (hfirst : ∀ c ∈ first, isDigit c = true) (hseparator : separator ∈ ['-', '/']) :
    Scan.Spells cursor (scanAfterFirst mark first separator) fun fields run ↦
      fields.1 ≤ 9999 ∧ ∀ civil : CivilTime, civil.date.year = fields.1 →
        civil.date.month = fields.2.1 → civil.date.day = fields.2.2 →
        civil.SpellsDate (first ++ separator :: run) := by
  have hmonthFirst (hlength : 1 ≤ first.length ∧ first.length ≤ 2) :
      Scan.Spells cursor (do
        let day ← Moment.scanDigits mark 1 2 .day
        scanSeparator mark separator
        let year ← Moment.scanDigits mark 4 4 .year
        return (year, ofDigits first, day)) fun fields run ↦
        fields.1 ≤ 9999 ∧ ∀ civil : CivilTime, civil.date.year = fields.1 →
          civil.date.month = fields.2.1 → civil.date.day = fields.2.2 →
          civil.SpellsDate (first ++ separator :: run) := by
    refine (spells_scanDigits 1 2 .day).bind fun day _ dayText hday ↦ ?_
    refine (spells_scanSeparator separator).bind fun _ _ gap hgap ↦ ?_
    refine (spells_scanDigits 4 4 .year).bind fun year _ yearText hyear ↦ spells_pure ?_
    subst hgap
    refine ⟨Nat.lt_succ_iff.mp hyear.lt_pow, fun civil hy hm hd ↦ ?_⟩
    rw [List.append_nil, List.singleton_append]
    exact .monthFirst hseparator (by rw [hy]; exact hyear) ⟨hfirst, hlength, hm.symm⟩
      (hd ▸ hday)
  unfold scanAfterFirst
  split
  · next hlength =>
    refine (spells_scanDigits 1 2 .month).bind fun month _ monthText hmonth ↦ ?_
    refine (spells_scanSeparator separator).bind fun _ _ gap hgap ↦ ?_
    refine (spells_scanDigits 1 2 .day).bind fun day _ dayText hday ↦ spells_pure ?_
    subst hgap
    have hyear : IsField 4 4 (ofDigits first) first := ⟨hfirst, by omega, rfl⟩
    refine ⟨Nat.lt_succ_iff.mp hyear.lt_pow, fun civil hy hm hd ↦ ?_⟩
    rw [List.append_nil, List.singleton_append]
    exact .yearFirst hseparator (by rw [hy]; exact hyear) (hm ▸ hmonth) (hd ▸ hday)
  · next hlength => exact hmonthFirst (by omega)
  · next hlength => exact hmonthFirst (by omega)
  · exact spells_failFrom _ _

theorem spells_scanDate :
    Scan.Spells cursor (scanDate mark) fun date run ↦ (0 ≤ date.year ∧ date.year ≤ 9999) ∧
      ∀ civil : CivilTime, civil.date = date → civil.SpellsDate run := by
  refine (spells_readWhile isDigit).bind fun first _ run hfirst ↦ ?_
  obtain ⟨rfl, hfirst⟩ := hfirst
  refine (spells_readIf isSeparator).bind fun found _ gap hgap ↦ ?_
  cases found with
  | none => exact spells_failFrom _ _
  | some separator =>
    obtain ⟨rfl, hclass⟩ := hgap
    have hseparator : separator ∈ ['-', '/'] := by
      simpa [isSeparator] using hclass separator rfl
    refine (spells_scanAfterFirst hfirst hseparator).bind fun fields _ more hfields ↦ ?_
    obtain ⟨year, month, day⟩ := fields
    dsimp only
    cases hdate : Date.of? year month day with
    | none => exact spells_failFrom _ _
    | some date =>
      obtain ⟨hyear, hmonth, hday⟩ := Date.eq_of_of? hdate
      refine spells_pure ⟨?_, ?_⟩
      · have hbound := hfields.1
        dsimp only at hbound
        omega
      · rintro civil rfl
        rw [List.append_nil]
        exact hfields.2 civil hyear hmonth hday

/-! ### Times of day -/

theorem spells_scanSeconds :
    Scan.Spells cursor (scanSeconds mark) fun found run ↦ run = [] ∧ found = (0, 0) ∨
      ∃ second digits, run = ':' :: (second ++ afterPoint digits) ∧ IsField 2 2 found.1 second ∧
        (∀ c ∈ digits, isDigit c = true) ∧ TimeSpan.nanosOfFraction digits = found.2 := by
  refine (spells_accept ':').bind fun found _ colon hcolon ↦ ?_
  subst hcolon
  cases found with
  | false => exact spells_pure (.inl ⟨rfl, rfl⟩)
  | true =>
    refine (spells_scanDigits 2 2 .second).bind fun second _ secondText hsecond ↦ ?_
    refine TimeSpan.spells_scanFraction.bind fun nanos _ run hfraction ↦ spells_pure ?_
    obtain ⟨digits, hdigits, rfl, rfl⟩ := hfraction
    exact .inr ⟨secondText, digits, by simp, hsecond, hdigits, rfl⟩

theorem spells_scanClock :
    Scan.Spells cursor (scanClock mark) fun clock run ↦
      ∀ date : Date, 0 ≤ date.year ∧ date.year ≤ 9999 → ∃ civil : CivilTime,
        civil.date = date ∧ ⟨civil.secondOfDay, civil.nanos⟩ = clock ∧ civil.WritesClock run := by
  refine (spells_scanDigits 1 2 .hour).bind fun hour _ hourText hhour ↦ ?_
  refine (spells_scanSeparator ':').bind fun _ _ colon hcolon ↦ ?_
  subst hcolon
  refine (spells_scanDigits 2 2 .minute).bind fun minute _ minuteText hminute ↦ ?_
  refine spells_scanSeconds.bind fun found _ more hseconds ↦ ?_
  obtain ⟨second, nanos⟩ := found
  dsimp only at hseconds ⊢
  refine spells_ite (fun _ ↦ spells_failFrom_bind) fun hrange ↦ spells_pure fun date hyear ↦ ?_
  simp only [Bool.or_eq_true, decide_eq_true_eq, not_or, Nat.not_lt] at hrange
  have hnanos : nanos < 10 ^ 9 := by
    obtain ⟨-, hnone⟩ | ⟨_, digits, -, -, hdigits, rfl⟩ := hseconds
    · cases hnone
      decide
    · exact TimeSpan.nanosOfFraction_lt hdigits
  refine ⟨⟨date, hour, minute, second, nanos, hyear, by omega, by omega, by omega, hnanos⟩, rfl,
    rfl, ?_⟩
  obtain ⟨rfl, hnone⟩ | ⟨secondText, digits, rfl, hsecond, hdigits, hfraction⟩ := hseconds
  · cases hnone
    simpa using WritesClock.short hhour hminute rfl rfl
  · simpa using WritesClock.full hhour hminute hsecond hdigits hfraction

end CivilTime

/-! ### Zones -/

namespace UtcOffset

variable {offset : UtcOffset} {behind : Bool} {h m : Nat}

theorem isClock_of_ofClock? (hclock : ofClock? behind h m = some offset) :
    offset.IsClock (if behind then '-' else '+') h m ∧ h < 24 := by
  have hseconds {seconds : Int} (hfound : ofSeconds? seconds = some offset) :
      offset.seconds = seconds ∧ -86400 < seconds ∧ seconds < 86400 := by
    unfold ofSeconds? at hfound
    split at hfound
    · next hday =>
      cases hfound
      exact ⟨rfl, hday⟩
    · cases hfound
  obtain ⟨hvalue, hday⟩ := hseconds hclock
  cases behind with
  | true => exact ⟨.inr ⟨rfl, hvalue⟩, by simp only [if_true] at hday; omega⟩
  | false =>
    exact ⟨.inl ⟨rfl, hvalue⟩, by simp only [Bool.false_eq_true, if_false] at hday; omega⟩

theorem spells_scanOffsetMinutes :
    Scan.Spells cursor (scanOffsetMinutes mark) fun minutes run ↦
      run = [] ∧ minutes = 0 ∨ IsField 2 2 minutes run := by
  refine spells_look rfl (spells_ite (fun _ ↦ ?_) fun _ ↦ spells_pure (.inl ⟨rfl, rfl⟩))
  exact (spells_scanDigits 2 2 .offsetMinutes).mono fun _ _ ↦ .inr

theorem spells_scanOffset (behind : Bool) :
    Scan.Spells cursor (scanOffset mark behind) fun offset run ↦
      IsRead (some offset) ((if behind then '-' else '+') :: run) := by
  refine (spells_scanDigits 2 2 .offsetHours).bind fun hours _ hoursText hhours ↦ ?_
  refine (spells_accept ':').bind fun found _ colon hcolon ↦ ?_
  refine spells_scanOffsetMinutes.bind fun minutes _ run hminutes ↦ ?_
  cases hclock : ofClock? behind hours minutes with
  | none => exact spells_failFrom _ _
  | some offset =>
    obtain ⟨hoffset, hday⟩ := isClock_of_ofClock? hclock
    have hmark : colon ∈ [[], [':']] := by cases found <;> simp [hcolon]
    refine spells_pure ?_
    rw [List.append_nil]
    obtain ⟨rfl, rfl⟩ | hminutes := hminutes
    · rw [List.append_nil]
      cases found with
      | false =>
        rw [hcolon, if_neg Bool.false_ne_true, List.append_nil]
        exact .inl (.hours hoffset hday hhours)
      | true =>
        rw [hcolon, if_pos rfl]
        exact .inr ⟨offset, rfl, .noMinutes hoffset hhours⟩
    · by_cases hmany : minutes < 60
      · exact .inl (.minutes hoffset ⟨hday, hmany⟩ hhours hmark hminutes)
      · exact .inr ⟨offset, rfl, .manyMinutes hoffset (Nat.not_lt.mp hmany) hhours hmark hminutes⟩

theorem spells_scanZone? : Scan.Spells cursor (scanZone? mark) IsRead := by
  have hnone : Scan.Spells cursor (pure none : Scan (Option UtcOffset)) IsRead :=
    spells_pure (.inl .missing)
  have hskip {count : Nat} (h : Spells (some .utc) (cursor.ahead.take count)) :
      Scan.Spells cursor (do skip count; return some .utc) IsRead := by
    refine (spells_skip count).bind fun _ _ run hrun ↦ spells_pure (.inl ?_)
    rwa [List.append_nil, hrun]
  have hoffset (behind : Bool) (middle : Cursor) :
      Scan.Spells middle (do return some (← scanOffset mark behind)) fun zone run ↦
        IsRead zone ((if behind then '-' else '+') :: run) :=
    (spells_scanOffset behind).bind fun _ _ _ hrun ↦ spells_pure (by rwa [List.append_nil])
  refine spells_look rfl ?_
  obtain ⟨passed, ahead⟩ := cursor
  split
  · next heq =>
    cases heq
    exact hskip (.zulu (by decide))
  · next heq =>
    cases heq
    exact hskip (.zulu (by decide))
  · next rest heq =>
    cases heq
    refine spells_ite (fun hgmt ↦ ?_) fun _ ↦ hnone
    exact hskip (.gmt (by decide : [' '] ∈ [[], [' ']]) (eq_of_beq hgmt))
  · next digit rest heq =>
    cases heq
    refine spells_ite (fun _ ↦ spells_look (a := false) rfl ?_) fun _ ↦ hnone
    refine (spells_skip 1).bind fun _ middle run hrun ↦ ?_
    subst hrun
    exact hoffset false middle
  · next digit rest heq =>
    cases heq
    refine spells_ite (fun _ ↦ ?_) fun _ ↦ hnone
    have haccept : accept '-' ⟨passed, '-' :: digit :: rest⟩ =
        .ok true ⟨'-' :: passed, digit :: rest⟩ := rfl
    intro zone last hok
    rw [bind_ok haccept] at hok
    obtain ⟨run, hrun, hzone⟩ := hoffset true _ zone last hok
    exact ⟨['-'] ++ run, Between.append ⟨rfl, rfl⟩ hrun, hzone⟩
  · exact spells_ite (fun hgmt ↦ hskip (.gmt (by decide : [] ∈ [[], [' ']]) (eq_of_beq hgmt)))
      fun _ ↦ hnone

end UtcOffset

/-! ### Moments -/

namespace CivilTime

/-- The day when it begins. -/
def midnight (date : Date) (hyear : 0 ≤ date.year ∧ date.year ≤ 9999) : CivilTime where
  date := date
  hour := 0
  minute := 0
  second := 0
  nanos := 0
  year_bounds := hyear
  hour_lt := by decide
  minute_lt := by decide
  second_lt := by decide
  nanos_lt := by decide

theorem secondOfDay_midnight (date : Date) (hyear : 0 ≤ date.year ∧ date.year ≤ 9999) :
    (midnight date hyear).secondOfDay = 0 := by
  simp [secondOfDay, midnight]

theorem exists_gap_of_clockAhead (h : Moment.clockAhead cursor = true) :
    ∃ gap rest, cursor.ahead = gap :: rest ∧ gap ∈ ['T', 't', ' '] := by
  unfold Moment.clockAhead at h
  split at h
  · next heq => exact ⟨_, _, heq, by decide⟩
  · next heq => exact ⟨_, _, heq, by decide⟩
  · next heq => exact ⟨_, _, heq, by decide⟩
  · cases h

/-- Behind a date that has been read. -/
theorem spells_scanClockAndZone :
    Scan.Spells cursor (scanClockAndZone mark) fun found run ↦
      ∀ (date : Date) (text : List Char), 0 ≤ date.year ∧ date.year ≤ 9999 →
        (∀ civil : CivilTime, civil.date = date → civil.SpellsDate text) → ∃ civil : CivilTime,
          civil.date = date ∧ ⟨civil.secondOfDay, civil.nanos⟩ = found.1 ∧
            civil.IsScanned found.2 (text ++ run) := by
  have hmidnight (date : Date) (hyear : 0 ≤ date.year ∧ date.year ≤ 9999) :
      ⟨(midnight date hyear).secondOfDay, 0⟩ = Moment.midnight :=
    congrArg (ClockTime.mk · 0) (secondOfDay_midnight date hyear)
  have hzulu {c : Char} (hc : c ∈ ['Z', 'z']) (date : Date) (text : List Char)
      (hyear : 0 ≤ date.year ∧ date.year ≤ 9999)
      (hdate : ∀ civil : CivilTime, civil.date = date → civil.SpellsDate text) :
      ∃ civil : CivilTime, civil.date = date ∧ ⟨civil.secondOfDay, civil.nanos⟩ = Moment.midnight ∧
        civil.IsScanned (some .utc) (text ++ [c]) :=
    ⟨midnight date hyear, rfl, hmidnight date hyear,
      .zulu (hdate _ rfl) (secondOfDay_midnight date hyear) rfl hc⟩
  refine spells_look rfl (spells_ite (fun hclock ↦ ?_) fun _ ↦ ?_)
  · obtain ⟨gap, rest, hahead, hgap⟩ := exists_gap_of_clockAhead hclock
    refine (spells_skip 1).bind fun _ _ lead hlead ↦ ?_
    rw [hahead, List.take_succ_cons, List.take_zero] at hlead
    subst hlead
    refine spells_scanClock.bind fun clock _ run hrun ↦ ?_
    refine UtcOffset.spells_scanZone?.bind fun zone _ tail htail ↦ spells_pure ?_
    intro date text hyear hdate
    obtain ⟨civil, hcivil, hsame, hwrites⟩ := hrun date hyear
    rw [List.append_nil, List.singleton_append]
    exact ⟨civil, hcivil, hsame, .clock (hdate civil hcivil) hgap hwrites htail⟩
  · refine spells_look rfl (spells_ite (fun hletter ↦ ?_) fun _ ↦ spells_pure ?_)
    · obtain ⟨passed, _ | ⟨c, rest⟩⟩ := cursor
      · cases hletter
      have hc : c = 'Z' ∨ c = 'z' := by
        simpa [Cursor.peek] using hletter
      intro found last hok
      refine ⟨[c], ?_⟩
      obtain rfl | rfl := hc
      · cases hok
        exact ⟨⟨rfl, rfl⟩, hzulu (by decide)⟩
      · cases hok
        exact ⟨⟨rfl, rfl⟩, hzulu (by decide)⟩
    · intro date text hyear hdate
      rw [List.append_nil]
      exact ⟨midnight date hyear, rfl, hmidnight date hyear,
        .day (hdate _ rfl) (secondOfDay_midnight date hyear) rfl⟩

end CivilTime

namespace Moment

/-- A date and time as it is written, with the zone that it names. -/
structure Civil where
  date : Date
  clock : ClockTime
  zone : Option UtcOffset

/-- The local moment that is written under a local offset. -/
def Civil.under (civil : Civil) (localOffset : UtcOffset) : Moment :=
  ofCivil .local civil.date civil.clock.second civil.clock.nanos (civil.zone.getD localOffset)
    localOffset

/-- Reads a date and time without regard to a local offset. -/
def scanCivil : Scan Civil := do
  let mark ← Scan.position
  let date ← scanDate mark
  let (clock, zone) ← scanClockAndZone mark
  unless ← Scan.atBoundary do
    let stray := (← Scan.peek).getD ' '
    Scan.skip 1
    failAt mark (.stray stray)
  return ⟨date, clock, zone⟩

/-- The local offset only decides what is made of the date and time that is read. -/
theorem scan_eq (anchor : Anchor) (localOffset : UtcOffset) :
    scan anchor localOffset = (do
      let civil ← scanCivil
      return ofCivil anchor civil.date civil.clock.second civil.clock.nanos
        (civil.zone.getD (anchor.home localOffset)) (anchor.home localOffset)) := by
  simp only [scan, scanCivil, bind_assoc]
  refine bind_congr fun mark ↦ bind_congr fun date ↦ bind_congr fun ⟨clock, zone⟩ ↦ ?_
  refine bind_congr fun boundary ↦ ?_
  cases boundary <;> rfl

theorem scan_local_eq (localOffset : UtcOffset) :
    scan .local localOffset = (do return (← scanCivil).under localOffset) :=
  scan_eq .local localOffset

theorem spells_scanCivil :
    Scan.Spells cursor scanCivil fun found run ↦ ∃ civil : CivilTime, civil.date = found.date ∧
      ⟨civil.secondOfDay, civil.nanos⟩ = found.clock ∧ civil.IsScanned found.zone run := by
  refine spells_look rfl (CivilTime.spells_scanDate.bind fun date _ text hdate ↦ ?_)
  refine CivilTime.spells_scanClockAndZone.bind fun ⟨clock, zone⟩ _ run hrun ↦ ?_
  refine spells_look rfl (spells_ite (fun _ ↦ spells_pure ?_) fun _ ↦ ?_)
  · rw [List.append_nil]
    exact hrun date text hdate.1 hdate.2
  · exact spells_look rfl ((spells_skip 1).bind fun _ _ _ _ ↦ spells_failFrom_bind)

/-- The moment that is read is the one that the text says. -/
theorem spells_scan (anchor : Anchor) (localOffset : UtcOffset) :
    Scan.Spells cursor (scan anchor localOffset) fun moment run ↦
      ∃ (civil : CivilTime) (zone : Option UtcOffset),
        moment = civil.moment zone anchor localOffset ∧ civil.IsScanned zone run := by
  rw [scan_eq]
  refine spells_scanCivil.bind fun found _ run hfound ↦ spells_pure ?_
  obtain ⟨civil, hdate, hclock, hscanned⟩ := hfound
  rw [List.append_nil]
  refine ⟨civil, found.zone, ?_, hscanned⟩
  rw [CivilTime.moment, hdate, ← hclock]

end Moment

end Scanners

end ResourceQuery
