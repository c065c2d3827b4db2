import ResourceQuery.Proofs.BareNames
import ResourceQuery.Proofs.MomentSpellings

/-!
# The text of a moment

A moment is printed with fields of fixed widths. As long as its year has four digits, and it is
shown in an offset of whole minutes, that is one of the spellings of the same moment; a year with a
sign in front is no date.
-/

namespace ResourceQuery

open Run

/-! ### Runs of digits -/

namespace Text

variable {width n : Nat}

theorem length_decimal_le (hwidth : 0 < width) (h : n < 10 ^ width) :
    (decimal n).length ≤ width := by
  induction width generalizing n with
  | zero => cases hwidth
  | succ width ih =>
    unfold decimal
    split
    · exact Nat.le_add_left 1 width
    · next hlarge =>
      have hshort : (decimal (n / 10)).length ≤ width := by
        cases width with
        | zero => omega
        | succ width => exact ih (Nat.succ_pos width) (by omega)
      simpa using hshort

theorem length_decimalPadded (hwidth : 0 < width) (h : n < 10 ^ width) :
    (decimalPadded width n).length = width := by
  have hlength := length_decimal_le hwidth h
  rw [decimalPadded, padStart, List.length_append, List.length_replicate]
  omega

theorem isDigit_of_mem_decimalPadded (width n : Nat) :
    ∀ c ∈ decimalPadded width n, isDigit c = true := by
  refine List.forall_mem_append.mpr ⟨fun c hc ↦ ?_, isDigit_of_mem_decimal n⟩
  obtain rfl := List.eq_of_mem_replicate hc
  decide

theorem ofDigits_append_zeros (digits : List Char) (count : Nat) :
    ofDigits (digits ++ List.replicate count '0') = ofDigits digits * tenTo count := by
  induction count with
  | zero => simp
  | succ count ih =>
    have hzero : digitValue '0' = 0 := rfl
    rw [List.replicate_succ', ← List.append_assoc, ofDigits_append_singleton, ih, hzero, tenTo_succ,
      Nat.add_zero, Nat.mul_comm 10, Nat.mul_assoc]

theorem ofDigits_decimalPadded (width n : Nat) : ofDigits (decimalPadded width n) = n := by
  have hzeros (count : Nat) (digits : List Char) :
      ofDigits (List.replicate count '0' ++ digits) = ofDigits digits := by
    induction count with
    | zero => rfl
    | succ count ih => exact ih
  rw [decimalPadded, padStart, hzeros, ofDigits_decimal]

theorem decimalPadded_ne_nil (width n : Nat) : decimalPadded width n ≠ [] :=
  List.append_ne_nil_of_right_ne_nil _ (decimal_ne_nil n)

/-- A number is a field of its full width. -/
theorem isField_decimalPadded {least : Nat} (hleast : least ≤ width) (hwidth : 0 < width)
    (h : n < 10 ^ width) : IsField least width n (decimalPadded width n) where
  isDigit_chars := isDigit_of_mem_decimalPadded width n
  length_bounds := by
    have hlength := length_decimalPadded hwidth h
    omega
  ofDigits_eq := ofDigits_decimalPadded width n

/-- Fewer than nine digits of a fraction count as much as nine. -/
theorem isFraction_decimalPadded (hwidth : 0 < width ∧ width ≤ 9) (h : n < 10 ^ width) :
    IsFraction (n * 10 ^ (9 - width)) (decimalPadded width n) where
  isDigit_chars := isDigit_of_mem_decimalPadded width n
  length_le := by
    have hlength := length_decimalPadded hwidth.1 h
    omega
  ofDigits_eq := by rw [ofDigits_decimalPadded, length_decimalPadded hwidth.1 h]

end Text

namespace Moment

open Scan Text

/-! ### Fields -/

/-- What is printed for nanoseconds is a point with as few digits as keep them, or nothing. -/
theorem exists_isFraction {nanos : Nat} (h : nanos < 10 ^ 9) :
    ∃ digits, printFraction nanos = afterPoint digits ∧ IsFraction nanos digits := by
  have hpadded {width n : Nat} (hwidth : 0 < width ∧ width ≤ 9) (hn : n < 10 ^ width)
      (hvalue : n * 10 ^ (9 - width) = nanos) : ∃ digits,
      '.' :: decimalPadded width n = afterPoint digits ∧ IsFraction nanos digits := by
    refine ⟨decimalPadded width n, ?_, hvalue ▸ isFraction_decimalPadded hwidth hn⟩
    obtain ⟨c, rest, htext⟩ := List.exists_cons_of_ne_nil (decimalPadded_ne_nil width n)
    rw [htext]
    rfl
  unfold printFraction
  split_ifs with hzero hmillis hmicros
  · exact ⟨[], rfl, List.forall_mem_nil _, Nat.zero_le 9, by rw [hzero]; rfl⟩
  · exact hpadded (by decide) (by omega) (Nat.div_mul_cancel (Nat.dvd_of_mod_eq_zero hmillis))
  · exact hpadded (by decide) (by omega) (Nat.div_mul_cancel (Nat.dvd_of_mod_eq_zero hmicros))
  · exact hpadded (by decide) h (Nat.mul_one nanos)

/-- What is printed for a second of the day and nanoseconds. -/
def printClock (second nanos : Nat) : List Char :=
  decimalPadded 2 (second / 3600) ++ ':' :: (decimalPadded 2 (second / 60 % 60) ++
    ':' :: (decimalPadded 2 (second % 60) ++ printFraction nanos))

/-! ### Zones -/

/-- An offset of whole minutes is printed as what a clock that is so much ahead or behind shows. -/
theorem spells_print {offset : UtcOffset} (hminutes : offset.seconds % 60 = 0) :
    UtcOffset.Spells (some offset) offset.print := by
  have hday := offset.lt_day
  obtain ⟨whole, hwhole⟩ : ∃ whole, (offset.seconds.natAbs + 30) / 60 = whole := ⟨_, rfl⟩
  have hclock : offset.IsClock (if offset.seconds < 0 then '-' else '+') (whole / 60)
      (whole % 60) := by
    rw [UtcOffset.IsClock]
    split
    · exact .inr ⟨rfl, by omega⟩
    · exact .inl ⟨rfl, by omega⟩
  have hprint : offset.print = (if offset.seconds < 0 then '-' else '+') ::
      (decimalPadded 2 (whole / 60) ++ ([':'] ++ decimalPadded 2 (whole % 60))) := by
    rw [UtcOffset.print, hwhole]
    simp
  rw [hprint]
  exact .minutes hclock (by omega) (isField_decimalPadded (by decide) (by decide) (by omega))
    (by simp) (isField_decimalPadded (by decide) (by decide) (by omega))

theorem spells_printZone {moment : Moment} (hminutes : moment.offset.seconds % 60 = 0)
    (hutc : moment.anchor = .utc → moment.offset = .utc) :
    UtcOffset.Spells (some moment.offset) moment.printZone := by
  unfold printZone
  split_ifs with hzero
  · rw [Bool.and_eq_true, decide_eq_true_eq, decide_eq_true_eq] at hzero
    rw [hutc hzero.1]
    exact .zulu List.mem_cons_self
  · exact spells_print hminutes

/-! ### Dates -/

/-- The day on which the moment is, and the second of that day, as it is shown. -/
def civilDay (moment : Moment) : CivilDay :=
  CivilDay.ofNumber ((moment.seconds + moment.offset.seconds) / 86400)

def secondOfDay (moment : Moment) : Nat :=
  ((moment.seconds + moment.offset.seconds) % 86400).toNat

/-- The year is printed with four digits. -/
def HasPlainYear (moment : Moment) : Prop :=
  0 ≤ moment.civilDay.year ∧ moment.civilDay.year ≤ 9999

instance (moment : Moment) : Decidable moment.HasPlainYear :=
  inferInstanceAs (Decidable (0 ≤ moment.civilDay.year ∧ moment.civilDay.year ≤ 9999))

def printDay (day : CivilDay) : List Char :=
  '-' :: (decimalPadded 2 day.month ++ '-' :: decimalPadded 2 day.day)

theorem print_eq (moment : Moment) :
    moment.print = printYear moment.civilDay.year ++ (printDay moment.civilDay ++
      'T' :: (printClock moment.secondOfDay moment.nanos ++ moment.printZone)) := by
  simp [print, printDay, printClock, civilDay, secondOfDay]

theorem printYear_eq {year : Int} (h : 0 ≤ year ∧ year ≤ 9999) :
    printYear year = decimalPadded 4 year.natAbs :=
  if_pos (by simpa using h)

/-- The moment is shown as this civil time. -/
structure Shows (moment : Moment) (civil : CivilTime) : Prop where
  date : Date.of? moment.civilDay.year moment.civilDay.month moment.civilDay.day = some civil.date
  number : civil.date.number = (moment.seconds + moment.offset.seconds) / 86400
  hour : civil.hour = moment.secondOfDay / 3600
  minute : civil.minute = moment.secondOfDay / 60 % 60
  second : civil.second = moment.secondOfDay % 60
  nanos : civil.nanos = moment.nanos

theorem secondOfDay_lt (moment : Moment) : moment.secondOfDay < 86400 := by
  rw [secondOfDay]
  omega

theorem exists_shows {moment : Moment} (hyear : moment.HasPlainYear)
    (hnanos : moment.nanos < 10 ^ 9) : ∃ civil, moment.Shows civil := by
  obtain ⟨date, hdate, hnumber⟩ :=
    CivilDay.exists_date ((moment.seconds + moment.offset.seconds) / 86400)
  have hsecond := moment.secondOfDay_lt
  refine ⟨⟨date, moment.secondOfDay / 3600, moment.secondOfDay / 60 % 60, moment.secondOfDay % 60,
    moment.nanos, ?_, by omega, by omega, by omega, hnanos⟩, hdate, hnumber, rfl, rfl, rfl, rfl⟩
  rw [(Date.eq_of_of? hdate).1]
  exact hyear

variable {moment : Moment} {civil : CivilTime}

theorem Shows.spellsDate (h : moment.Shows civil) (hyear : moment.HasPlainYear) :
    civil.SpellsDate (printYear moment.civilDay.year ++ printDay moment.civilDay) := by
  obtain ⟨hsameYear, hsameMonth, hsameDay⟩ := Date.eq_of_of? h.date
  obtain ⟨hmonth, hday⟩ := Date.le_of_of? h.date
  have hbounds := civil.year_bounds
  have hnatAbs : moment.civilDay.year.natAbs = civil.date.year.toNat := by omega
  rw [printYear_eq hyear, printDay, hnatAbs, ← hsameMonth, ← hsameDay]
  exact .yearFirst List.mem_cons_self
    (isField_decimalPadded (by decide) (by decide) (by omega))
    (isField_decimalPadded (by decide) (by decide) (by omega))
    (isField_decimalPadded (by decide) (by decide) (by omega))

theorem Shows.spellsClock (h : moment.Shows civil) :
    civil.SpellsClock (printClock moment.secondOfDay moment.nanos) := by
  obtain ⟨digits, hprint, hfraction⟩ := exists_isFraction civil.nanos_lt
  rw [printClock, ← h.hour, ← h.minute, ← h.second, ← h.nanos, hprint]
  exact .full (isField_decimalPadded (by decide) (by decide) (civil.hour_lt.trans (by decide)))
    (isField_decimalPadded (by decide) (by decide) (civil.minute_lt.trans (by decide)))
    (isField_decimalPadded (by decide) (by decide) (civil.second_lt.trans (by decide))) hfraction

/-- In the zone in which it is shown, a civil time is the moment itself. -/
theorem Shows.moment_eq (h : moment.Shows civil) {localOffset : UtcOffset}
    (hhome : moment.offset = moment.anchor.home localOffset) :
    civil.moment (some moment.offset) moment.anchor localOffset = moment := by
  have hsum : civil.secondOfDay = moment.secondOfDay := by
    have hhour := h.hour
    have hminute := h.minute
    have hsecond := h.second
    rw [CivilTime.secondOfDay]
    omega
  have hseconds : civil.date.number * 86400 + moment.secondOfDay - moment.offset.seconds =
      moment.seconds := by
    rw [h.number, secondOfDay]
    omega
  rw [CivilTime.moment, ofCivil, hsum, ← hhome, h.nanos, Option.getD_some, hseconds]

/-- A moment that is shown in the offset for its anchor is printed in a spelling of that moment. -/
theorem exists_spells {localOffset : UtcOffset} (hyear : moment.HasPlainYear)
    (hnanos : moment.nanos < 10 ^ 9) (hhome : moment.offset = moment.anchor.home localOffset)
    (hminutes : moment.offset.seconds % 60 = 0) :
    ∃ civil : CivilTime, civil.Spells (some moment.offset) moment.print ∧
      civil.moment (some moment.offset) moment.anchor localOffset = moment := by
  obtain ⟨civil, hshows⟩ := exists_shows hyear hnanos
  have hzone := spells_printZone hminutes (fun hutc ↦ by rw [hhome, hutc]; rfl)
  rw [print_eq, ← List.append_assoc]
  exact ⟨civil, .intro (hshows.spellsDate hyear) List.mem_cons_self hshows.spellsClock hzone,
    hshows.moment_eq hhome⟩

/-- A printed moment is read back if its year has four digits and it is shown in the offset that
stands for its anchor. -/
theorem recovers_scan {localOffset : UtcOffset} (hyear : moment.HasPlainYear)
    (hnanos : moment.nanos < 10 ^ 9) (hhome : moment.offset = moment.anchor.home localOffset)
    (hminutes : moment.offset.seconds % 60 = 0) :
    Recovers (scan moment.anchor localOffset) moment.print moment [] := by
  obtain ⟨civil, hspells, hsame⟩ := exists_spells hyear hnanos hhome hminutes
  have hread := hspells.recovers_scan moment.anchor localOffset
  rwa [hsame] at hread

end Moment

/-! ### Literals -/

namespace Lexeme

open Scan Text

variable {localOffset : UtcOffset} {moment : Moment}

/-- Behind the mark of UTC a text without quotes is read as a moment of UTC in place. -/
theorem scanWord_utc {text : List Char} (hquote : text.head?.any (· == '"') = false) :
    scanWord localOffset ⟨[], ['u', 't', 'c', ':'] ++ text⟩ =
      (do return literal (.moment (← Moment.scan .utc localOffset)) : Scan Lexeme)
        ⟨['u', 't', 'c', ':'].reverse, text⟩ := by
  let body : Cursor := ⟨['u', 't', 'c', ':'].reverse, text⟩
  have hbare : Literal.quoteAhead body = .ok false body :=
    congrArg (EStateM.Result.ok · body) hquote
  have hmoment : Literal.bareOrWithin (Moment.scan .utc localOffset) body =
      Moment.scan .utc localOffset body := by
    rw [Literal.bareOrWithin, bind_ok hbare]
    rfl
  have htyped : Literal.scanTyped localOffset 0 (.moment .utc) body =
      (do return Value.moment (← Moment.scan .utc localOffset) : Scan Value) body :=
    bind_congr hmoment
  calc scanWord localOffset ⟨[], ['u', 't', 'c', ':'] ++ text⟩
    _ = (do return literal (← Literal.scanTyped localOffset 0 (.moment .utc)) : Scan Lexeme) body :=
      scanWord_typed ['u', 't', 'c'] (forall_mem_of_all (by decide)) (by decide) (by decide)
        (by decide) [] text
    _ = ((do return Value.moment (← Moment.scan .utc localOffset) : Scan Value) >>=
        fun value ↦ return literal value) body := bind_congr htyped
    _ = (do return literal (.moment (← Moment.scan .utc localOffset)) : Scan Lexeme) body := by
      rw [bind_assoc]
      rfl

/-- What is printed for a moment, with the mark of its anchor in front. -/
theorem scan_print (hyear : moment.HasPlainYear) (hnanos : moment.nanos < 10 ^ 9)
    (hhome : moment.offset = moment.anchor.home localOffset)
    (hminutes : moment.offset.seconds % 60 = 0) :
    ∃ c body, (Value.moment moment).print.toList = c :: body ∧ Text.isBlank c = false ∧
      scan localOffset none c ⟨[], c :: body⟩ =
        .ok (.literal (.moment moment)) ⟨(c :: body).reverse, []⟩ := by
  obtain ⟨civil, hspells, hsame⟩ := Moment.exists_spells hyear hnanos hhome hminutes
  obtain ⟨c, body, htext, hblank, hscan⟩ := hspells.scan_eq localOffset
  rw [Value.print, String.toList_ofList, Value.printChars]
  cases hanchor : moment.anchor with
  | «local» =>
    rw [hanchor] at hsame
    rw [hsame, List.append_nil] at hscan
    exact ⟨c, body, htext, hblank, hscan⟩
  | utc =>
    have hread := Moment.recovers_scan hyear hnanos hhome hminutes
    rw [hanchor] at hread
    refine ⟨'u', ['t', 'c', ':'] ++ moment.print, rfl, by decide, ?_⟩
    rw [scan_eq_scanWord (by decide)]
    have hquote : moment.print.head?.any (· == '"') = false := by
      obtain ⟨c, body, htext, hdigit⟩ := hspells.exists_head
      rw [htext]
      exact ne_of_beginsNumber (by simp [beginsNumber, hdigit]) (by decide)
    have halone := hread ['u', 't', 'c', ':'].reverse
    rw [List.append_nil, ← List.reverse_append] at halone
    exact (scanWord_utc hquote).trans (map_ok halone)

end Lexeme

end ResourceQuery
