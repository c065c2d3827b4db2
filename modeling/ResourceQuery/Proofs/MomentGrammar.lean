import ResourceQuery.Proofs.DateText
import ResourceQuery.Proofs.MomentLiterals
import ResourceQuery.Proofs.ReadMoments
import ResourceQuery.Proofs.SpanLiterals

/-!
# The grammar of dates and times

What is read as a date and time says the moment that is read: a day, perhaps a time of it, and
perhaps a zone. Everything is checked on the way but the minutes of an offset, of which there may be
sixty or more, or none behind the colon that announces them. All texts that are misspelled in one of
these two ways are read, and none of them is of the grammar.
-/

namespace ResourceQuery

open Run Cursor

/-! ### The grammar -/

namespace CivilTime

/-- The day alone, with which it begins, or the day and a time of it. -/
inductive WritesTime (civil : CivilTime) : List Char → Prop
  | day {date : List Char} (hdate : civil.SpellsDate date) (hsecond : civil.secondOfDay = 0)
      (hnanos : civil.nanos = 0) : WritesTime civil date
  | clock {date clock : List Char} {gap : Char} (hdate : civil.SpellsDate date)
      (hgap : gap ∈ ['T', 't', ' ']) (hclock : civil.WritesClock clock) :
      WritesTime civil (date ++ gap :: clock)

/-- A day, perhaps a time of it, and perhaps a zone. -/
inductive Writes (civil : CivilTime) (zone : Option UtcOffset) : List Char → Prop
  | intro {time zoneText : List Char} (htime : civil.WritesTime time)
      (hzone : UtcOffset.Spells zone zoneText) : Writes civil zone (time ++ zoneText)

end CivilTime

/-- A day and a time of it behind which the offset is misspelled. -/
inductive CivilTime.Misspells (civil : CivilTime) : Option UtcOffset → List Char → Prop
  | intro {offset : UtcOffset} {date clock zoneText : List Char} {gap : Char}
      (hdate : civil.SpellsDate date) (hgap : gap ∈ ['T', 't', ' '])
      (hclock : civil.WritesClock clock) (hzone : offset.Misspells zoneText) :
      Misspells civil (some offset) (date ++ gap :: (clock ++ zoneText))

/-! ### What is read -/

namespace CivilTime

variable {civil : CivilTime} {zone : Option UtcOffset} {text : List Char}

/-- A date and time as it is read, whose offset may be misspelled. -/
def IsRead (civil : CivilTime) (zone : Option UtcOffset) (text : List Char) : Prop :=
  civil.Writes zone text ∨ civil.Misspells zone text

theorem IsScanned.isRead (h : civil.IsScanned zone text) : civil.IsRead zone text := by
  cases h with
  | day hdate hsecond hnanos =>
    have htext := Writes.intro (.day hdate hsecond hnanos) .missing
    rw [List.append_nil] at htext
    exact .inl htext
  | zulu hdate hsecond hnanos hc => exact .inl (.intro (.day hdate hsecond hnanos) (.zulu hc))
  | clock hdate hgap hclock hzone =>
    obtain hzone | ⟨offset, hoffset, hzone⟩ := hzone
    · have htext := Writes.intro (.clock hdate hgap hclock) hzone
      rw [List.append_assoc, List.cons_append] at htext
      exact .inl htext
    · obtain rfl := Option.mem_def.mp hoffset
      exact .inr (.intro hdate hgap hclock hzone)

theorem spells_scan (anchor : Anchor) (localOffset : UtcOffset) {cursor : Cursor} :
    Scan.Spells cursor (Moment.scan anchor localOffset) fun moment run ↦
      ∃ (civil : CivilTime) (zone : Option UtcOffset),
        moment = civil.moment zone anchor localOffset ∧ civil.IsRead zone run := by
  refine (Moment.spells_scan anchor localOffset).mono ?_
  rintro moment run ⟨civil, zone, hmoment, hscanned⟩
  exact ⟨civil, zone, hmoment, hscanned.isRead⟩

end CivilTime

/-! ### Misspelled offsets -/

section Misspelled

open Text

namespace UtcOffset

variable {offset : UtcOffset} {zone : Option UtcOffset} {text : List Char}

def isOffsetChar (c : Char) : Bool :=
  isSign c || Moment.isClockChar c

theorem IsClock.isOffsetChar {sign : Char} {h m : Nat} {rest : List Char}
    (hoffset : offset.IsClock sign h m) (hrest : ∀ c ∈ rest, isOffsetChar c = true) :
    ∀ c ∈ sign :: rest, isOffsetChar c = true := by
  refine List.forall_mem_cons.mpr ⟨?_, hrest⟩
  obtain ⟨rfl, -⟩ | ⟨rfl, -⟩ := hoffset <;> decide

theorem isOffsetChar_of_isField {least most n : Nat} (h : IsField least most n text) :
    ∀ c ∈ text, isOffsetChar c = true := by
  intro c hc
  rw [isOffsetChar, Moment.isClockChar_of_isDigit c (h.isDigit_chars c hc), Bool.or_true]

theorem isOffsetChar_of_colon (h : text ∈ [[], [':']]) : ∀ c ∈ text, isOffsetChar c = true := by
  intro c hc
  have hcolon : c = ':' := by
    simp only [List.mem_cons, List.not_mem_nil, or_false] at h
    obtain rfl | rfl := h
    · cases hc
    · exact List.mem_singleton.mp hc
  rw [hcolon]
  rfl

theorem isLetter_of_isOffsetChar {c : Char} (h : isOffsetChar c = true) : isLetter c = false := by
  rw [isOffsetChar, Bool.or_eq_true] at h
  obtain hsign | hclock := h
  · rw [isSign, Bool.or_eq_true, beq_iff_eq, beq_iff_eq] at hsign
    obtain rfl | rfl := hsign <;> rfl
  · exact Moment.isLetter_of_isClockChar hclock

theorem not_blank_of_isOffsetChar {c : Char} (h : isOffsetChar c = true) : isBlank c = false := by
  simp only [isOffsetChar, isSign, Moment.isClockChar, Bool.or_eq_true, beq_iff_eq] at h
  obtain (rfl | rfl) | (hdigit | rfl) | rfl := h
  · rfl
  · rfl
  · exact not_blank_of_isPlain (isPlain_of_isDigit hdigit)
  · rfl
  · rfl

/-- A zone ends with the letter of a name or is made of the characters of offsets. -/
theorem Spells.named_or_offset (h : Spells zone text) :
    (∃ start c, text = start ++ [c] ∧ isLetter c = true) ∨ ∀ c ∈ text, isOffsetChar c = true := by
  cases h with
  | missing => exact .inr (by simp)
  | @zulu c hc =>
    have hletters : ∀ c ∈ ['Z', 'z'], isLetter c = true := forall_mem_of_all (by decide)
    exact .inl ⟨[], c, rfl, hletters c hc⟩
  | @gmt blanks word hblanks hword =>
    obtain ⟨-, -, -, -, hlength, hstarts⟩ := exists_gmt hword
    obtain ⟨start, c, hsplit, hc⟩ := Moment.exists_letter_of_startsWithGmt hstarts
    rw [List.take_of_length_le hlength.le] at hsplit
    exact .inl ⟨blanks ++ start, c, by rw [hsplit, List.append_assoc], hc⟩
  | hours hoffset hlt hhours =>
    exact .inr (hoffset.isOffsetChar (isOffsetChar_of_isField hhours))
  | minutes hoffset hlt hhours hcolon hminutes =>
    refine .inr (hoffset.isOffsetChar ?_)
    simp only [List.forall_mem_append]
    exact ⟨isOffsetChar_of_isField hhours, isOffsetChar_of_colon hcolon,
      isOffsetChar_of_isField hminutes⟩

theorem Misspells.isOffsetChar (h : offset.Misspells text) : ∀ c ∈ text, isOffsetChar c = true := by
  cases h with
  | noMinutes hoffset hhours =>
    refine hoffset.isOffsetChar (List.forall_mem_append.mpr ?_)
    exact ⟨isOffsetChar_of_isField hhours, isOffsetChar_of_colon (by decide)⟩
  | manyMinutes hoffset hmany hhours hcolon hminutes =>
    refine hoffset.isOffsetChar ?_
    simp only [List.forall_mem_append]
    exact ⟨isOffsetChar_of_isField hhours, isOffsetChar_of_colon hcolon,
      isOffsetChar_of_isField hminutes⟩

/-- Behind its sign and hours an offset has nothing or less than sixty minutes. -/
def minutesFit (text : List Char) : Bool :=
  let minutes := (text.drop 3).dropWhile (· == ':')
  (text.drop 3).isEmpty || (minutes.length == 2 && ofDigits minutes < 60)

theorem drop_offset {sign : Char} {h : Nat} {hours : List Char} (hhours : IsField 2 2 h hours)
    (rest : List Char) : (sign :: (hours ++ rest)).drop 3 = rest := by
  have hlength : hours.length = 2 := Nat.le_antisymm hhours.length_bounds.2 hhours.length_bounds.1
  rw [List.drop_succ_cons, ← hlength, List.drop_left]

theorem minutesFit_eq {sign : Char} {h m : Nat} {hours colon minutes : List Char}
    (hhours : IsField 2 2 h hours) (hcolon : colon ∈ [[], [':']])
    (hminutes : IsField 2 2 m minutes) :
    minutesFit (sign :: (hours ++ (colon ++ minutes))) = decide (m < 60) := by
  have hlength : minutes.length = 2 :=
    Nat.le_antisymm hminutes.length_bounds.2 hminutes.length_bounds.1
  obtain ⟨digit, rest, rfl⟩ := List.exists_cons_of_length_eq_add_one hlength
  have hdigit : (digit == ':') = false := by
    rw [beq_eq_false_iff_ne]
    rintro rfl
    cases hminutes.isDigit_chars ':' List.mem_cons_self
  have hskip : (colon ++ digit :: rest).dropWhile (· == ':') = digit :: rest := by
    simp only [List.mem_cons, List.not_mem_nil, or_false] at hcolon
    obtain rfl | rfl := hcolon <;> simp [hdigit]
  rw [minutesFit, drop_offset hhours, hskip, hlength, hminutes.ofDigits_eq]
  simp

theorem Misspells.minutesFit_eq (h : offset.Misspells text) : minutesFit text = false := by
  cases h with
  | noMinutes hoffset hhours =>
    rw [minutesFit, drop_offset hhours]
    rfl
  | manyMinutes hoffset hmany hhours hcolon hminutes =>
    rw [UtcOffset.minutesFit_eq hhours hcolon hminutes, decide_eq_false_iff_not]
    exact Nat.not_lt.mpr hmany

theorem Spells.minutesFit_eq (h : Spells zone text) (hchars : ∀ c ∈ text, isOffsetChar c = true) :
    minutesFit text = true := by
  cases h with
  | missing => rfl
  | zulu => rfl
  | @gmt blanks word hblanks hword =>
    obtain ⟨c, more, rfl, hc, -⟩ := exists_gmt hword
    have hletter := isLetter_of_isOffsetChar
      (hchars c (List.mem_append_right blanks List.mem_cons_self))
    obtain rfl | rfl := hc <;> cases hletter
  | @hours offset sign h hours hoffset hlt hhours =>
    have hdrop : (sign :: (hours ++ [])).drop 3 = [] := drop_offset hhours []
    rw [List.append_nil] at hdrop
    rw [minutesFit, hdrop]
    rfl
  | minutes hoffset hlt hhours hcolon hminutes =>
    rw [UtcOffset.minutesFit_eq hhours hcolon hminutes, decide_eq_true hlt.2]

end UtcOffset

namespace CivilTime

variable {civil other : CivilTime} {zone : Option UtcOffset} {text : List Char}

theorem bars_date_gap {gap : Char} (h : gap ∈ ['T', 't', ' ']) (rest : List Char) :
    Bars Moment.isDateChar (gap :: rest) :=
  (forall_mem_of_all (by decide) : ∀ c ∈ ['T', 't', ' '], Moment.isDateChar c = false) gap h

theorem WritesTime.noBlankEnds (h : civil.WritesTime text) : NoBlankEnds text ∧ text ≠ [] := by
  cases h with
  | day hdate => exact ⟨hdate.noBlankEnds, hdate.ne_nil⟩
  | clock hdate hgap hclock => exact ⟨noBlankEnds_clock hdate hclock _, by simp⟩

/-- What is read has no blank at its ends. -/
theorem IsRead.noBlankEnds (h : civil.IsRead zone text) : NoBlankEnds text := by
  obtain ⟨htime, hzone⟩ | @⟨offset, date, clock, zoneText, gap, hdate, -, hclock, hzone⟩ := h
  · exact noBlankEnds_zone htime.noBlankEnds.1 htime.noBlankEnds.2 hzone
  · have hback : NoBlankEnds zoneText := noBlankEnds_of_not_blank fun c hc ↦
      UtcOffset.not_blank_of_isOffsetChar (hzone.isOffsetChar c hc)
    have hends := (noBlankEnds_clock hdate hclock gap).append hback
    rwa [List.append_assoc, List.cons_append] at hends

/-- No misspelled text is of the grammar. -/
theorem Misspells.not_writes (h : civil.Misspells zone text) (zone' : Option UtcOffset) :
    ¬other.Writes zone' text := by
  obtain @⟨offset, date, clock, zoneText, gap, hdate, hgap, hclock, hzone⟩ := h
  generalize htext : date ++ gap :: (clock ++ zoneText) = text
  rintro @⟨time, zoneText', htime, hzone'⟩
  obtain ⟨sign, tail, rfl, hsign⟩ := hzone.exists_sign
  have hoffset : ∀ c ∈ zoneText', UtcOffset.isOffsetChar c = true := by
    refine hzone'.named_or_offset.resolve_left ?_
    rintro ⟨start, c, rfl, hc⟩
    have hlast := congrArg List.getLast? htext
    rw [← List.append_assoc time, List.getLast?_concat] at hlast
    have hmem : c ∈ (sign :: tail).getLast? := by
      simpa [List.getLast?_append, List.getLast?_cons] using hlast
    have hletter := UtcOffset.isLetter_of_isOffsetChar
      (hzone.isOffsetChar c (List.mem_of_getLast? hmem))
    rw [hc] at hletter
    cases hletter
  cases htime with
  | day hdate' =>
    have hmem : gap ∈ time ++ zoneText' := htext ▸ by simp
    have hneither : ∀ c ∈ ['T', 't', ' '], Moment.isDateChar c = false ∧
        UtcOffset.isOffsetChar c = false := forall_mem_of_all (by decide)
    obtain ⟨hnodate, hnooffset⟩ := hneither gap hgap
    obtain hmem | hmem := List.mem_append.mp hmem
    · rw [hdate'.isDateChar gap hmem] at hnodate
      cases hnodate
    · rw [hoffset gap hmem] at hnooffset
      cases hnooffset
  | @clock date' clock' gap' hdate' hgap' hclock' =>
    rw [List.append_assoc, List.cons_append] at htext
    obtain ⟨-, hrest⟩ := append_inj_of_bars hdate.isDateChar hdate'.isDateChar
      (bars_date_gap hgap _) (bars_date_gap hgap' _) htext
    have hbars : Bars Moment.isClockChar (sign :: tail) := by
      rw [isSign, Bool.or_eq_true, beq_iff_eq, beq_iff_eq] at hsign
      obtain rfl | rfl := hsign <;> rfl
    obtain ⟨-, hsame⟩ := append_inj_of_bars hclock.isClockChar hclock'.isClockChar hbars
      (bars_of_head hzone'.head? (by decide)) (List.cons.inj hrest).2
    have hfit := hzone'.minutesFit_eq hoffset
    rw [← hsame, hzone.minutesFit_eq] at hfit
    cases hfit

/-- Every misspelled text is read. -/
theorem Misspells.recovers_scan (h : civil.Misspells zone text) (anchor : Anchor)
    (localOffset : UtcOffset) :
    Scan.Recovers (Moment.scan anchor localOffset) text
      (civil.moment zone anchor localOffset) [] := by
  obtain @⟨offset, date, clock, zoneText, gap, hdate, hgap, hclock, hzone⟩ := h
  cases hzone with
  | @noMinutes sign _ hours hoffset hhours =>
    refine recovers_scan_of hdate hgap hclock hoffset.head? (fun mark ↦ ?_) anchor localOffset
    have hread : Scan.Recovers (Moment.scanZone? mark) (sign :: (hours ++ ([':'] ++ [])))
        (some offset) [] :=
      hoffset.recovers_scanZone? hhours Scan.recovers_accept fun _ ↦ rfl
    rwa [List.append_nil] at hread
  | manyMinutes hoffset hmany hhours hcolon hminutes =>
    exact recovers_scan_of hdate hgap hclock hoffset.head?
      (fun _ ↦ hoffset.recovers_minutes hhours hcolon hminutes) anchor localOffset

end CivilTime

end Misspelled

/-! ### Texts that are read -/

namespace Moment

/-- What is read as a date and time says the moment that is read, and is of the grammar or is
misspelled. Every misspelled text is read, and none is of the grammar. -/
theorem scan_grammar (anchor : Anchor) (localOffset : UtcOffset) :
    (∀ {cursor next : Cursor} {moment : Moment}, scan anchor localOffset cursor = .ok moment next →
      ∃ (run : List Char) (civil : CivilTime) (zone : Option UtcOffset), Between run cursor next ∧
        moment = civil.moment zone anchor localOffset ∧
        (civil.Writes zone run ∨ civil.Misspells zone run)) ∧
    ∀ {civil : CivilTime} {zone : Option UtcOffset} {text : List Char}, civil.Misspells zone text →
      scan anchor localOffset (.start text) =
          .ok (civil.moment zone anchor localOffset) ⟨text.reverse, []⟩ ∧
        ∀ (other : CivilTime) (zone' : Option UtcOffset), ¬other.Writes zone' text := by
  refine ⟨fun h ↦ ?_, fun h ↦ ⟨?_, fun other ↦ h.not_writes⟩⟩
  · obtain ⟨run, hrun, civil, zone, hmoment, hread⟩ :=
      CivilTime.spells_scan anchor localOffset _ _ h
    exact ⟨run, civil, zone, hrun, hmoment, hread⟩
  · have hread := h.recovers_scan anchor localOffset []
    rwa [List.append_nil, List.append_nil] at hread

/-- Seventy-five minutes in an offset are an hour and a quarter. -/
theorem scan_grammar_many_minutes :
    let civil : CivilTime := ⟨⟨2000, 1, 1, by decide, by decide⟩, 0, 0, 0, 0, by decide, by decide,
      by decide, by decide, by decide⟩
    let offset : UtcOffset := ⟨22500, by decide⟩
    let text := "2000-01-01T00:00:00+05:75".toList
    civil.Misspells (some offset) text ∧
    scan .local .utc (.start text) =
      .ok (civil.moment (some offset) .local .utc) ⟨text.reverse, []⟩ ∧
    (∃ run other zone, Between run (.start text) ⟨text.reverse, []⟩ ∧
      civil.moment (some offset) .local .utc = CivilTime.moment other zone .local .utc ∧
      (other.Writes zone run ∨ other.Misspells zone run)) ∧
    ∀ (other : CivilTime) (zone : Option UtcOffset), ¬other.Writes zone text := by
  intro civil offset text
  have hfield {least most n : Nat} {digits : List Char} (hdigits : digits.all Text.isDigit = true)
      (hlength : least ≤ digits.length ∧ digits.length ≤ most)
      (hvalue : Text.ofDigits digits = n) : Text.IsField least most n digits :=
    ⟨List.all_eq_true.mp hdigits, hlength, hvalue⟩
  have hmisspells : civil.Misspells (some offset)
      (("2000".toList ++ '-' :: ("01".toList ++ '-' :: "01".toList)) ++ 'T' ::
        (("00".toList ++ ':' :: ("00".toList ++ ':' :: ("00".toList ++ Text.afterPoint []))) ++
          '+' :: ("05".toList ++ ([':'] ++ "75".toList)))) :=
    .intro (.yearFirst (by decide) (hfield (by decide) (by decide) rfl)
      (hfield (by decide) (by decide) rfl) (hfield (by decide) (by decide) rfl)) (by decide)
      (.full (hfield (by decide) (by decide) rfl) (hfield (by decide) (by decide) rfl)
        (hfield (by decide) (by decide) rfl) (by simp) (by decide))
      (.manyMinutes (.inl ⟨rfl, rfl⟩) (by decide : 60 ≤ 75) (hfield (by decide) (by decide) rfl)
        (by decide) (hfield (by decide) (by decide) rfl))
  obtain ⟨hscan, hwrites⟩ := (scan_grammar .local .utc).2 hmisspells
  exact ⟨hmisspells, hscan, (scan_grammar .local .utc).1 hscan, hwrites⟩

end Moment

end ResourceQuery
