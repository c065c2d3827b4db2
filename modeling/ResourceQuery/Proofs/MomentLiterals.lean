import ResourceQuery.Proofs.DayCount
import ResourceQuery.Proofs.MomentSpellings
import ResourceQuery.Proofs.TextLiterals

/-!
# Date and time literals

All spellings of a civil time are literals of one moment: the seconds that the calendar counts from
the start of 1970, less the offset of the zone. A literal without a zone refers to the local offset,
and to UTC behind the word for it. Between quotes a spelling is the same literal, since none of its
characters is escaped and it has no blank at its ends.
-/

namespace ResourceQuery

open Run Text

/-- The words in front of a moment in lower case, with what a missing zone then refers to. -/
def momentPrefixes : List (String × Anchor) :=
  [("date", .local), ("datetime", .local), ("utc", .utc)]

/-! ### Instants -/

namespace CivilTime

variable {civil : CivilTime} {zone : Option UtcOffset} {text : List Char} {anchor : Anchor}
  {localOffset : UtcOffset}

/-- The seconds of the calendar from the start of 1970 to the civil time. -/
def secondsPassed (civil : CivilTime) : Int :=
  (civil.date.daysPassed - Date.unixEpoch.daysPassed) * 86400 + civil.hour * 3600 +
    civil.minute * 60 + civil.second

/-- The moment of a civil time in a zone, or in the home of the anchor if there is no zone. -/
theorem moment_eq (civil : CivilTime) (zone : Option UtcOffset) (anchor : Anchor)
    (localOffset : UtcOffset) : civil.moment zone anchor localOffset =
      ⟨anchor, civil.secondsPassed - (zone.getD (anchor.home localOffset)).seconds, civil.nanos,
        anchor.home localOffset⟩ := by
  have hseconds : civil.date.number * 86400 + civil.secondOfDay = civil.secondsPassed := by
    rw [Date.number_eq_sub civil.year_bounds.1, secondOfDay, secondsPassed]
    omega
  rw [moment, Moment.ofCivil, hseconds]

end CivilTime

/-! ### Characters -/

theorem Text.isPlain_of_isDigit {c : Char} (h : isDigit c = true) : isPlain c = true := by
  simp [isPlain, h]

theorem Text.isPlain_of_isLetter {c : Char} (h : isLetter c = true) : isPlain c = true := by
  simp [isPlain, h]

theorem Text.isControl_of_isPlain {c : Char} (h : isPlain c = true) : isControl c = false := by
  have hsigns : ∀ c ∈ ['+', '-', '.', ':'], isControl c = false := forall_mem_of_all (by decide)
  rw [isPlain, Bool.or_eq_true, Bool.or_eq_true, List.contains_iff_mem, Lexeme.isLetter_iff,
    Lexeme.isDigit_iff] at h
  obtain hcode | hsign := h
  · simp only [isControl, Bool.or_eq_false_iff, Bool.and_eq_false_iff, decide_eq_false_iff_not]
    omega
  · exact hsigns c hsign

theorem Text.IsField.isPlain {least most n : Nat} {text : List Char}
    (h : IsField least most n text) : IsPlain text :=
  fun c hc ↦ isPlain_of_isDigit (h.isDigit_chars c hc)

/-- Plain characters, slashes and spaces stand for themselves between quotes. -/
theorem Quoted.escape_eq_self {c : Char} (h : isPlain c = true ∨ c ∈ ['/', ' ']) :
    escape '"' c = [c] := by
  have hmarks : ∀ c ∈ ['/', ' '], c ∉ ['\\', '%', '\n', '\r', '\t', '\x08', '"'] ∧
      isControl c = false := forall_mem_of_all (by decide)
  obtain ⟨hspecial, hcontrol⟩ : c ∉ ['\\', '%', '\n', '\r', '\t', '\x08', '"'] ∧
      isControl c = false :=
    h.elim (fun hplain ↦ ⟨not_mem_of_isPlain hplain (by decide), isControl_of_isPlain hplain⟩)
      (hmarks c)
  simp only [List.mem_cons, List.not_mem_nil, or_false, not_or] at hspecial
  simp [escape, hspecial, hcontrol]

theorem Quoted.encode_eq {text : List Char} (h : ∀ c ∈ text, isPlain c = true ∨ c ∈ ['/', ' ']) :
    encode '"' text = '"' :: (text ++ ['"']) := by
  have hbody : text.flatMap (escape '"') = text := by
    induction text with
    | nil => rfl
    | cons c rest ih =>
      obtain ⟨hc, hrest⟩ := List.forall_mem_cons.mp h
      rw [List.flatMap_cons, escape_eq_self hc, ih hrest]
      rfl
  rw [encode, hbody]
  rfl

namespace CivilTime

variable {civil : CivilTime} {zone : Option UtcOffset} {text : List Char} {anchor : Anchor}
  {localOffset : UtcOffset}

theorem SpellsDate.chars (h : civil.SpellsDate text) :
    ∀ c ∈ text, isPlain c = true ∨ c = '/' := by
  have hplain {least most n : Nat} {text : List Char} (h : IsField least most n text) :
      ∀ c ∈ text, isPlain c = true ∨ c = '/' := fun c hc ↦ .inl (h.isPlain c hc)
  have hseparators : ∀ c ∈ ['-', '/'], isPlain c = true ∨ c = '/' := forall_mem_of_all (by decide)
  cases h with
  | yearFirst hseparator hyear hmonth hday =>
    simp only [List.forall_mem_append, List.forall_mem_cons]
    exact ⟨hplain hyear, hseparators _ hseparator, hplain hmonth, hseparators _ hseparator,
      hplain hday⟩
  | monthFirst hseparator hyear hmonth hday =>
    simp only [List.forall_mem_append, List.forall_mem_cons]
    exact ⟨hplain hmonth, hseparators _ hseparator, hplain hday, hseparators _ hseparator,
      hplain hyear⟩

theorem SpellsDate.noBlankEnds (h : civil.SpellsDate text) : NoBlankEnds text := by
  refine noBlankEnds_of_not_blank fun c hc ↦ ?_
  obtain hplain | rfl := h.chars c hc
  · exact not_blank_of_isPlain hplain
  · rfl

theorem WritesClock.isPlain (h : civil.WritesClock text) : IsPlain text := by
  have hcolon : Text.isPlain ':' = true := by decide
  cases h with
  | @full hour minute second digits hhour hminute hsecond hdigits =>
    have hpoint : IsPlain (afterPoint digits) := by
      have hplain : IsPlain digits := fun c hc ↦ isPlain_of_isDigit (hdigits c hc)
      cases digits with
      | nil => exact isPlain_nil
      | cons digit rest => exact isPlain_cons.mpr ⟨by decide, hplain⟩
    simp [hcolon, hhour.isPlain, hminute.isPlain, hsecond.isPlain, hpoint]
  | short hhour hminute => simp [hcolon, hhour.isPlain, hminute.isPlain]

/-- A zone is plain but for a space in front of its name. -/
theorem exists_zoneName (h : UtcOffset.Spells zone text) :
    ∃ blanks word, text = blanks ++ word ∧ IsPlain word ∧
      (blanks = [] ∨ blanks = [' '] ∧ word ≠ []) := by
  have hsign {sign : Char} {h m : Nat} {offset : UtcOffset} (hclock : offset.IsClock sign h m) :
      Text.isPlain sign = true := by
    obtain ⟨rfl, -⟩ | ⟨rfl, -⟩ := hclock <;> decide
  cases h with
  | missing => exact ⟨[], [], rfl, isPlain_nil, .inl rfl⟩
  | @zulu c hc =>
    have hnames : ∀ c ∈ ['Z', 'z'], Text.isPlain c = true := forall_mem_of_all (by decide)
    exact ⟨[], [c], rfl, List.forall_mem_singleton.mpr (hnames c hc), .inl rfl⟩
  | @gmt blanks word hblanks hword =>
    have hletters : ∀ d ∈ ['g', 'm', 't'], isLetter d = true := forall_mem_of_all (by decide)
    have hplain : IsPlain word := fun c hc ↦ by
      have hlower : isLetter c.toLower = true :=
        hletters _ (hword ▸ List.mem_map_of_mem hc)
      exact isPlain_of_isLetter (isLetter_toLower c ▸ hlower)
    have hne : word ≠ [] := by
      rintro rfl
      cases hword
    refine ⟨blanks, word, rfl, hplain, ?_⟩
    simpa [hne] using hblanks
  | @hours offset sign h hours hoffset hlt hhours =>
    exact ⟨[], sign :: hours, rfl, isPlain_cons.mpr ⟨hsign hoffset, hhours.isPlain⟩, .inl rfl⟩
  | @minutes offset sign h m hours colon minutes hoffset hlt hhours hcolon hminutes =>
    have hplain : IsPlain colon :=
      (forall_mem_of_all (by decide) : ∀ text ∈ [[], [':']], IsPlain text) colon hcolon
    refine ⟨[], _, rfl, ?_, .inl rfl⟩
    simp [hsign hoffset, hhours.isPlain, hplain, hminutes.isPlain]

theorem Spells.chars (h : civil.Spells zone text) :
    ∀ c ∈ text, Text.isPlain c = true ∨ c ∈ ['/', ' '] := by
  have hgaps : ∀ c ∈ ['T', 't', ' '], Text.isPlain c = true ∨ c ∈ ['/', ' '] :=
    forall_mem_of_all (by decide)
  obtain ⟨hdate, hgap, hclock, hzone⟩ := h
  obtain ⟨blanks, word, rfl, hword, hblanks⟩ := exists_zoneName hzone
  have hspace : ∀ c ∈ blanks, Text.isPlain c = true ∨ c ∈ ['/', ' '] := by
    obtain rfl | ⟨rfl, -⟩ := hblanks <;> simp
  simp only [List.forall_mem_append, List.forall_mem_cons]
  refine ⟨fun c hc ↦ ?_, hgaps _ hgap, fun c hc ↦ .inl (hclock.writes.isPlain c hc), hspace,
    fun c hc ↦ .inl (hword c hc)⟩
  obtain hplain | rfl := hdate.chars c hc
  · exact .inl hplain
  · exact .inr List.mem_cons_self

/-- A day and a time of it have no blank at their ends. -/
theorem noBlankEnds_clock {date clock : List Char} (hdate : civil.SpellsDate date)
    (hclock : civil.WritesClock clock) (gap : Char) : NoBlankEnds (date ++ gap :: clock) := by
  have hne : clock ≠ [] := by cases hclock <;> simp
  have hends := hdate.noBlankEnds.around hclock.isPlain.noBlankEnds hdate.ne_nil hne [gap]
  rwa [List.append_assoc, List.singleton_append] at hends

theorem noBlankEnds_zone {time zoneText : List Char} (htime : NoBlankEnds time) (hne : time ≠ [])
    (hzone : UtcOffset.Spells zone zoneText) : NoBlankEnds (time ++ zoneText) := by
  obtain ⟨blanks, word, rfl, hword, hblanks⟩ := exists_zoneName hzone
  obtain rfl | ⟨rfl, hwordNe⟩ := hblanks
  · exact htime.append hword.noBlankEnds
  · rw [← List.append_assoc]
    exact htime.around hword.noBlankEnds hne hwordNe [' ']

theorem Spells.noBlankEnds (h : civil.Spells zone text) : NoBlankEnds text := by
  obtain @⟨_, _, _, gap, hdate, hgap, hclock, hzone⟩ := h
  have hends := noBlankEnds_zone (noBlankEnds_clock hdate hclock.writes gap) (by simp) hzone
  rwa [List.append_assoc, List.cons_append] at hends

/-! ### Literals -/

/-- Behind a word for moments a spelling is read in place, and between quotes in their stead. -/
theorem Spells.recovers_bareOrWithin (h : civil.Spells zone text) (anchor : Anchor)
    (localOffset : UtcOffset) {written : List Char}
    (hwritten : written ∈ [text, '"' :: (text ++ ['"'])]) :
    Scan.Recovers (Literal.bareOrWithin (Moment.scan anchor localOffset)) written
      (civil.moment zone anchor localOffset) [] := by
  obtain ⟨c, body, htext, hdigit⟩ := h.exists_head
  obtain rfl | hquoted := List.mem_cons.mp hwritten
  · have hquote (passed : List Char) : Literal.quoteAhead ⟨passed, written ++ []⟩ =
        .ok false ⟨passed, written ++ []⟩ := by
      have hne : (c == '"') = false := by
        rw [beq_eq_false_iff_ne]
        rintro rfl
        cases hdigit
      rw [htext]
      exact congrArg (EStateM.Result.ok · _) hne
    exact Scan.recovers_look hquote (h.recovers_scan anchor localOffset)
  · rw [List.mem_singleton.mp hquoted]
    have hbody : Scan.Recovers (Quoted.scan '"') ('"' :: (text ++ ['"'])) text [] := by
      rw [← Quoted.encode_eq h.chars]
      exact Quoted.recovers_scan (by decide) text []
    have hinner := h.recovers_scan anchor localOffset []
    refine Scan.recovers_look (a := true) (fun _ ↦ rfl) fun passed ↦ ?_
    rw [if_pos rfl, bind_ok (hbody passed), Literal.within, trim_eq_self_iff.mpr h.noBlankEnds]
    rw [List.append_nil] at hinner
    rw [Cursor.start, hinner]
    rfl

/-- All spellings of a civil time are one literal each, of the same moment. -/
theorem Spells.scansTo_moment (h : civil.Spells zone text) (localOffset : UtcOffset) :
    Lexer.ScansTo localOffset text (.moment ⟨.local,
      civil.secondsPassed - (zone.getD localOffset).seconds, civil.nanos, localOffset⟩) ∧
    ∀ word anchor, (String.ofList (lowerAscii word), anchor) ∈ momentPrefixes →
      ∀ written ∈ [text, '"' :: (text ++ ['"'])],
        Lexer.ScansTo localOffset (word ++ ':' :: written) (.moment ⟨anchor,
          civil.secondsPassed - (zone.getD (anchor.home localOffset)).seconds, civil.nanos,
          anchor.home localOffset⟩) := by
  refine ⟨?_, fun word anchor hword written hwritten ↦ ?_⟩
  · obtain ⟨c, body, rfl, hblank, hscan⟩ := h.scan_eq localOffset
    rw [moment_eq] at hscan
    exact Lexer.scan_of_literal hblank hscan
  · have htype : LiteralType.ofWord? word = some (.moment anchor) :=
      (forall_mem_of_all (by decide) : ∀ entry ∈ momentPrefixes,
        LiteralType.names.lookup entry.1 = some (.moment entry.2)) _ hword
    rw [← moment_eq]
    exact Lexer.scansTo_typed htype (h.recovers_bareOrWithin anchor localOffset hwritten).map

/-- A leap day without a zone, with the month in front and one digit for the hour, two hours ahead
of UTC. -/
theorem Spells.scansTo_moment_leap_day :
    let civil : CivilTime := ⟨⟨2024, 2, 29, by decide, by decide⟩, 5, 6, 0, 0, by decide, by decide,
      by decide, by decide, by decide⟩
    let localOffset : UtcOffset := ⟨7200, by decide⟩
    civil.Spells none "2/29/2024 5:06".toList ∧
    Lexer.ScansTo localOffset "2/29/2024 5:06".toList
      (.moment ⟨.local, 1709175960, 0, localOffset⟩) ∧
    Lexer.ScansTo localOffset "Utc:\"2/29/2024 5:06\"".toList
      (.moment ⟨.utc, 1709183160, 0, .utc⟩) := by
  intro civil localOffset
  have hfield {least most n : Nat} {digits : List Char} (hdigits : digits.all isDigit = true)
      (hlength : least ≤ digits.length ∧ digits.length ≤ most) (hvalue : ofDigits digits = n) :
      IsField least most n digits :=
    ⟨List.all_eq_true.mp hdigits, hlength, hvalue⟩
  have hspells : civil.Spells none (("2".toList ++ '/' :: ("29".toList ++ '/' :: "2024".toList)) ++
      ' ' :: (("5".toList ++ ':' :: "06".toList) ++ [])) :=
    .intro (.monthFirst (by decide) (hfield (by decide) (by decide) rfl)
      (hfield (by decide) (by decide) rfl) (hfield (by decide) (by decide) rfl)) (by decide)
      (.short (hfield (by decide) (by decide) rfl) (hfield (by decide) (by decide) rfl) rfl rfl)
      .missing
  have hseconds : civil.secondsPassed = 1709183160 := by
    rw [secondsPassed, ← Date.number_eq_sub (by decide)]
    decide
  have hscans := Spells.scansTo_moment hspells localOffset
  rw [hseconds] at hscans
  exact ⟨hspells, hscans.1, hscans.2 "Utc".toList .utc (by decide) _ (by decide)⟩

end CivilTime

end ResourceQuery
