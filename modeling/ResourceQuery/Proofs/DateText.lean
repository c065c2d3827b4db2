import ResourceQuery.Proofs.PrintedText
import ResourceQuery.Proofs.Progress

/-!
# The text of dates and times

Whether a date and time names a zone can be told from its text alone. The date has digits and
separators, the time of day digits, colons and a point, and a zone either ends with a letter or
has a sign in it; so a letter at the end, or a sign behind the first colon, is one of a zone.
-/

namespace ResourceQuery

open Run Scan Cursor

namespace Moment

/-- The text of a date and time names a zone. The first colon is the one of the time of day. -/
def namesZone (text : List Char) : Bool :=
  text.getLast?.any Text.isLetter || (text.dropWhile (· != ':')).any isSign

def isDateChar (c : Char) : Bool :=
  Text.isDigit c || isSeparator c

def isClockChar (c : Char) : Bool :=
  Text.isDigit c || c == ':' || c == '.'

/-! ### Telling a zone from the text -/

theorem isLetter_of_isDigit {c : Char} (h : Text.isDigit c = true) : Text.isLetter c = false := by
  have hdigit := (Lexeme.isDigit_iff c).mp h
  rw [Bool.eq_false_iff, Ne, Lexeme.isLetter_iff]
  omega

theorem isLetter_of_isDateChar {c : Char} (h : isDateChar c = true) :
    Text.isLetter c = false := by
  simp only [isDateChar, isSeparator, Bool.or_eq_true, beq_iff_eq] at h
  obtain hdigit | rfl | rfl := h
  · exact isLetter_of_isDigit hdigit
  · rfl
  · rfl

theorem isLetter_of_isClockChar {c : Char} (h : isClockChar c = true) :
    Text.isLetter c = false := by
  simp only [isClockChar, Bool.or_eq_true, beq_iff_eq] at h
  obtain (hdigit | rfl) | rfl := h
  · exact isLetter_of_isDigit hdigit
  · rfl
  · rfl

theorem isSign_of_isClockChar {c : Char} (h : isClockChar c = true) : isSign c = false := by
  simp only [isClockChar, Bool.or_eq_true, beq_iff_eq] at h
  obtain (hdigit | rfl) | rfl := h
  · exact isSign_of_isDigit hdigit
  · rfl
  · rfl

/-- The text ends with a letter or has a sign in it just if it is the one of a zone. -/
def TellsZone (zone : Option UtcOffset) (text : List Char) : Prop :=
  (text.getLast?.any Text.isLetter || text.any isSign) = zone.isSome

section Text

variable {date front clock tail : List Char} {zone : Option UtcOffset}

theorem namesZone_date (h : ∀ c ∈ date, isDateChar c = true) : namesZone date = false := by
  have hcolon : date.dropWhile (· != ':') = [] := by
    rw [List.dropWhile_eq_nil_iff]
    intro c hc
    rw [bne_iff_ne]
    rintro rfl
    cases h ':' hc
  rw [namesZone, hcolon, List.any_nil, Bool.or_false, Option.any_eq_false]
  intro c hc
  rw [isLetter_of_isDateChar (h c (List.mem_of_getLast? hc))]

/-- A letter behind a date is the one of a zone. -/
theorem namesZone_letter {c : Char} (hc : Text.isLetter c = true) :
    namesZone (date ++ [c]) = true := by
  rw [namesZone, List.getLast?_append, List.getLast?_singleton, Option.some_or, Option.any_some, hc,
    Bool.true_or]

/-- Behind a time of day the text is the one of a zone. -/
theorem namesZone_clock (hfront : ∀ c ∈ front, c ≠ ':') (hclock : ∀ c ∈ clock, isClockChar c = true)
    (hcolon : ':' ∈ clock) (htail : TellsZone zone tail) :
    namesZone (front ++ (clock ++ tail)) = zone.isSome := by
  have hdrop : (front ++ (clock ++ tail)).dropWhile (· != ':') =
      clock.dropWhile (· != ':') ++ tail := by
    have hne : clock.dropWhile (· != ':') ≠ [] := by
      rw [Ne, List.dropWhile_eq_nil_iff]
      intro h
      cases h ':' hcolon
    rw [List.dropWhile_append_of_pos fun c hc ↦ bne_iff_ne.mpr (hfront c hc), List.dropWhile_append,
      if_neg (by simpa using hne)]
  have hclocksign : (clock.dropWhile (· != ':')).any isSign = false := by
    rw [List.any_eq_false]
    intro c hc
    rw [isSign_of_isClockChar (hclock c ((List.dropWhile_sublist _).mem hc))]
    decide
  have hclockletter : clock.getLast?.any Text.isLetter = false := by
    rw [Option.any_eq_false]
    intro c hc
    rw [isLetter_of_isClockChar (hclock c (List.mem_of_getLast? hc))]
  have hlast : (front ++ (clock ++ tail)).getLast?.any Text.isLetter =
      tail.getLast?.any Text.isLetter := by
    rw [List.getLast?_append, List.getLast?_append]
    cases htail : tail.getLast? with
    | some c => rfl
    | none =>
      have hclock : clock.getLast? ≠ none := by
        rw [Ne, List.getLast?_eq_none_iff]
        rintro rfl
        cases hcolon
      obtain ⟨c, hc⟩ := Option.ne_none_iff_exists'.mp hclock
      rw [hc] at hclockletter ⊢
      exact hclockletter
  rw [namesZone, hlast, hdrop, List.any_append, hclocksign, Bool.false_or]
  exact htail

end Text

end Moment

/-! ### Texts that are read -/

namespace Moment

theorem isDateChar_of_isDigit (c : Char) (h : Text.isDigit c = true) : isDateChar c = true := by
  rw [isDateChar, h, Bool.true_or]

theorem isClockChar_of_isDigit (c : Char) (h : Text.isDigit c = true) : isClockChar c = true := by
  rw [isClockChar, h, Bool.true_or, Bool.true_or]

theorem isLetter_of_toLower {c d : Char} (h : c.toLower = d) (hd : Text.isLetter d = true) :
    Text.isLetter c = true := by
  rwa [← Text.isLetter_toLower, h]

/-- `GMT` ends with a letter, in any case of its letters. -/
theorem exists_letter_of_startsWithGmt {text : List Char} (h : startsWithGmt text = true) :
    ∃ start c, text.take 3 = start ++ [c] ∧ Text.isLetter c = true := by
  have hgmt : (text.take 3).map Char.toLower = ['g', 'm'] ++ ['t'] := eq_of_beq h
  obtain ⟨start, last, htake, -, hlast⟩ := List.map_eq_append_iff.mp hgmt
  obtain ⟨c, rfl, hc⟩ := List.map_eq_singleton_iff.mp hlast
  exact ⟨start, c, htake, isLetter_of_toLower hc rfl⟩

theorem tellsZone_letter (start : List Char) {c : Char} (h : Text.isLetter c = true)
    (zone : UtcOffset) : TellsZone (some zone) (start ++ [c]) := by
  rw [TellsZone, List.getLast?_append, List.getLast?_singleton, Option.some_or, Option.any_some, h]
  rfl

theorem tellsZone_sign {sign : Char} {rest : List Char} (h : isSign sign = true)
    (zone : UtcOffset) : TellsZone (some zone) (sign :: rest) := by
  rw [TellsZone, List.any_cons, h, Bool.true_or, Bool.or_true]
  rfl

end Moment

namespace UtcOffset

variable {offset : UtcOffset} {zone : Option UtcOffset} {text : List Char}

theorem IsClock.isSign {sign : Char} {h m : Nat} (hoffset : offset.IsClock sign h m) :
    isSign sign = true := by
  obtain ⟨rfl, -⟩ | ⟨rfl, -⟩ := hoffset <;> rfl

theorem Misspells.exists_sign (h : offset.Misspells text) :
    ∃ sign rest, text = sign :: rest ∧ isSign sign = true := by
  cases h with
  | noMinutes hoffset => exact ⟨_, _, rfl, hoffset.isSign⟩
  | manyMinutes hoffset => exact ⟨_, _, rfl, hoffset.isSign⟩

theorem IsRead.tellsZone (h : IsRead zone text) : Moment.TellsZone zone text := by
  obtain hspells | ⟨offset, hoffset, hmisspells⟩ := h
  · cases hspells with
    | missing => rfl
    | zulu hc =>
      have hletters : ∀ c ∈ ['Z', 'z'], Text.isLetter c = true := forall_mem_of_all (by decide)
      exact Moment.tellsZone_letter [] (hletters _ hc) _
    | @gmt blanks word hblanks hword =>
      obtain ⟨-, -, -, -, hlength, hstarts⟩ := exists_gmt hword
      obtain ⟨start, c, hsplit, hc⟩ := Moment.exists_letter_of_startsWithGmt hstarts
      rw [List.take_of_length_le hlength.le] at hsplit
      rw [hsplit, ← List.append_assoc]
      exact Moment.tellsZone_letter _ hc _
    | hours hoffset => exact Moment.tellsZone_sign hoffset.isSign _
    | minutes hoffset => exact Moment.tellsZone_sign hoffset.isSign _
  · obtain rfl := Option.mem_def.mp hoffset
    obtain ⟨sign, rest, rfl, hsign⟩ := hmisspells.exists_sign
    exact Moment.tellsZone_sign hsign _

end UtcOffset

namespace CivilTime

variable {civil : CivilTime} {zone : Option UtcOffset} {text : List Char}

open Text

theorem SpellsDate.isDateChar (h : civil.SpellsDate text) :
    ∀ c ∈ text, Moment.isDateChar c = true := by
  have hdigits {least most n : Nat} {text : List Char} (h : IsField least most n text) :
      ∀ c ∈ text, Moment.isDateChar c = true :=
    fun c hc ↦ Moment.isDateChar_of_isDigit c (h.isDigit_chars c hc)
  have hseparators : ∀ c ∈ ['-', '/'], Moment.isDateChar c = true := forall_mem_of_all (by decide)
  cases h with
  | yearFirst hseparator hyear hmonth hday =>
    simp only [List.forall_mem_append, List.forall_mem_cons]
    exact ⟨hdigits hyear, hseparators _ hseparator, hdigits hmonth, hseparators _ hseparator,
      hdigits hday⟩
  | monthFirst hseparator hyear hmonth hday =>
    simp only [List.forall_mem_append, List.forall_mem_cons]
    exact ⟨hdigits hmonth, hseparators _ hseparator, hdigits hday, hseparators _ hseparator,
      hdigits hyear⟩

theorem WritesClock.isClockChar (h : civil.WritesClock text) :
    ∀ c ∈ text, Moment.isClockChar c = true := by
  have hfield {least most n : Nat} {text : List Char} (h : IsField least most n text) :
      ∀ c ∈ text, Moment.isClockChar c = true :=
    fun c hc ↦ Moment.isClockChar_of_isDigit c (h.isDigit_chars c hc)
  have hcolon : Moment.isClockChar ':' = true := rfl
  cases h with
  | @full hour minute second digits hhour hminute hsecond hdigits =>
    have hpoint : ∀ c ∈ afterPoint digits, Moment.isClockChar c = true := by
      have hplain : ∀ c ∈ digits, Moment.isClockChar c = true :=
        fun c hc ↦ Moment.isClockChar_of_isDigit c (hdigits c hc)
      cases digits with
      | nil => simp [afterPoint]
      | cons digit rest => exact List.forall_mem_cons.mpr ⟨rfl, hplain⟩
    simp only [List.forall_mem_append, List.forall_mem_cons]
    exact ⟨hfield hhour, hcolon, hfield hminute, hcolon, hfield hsecond, hpoint⟩
  | short hhour hminute =>
    simp only [List.forall_mem_append, List.forall_mem_cons]
    exact ⟨hfield hhour, hcolon, hfield hminute⟩

theorem WritesClock.colon_mem (h : civil.WritesClock text) : ':' ∈ text := by
  cases h <;> simp

/-- What stands behind a date tells whether there is a zone. -/
theorem IsScanned.namesZone_eq (h : civil.IsScanned zone text) :
    Moment.namesZone text = zone.isSome := by
  cases h with
  | day hdate => exact Moment.namesZone_date hdate.isDateChar
  | zulu hdate hsecond hnanos hc =>
    have hletters : ∀ c ∈ ['Z', 'z'], isLetter c = true := forall_mem_of_all (by decide)
    exact Moment.namesZone_letter (hletters _ hc)
  | @clock zone date clock zoneText gap hdate hgap hclock hzone =>
    have hnocolon : ∀ c ∈ ['T', 't', ' '], c ≠ ':' := forall_mem_of_all (by decide)
    have hfront : ∀ c ∈ date ++ [gap], c ≠ ':' := by
      refine List.forall_mem_append.mpr ⟨?_, List.forall_mem_singleton.mpr (hnocolon gap hgap)⟩
      rintro _ hc rfl
      cases hdate.isDateChar ':' hc
    rw [List.append_cons]
    exact Moment.namesZone_clock hfront hclock.isClockChar hclock.colon_mem hzone.tellsZone

end CivilTime

namespace Moment

/-- The text of a date and time tells whether it names a zone. -/
theorem namesZone_scanCivil {cursor : Cursor} :
    Spells cursor scanCivil fun civil run ↦ namesZone run = civil.zone.isSome := by
  refine spells_scanCivil.mono ?_
  rintro found run ⟨civil, -, -, hscanned⟩
  exact hscanned.namesZone_eq

/-- The hyphens of the date are no signs of a zone. -/
example : ["2024-06-01", "2024-06-01 12:30", "2024-06-01Z", "2024-06-01T12:30-02"].map
    (fun text ↦ namesZone text.toList) = [false, false, true, true] := by decide

end Moment

/-! ### Dates within a literal -/

namespace Literal

/-- The body of a literal that may stand between double quotes, without blanks at its ends. -/
def unquoted : List Char → List Char
  | '"' :: quoted =>
    match (Quoted.decode '"' quoted).1 with
    | .ok body => Text.trim body
    | .error _ => []
  | bare => bare

/-- The date in the text of a literal, behind the word and the colon of a prefix. -/
def writtenDate (text : List Char) : List Char :=
  match text.dropWhile Text.isLetter with
  | ':' :: body => unquoted body
  | _ => text

theorem unquoted_eq_self {text : List Char} (h : text.head? ≠ some '"') : unquoted text = text := by
  unfold unquoted
  split
  · exact absurd rfl h
  · rfl

theorem writtenDate_prefixed {word body : List Char} (h : ∀ c ∈ word, Text.isLetter c = true) :
    writtenDate (word ++ ':' :: body) = unquoted body := by
  have hcolon : (word ++ ':' :: body).dropWhile Text.isLetter = ':' :: body :=
    List.dropWhile_append_of_pos h
  rw [writtenDate, hcolon]
  rfl

/-- Without a letter or a colon in front there is no prefix. -/
theorem writtenDate_bare {text : List Char}
    (h : ∀ c ∈ text.head?, Text.isLetter c = false ∧ c ≠ ':') : writtenDate text = text := by
  cases text with
  | nil => rfl
  | cons c rest =>
    obtain ⟨hletter, hcolon⟩ := h c rfl
    rw [writtenDate, List.dropWhile_cons_of_neg (by rw [hletter]; decide)]
    split
    · next heq =>
      cases heq
      exact absurd rfl hcolon
    · rfl

variable {cursor : Cursor} {α : Type} {scanner : Scan α} {form : α → List Char → Prop}

theorem spells_quoted (quote : Char) :
    Spells cursor (Quoted.scan quote) fun body run ↦
      ∃ quoted, run = cursor.peek.toList ++ (quoted ++ [quote]) ∧
        (Quoted.decode quote (quoted ++ [quote])).1 = .ok body := by
  intro body last hok
  obtain ⟨used, hdecode, rfl⟩ := Quoted.scan_eq_ok_iff.mp hok
  refine ⟨_, between_passOver cursor _, ?_⟩
  obtain ⟨passed, _ | ⟨opening, text⟩⟩ := cursor
  · simp [Quoted.decode] at hdecode
  obtain ⟨front, behind, htext, rfl, hother⟩ := Quoted.closes_of_decode hdecode
  obtain rfl : text = front ++ quote :: behind := htext
  refine ⟨front, ?_, by rw [hother]⟩
  have hlength : front.length + 1 = (front ++ [quote]).length := by simp
  have hsplit : front ++ quote :: behind = (front ++ [quote]) ++ behind := by simp
  rw [List.take_succ_cons, hlength, hsplit, List.take_left]
  rfl

theorem spells_within (body : List Char) (h : ∀ cursor, Spells cursor scanner form) :
    Spells cursor (within body scanner) fun a run ↦ run = [] ∧ form a (Text.trim body) := by
  unfold within
  split
  · next a stood hstood =>
    refine spells_ite (fun hend ↦ spells_pure ⟨rfl, ?_⟩) fun _ ↦ fun _ _ hok ↦ nomatch hok
    obtain ⟨run, hrun, hform⟩ := h _ a stood hstood
    have hbody : Text.trim body = run ++ stood.ahead := hrun.ahead
    rw [List.isEmpty_iff.mp hend, List.append_nil] at hbody
    rwa [hbody]
  · exact fun _ _ hok ↦ nomatch hok

theorem spells_bareOrWithin (h : ∀ cursor, Spells cursor scanner form) :
    Spells cursor (bareOrWithin scanner) fun a run ↦ form a (unquoted run) := by
  refine spells_look rfl (spells_ite (fun hquote ↦ ?_) fun hquote ↦ ?_)
  · refine (spells_quoted '"').bind fun body _ _ hrun ↦ (spells_within body h).mono ?_
    rintro a _ ⟨rfl, hform⟩
    obtain ⟨quoted, rfl, hdecode⟩ := hrun
    obtain ⟨c, hc, hclass⟩ := (Option.any_eq_true _ _).mp hquote
    obtain rfl : c = '"' := eq_of_beq hclass
    rw [hc, Option.toList_some, List.singleton_append, List.append_nil, unquoted, hdecode]
    exact hform
  · intro a last hok
    obtain ⟨run, hrun, hform⟩ := h cursor a last hok
    have hbare : unquoted run = run := by
      refine unquoted_eq_self fun hhead ↦ hquote ?_
      obtain ⟨tail, rfl⟩ := List.head?_eq_some_iff.mp hhead
      rw [Cursor.peek, hrun.ahead]
      rfl
    refine ⟨run, hrun, ?_⟩
    change form a (unquoted run)
    rwa [hbare]

end Literal

end ResourceQuery
