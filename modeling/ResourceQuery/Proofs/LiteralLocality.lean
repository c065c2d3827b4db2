import Mathlib.Tactic.ByContra
import ResourceQuery.Literal.Typed
import ResourceQuery.Proofs.Locality

/-!
# Literals are local

Every scanner of a literal does in a longer text what it does in the text of the literal alone. Most
of them stop at any character that may follow a word. References and binary literals do not, as they
may hold equals signs; they stop at what may follow a value.
-/

namespace ResourceQuery

open Scan

variable {strict : Prop} {before rest : List Char} {cursor : Cursor}

/-! ### Guids -/

namespace Guid

theorem ahead_embed (hrest : FollowsWord rest) (cursor : Cursor) :
    ahead (cursor.embed before rest) = ahead cursor := by
  have hcount : (cursor.embed before rest).countAhead Text.isHexDigit =
      cursor.countAhead Text.isHexDigit := Cursor.countAhead_embed (hrest.bars (by decide)) cursor
  rw [ahead, ahead, hcount]
  cases height : cursor.countAhead Text.isHexDigit == 8 with
  | false => rfl
  | true =>
    have hplace : 8 ≤ cursor.ahead.length := eq_of_beq height ▸ Cursor.countAhead_le _ cursor
    rw [Cursor.peekAt_beq_embed (hrest.bars (by decide)) hplace]

theorem agrees_scanGroups (hrest : FollowsWord rest) (mark mark' : Nat) (group : Nat)
    (widths : List Nat) :
    Agrees strict before rest cursor (scanGroups mark group widths)
      (scanGroups mark' group widths) := by
  induction widths generalizing group cursor with
  | nil => exact agrees_pure ()
  | cons width widths ih =>
    have hdigits (cursor : Cursor) : Agrees strict before rest cursor
        (readAtMost width Text.isHexDigit) (readAtMost width Text.isHexDigit) :=
      agrees_readAtMost width (hrest.bars (by decide))
    unfold scanGroups
    refine agrees_ite (fun _ ↦ ?_) fun _ ↦ ?_
    · refine (agrees_accept (hrest.bars (by decide))).bind fun hyphen _ _ _ ↦ ?_
      refine agrees_unless fun _ ↦ ?_
      refine (hdigits _).bind fun digits _ _ _ ↦ agrees_when fun _ ↦ ih _
    · refine (hdigits _).bind fun digits _ _ _ ↦ agrees_when fun _ ↦ ih _

theorem agrees_ofText (text : List Char) :
    Agrees strict before rest cursor (ofText text) (ofText text) := by
  unfold ofText
  split
  · exact agrees_pure _
  · exact agrees_throw _ _

theorem agrees_scan (hrest : FollowsWord rest) : Agrees strict before rest cursor scan scan := by
  apply agrees_position
  refine (agrees_scanGroups hrest _ _ 1 groupWidths).bind fun _ _ _ _ ↦ ?_
  refine (agrees_atBoundary hrest).bind fun _ _ _ _ ↦ agrees_unless fun _ ↦ agrees_get ?_
  rw [Cursor.textFrom_embed]
  exact agrees_ofText _

end Guid

/-! ### Numbers -/

namespace Numeral

theorem agrees_scanFraction (hrest : FollowsWord rest) :
    Agrees strict before rest cursor scanFraction scanFraction := by
  refine agrees_ifNextTwo (hrest.bars (by decide)) (hrest.bars (by decide)) (fun hlength ↦ ?_)
    (agrees_pure _)
  have hplace : 1 ≤ cursor.ahead.length := Nat.le_of_succ_le hlength
  exact (agrees_skip hplace).bind fun _ _ _ _ ↦ agrees_readWhile (hrest.bars (by decide))

theorem agrees_scanExponent (hrest : FollowsWord rest) :
    Agrees strict before rest cursor scanExponent scanExponent := by
  refine agrees_ifNextTwo (hrest.bars (by decide)) (hrest.bars (by decide)) (fun hlength ↦ ?_)
    (agrees_pure _)
  have hplace : 1 ≤ cursor.ahead.length := Nat.le_of_succ_le hlength
  refine (agrees_skip hplace).bind fun _ _ _ _ ↦ ?_
  refine (agrees_readIf (hrest.bars (by decide))).bind fun _ _ _ _ ↦ ?_
  exact (agrees_readWhile (hrest.bars (by decide))).bind fun _ _ _ _ ↦ agrees_pure _

theorem agrees_scan? (hrest : FollowsWord rest) : Agrees strict before rest cursor scan? scan? := by
  refine (agrees_readIf (hrest.bars (by decide))).bind fun sign _ _ _ ↦ ?_
  refine (agrees_readWhile (hrest.bars (by decide))).bind fun whole _ _ _ ↦ ?_
  refine (agrees_scanFraction hrest).bind fun fraction _ _ _ ↦ ?_
  refine agrees_ite (fun _ ↦ agrees_pure _) fun _ ↦ ?_
  refine (agrees_scanExponent hrest).bind fun exponent _ _ _ ↦ ?_
  refine agrees_ite (fun _ ↦ agrees_pure _) fun _ ↦ ?_
  have hsuffix : Bars isSuffixLetter rest := hrest.bars (by decide)
  refine (agrees_readAtMost 2 hsuffix).bind fun suffix _ _ _ ↦ ?_
  refine (agrees_atBoundary hrest).bind fun boundary _ _ _ ↦ ?_
  exact agrees_ite (fun _ ↦ agrees_pure _) fun _ ↦ agrees_pure _

end Numeral

namespace Number

theorem agrees_scan? (hrest : FollowsWord rest) : Agrees strict before rest cursor scan? scan? := by
  apply agrees_position
  refine (Numeral.agrees_scan? hrest).bind fun found _ _ _ ↦ ?_
  split
  · exact agrees_pure none
  · split
    · exact agrees_pure _
    · exact agrees_failFrom _ _ _ _

/-- Where a hexadecimal literal is announced, its two marks come next. -/
theorem agrees_hexAhead_bind {β : Type} {next others : Bool → Scan β} (hrest : FollowsWord rest)
    (h : ∀ hex, (hex = true → 2 ≤ cursor.ahead.length) →
      Agrees strict before rest cursor (next hex) (others hex)) :
    Agrees strict before rest cursor (hexAhead >>= next) (hexAhead >>= others) :=
  agrees_nextTwo (hrest.bars (by decide)) (hrest.bars (by decide)) h

theorem agrees_scanHexDigits (hrest : FollowsWord rest) (h : 2 ≤ cursor.ahead.length) :
    Agrees strict before rest cursor scanHexDigits scanHexDigits := by
  refine agrees_position ((agrees_skip h).bind fun _ _ _ _ ↦ ?_)
  refine (agrees_readWhile (hrest.bars (by decide))).bind fun digits _ _ _ ↦ ?_
  exact agrees_when fun _ ↦ agrees_when fun _ ↦ agrees_pure _

theorem agrees_scanHex (hrest : FollowsWord rest) (h : 2 ≤ cursor.ahead.length) :
    Agrees strict before rest cursor scanHex scanHex := by
  refine agrees_position ((agrees_scanHexDigits hrest h).bind fun digits _ _ _ ↦ ?_)
  refine (agrees_readAtMost 2 (hrest.bars (by decide))).bind fun suffix _ _ _ ↦ ?_
  refine (agrees_atBoundary hrest).bind fun boundary _ _ _ ↦ ?_
  exact agrees_unless fun _ ↦ agrees_pure _

theorem agrees_scanTypedHex (hrest : FollowsWord rest) (target : NumberType)
    (h : 2 ≤ cursor.ahead.length) :
    Agrees strict before rest cursor (scanTypedHex target) (scanTypedHex target) := by
  refine agrees_position ((agrees_scanHexDigits hrest h).bind fun digits _ _ _ ↦ ?_)
  refine (agrees_atBoundary hrest).bind fun boundary _ _ _ ↦ agrees_unless fun _ ↦ ?_
  split
  · exact agrees_pure _
  · exact agrees_failFrom _ _ _ _

theorem agrees_scanTypedNumeral (hrest : FollowsWord rest) (target : NumberType) :
    Agrees strict before rest cursor (scanTypedNumeral target) (scanTypedNumeral target) := by
  refine agrees_position ((Numeral.agrees_scan? hrest).bind fun found _ _ _ ↦ ?_)
  split
  · refine agrees_when fun _ ↦ ?_
    split
    · exact agrees_pure _
    · exact agrees_failFrom _ _ _ _
  · exact agrees_failFrom _ _ _ _

theorem agrees_scanTyped (hrest : FollowsWord rest) (target : NumberType) :
    Agrees strict before rest cursor (scanTyped target) (scanTyped target) := by
  refine agrees_hexAhead_bind hrest fun hex hlength ↦ ?_
  exact agrees_ite (fun hhex ↦ agrees_scanTypedHex hrest target (hlength hhex)) fun _ ↦
    agrees_scanTypedNumeral hrest target

end Number

/-! ### Time spans -/

namespace TimeSpan

theorem ahead_embed (hrest : FollowsWord rest) (cursor : Cursor) :
    ahead (cursor.embed before rest) = ahead cursor := by
  have hbehindSign (cursor : Cursor) :
      (0 < (cursor.embed before rest).countAhead Text.isDigit &&
        (cursor.embed before rest).peekAt ((cursor.embed before rest).countAhead Text.isDigit) ==
          some ':') =
      (0 < cursor.countAhead Text.isDigit &&
        cursor.peekAt (cursor.countAhead Text.isDigit) == some ':') := by
    rw [Cursor.countAhead_embed (hrest.bars (by decide)),
      Cursor.peekAt_beq_embed (hrest.bars (by decide)) (Cursor.countAhead_le _ cursor)]
  unfold ahead
  dsimp only
  rw [Cursor.any_peek_embed (hrest.bars (by decide))]
  split
  · next hsign =>
    rw [Cursor.passOver_embed (Cursor.one_le_of_any_peek hsign)]
    exact hbehindSign _
  · rw [Cursor.passOver_embed (Nat.zero_le _)]
    exact hbehindSign _

theorem agrees_scanFraction (hrest : FollowsWord rest) :
    Agrees strict before rest cursor scanFraction scanFraction := by
  refine agrees_ifNextTwo (hrest.bars (by decide)) (hrest.bars (by decide)) (fun hlength ↦ ?_)
    (agrees_pure _)
  have hplace : 1 ≤ cursor.ahead.length := Nat.le_of_succ_le hlength
  refine (agrees_skip hplace).bind fun _ _ _ _ ↦ ?_
  exact (agrees_readWhile (hrest.bars (by decide))).map

theorem agrees_scanTwoDigits (hrest : FollowsWord rest) (mark mark' : Nat) (part : SpanPart) :
    Agrees strict before rest cursor (scanTwoDigits mark part) (scanTwoDigits mark' part) := by
  refine (agrees_readAtMost 2 (hrest.bars (by decide))).bind fun digits _ _ _ ↦ ?_
  exact agrees_when fun _ ↦ agrees_pure _

theorem agrees_scanColon (hrest : FollowsWord rest) (mark mark' : Nat) (part : SpanPart) :
    Agrees strict before rest cursor (scanColon mark part) (scanColon mark' part) := by
  refine (agrees_accept (hrest.bars (by decide))).bind fun colon _ _ _ ↦ ?_
  exact agrees_ite (fun _ ↦ agrees_pure _) fun _ ↦ agrees_failFrom _ _ _ _

theorem agrees_scan (hrest : FollowsWord rest) : Agrees strict before rest cursor scan scan := by
  apply agrees_position
  refine (agrees_readIf (hrest.bars (by decide))).bind fun sign _ _ _ ↦ ?_
  refine (agrees_readAtMost 9 (hrest.bars (by decide))).bind fun hours _ _ _ ↦ ?_
  refine agrees_when fun _ ↦ ?_
  refine (agrees_scanColon hrest _ _ _).bind fun _ _ _ _ ↦ ?_
  refine (agrees_scanTwoDigits hrest _ _ _).bind fun minutes _ _ _ ↦ ?_
  refine (agrees_scanColon hrest _ _ _).bind fun _ _ _ _ ↦ ?_
  refine (agrees_scanTwoDigits hrest _ _ _).bind fun seconds _ _ _ ↦ ?_
  refine (agrees_scanFraction hrest).bind fun nanos _ _ _ ↦ ?_
  refine (agrees_atBoundary hrest).bind fun boundary _ _ _ ↦ agrees_unless fun _ ↦ ?_
  exact agrees_when fun _ ↦ agrees_pure _

end TimeSpan

/-! ### Moments -/

namespace Moment

theorem agrees_scanDigits (hrest : FollowsWord rest) (mark mark' least most : Nat)
    (part : DatePart) :
    Agrees strict before rest cursor (scanDigits mark least most part)
      (scanDigits mark' least most part) := by
  refine (agrees_readAtMost most (hrest.bars (by decide))).bind fun digits _ _ _ ↦ ?_
  exact agrees_when fun _ ↦ agrees_pure _

theorem agrees_scanSeparator {separator : Char} (hseparator : Bars (· == separator) rest)
    (mark mark' : Nat) :
    Agrees strict before rest cursor (scanSeparator mark separator)
      (scanSeparator mark' separator) := by
  refine (agrees_accept hseparator).bind fun found _ _ _ ↦ ?_
  exact agrees_ite (fun _ ↦ agrees_pure _) fun _ ↦ agrees_failFrom _ _ _ _

theorem bars_separator (hrest : FollowsWord rest) {separator : Char}
    (h : isSeparator separator = true) : Bars (· == separator) rest := by
  have hstopper : ∀ c ∈ stoppers, isSeparator c = false := forall_mem_of_all (by decide)
  refine hrest.bars (List.any_eq_false.mpr fun c hc ↦ ?_)
  have hother : isSeparator c = false := hstopper c hc
  rw [beq_iff_eq]
  rintro rfl
  rw [h] at hother
  cases hother

theorem dayAndYearAhead_append (hrest : FollowsWord rest) {separator : Char}
    (hseparator : Bars (· == separator) rest) (text : List Char) :
    dayAndYearAhead separator (text ++ rest) = dayAndYearAhead separator text := by
  have hdigits : Bars Text.isDigit rest := hrest.bars (by decide)
  have hlength := length_takeWhile_take_le Text.isDigit 3 text
  unfold dayAndYearAhead
  dsimp only
  rw [takeWhile_take_append_of_bars 3 text hdigits, List.drop_append_of_le_length hlength,
    ← Cursor.any_beq, ← Cursor.any_beq, any_head?_append hseparator]
  cases text.drop ((text.take 3).takeWhile Text.isDigit).length with
  | nil => simp
  | cons c behind =>
    rw [List.cons_append, List.drop_one, List.drop_one, List.tail_cons, List.tail_cons,
      takeWhile_take_append_of_bars 5 behind hdigits]

theorem ahead_embed (hrest : FollowsWord rest) (cursor : Cursor) :
    ahead (cursor.embed before rest) = ahead cursor := by
  have hdigits : Bars Text.isDigit rest := hrest.bars (by decide)
  have hdrop : (cursor.embed before rest).ahead.drop (cursor.countAhead Text.isDigit) =
      cursor.ahead.drop (cursor.countAhead Text.isDigit) ++ rest :=
    List.drop_append_of_le_length (Cursor.countAhead_le _ cursor)
  unfold ahead
  dsimp only
  rw [Cursor.countAhead_embed hdigits, hdrop]
  cases cursor.ahead.drop (cursor.countAhead Text.isDigit) with
  | nil =>
    cases rest with
    | nil => rfl
    | cons c rest =>
      have hc : isSeparator c = false :=
        (forall_mem_of_all (by decide) : ∀ c ∈ stoppers, isSeparator c = false) c (hrest c rfl)
      simp [hc]
  | cons separator behind =>
    dsimp only [List.cons_append]
    cases hseparator : isSeparator separator with
    | false => rfl
    | true =>
      rw [any_head?_append hdigits,
        dayAndYearAhead_append hrest (bars_separator hrest hseparator)]

theorem agrees_scanAfterFirst (hrest : FollowsWord rest) (mark mark' : Nat) (lead : List Char)
    {separator : Char} (hseparator : Bars (· == separator) rest) :
    Agrees strict before rest cursor (scanAfterFirst mark lead separator)
      (scanAfterFirst mark' lead separator) := by
  have hshort : Agrees strict before rest cursor
      (do
        let day ← scanDigits mark 1 2 .day
        scanSeparator mark separator
        let year ← scanDigits mark 4 4 .year
        return (year, Text.ofDigits lead, day))
      (do
        let day ← scanDigits mark' 1 2 .day
        scanSeparator mark' separator
        let year ← scanDigits mark' 4 4 .year
        return (year, Text.ofDigits lead, day)) := by
    refine (agrees_scanDigits hrest _ _ 1 2 .day).bind fun day _ _ _ ↦ ?_
    refine (agrees_scanSeparator hseparator _ _).bind fun _ _ _ _ ↦ ?_
    exact (agrees_scanDigits hrest _ _ 4 4 .year).bind fun _ _ _ _ ↦ agrees_pure _
  unfold scanAfterFirst
  split
  · refine (agrees_scanDigits hrest _ _ 1 2 .month).bind fun month _ _ _ ↦ ?_
    refine (agrees_scanSeparator hseparator _ _).bind fun _ _ _ _ ↦ ?_
    exact (agrees_scanDigits hrest _ _ 1 2 .day).bind fun _ _ _ _ ↦ agrees_pure _
  · exact hshort
  · exact hshort
  · exact agrees_failFrom _ _ _ _

theorem agrees_scanDate (hrest : FollowsWord rest) (mark mark' : Nat) :
    Agrees strict before rest cursor (scanDate mark) (scanDate mark') := by
  refine (agrees_readWhile (hrest.bars (by decide))).bind fun lead _ _ _ ↦ ?_
  refine (agrees_readIf (hrest.bars (by decide))).bind fun found middle hread _ ↦ ?_
  split
  · next separator =>
    have hseparator := bars_separator hrest (class_of_readIf hread)
    refine (agrees_scanAfterFirst hrest _ _ lead hseparator).bind fun fields _ _ _ ↦ ?_
    obtain ⟨year, month, day⟩ := fields
    dsimp only
    split
    · exact agrees_pure _
    · exact agrees_failFrom _ _ _ _
  · exact agrees_failFrom _ _ _ _

theorem agrees_scanSeconds (hrest : FollowsWord rest) (mark mark' : Nat) :
    Agrees strict before rest cursor (scanSeconds mark) (scanSeconds mark') := by
  refine (agrees_accept (hrest.bars (by decide))).bind fun colon _ _ _ ↦ ?_
  refine agrees_ite (fun _ ↦ ?_) fun _ ↦ agrees_pure _
  refine (agrees_scanDigits hrest _ _ 2 2 .second).bind fun second _ _ _ ↦ ?_
  exact (TimeSpan.agrees_scanFraction hrest).bind fun _ _ _ _ ↦ agrees_pure _

theorem agrees_scanClock (hrest : FollowsWord rest) (mark mark' : Nat) :
    Agrees strict before rest cursor (scanClock mark) (scanClock mark') := by
  refine (agrees_scanDigits hrest _ _ 1 2 .hour).bind fun hour _ _ _ ↦ ?_
  refine (agrees_scanSeparator (hrest.bars (by decide)) _ _).bind fun _ _ _ _ ↦ ?_
  refine (agrees_scanDigits hrest _ _ 2 2 .minute).bind fun minute _ _ _ ↦ ?_
  refine (agrees_scanSeconds hrest _ _).bind fun seconds _ _ _ ↦ ?_
  exact agrees_when fun _ ↦ agrees_pure _

theorem agrees_scanOffsetMinutes (hrest : FollowsWord rest) (mark mark' : Nat) :
    Agrees strict before rest cursor (scanOffsetMinutes mark) (scanOffsetMinutes mark') := by
  refine (agrees_nextIs (hrest.bars (by decide))).bind fun digit _ _ _ ↦ ?_
  exact agrees_ite (fun _ ↦ agrees_scanDigits hrest _ _ 2 2 .offsetMinutes) fun _ ↦ agrees_pure _

theorem agrees_scanOffset (hrest : FollowsWord rest) (mark mark' : Nat) (behind : Bool) :
    Agrees strict before rest cursor (scanOffset mark behind) (scanOffset mark' behind) := by
  refine (agrees_scanDigits hrest _ _ 2 2 .offsetHours).bind fun hours _ _ _ ↦ ?_
  refine (agrees_accept (hrest.bars (by decide))).bind fun _ _ _ _ ↦ ?_
  refine (agrees_scanOffsetMinutes hrest _ _).bind fun minutes _ _ _ ↦ ?_
  split
  · exact agrees_pure _
  · exact agrees_failFrom _ _ _ _

theorem lower_ne_of_mem_stoppers {c : Char} (h : c ∈ stoppers) :
    c.toLower ≠ 'g' ∧ c.toLower ≠ 'm' ∧ c.toLower ≠ 't' := by
  have hstopper : ∀ c ∈ stoppers, c.toLower ≠ 'g' ∧ c.toLower ≠ 'm' ∧ c.toLower ≠ 't' :=
    forall_mem_of_all (by decide)
  exact hstopper c h

theorem length_of_startsWithGmt {text : List Char} (h : startsWithGmt text = true) :
    3 ≤ text.length := by
  rcases text with _ | ⟨a, _ | ⟨b, _ | ⟨c, text⟩⟩⟩
  · cases h
  · simp [startsWithGmt, Text.lowerAscii] at h
  · simp [startsWithGmt, Text.lowerAscii] at h
  · simp

theorem startsWithGmt_append (hrest : FollowsWord rest) (text : List Char) :
    startsWithGmt (text ++ rest) = startsWithGmt text := by
  cases rest with
  | nil => rw [List.append_nil]
  | cons r rest =>
    obtain ⟨hg, hm, ht⟩ := lower_ne_of_mem_stoppers (hrest r rfl)
    rcases text with _ | ⟨a, _ | ⟨b, _ | ⟨c, text⟩⟩⟩
    · simp [startsWithGmt, Text.lowerAscii, hg]
    · simp [startsWithGmt, Text.lowerAscii, hm]
    · simp [startsWithGmt, Text.lowerAscii, ht]
    · rfl

/-- No zone is announced by the first characters, except by a name. -/
def NoZoneMark (text : List Char) : Prop :=
  ∀ c ∈ text.head?, c ≠ 'Z' ∧ c ≠ 'z' ∧ c ≠ ' ' ∧
    (c = '+' ∨ c = '-' → text[1]?.any Text.isDigit = false)

theorem NoZoneMark.append {text : List Char} (h : NoZoneMark text) (hrest : FollowsWord rest) :
    NoZoneMark (text ++ rest) := by
  cases text with
  | nil =>
    intro c hc
    have hstopper : ∀ c ∈ stoppers, c ≠ 'Z' ∧ c ≠ 'z' ∧ c ≠ ' ' ∧ c ≠ '+' ∧ c ≠ '-' :=
      forall_mem_of_all (by decide)
    obtain ⟨hupper, hlower, hblank, hplus, hminus⟩ := hstopper c (hrest c hc)
    exact ⟨hupper, hlower, hblank, fun hsign ↦ absurd hsign (by simp [hplus, hminus])⟩
  | cons a text =>
    intro c hc
    obtain ⟨hupper, hlower, hblank, hdigit⟩ := h c hc
    refine ⟨hupper, hlower, hblank, fun hsign ↦ ?_⟩
    rw [any_getElem?_append (by simp) (hrest.bars (by decide))]
    exact hdigit hsign

theorem scanZone?_of_noZoneMark {mark : Nat} {cursor : Cursor} (h : NoZoneMark cursor.ahead) :
    scanZone? mark cursor =
      (if startsWithGmt cursor.ahead then do
        Scan.skip 3
        return some .utc
      else return none : Scan (Option UtcOffset)) cursor := by
  obtain ⟨passed, ahead⟩ := cursor
  have hget : (get : Scan Cursor) ⟨passed, ahead⟩ = .ok ⟨passed, ahead⟩ ⟨passed, ahead⟩ := rfl
  rw [scanZone?, Run.bind_ok hget]
  dsimp only
  split
  · exact absurd rfl (h 'Z' rfl).1
  · exact absurd rfl (h 'z' rfl).2.1
  · exact absurd rfl (h ' ' rfl).2.2.1
  · next digit tail =>
    have hdigit : Text.isDigit digit = false := (h '+' rfl).2.2.2 (.inl rfl)
    rw [hdigit]
    rfl
  · next digit tail =>
    have hdigit : Text.isDigit digit = false := (h '-' rfl).2.2.2 (.inr rfl)
    rw [hdigit]
    rfl
  · rfl

/-- Where a zone is announced, the mark of it comes first. -/
theorem exists_zoneMark {text : List Char} (h : ¬NoZoneMark text) :
    (∃ behind, text = 'Z' :: behind ∨ text = 'z' :: behind ∨ text = ' ' :: behind) ∨
      ∃ sign digit behind, text = sign :: digit :: behind ∧ (sign = '+' ∨ sign = '-') ∧
        Text.isDigit digit = true := by
  cases text with
  | nil => exact absurd (fun c hc ↦ nomatch hc) h
  | cons a behind =>
    by_contra hother
    rw [not_or] at hother
    apply h
    intro c hc
    obtain rfl : a = c := Option.some.inj hc
    have hmarks : ¬(a = 'Z' ∨ a = 'z' ∨ a = ' ') := fun hmark ↦
      hother.1 ⟨behind, by simpa using hmark⟩
    rw [not_or, not_or] at hmarks
    refine ⟨hmarks.1, hmarks.2.1, hmarks.2.2, fun hsign ↦ ?_⟩
    rw [List.getElem?_cons_succ, ← List.head?_eq_getElem?, ← Bool.not_eq_true]
    intro hdigit
    cases behind with
    | nil => cases hdigit
    | cons digit behind => exact hother.2 ⟨a, digit, behind, rfl, hsign, hdigit⟩

theorem agrees_gmt (hrest : FollowsWord rest) {text : List Char} {count : Nat}
    (h : startsWithGmt text = true → count ≤ cursor.ahead.length) :
    Agrees strict before rest cursor
      (if startsWithGmt text then do
        Scan.skip count
        return some UtcOffset.utc
      else return none)
      (if startsWithGmt (text ++ rest) then do
        Scan.skip count
        return some .utc
      else return none) := by
  rw [startsWithGmt_append hrest]
  refine agrees_ite (fun hgmt ↦ ?_) fun _ ↦ agrees_pure _
  exact (agrees_skip (h hgmt)).bind fun _ _ _ _ ↦ agrees_pure _

/-- Reads the sign of an offset and the offset behind it. -/
theorem agrees_signedOffset (hrest : FollowsWord rest) (mark mark' : Nat)
    (h : 1 ≤ cursor.ahead.length) :
    Agrees strict before rest cursor
      (do
        let behind ← Scan.accept '-'
        unless behind do Scan.skip 1
        return some (← scanOffset mark behind))
      (do
        let behind ← Scan.accept '-'
        unless behind do Scan.skip 1
        return some (← scanOffset mark' behind)) := by
  refine (agrees_accept (hrest.bars (by decide))).bind fun behind middle hread _ ↦ ?_
  refine agrees_ite (fun _ ↦ ?_) fun hbehind ↦ ?_
  · exact (agrees_scanOffset hrest _ _ _).map
  · have hfalse : behind = false := by simpa using hbehind
    subst hfalse
    obtain rfl := eq_of_accept_eq_false hread
    exact (agrees_skip h).bind fun _ _ _ _ ↦ (agrees_scanOffset hrest _ _ _).map

/-- A sign and a digit announce an offset. -/
theorem scanZone?_signed {mark : Nat} {sign digit : Char} {passed behind : List Char}
    (hsign : sign = '+' ∨ sign = '-') (hdigit : Text.isDigit digit = true) :
    scanZone? mark ⟨passed, sign :: digit :: behind⟩ = (do
      let behind ← Scan.accept '-'
      unless behind do Scan.skip 1
      return some (← scanOffset mark behind) : Scan (Option UtcOffset))
        ⟨passed, sign :: digit :: behind⟩ := by
  obtain rfl | rfl := hsign <;>
    · change (if Text.isDigit digit = true then _ else _ : Scan (Option UtcOffset)) _ = _
      rw [if_pos hdigit]

theorem agrees_scanZone? (hrest : FollowsWord rest) (mark mark' : Nat) :
    Agrees strict before rest cursor (scanZone? mark) (scanZone? mark') := by
  by_cases hmark : NoZoneMark cursor.ahead
  · have happend : NoZoneMark (cursor.embed before rest).ahead := hmark.append hrest
    have hlength : startsWithGmt cursor.ahead = true → 3 ≤ cursor.ahead.length :=
      length_of_startsWithGmt
    exact (agrees_gmt hrest hlength).congr (scanZone?_of_noZoneMark hmark)
      (scanZone?_of_noZoneMark happend)
  · obtain ⟨passed, ahead⟩ := cursor
    obtain ⟨behind, rfl | rfl | rfl⟩ | ⟨sign, digit, behind, rfl, hsign, hdigit⟩ :=
      exists_zoneMark hmark
    · exact agrees_get ((agrees_skip (by simp)).bind fun _ _ _ _ ↦ agrees_pure _)
    · exact agrees_get ((agrees_skip (by simp)).bind fun _ _ _ _ ↦ agrees_pure _)
    · have hlength (hgmt : startsWithGmt behind = true) : 4 ≤ (' ' :: behind).length :=
        Nat.succ_le_succ (length_of_startsWithGmt hgmt)
      exact agrees_get (agrees_gmt hrest hlength)
    · have hplace : 1 ≤ (sign :: digit :: behind).length := by simp
      exact (agrees_signedOffset hrest mark mark' hplace).congr (scanZone?_signed hsign hdigit)
        (scanZone?_signed hsign hdigit)

/-- At most two digits come first, and a colon behind them. -/
theorem digitsColon_append (hrest : FollowsWord rest) (text : List Char) :
    (let digits := (((text ++ rest).take 2).takeWhile Text.isDigit).length
     decide (0 < digits) && (text ++ rest)[digits]? == some ':') =
    (let digits := ((text.take 2).takeWhile Text.isDigit).length
     decide (0 < digits) && text[digits]? == some ':') := by
  have hdigits : Bars Text.isDigit rest := hrest.bars (by decide)
  dsimp only
  rw [takeWhile_take_append_of_bars 2 text hdigits, ← Cursor.any_beq, ← Cursor.any_beq,
    any_getElem?_append (length_takeWhile_take_le _ 2 text) (hrest.bars (by decide))]

theorem clockAhead_embed (hrest : FollowsWord rest) (cursor : Cursor) :
    clockAhead (cursor.embed before rest) = clockAhead cursor := by
  obtain ⟨passed, ahead⟩ := cursor
  cases ahead with
  | nil =>
    have hstopper : ∀ c ∈ stoppers, ∀ text, clockAhead ⟨passed ++ before, c :: text⟩ = false := by
      simp [stoppers, clockAhead]
    cases rest with
    | nil => rfl
    | cons c rest => exact hstopper c (hrest c rfl) rest
  | cons c ahead =>
    by_cases hupper : c = 'T'
    · subst hupper
      rfl
    by_cases hlower : c = 't'
    · subst hlower
      rfl
    by_cases hblank : c = ' '
    · subst hblank
      exact digitsColon_append hrest ahead
    simp [clockAhead, Cursor.embed, hupper, hlower, hblank]

theorem agrees_scanClockAndZone (hrest : FollowsWord rest) (mark mark' : Nat) :
    Agrees strict before rest cursor (scanClockAndZone mark) (scanClockAndZone mark') := by
  apply agrees_get
  rw [clockAhead_embed hrest]
  refine agrees_ite (fun hclock ↦ ?_) fun _ ↦ ?_
  · have hplace : 1 ≤ cursor.ahead.length := by
      obtain ⟨passed, _ | ⟨c, ahead⟩⟩ := cursor
      · cases hclock
      · simp
    refine (agrees_skip hplace).bind fun _ _ _ _ ↦ ?_
    refine (agrees_scanClock hrest _ _).bind fun clock _ _ _ ↦ ?_
    exact (agrees_scanZone? hrest _ _).bind fun _ _ _ _ ↦ agrees_pure _
  · refine (agrees_nextIs (hrest.bars (by decide))).bind fun zulu _ _ _ ↦ ?_
    refine agrees_ite (fun _ ↦ ?_) fun _ ↦ agrees_pure _
    exact (agrees_scanZone? hrest _ _).bind fun _ _ _ _ ↦ agrees_pure _

theorem agrees_scan (hrest : FollowsWord rest) (anchor : Anchor) (localOffset : UtcOffset) :
    Agrees strict before rest cursor (scan anchor localOffset) (scan anchor localOffset) := by
  apply agrees_position
  refine (agrees_scanDate hrest _ _).bind fun date _ _ _ ↦ ?_
  refine (agrees_scanClockAndZone hrest _ _).bind fun clockAndZone _ _ _ ↦ ?_
  obtain ⟨clock, zone⟩ := clockAndZone
  refine (agrees_atBoundary hrest).bind fun boundary _ _ _ ↦ ?_
  exact agrees_ite (fun _ ↦ agrees_pure _) fun _ ↦ agrees_of_error rfl rfl

end Moment

/-! ### Quoted texts -/

namespace Quoted

theorem push_eq_ok {c : Char} {count used : Nat} {outcome : Outcome} {body : List Char} :
    outcome.push c count = (.ok body, used) ↔
      ∃ tail inner, outcome = (.ok tail, inner) ∧ c :: tail = body ∧ inner + count = used := by
  obtain ⟨result, inner⟩ := outcome
  cases result with
  | error fault => simp [Outcome.push, Except.map]
  | ok tail =>
    constructor
    · intro h
      obtain ⟨hbody, hused⟩ := Prod.mk.inj h
      exact ⟨tail, inner, rfl, Except.ok.inj hbody, hused⟩
    · rintro ⟨tail, inner, ⟨⟩, rfl, rfl⟩
      rfl

theorem decode_cons {quote c : Char} (hc : c ≠ '\\') (text : List Char) :
    decode quote (c :: text) =
      if c = quote then (.ok [], 1) else (decode quote text).push c 1 := by
  rw [decode.eq_def]
  split <;> simp_all

/-- A backslash begins an escape, or ends the text. -/
theorem ne_backslash {c : Char} {text : List Char} (hend : c = '\\' → text = [] → False)
    (hescape : ∀ e rest, c = '\\' → text = e :: rest → False) : c ≠ '\\' := by
  intro hc
  cases text with
  | nil => exact hend hc rfl
  | cons e rest => exact hescape e rest hc rfl

/-- The text begins with a body and its closing quote, and the body is read whatever stands behind
the quote. -/
def Closes (quote : Char) (text body : List Char) (used : Nat) : Prop :=
  ∃ front behind, text = front ++ quote :: behind ∧ used = front.length + 1 ∧
    ∀ other, decode quote (front ++ quote :: other) = (.ok body, used)

/-- One more character in front of what is closed. -/
theorem Closes.push {quote : Char} {text body : List Char} {used : Nat} (before : List Char)
    (ch : Char) (hbefore : ∀ text, decode quote (before ++ text) =
      (decode quote text).push ch before.length)
    (hinner : ∀ {body used}, decode quote text = (.ok body, used) → Closes quote text body used)
    (h : decode quote (before ++ text) = (.ok body, used)) :
    Closes quote (before ++ text) body used := by
  rw [hbefore] at h
  obtain ⟨tail, inner, hdecode, rfl, rfl⟩ := push_eq_ok.mp h
  obtain ⟨front, behind, rfl, rfl, hother⟩ := hinner hdecode
  refine ⟨before ++ front, behind, by simp, by simp; omega, fun other ↦ ?_⟩
  rw [List.append_assoc, hbefore, hother]
  rfl

/-- A body is read up to its closing quote. -/
theorem closes_of_decode {quote : Char} {text body : List Char} {used : Nat}
    (h : decode quote text = (.ok body, used)) : Closes quote text body used := by
  induction text using decode.induct quote generalizing body used with
  | case1 => simp [decode] at h
  | case2 => simp [decode] at h
  | @case3 a b c d text digits hlength ch hcode ih =>
    refine Closes.push ['\\', 'u', a, b, c, d] ch (fun text ↦ ?_) ih h
    simp only [List.cons_append, List.nil_append, decode]
    rw [if_pos hlength, hcode]
    rfl
  | @case4 a b c d text digits hlength hcode =>
    simp only [decode] at h
    rw [if_pos hlength, hcode] at h
    cases h
  | @case5 a b c d text digits hlength =>
    simp only [decode] at h
    rw [if_neg hlength] at h
    cases h
  | case6 short hshort =>
    simp [decode] at h
  | @case7 e text hu ch hescape ih =>
    refine Closes.push ['\\', e] ch (fun text ↦ ?_) ih h
    simp only [List.cons_append, List.nil_append, decode, hescape]
    rfl
  | case8 e text hu hescape =>
    simp [decode, hescape] at h
  | case9 text hend hunicode hescape =>
    have hc : quote ≠ '\\' := ne_backslash hend hescape
    rw [decode_cons hc, if_pos rfl] at h
    cases h
    refine ⟨[], text, rfl, rfl, fun other ↦ ?_⟩
    rw [List.nil_append, decode_cons hc, if_pos rfl]
  | @case10 c text hend hunicode hescape hquote ih =>
    have hc : c ≠ '\\' := ne_backslash hend hescape
    refine Closes.push [c] c (fun text ↦ ?_) ih h
    rw [List.singleton_append, decode_cons hc, if_neg hquote]
    rfl

theorem decode_append {quote : Char} {text body : List Char} {used : Nat} (rest : List Char)
    (h : decode quote text = (.ok body, used)) :
    used ≤ text.length ∧ decode quote (text ++ rest) = (.ok body, used) := by
  obtain ⟨front, behind, rfl, rfl, hother⟩ := closes_of_decode h
  exact ⟨by simp, by simpa using hother (behind ++ rest)⟩

/-- What holds no quote does not close a body. -/
theorem decode_of_append {quote : Char} {text rest body : List Char} {used : Nat}
    (hrest : quote ∉ rest) (h : decode quote (text ++ rest) = (.ok body, used)) :
    decode quote text = (.ok body, used) := by
  obtain ⟨front, behind, htext, rfl, hother⟩ := closes_of_decode h
  obtain ⟨more, -, hmore⟩ | ⟨more, rfl, hmore⟩ := List.append_eq_append_iff.mp htext
  · exact absurd (hmore ▸ by simp) hrest
  · cases more with
    | nil =>
      rw [List.nil_append] at hmore
      exact absurd (hmore ▸ List.mem_cons_self) hrest
    | cons c more =>
      obtain ⟨rfl, -⟩ : quote = c ∧ _ := by simpa using hmore
      exact hother more

theorem scan_eq_ok_iff {quote : Char} {body : List Char} {next : Cursor} :
    scan quote cursor = .ok body next ↔
      ∃ used, decode quote (cursor.ahead.drop 1) = (.ok body, used) ∧
        cursor.passOver (used + 1) = next := by
  have hget : (get : Scan Cursor) cursor = .ok cursor cursor := rfl
  have hposition : Scan.position cursor = .ok cursor.position cursor := rfl
  rw [scan, Run.bind_ok hposition, Run.bind_ok hget]
  rcases decode quote (cursor.ahead.drop 1) with ⟨result, used⟩
  have hskip : Scan.skip (used + 1) cursor = .ok () (cursor.passOver (used + 1)) := rfl
  dsimp only
  rw [Run.bind_ok hskip]
  cases result with
  | error fault => exact ⟨nofun, fun ⟨_, h, _⟩ ↦ nomatch h⟩
  | ok found =>
    constructor
    · intro h
      cases h
      exact ⟨used, rfl, rfl⟩
    · rintro ⟨_, ⟨⟩, rfl⟩
      rfl

theorem agrees_scan {quote : Char} (hquote : strict → quote ∉ rest) :
    Agrees strict before rest cursor (scan quote) (scan quote) where
  embed body next h := by
    obtain ⟨used, hdecode, rfl⟩ := scan_eq_ok_iff.mp h
    obtain ⟨passed, ahead⟩ := cursor
    cases ahead with
    | nil => simp [decode] at hdecode
    | cons c text =>
      obtain ⟨hle, happend⟩ := decode_append rest hdecode
      refine ⟨Cursor.source_passOver _ _, scan_eq_ok_iff.mpr ⟨used, happend, ?_⟩⟩
      exact Cursor.passOver_embed (Nat.succ_le_succ hle)
  alone hstrict body next h := by
    obtain ⟨used, hdecode, -⟩ := scan_eq_ok_iff.mp h
    refine ⟨body, _, scan_eq_ok_iff.mpr ⟨used, ?_, rfl⟩⟩
    obtain ⟨passed, ahead⟩ := cursor
    cases ahead with
    | nil =>
      have hrest : quote ∉ rest.drop 1 := fun hmem ↦ hquote hstrict (List.mem_of_mem_drop hmem)
      exact decode_of_append hrest hdecode
    | cons c text => exact decode_of_append (hquote hstrict) hdecode

theorem agrees_scanChar (hquote : strict → '\'' ∉ rest) :
    Agrees strict before rest cursor scanChar scanChar := by
  refine agrees_position ((agrees_scan hquote).bind fun body _ _ _ ↦ ?_)
  split
  · exact agrees_pure _
  · exact agrees_failFrom _ _ _ _

end Quoted

/-! ### Literals after a type prefix -/

namespace Literal

theorem agrees_scanUri (hrest : FollowsValue rest) :
    Agrees strict before rest cursor scanUri scanUri :=
  (agrees_readWhile (hrest.bars (by decide))).map

/-- A quote that comes next is in the text, so it is not in what follows. -/
theorem quote_not_mem {quote : Char} {found : Bool} {middle : Cursor}
    (hquotes : strict → KeepsQuotes cursor.source rest) (hquote : quote ∈ ['"', '\''])
    (hnext : Scan.nextIs (· == quote) cursor = .ok found middle) (hfound : found = true) :
    strict → quote ∉ rest := by
  intro hstrict
  cases hnext
  have hpeek : cursor.ahead.head? = some quote := by
    rw [Cursor.any_beq] at hfound
    exact eq_of_beq hfound
  exact hquotes hstrict quote hquote (List.mem_append_right _ (List.mem_of_head? hpeek))

theorem agrees_quoteAhead (hrest : FollowsWord rest) :
    Agrees strict before rest cursor quoteAhead quoteAhead :=
  agrees_nextIs (hrest.bars (by decide))

theorem agrees_scanBody (hrest : FollowsWord rest)
    (hquotes : strict → KeepsQuotes cursor.source rest) :
    Agrees strict before rest cursor scanBody scanBody := by
  refine (agrees_quoteAhead hrest).bind fun quoted _ hahead _ ↦ ?_
  refine agrees_ite (fun hquoted ↦ Quoted.agrees_scan ?_) fun _ ↦ ?_
  · exact quote_not_mem hquotes (by simp) hahead hquoted
  refine (agrees_readWhile (hrest.bars (by decide))).bind fun word _ _ _ ↦ ?_
  exact agrees_ite (fun _ ↦ agrees_of_error rfl rfl) fun _ ↦ agrees_pure word

/-- What is read within a quoted body does not depend on the text around it. -/
theorem agrees_within {α : Type} (body : List Char) (scanner : Scan α) :
    Agrees strict before rest cursor (within body scanner) (within body scanner) := by
  unfold within
  split
  · exact agrees_ite (fun _ ↦ agrees_pure _) fun _ ↦ agrees_throw _ _
  · exact agrees_throw _ _

theorem agrees_bareOrWithin {α : Type} {scanner : Scan α} (hrest : FollowsWord rest)
    (hquotes : strict → KeepsQuotes cursor.source rest)
    (h : ∀ cursor, Agrees strict before rest cursor scanner scanner) :
    Agrees strict before rest cursor (bareOrWithin scanner) (bareOrWithin scanner) := by
  refine (agrees_quoteAhead hrest).bind fun quoted _ hahead _ ↦
    agrees_ite (fun hquoted ↦ ?_) fun _ ↦ h _
  have hquote := quote_not_mem hquotes (by simp) hahead hquoted
  exact (Quoted.agrees_scan hquote).bind fun body _ _ _ ↦ agrees_within body scanner

theorem agrees_scanBool (hrest : FollowsWord rest)
    (hquotes : strict → KeepsQuotes cursor.source rest)
    (mark mark' : Nat) :
    Agrees strict before rest cursor (scanBool mark) (scanBool mark') := by
  refine (agrees_scanBody hrest hquotes).bind fun body _ _ _ ↦ ?_
  split
  · exact agrees_pure _
  · exact agrees_failFrom _ _ _ _

theorem agrees_scanText (hrest : FollowsWord rest)
    (hquotes : strict → KeepsQuotes cursor.source rest) :
    Agrees strict before rest cursor scanText scanText := by
  refine (agrees_nextIs (hrest.bars (by decide))).bind fun single _ hahead hsource ↦ ?_
  exact agrees_ite
    (fun hsingle ↦ Quoted.agrees_scan (quote_not_mem hquotes (by simp) hahead hsingle)) fun _ ↦
      agrees_scanBody hrest (hsource ▸ hquotes)

theorem agrees_scanTypedChar (hrest : FollowsWord rest)
    (hquotes : strict → KeepsQuotes cursor.source rest)
    (mark mark' : Nat) :
    Agrees strict before rest cursor (scanTypedChar mark) (scanTypedChar mark') := by
  refine (agrees_nextIs (hrest.bars (by decide))).bind fun single _ hahead hsource ↦ ?_
  refine agrees_ite (fun hsingle ↦ Quoted.agrees_scanChar ?_) fun _ ↦ ?_
  · exact quote_not_mem hquotes (by simp) hahead hsingle
  refine (agrees_scanBody hrest (hsource ▸ hquotes)).bind fun body _ _ _ ↦ ?_
  split
  · exact agrees_pure _
  · exact agrees_failFrom _ _ _ _

theorem agrees_scanTypedGuid (hrest : FollowsWord rest)
    (hquotes : strict → KeepsQuotes cursor.source rest) :
    Agrees strict before rest cursor scanTypedGuid scanTypedGuid := by
  refine (agrees_quoteAhead hrest).bind fun quoted _ hahead _ ↦ ?_
  refine agrees_ite (fun hquoted ↦ ?_) fun _ ↦ Guid.agrees_scan hrest
  have hquote := quote_not_mem hquotes (by simp) hahead hquoted
  exact (Quoted.agrees_scan hquote).bind fun body _ _ _ ↦ Guid.agrees_ofText body

theorem agrees_scanPayload (hrest : FollowsValue rest)
    (hquotes : strict → KeepsQuotes cursor.source rest) :
    Agrees strict before rest cursor scanPayload scanPayload := by
  refine (agrees_quoteAhead hrest.stops).bind fun quoted _ hahead _ ↦ ?_
  exact agrees_ite
    (fun hquoted ↦ Quoted.agrees_scan (quote_not_mem hquotes (by simp) hahead hquoted)) fun _ ↦
      agrees_readWhile (hrest.bars (by decide))

theorem agrees_scanBinary (hrest : FollowsValue rest)
    (hquotes : strict → KeepsQuotes cursor.source rest) :
    Agrees strict before rest cursor scanBinary scanBinary := by
  refine (agrees_scanPayload hrest hquotes).bind fun payload _ _ _ ↦ ?_
  split
  · exact agrees_pure _
  · exact agrees_throw _ _

theorem agrees_scanTypedUri (hrest : FollowsValue rest)
    (hquotes : strict → KeepsQuotes cursor.source rest)
    (mark mark' : Nat) :
    Agrees strict before rest cursor (scanTypedUri mark) (scanTypedUri mark') := by
  refine (agrees_quoteAhead hrest.stops).bind fun quoted _ hahead _ ↦
    agrees_ite (fun hquoted ↦ ?_) fun _ ↦ ?_
  · exact (Quoted.agrees_scan (quote_not_mem hquotes (by simp) hahead hquoted)).map
  · exact (agrees_scanUri hrest).bind fun uri _ _ _ ↦ agrees_when fun _ ↦ agrees_pure uri

theorem agrees_scanTyped (hrest : FollowsValue rest)
    (hquotes : strict → KeepsQuotes cursor.source rest)
    (localOffset : UtcOffset) (mark mark' : Nat) (type : LiteralType) :
    Agrees strict before rest cursor (scanTyped localOffset mark type)
      (scanTyped localOffset mark' type) := by
  cases type with
  | number type => exact Number.agrees_scanTyped hrest.stops type
  | bool => exact (agrees_scanBool hrest.stops hquotes _ _).map
  | char => exact (agrees_scanTypedChar hrest.stops hquotes _ _).map
  | string => exact (agrees_scanText hrest.stops hquotes).map
  | guid => exact (agrees_scanTypedGuid hrest.stops hquotes).map
  | binary => exact (agrees_scanBinary hrest hquotes).map
  | uri => exact (agrees_scanTypedUri hrest hquotes _ _).map
  | moment anchor =>
    exact (agrees_bareOrWithin hrest.stops hquotes fun _ ↦
      Moment.agrees_scan hrest.stops anchor localOffset).map
  | span =>
    exact (agrees_bareOrWithin hrest.stops hquotes fun _ ↦ TimeSpan.agrees_scan hrest.stops).map

/-- Two slashes behind the next character are there in the longer text just if they are there. -/
theorem slashes_embed (hrest : FollowsWord rest) (h : 1 ≤ cursor.ahead.length) :
    ((cursor.embed before rest).peekAt 1 == some '/' &&
      (cursor.embed before rest).peekAt 2 == some '/') =
    (cursor.peekAt 1 == some '/' && cursor.peekAt 2 == some '/') := by
  rw [Cursor.peekAt_beq_embed (hrest.bars (by decide)) h]
  cases hslash : cursor.peekAt 1 == some '/' with
  | false => rfl
  | true =>
    have hsecond : cursor.ahead[1]? = some '/' := eq_of_beq hslash
    have hplace : 2 ≤ cursor.ahead.length := (List.getElem?_eq_some_iff.mp hsecond).1
    rw [Cursor.peekAt_beq_embed (hrest.bars (by decide)) hplace]

theorem agrees_scanAfterWord (hrest : FollowsValue rest)
    (hquotes : strict → KeepsQuotes cursor.source rest)
    (localOffset : UtcOffset) {mark : Nat} (word : List Char) (h : 1 ≤ cursor.ahead.length)
    (hmark : mark ≤ cursor.source.length) :
    Agrees strict before rest cursor (scanAfterWord localOffset mark word)
      (scanAfterWord localOffset (mark + before.length) word) := by
  have hcheck : Agrees strict before rest cursor
      (if isWebScheme word && (cursor.peekAt 1 == some '/' && cursor.peekAt 2 == some '/') then do
          Scan.moveTo mark
          return Value.uri (← scanUri)
        else
          (LiteralType.ofWord? word).elim (throw (.unknownPrefix (String.ofList word)))
            fun type ↦ do
              Scan.skip 1
              scanTyped localOffset mark type)
      (if isWebScheme word && ((cursor.embed before rest).peekAt 1 == some '/' &&
            (cursor.embed before rest).peekAt 2 == some '/') then do
          Scan.moveTo (mark + before.length)
          return Value.uri (← scanUri)
        else
          (LiteralType.ofWord? word).elim (throw (.unknownPrefix (String.ofList word)))
            fun type ↦ do
              Scan.skip 1
              scanTyped localOffset (mark + before.length) type) := by
    rw [slashes_embed hrest.stops h]
    refine agrees_ite (fun _ ↦ ?_) fun _ ↦ ?_
    · exact (agrees_moveTo hmark).bind fun _ _ _ _ ↦ (agrees_scanUri hrest).map
    · cases LiteralType.ofWord? word with
      | none => exact agrees_throw _ _
      | some type =>
        exact (agrees_skip h).bind fun _ _ _ hsource ↦
          agrees_scanTyped hrest (hsource ▸ hquotes) localOffset _ _ _
  refine hcheck.congr ?_ ?_
  · rw [← Bool.and_assoc]
    unfold scanAfterWord
    cases LiteralType.ofWord? word <;> rfl
  · rw [← Bool.and_assoc]
    unfold scanAfterWord
    cases LiteralType.ofWord? word <;> rfl

/-! ### What is recognised behind a prefix -/

section Recognised

variable {localOffset : UtcOffset} {mark : Nat} {word : List Char} {value : Value} {next : Cursor}

/-- What is recognised where a literal of the type is to come. -/
inductive FromType (localOffset : UtcOffset) (mark : Nat) (cursor : Cursor) :
    LiteralType → Value → Cursor → Prop
  | number {target : NumberType} {value : Value} {next : Cursor}
      (hread : Number.scanTyped target cursor = .ok value next) :
      FromType localOffset mark cursor (.number target) value next
  | bool {b : Bool} {next : Cursor} (hread : scanBool mark cursor = .ok b next) :
      FromType localOffset mark cursor .bool (.bool b) next
  | char {c : Char} {next : Cursor} (hread : scanTypedChar mark cursor = .ok c next) :
      FromType localOffset mark cursor .char (.char c) next
  | string {body : List Char} {next : Cursor} (hread : scanText cursor = .ok body next) :
      FromType localOffset mark cursor .string (.string (String.ofList body)) next
  | guid {id : Guid} {next : Cursor} (hread : scanTypedGuid cursor = .ok id next) :
      FromType localOffset mark cursor .guid (.guid id) next
  | binary {bytes : List UInt8} {next : Cursor} (hread : scanBinary cursor = .ok bytes next) :
      FromType localOffset mark cursor .binary (.binary bytes) next
  | uri {text : String} {next : Cursor} (hread : scanTypedUri mark cursor = .ok text next) :
      FromType localOffset mark cursor .uri (.uri text) next
  | moment {anchor : Anchor} {moment : Moment} {next : Cursor}
      (hread : bareOrWithin (Moment.scan anchor localOffset) cursor = .ok moment next) :
      FromType localOffset mark cursor (.moment anchor) (.moment moment) next
  | span {span : TimeSpan} {next : Cursor}
      (hread : bareOrWithin TimeSpan.scan cursor = .ok span next) :
      FromType localOffset mark cursor .span (.span span) next

theorem fromType_of_scanTyped {type : LiteralType}
    (h : scanTyped localOffset mark type cursor = .ok value next) :
    FromType localOffset mark cursor type value next := by
  cases type with
  | number target => exact .number h
  | bool =>
    obtain ⟨_, hread, rfl⟩ := Run.map_eq_ok.mp h
    exact .bool hread
  | char =>
    obtain ⟨_, hread, rfl⟩ := Run.map_eq_ok.mp h
    exact .char hread
  | string =>
    obtain ⟨_, hread, rfl⟩ := Run.map_eq_ok.mp h
    exact .string hread
  | guid =>
    obtain ⟨_, hread, rfl⟩ := Run.map_eq_ok.mp h
    exact .guid hread
  | binary =>
    obtain ⟨_, hread, rfl⟩ := Run.map_eq_ok.mp h
    exact .binary hread
  | uri =>
    obtain ⟨_, hread, rfl⟩ := Run.map_eq_ok.mp h
    exact .uri hread
  | moment anchor =>
    obtain ⟨_, hread, rfl⟩ := Run.map_eq_ok.mp h
    exact .moment hread
  | span =>
    obtain ⟨_, hread, rfl⟩ := Run.map_eq_ok.mp h
    exact .span hread

/-- What is recognised behind a word, on the colon: a reference that begins with the word, or a
literal of the type that the word names. -/
inductive FromPrefix (localOffset : UtcOffset) (mark : Nat) (word : List Char) (cursor : Cursor) :
    Value → Cursor → Prop
  | reference {text : String} {next : Cursor}
      (hread : scanUri (cursor.moveTo mark) = .ok text next) :
      FromPrefix localOffset mark word cursor (.uri text) next
  | typed {type : LiteralType} {value : Value} {next : Cursor}
      (htype : LiteralType.ofWord? word = some type)
      (hread : scanTyped localOffset mark type (cursor.passOver 1) = .ok value next) :
      FromPrefix localOffset mark word cursor value next

theorem fromPrefix_of_scanAfterWord
    (h : scanAfterWord localOffset mark word cursor = .ok value next) :
    FromPrefix localOffset mark word cursor value next := by
  obtain ⟨second, stood, hsecond, h⟩ := Run.bind_eq_ok.mp h
  obtain rfl : cursor = stood := (EStateM.Result.ok.inj hsecond).2
  obtain ⟨third, stood, hthird, h⟩ := Run.bind_eq_ok.mp h
  obtain rfl : cursor = stood := (EStateM.Result.ok.inj hthird).2
  split at h
  · obtain ⟨_, middle, hmove, h⟩ := Run.bind_eq_ok.mp h
    obtain rfl : cursor.moveTo mark = middle := (EStateM.Result.ok.inj hmove).2
    obtain ⟨_, hread, rfl⟩ := Run.map_eq_ok.mp h
    exact .reference hread
  · cases htype : LiteralType.ofWord? word with
    | none =>
      rw [htype] at h
      cases h
    | some type =>
      rw [htype] at h
      obtain ⟨_, middle, hskip, h⟩ := Run.bind_eq_ok.mp h
      obtain rfl : cursor.passOver 1 = middle := (EStateM.Result.ok.inj hskip).2
      exact .typed htype h

end Recognised

/-! ### Numbers after a prefix -/

section Integer

variable {localOffset : UtcOffset} {mark : Nat} {word : List Char} {value : Value}
  {n : SizedInteger} {next : Cursor}

/-- Reads the number behind the prefix of a type of numbers. -/
def scanNumberAfter (word : List Char) : Scan Value :=
  match LiteralType.ofWord? word with
  | some (.number type) => do
    Scan.skip 1
    Number.scanTyped type
  | _ => throw (.unknownPrefix (String.ofList word))

/-- Numbers have no quotes, and more may follow them than may follow other values. -/
theorem agrees_scanNumberAfter (hrest : FollowsWord rest) (word : List Char)
    (h : 1 ≤ cursor.ahead.length) :
    Agrees strict before rest cursor (scanNumberAfter word) (scanNumberAfter word) := by
  unfold scanNumberAfter
  split
  · exact (agrees_skip h).bind fun _ _ _ _ ↦ Number.agrees_scanTyped hrest _
  · exact agrees_throw _ _

/-- No type has the name of a web scheme. -/
theorem isWebScheme_of_ofWord? {type : LiteralType} (h : LiteralType.ofWord? word = some type) :
    isWebScheme word = false := by
  rw [Bool.eq_false_iff, isWebScheme]
  intro hweb
  rw [LiteralType.ofWord?] at h
  generalize String.ofList (Text.lowerAscii word) = name at h hweb
  have hnone : LiteralType.names.lookup name = none := by
    obtain rfl | rfl : name = "http" ∨ name = "https" := by simpa using hweb
    · decide
    · decide
  rw [hnone] at h
  cases h

theorem scanAfterWord_typed {type : LiteralType} (h : LiteralType.ofWord? word = some type) :
    scanAfterWord localOffset mark word =
      (do
        Scan.skip 1
        scanTyped localOffset mark type) := by
  unfold scanAfterWord
  rw [isWebScheme_of_ofWord? h, h]
  rfl

theorem scanAfterWord_of_scanNumberAfter (h : scanNumberAfter word cursor = .ok value next) :
    scanAfterWord localOffset mark word cursor = .ok value next := by
  cases htype : LiteralType.ofWord? word with
  | none =>
    rw [scanNumberAfter, htype] at h
    cases h
  | some type =>
    rw [scanNumberAfter, htype] at h
    rw [scanAfterWord_typed htype]
    cases type with
    | number type => exact h
    | _ => cases h

theorem scanNumberAfter_of_scanAfterWord
    (h : scanAfterWord localOffset mark word cursor = .ok (.integer n) next) :
    scanNumberAfter word cursor = .ok (.integer n) next := by
  cases fromPrefix_of_scanAfterWord h with
  | typed htype hread =>
    cases fromType_of_scanTyped hread with
    | number hnumber =>
      rw [scanNumberAfter, htype]
      exact hnumber

end Integer

end Literal

end ResourceQuery
