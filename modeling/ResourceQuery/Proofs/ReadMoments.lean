import ResourceQuery.Proofs.MomentText
import ResourceQuery.Proofs.Tiling

/-!
# Moments that are read

A moment that is read has a number of nanoseconds below a second, and is shown in the local offset
or, if it is one of UTC, in UTC. So what is printed for it is read as the same moment just if its
year has four digits there: a year before 0 or after 9999 has a sign in front, and a sign begins no
date.
-/

namespace ResourceQuery

open Run Lexeme

/-! ### What is read -/

/-- The moment has less than a second of nanoseconds and is shown in the offset of its anchor. -/
structure Moment.IsShown (localOffset : UtcOffset) (moment : Moment) : Prop where
  nanos_lt : moment.nanos < 10 ^ 9
  offset_eq : moment.offset = moment.anchor.home localOffset

def Value.moment? : Value → Option Moment
  | moment instant => some instant
  | _ => none

/-- The value, if it is a moment, is shown as a moment that is read. -/
def Value.IsShown (localOffset : UtcOffset) (value : Value) : Prop :=
  ∀ moment ∈ value.moment?, moment.IsShown localOffset

theorem Value.isShown_of_moment?_eq_none {localOffset : UtcOffset} {value : Value}
    (h : value.moment? = none) : value.IsShown localOffset := by
  intro moment hmoment
  rw [h] at hmoment
  cases hmoment

namespace Moment

theorem gives_scan (anchor : Anchor) (localOffset : UtcOffset) :
    Gives (IsShown localOffset) (scan anchor localOffset) := by
  intro cursor moment next h
  obtain ⟨_, -, civil, zone, rfl, -⟩ := spells_scan anchor localOffset moment next h
  exact ⟨civil.nanos_lt, rfl⟩

end Moment

/-! ### Numbers are no moments -/

/-- The value is a number. -/
inductive Value.IsNumber : Value → Prop
  | integer (number : SizedInteger) : IsNumber (.integer number)
  | float (number : FloatingPoint .binary32) : IsNumber (.float number)
  | double (number : FloatingPoint .binary64) : IsNumber (.double number)
  | decimal (number : ScaledDecimal) : IsNumber (.decimal number)

theorem Value.IsNumber.moment?_eq_none {value : Value} (h : value.IsNumber) :
    value.moment? = none := by
  cases h <;> rfl

theorem Value.IsNumber.isShown {localOffset : UtcOffset} {value : Value} (h : value.IsNumber) :
    value.IsShown localOffset :=
  isShown_of_moment?_eq_none h.moment?_eq_none

namespace Number

variable {numeral : Numeral} {value : Value}

theorem isNumber_of_asInteger {types : List IntegerType} {target : String}
    (h : asInteger types target numeral = .ok value) : value.IsNumber := by
  unfold asInteger firstFitting? at h
  cases hinteger : integer? numeral with
  | error fault =>
    rw [hinteger] at h
    cases h
  | ok n =>
    rw [hinteger] at h
    dsimp only [bind, Except.bind] at h
    cases hfound : types.findSome? (·.ofInt? n) with
    | none =>
      rw [hfound] at h
      cases h
    | some number =>
      rw [hfound] at h
      cases h
      exact .integer number

theorem isNumber_of_asReal (h : asDouble numeral = .ok value ∨ asFloat numeral = .ok value ∨
    asDecimal numeral = .ok value) : value.IsNumber := by
  obtain h | h | h := h
  · rw [asDouble] at h
    cases hdouble : asFloating .binary64 "double" numeral <;> rw [hdouble] at h <;> cases h
    exact .double _
  · rw [asFloat] at h
    cases hfloat : asFloating .binary32 "float" numeral <;> rw [hfloat] at h <;> cases h
    exact .float _
  · rw [asDecimal] at h
    cases hdecimal : decimal? numeral <;> rw [hdecimal] at h <;> cases h
    exact .decimal _

theorem isNumber_of_ofNumeral (h : ofNumeral numeral = .ok value) : value.IsNumber := by
  unfold ofNumeral at h
  split at h
  · exact isNumber_of_asInteger h
  · exact isNumber_of_asReal (.inl h)
  · exact isNumber_of_asReal (.inl h)
  · exact isNumber_of_asReal (.inr (.inl h))
  · exact isNumber_of_asReal (.inr (.inr h))
  · exact isNumber_of_asInteger h
  · exact isNumber_of_asInteger h
  · exact isNumber_of_asInteger h
  · exact isNumber_of_asInteger h
  · cases h

theorem isNumber_of_ofTyped {target : NumberType} (h : ofTyped target numeral = .ok value) :
    value.IsNumber := by
  cases target with
  | integer type => exact isNumber_of_asInteger h
  | float => exact isNumber_of_asReal (.inr (.inl h))
  | double => exact isNumber_of_asReal (.inl h)
  | decimal => exact isNumber_of_asReal (.inr (.inr h))

theorem isNumber_of_ofHex {target : NumberType} {digits : List Char}
    (h : ofHex target digits = .ok value) : value.IsNumber := by
  cases target with
  | integer type =>
    rw [ofHex] at h
    split at h <;> cases h
    exact .integer _
  | float => cases h
  | double => cases h
  | decimal => cases h

theorem gives_scanHex : Gives Value.IsNumber scanHex := by
  have hinteger (n : SizedInteger) : Gives Value.IsNumber (pure (.integer n)) :=
    gives_pure (.integer n)
  refine gives_bind fun mark ↦ gives_bind fun digits ↦ gives_bind fun suffix ↦ ?_
  exact gives_bind fun boundary ↦ gives_ite (hinteger _) (gives_bind fun _ ↦ hinteger _)

theorem gives_scan? : Gives (fun found ↦ ∀ value ∈ found, value.IsNumber) scan? := by
  refine gives_bind fun mark ↦ gives_bind fun found ↦ ?_
  cases found with
  | none => exact gives_pure fun _ h ↦ nomatch h
  | some numeral =>
    dsimp only
    split
    · next value hvalue =>
      refine gives_pure ?_
      rintro _ ⟨⟩
      exact isNumber_of_ofNumeral hvalue
    · exact fun _ _ _ h ↦ nomatch h

theorem gives_scanTypedHex (target : NumberType) : Gives Value.IsNumber (scanTypedHex target) := by
  refine gives_bind fun mark ↦ gives_bind fun digits ↦ gives_bind fun boundary ↦ ?_
  cases hvalue : ofHex target digits with
  | ok value =>
    have hgives : Gives Value.IsNumber (pure value) := gives_pure (isNumber_of_ofHex hvalue)
    exact gives_ite hgives (gives_bind fun _ ↦ hgives)
  | error fault => exact gives_ite (gives_failFrom _ _) (gives_bind fun _ ↦ gives_failFrom _ _)

theorem gives_scanTypedNumeral (target : NumberType) :
    Gives Value.IsNumber (scanTypedNumeral target) := by
  refine gives_bind fun mark ↦ gives_bind fun found ↦ ?_
  dsimp only
  split
  · next numeral _ =>
    cases hvalue : ofTyped target numeral with
    | ok value =>
      have hgives : Gives Value.IsNumber (pure value) := gives_pure (isNumber_of_ofTyped hvalue)
      exact gives_ite (gives_bind fun _ ↦ hgives) hgives
    | error fault => exact gives_ite (gives_bind fun _ ↦ gives_failFrom _ _) (gives_failFrom _ _)
  · exact gives_failFrom _ _

theorem gives_scanTyped (target : NumberType) : Gives Value.IsNumber (scanTyped target) :=
  gives_bind fun _ ↦ gives_ite (gives_scanTypedHex target) (gives_scanTypedNumeral target)

end Number

/-! ### Literals and lexemes -/

namespace Literal

variable {localOffset : UtcOffset}

theorem gives_bareOrWithin {α : Type} {P : α → Prop} {scanner : Scan α} (h : Gives P scanner) :
    Gives P (bareOrWithin scanner) := by
  refine gives_bind fun _ ↦ gives_ite (gives_bind fun body ↦ ?_) h
  unfold within
  split
  · next value _ hvalue =>
    exact gives_ite (gives_pure (h _ value _ hvalue)) (gives_throw _)
  · exact gives_throw _

theorem isShown_of_scanAfterWord {mark : Nat} {word : List Char} {cursor next : Cursor}
    {value : Value} (h : scanAfterWord localOffset mark word cursor = .ok value next) :
    value.IsShown localOffset := by
  cases fromPrefix_of_scanAfterWord h with
  | reference => exact Value.isShown_of_moment?_eq_none rfl
  | typed _ hread =>
    cases fromType_of_scanTyped hread with
    | number hnumber => exact (Number.gives_scanTyped _ _ _ _ hnumber).isShown
    | moment hmoment =>
      rintro _ ⟨⟩
      exact gives_bareOrWithin (Moment.gives_scan _ localOffset) _ _ _ hmoment
    | _ => exact Value.isShown_of_moment?_eq_none rfl

end Literal

namespace Lexeme

variable {localOffset : UtcOffset}

/-- The value of a lexeme, if it is a moment, is shown as one that is read. -/
def IsShown (localOffset : UtcOffset) (lexeme : Lexeme) : Prop :=
  ∀ value ∈ lexeme.value?, value.IsShown localOffset

theorem isShown_of_value?_eq_none {lexeme : Lexeme} (h : lexeme.value? = none) :
    lexeme.IsShown localOffset := by
  intro value hvalue
  rw [h] at hvalue
  cases hvalue

theorem isShown_literal {value : Value} (h : value.IsShown localOffset) :
    (literal value).IsShown localOffset := by
  rintro _ ⟨⟩
  exact h

/-- What is recognised has such a value or none. -/
theorem isShown_of_scan {last : Option Symbol} {c : Char} {cursor next : Cursor} {lexeme : Lexeme}
    (h : scan localOffset last c cursor = .ok lexeme next) : lexeme.IsShown localOffset := by
  have hother {value : Value} (hvalue : value.moment? = none) :
      (literal value).IsShown localOffset :=
    isShown_literal (Value.isShown_of_moment?_eq_none hvalue)
  cases recognised_of_scan h with
  | symbol hsymbol => cases hsymbol <;> exact isShown_of_value?_eq_none rfl
  | slash | direction => exact isShown_of_value?_eq_none rfl
  | string | char | uri => exact hother rfl
  | digits hdigits =>
    cases hdigits with
    | guid | span => exact hother rfl
    | hex _ hread => exact isShown_literal (Number.gives_scanHex _ _ _ hread).isShown
    | moment _ hread =>
      rintro _ ⟨⟩ _ ⟨⟩
      exact Moment.gives_scan .local localOffset _ _ _ hread
    | number hread => exact isShown_literal (Number.gives_scan? _ _ _ hread _ rfl).isShown
    | sign | word => exact isShown_of_value?_eq_none rfl
  | word hword =>
    cases hword with
    | guid | null | bool => exact hother rfl
    | prefixed _ _ hread => exact isShown_literal (Literal.isShown_of_scanAfterWord hread)
    | function | name => exact isShown_of_value?_eq_none rfl

/-- Digits are read as a moment only where they are committed to being a date. -/
theorem ahead_of_scanDigits {cursor next : Cursor} {moment : Moment}
    (h : scanDigits localOffset cursor = .ok (literal (.moment moment)) next) :
    Moment.ahead cursor = true := by
  cases fromDigits_of_scanDigits h with
  | hex _ hread => cases (Number.gives_scanHex _ _ _ hread).moment?_eq_none
  | moment hahead => exact hahead
  | number hread => cases (Number.gives_scan? _ _ _ hread _ rfl).moment?_eq_none

end Lexeme

namespace Lexer

variable {lexer rest : Lexer} {token : Token}

theorem localOffset_of_reaches (h : lexer.Reaches rest) :
    rest.localOffset = lexer.localOffset := by
  induction h with
  | refl => rfl
  | next _ ih => exact (localOffset_of_next rfl).trans ih

theorem isShown_of_scanLexeme {c : Char} {cursor next : Cursor} {lexeme : Lexeme}
    (h : lexer.scanLexeme c cursor = .ok lexeme next) : lexeme.IsShown lexer.localOffset := by
  unfold scanLexeme at h
  split at h
  · cases h
    exact isShown_of_value?_eq_none rfl
  · exact isShown_of_scan h

theorem isShown_of_next (h : lexer.next = (.ok token, rest)) :
    ∀ value ∈ token.value, value.IsShown lexer.localOffset := by
  cases isNext_of_next h with
  | stop => exact fun _ h ↦ nomatch h
  | lexeme _ hscan => exact isShown_of_scanLexeme hscan

/-- A lexeme that stands alone begins with the first character of the text if that is no blank. -/
theorem IsLone.scan_eq_of_not_blank {localOffset : UtcOffset} {blanks body tail : List Char}
    {c d : Char} {lexeme : Lexeme} {cursor : Cursor}
    (h : IsLone localOffset (d :: tail) blanks c body lexeme cursor)
    (hd : Text.isBlank d = false) :
    Lexeme.scan localOffset none d ⟨[], d :: tail⟩ = .ok lexeme cursor := by
  obtain ⟨htext, hblanks, -, hscan, -⟩ := h
  cases blanks with
  | nil =>
    cases htext
    exact hscan
  | cons b blanks =>
    cases htext
    rw [hblanks d List.mem_cons_self] at hd
    cases hd

end Lexer

/-! ### What is read back -/

namespace Moment

variable {localOffset : UtcOffset} {moment : Moment}

/-- What is printed for the moment is cut into a single literal, which is an equal moment, and the
end. -/
def ReadsBack (localOffset : UtcOffset) (moment : Moment) : Prop :=
  ∃ literal stop again,
    Lexer.scan (Value.moment moment).print.toList localOffset = .ok ⟨[literal, stop]⟩ ∧
      literal.symbol = .literal ∧ literal.text = (Value.moment moment).print ∧
      literal.value = some (.moment again) ∧ (again == moment) = true ∧ stop.symbol = .stop

theorem readsBack_of_hasPlainYear (hshown : moment.IsShown localOffset)
    (hminutes : moment.offset.seconds % 60 = 0) (hyear : moment.HasPlainYear) :
    moment.ReadsBack localOffset := by
  obtain ⟨c, body, htext, hblank, hscan⟩ :=
    Lexeme.scan_print hyear hshown.nanos_lt hshown.offset_eq hminutes
  have hlone : Lexer.IsLone localOffset (c :: body) [] c body (.literal (.moment moment))
      ⟨(c :: body).reverse, []⟩ := ⟨rfl, nofun, hblank, hscan, nofun⟩
  have hslash : c ≠ '/' := by
    rintro rfl
    obtain ⟨uri, huri⟩ := eq_uri_of_scan_slash hscan
    cases huri
  have hend : FollowsValue [] := by simp [FollowsValue]
  obtain ⟨_, stop, ⟨position, rfl⟩, hstop, hqueue⟩ := (hlone.reads_literal hslash).scan_eq hend
  have hprint : String.ofList (c :: body) = (Value.moment moment).print := by
    rw [← htext, String.ofList_toList]
  rw [List.length_nil, Cursor.textFrom_zero, List.reverse_reverse, hprint] at hqueue
  rw [← htext] at hqueue
  exact ⟨_, stop, moment, hqueue, rfl, rfl, rfl, BEq.rfl, hstop⟩

/-- A year that has not four digits is printed behind a sign. -/
theorem exists_sign_of_not_hasPlainYear (h : ¬moment.HasPlainYear) :
    ∃ (order : SortOrder) (body : List Char), moment.print = order.sign :: body := by
  have hyear : ¬(decide (0 ≤ moment.civilDay.year) && decide (moment.civilDay.year ≤ 9999)) =
      true := by simpa [HasPlainYear] using h
  rw [print_eq, printYear, if_neg hyear]
  by_cases hnegative : moment.civilDay.year < 0
  · rw [if_pos hnegative]
    exact ⟨.descending, _, rfl⟩
  · rw [if_neg hnegative]
    exact ⟨.ascending, _, rfl⟩

/-- A sign begins no date. -/
theorem scan_sign_ne_ok {anchor : Anchor} {order : SortOrder} {passed body : List Char}
    {next : Cursor} :
    scan anchor localOffset ⟨passed, order.sign :: body⟩ ≠ .ok moment next := by
  have hdate (mark : Nat) (date : Date) (middle : Cursor) :
      scanDate mark ⟨passed, order.sign :: body⟩ ≠ .ok date middle := by
    cases order <;> exact nofun
  intro h
  obtain ⟨mark, stood, hmark, h⟩ := bind_eq_ok.mp h
  obtain rfl := (EStateM.Result.ok.inj hmark).2
  obtain ⟨date, middle, hread, -⟩ := bind_eq_ok.mp h
  exact hdate mark date middle hread

theorem scan_sign_ne_moment {order : SortOrder} {body : List Char} {next : Cursor} :
    Lexeme.scan localOffset none order.sign ⟨[], order.sign :: body⟩ ≠
      .ok (.literal (.moment moment)) next := by
  intro h
  rw [scan_sign] at h
  split at h
  · have hahead : ahead ⟨[], order.sign :: body⟩ = false := by cases order <;> rfl
    rw [ahead_of_scanDigits h] at hahead
    cases hahead
  · cases h

theorem scan_utc_sign_ne_moment {order : SortOrder} {body : List Char} {next : Cursor} :
    Lexeme.scan localOffset none 'u' ⟨[], ['u', 't', 'c', ':'] ++ order.sign :: body⟩ ≠
      .ok (.literal (.moment moment)) next := by
  intro h
  have hquote : (order.sign :: body).head?.any (· == '"') = false := by cases order <;> rfl
  rw [List.cons_append, scan_eq_scanWord (by decide)] at h
  obtain ⟨found, middle, hfound, -⟩ := bind_eq_ok.mp ((scanWord_utc hquote).symm.trans h)
  exact scan_sign_ne_ok hfound

theorem hasPlainYear_of_readsBack (h : moment.ReadsBack localOffset) : moment.HasPlainYear := by
  obtain ⟨literal, stop, again, hqueue, hliteral, -, hvalue, -, hstop⟩ := h
  obtain ⟨blanks, c, body, lexeme, cursor, hlone, rfl⟩ :=
    Lexer.isLone_of_scan hqueue hstop (.inr hliteral)
  obtain rfl : lexeme = .literal (.moment again) := by
    cases lexeme with
    | plain symbol => cases hvalue
    | literal value =>
      cases hvalue
      rfl
    | splitSign order => cases hvalue
  by_contra hyear
  obtain ⟨order, tail, hprint⟩ := exists_sign_of_not_hasPlainYear hyear
  cases hanchor : moment.anchor with
  | «local» =>
    have htext : (Value.moment moment).print.toList = order.sign :: tail := by
      rw [Value.print, String.toList_ofList, Value.printChars, hanchor, ← hprint]
      rfl
    rw [htext] at hlone
    exact scan_sign_ne_moment (hlone.scan_eq_of_not_blank (Lexer.isBlank_sign order))
  | utc =>
    have htext : (Value.moment moment).print.toList =
        ['u', 't', 'c', ':'] ++ order.sign :: tail := by
      rw [Value.print, String.toList_ofList, Value.printChars, hanchor, ← hprint]
      rfl
    rw [htext] at hlone
    exact scan_utc_sign_ne_moment (hlone.scan_eq_of_not_blank (by decide))

/-- Under a local offset of whole minutes a moment that a lexer reads is read back from its text as
an equal one just if its year is printed with four digits. -/
theorem readsBack_iff_of_next {text : List Char} {lexer : Lexer} {token : Token}
    (hreaches : (Lexer.start text localOffset).Reaches lexer)
    (hnext : lexer.next.1 = .ok token) (hvalue : token.value = some (.moment moment))
    (hminutes : localOffset.seconds % 60 = 0) :
    moment.ReadsBack localOffset ↔ moment.HasPlainYear := by
  have hsame : lexer.localOffset = localOffset := Lexer.localOffset_of_reaches hreaches
  have hshown : moment.IsShown localOffset :=
    hsame ▸ Lexer.isShown_of_next (Prod.ext hnext rfl) (.moment moment) hvalue moment rfl
  have hwhole : moment.offset.seconds % 60 = 0 := by
    rw [hshown.offset_eq]
    cases moment.anchor with
    | «local» => exact hminutes
    | utc => rfl
  exact ⟨hasPlainYear_of_readsBack, readsBack_of_hasPlainYear hshown hwhole⟩

/-- The last hour of 9999 at five hours behind UTC lies in the year 10000 of UTC. A shift to a leap
day does no harm. -/
theorem readsBack_iff_of_next_shifted :
    (∃ late, (Lexer.start "9999-12-31T23:00:00-05:00".toList .utc).next.1 =
        .ok ⟨.literal, some (.moment late), "9999-12-31T23:00:00-05:00", 0⟩ ∧
      (Value.moment late).print = "+10000-01-01T04:00:00+00:00" ∧ ¬late.ReadsBack .utc) ∧
    ∃ leap, (Lexer.start "2/28/2000 23:30:00.000000001-01".toList .utc).next.1 =
        .ok ⟨.literal, some (.moment leap), "2/28/2000 23:30:00.000000001-01", 0⟩ ∧
      (Value.moment leap).print = "2000-02-29T00:30:00.000000001+00:00" ∧ leap.ReadsBack .utc := by
  have hlate : (Lexer.start "9999-12-31T23:00:00-05:00".toList .utc).next.1 =
      .ok ⟨.literal, some (.moment ⟨.local, 253402315200, 0, .utc⟩),
        "9999-12-31T23:00:00-05:00", 0⟩ := by cbv
  have hleap : (Lexer.start "2/28/2000 23:30:00.000000001-01".toList .utc).next.1 =
      .ok ⟨.literal, some (.moment ⟨.local, 951784200, 1, .utc⟩),
        "2/28/2000 23:30:00.000000001-01", 0⟩ := by cbv
  refine ⟨⟨_, hlate, by cbv, ?_⟩, _, hleap, by cbv, ?_⟩
  · rw [readsBack_iff_of_next .refl hlate rfl rfl]
    decide
  · rw [readsBack_iff_of_next .refl hleap rfl rfl]
    decide

end Moment

end ResourceQuery
