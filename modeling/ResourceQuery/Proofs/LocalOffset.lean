import ResourceQuery.Proofs.DateText
import ResourceQuery.Proofs.ReadMoments

/-!
# Reading tokens under another local offset

The local offset decides nothing about how a text is cut into tokens. What is read at a place either
does not depend on it, or is a date of which only the meaning does: with a zone of its own it stays
the same instant, and without one it keeps what its clock shows.
-/

namespace ResourceQuery

open Run Scan Cursor Literal

/-! ### Where dates are read -/

section Reads

variable {α β : Type} {f : Moment → α} {mark cursor middle : Cursor}
  {scanner : UtcOffset → Scan α}

/-- From the cursor on, what is read is a date of which the text since the mark tells whether it
names a zone, or does not depend on the local offset. -/
def ReadsDate (f : Moment → α) (mark cursor : Cursor) (scanner : UtcOffset → Scan α) : Prop :=
  (∃ (civil : Scan Moment.Civil) (start : Cursor),
    (∀ localOffset, scanner localOffset cursor =
      (do return f ((← civil).under localOffset) : Scan α) start) ∧
    ∀ date last, civil start = .ok date last → ∃ run, Between run mark last ∧
      Moment.namesZone (writtenDate run) = date.zone.isSome) ∨
  ∀ o o', scanner o cursor = scanner o' cursor

theorem readsDate_const (scanner : Scan α) : ReadsDate f mark cursor fun _ ↦ scanner :=
  .inr fun _ _ ↦ rfl

theorem readsDate_ite {p : Prop} [Decidable p] {yes no : UtcOffset → Scan α}
    (hyes : p → ReadsDate f mark cursor yes) (hno : ¬p → ReadsDate f mark cursor no) :
    ReadsDate f mark cursor fun localOffset ↦ if p then yes localOffset else no localOffset := by
  by_cases h : p
  · simpa only [if_pos h] using hyes h
  · simpa only [if_neg h] using hno h

/-- A step in front of it that does not depend on the local offset. -/
theorem readsDate_bind {first : Scan β} {next : UtcOffset → β → Scan α}
    (h : ∀ b middle, first cursor = .ok b middle → ReadsDate f mark middle (next · b)) :
    ReadsDate f mark cursor fun localOffset ↦ first >>= next localOffset := by
  cases hfirst : first cursor with
  | error fault last => exact .inr fun _ _ ↦ (bind_error hfirst).trans (bind_error hfirst).symm
  | ok b middle =>
    obtain ⟨civil, start, hscan, hcivil⟩ | hsame := h b middle hfirst
    · exact .inl ⟨civil, start, fun _ ↦ (bind_ok hfirst).trans (hscan _), hcivil⟩
    · exact .inr fun o o' ↦ (bind_ok hfirst).trans ((hsame o o').trans (bind_ok hfirst).symm)

theorem ReadsDate.map {g : α → β} (h : ReadsDate f mark cursor scanner) :
    ReadsDate (g ∘ f) mark cursor fun localOffset ↦ do return g (← scanner localOffset) := by
  obtain ⟨civil, start, hscan, hcivil⟩ | hsame := h
  · refine .inl ⟨civil, start, fun localOffset ↦ ?_, hcivil⟩
    refine (Run.bind_congr (hscan localOffset)).trans ?_
    rw [bind_assoc]
    rfl
  · exact .inr fun o o' ↦ Run.bind_congr (hsame o o')

theorem readsDate_of_civil {scanner : UtcOffset → Scan Moment} {civil : Scan Moment.Civil}
    (h : ∀ localOffset, scanner localOffset = (do return (← civil).under localOffset))
    (hcivil : ∀ date last, civil cursor = .ok date last → ∃ run, Between run mark last ∧
      Moment.namesZone (writtenDate run) = date.zone.isSome) :
    ReadsDate id mark cursor scanner :=
  .inl ⟨civil, cursor, fun localOffset ↦ congrFun (h localOffset) cursor, hcivil⟩

end Reads

namespace Literal

variable {mark cursor : Cursor}

theorem bareOrWithin_map {α β : Type} (scanner : Scan α) (g : α → β) :
    bareOrWithin (do return g (← scanner)) = (do return g (← bareOrWithin scanner)) := by
  have hwithin (body : List Char) :
      within body (do return g (← scanner)) = (do return g (← within body scanner)) := by
    unfold within
    cases h : scanner (Cursor.start (Text.trim body)) with
    | ok a last =>
      rw [Run.map_ok h]
      dsimp only
      split <;> rfl
    | error fault last =>
      rw [bind_error h]
      rfl
  unfold bareOrWithin
  rw [bind_assoc]
  refine bind_congr fun quoted ↦ ?_
  cases quoted with
  | false => rfl
  | true =>
    simp only [if_pos, bind_assoc, hwithin]

/-- The words that announce a local date have letters only. -/
theorem isLetter_of_ofWord? {word : List Char}
    (h : LiteralType.ofWord? word = some (.moment .local)) :
    ∀ c ∈ word, Text.isLetter c = true := by
  have hnames : ∀ entry ∈ LiteralType.names, entry.2 = .moment .local →
      entry.1.toList.all Text.isLetter = true := by decide
  obtain ⟨before, after, hsplit, -⟩ := List.lookup_eq_some_iff.mp h
  have hall := hnames (String.ofList (Text.lowerAscii word), .moment .local) (by simp [hsplit]) rfl
  rw [String.toList_ofList, Text.lowerAscii, List.all_map] at hall
  exact fun c hc ↦ Moment.isLetter_of_toLower rfl (List.all_eq_true.mp hall c hc)

/-- Behind a word and a colon. -/
theorem readsDate_scanTyped {word : List Char} {type : LiteralType}
    (hmark : Between (word ++ [':']) mark cursor) (htype : LiteralType.ofWord? word = some type)
    (place : Nat) :
    ReadsDate Value.moment mark cursor fun localOffset ↦ scanTyped localOffset place type := by
  by_cases hlocal : type = .moment .local
  · subst hlocal
    have hcivil (localOffset : UtcOffset) : bareOrWithin (Moment.scan .local localOffset) =
        (do return (← bareOrWithin Moment.scanCivil).under localOffset) := by
      rw [Moment.scan_local_eq, bareOrWithin_map]
    refine (readsDate_of_civil hcivil fun date last hok ↦ ?_).map
    obtain ⟨run, hrun, hzone⟩ :=
      spells_bareOrWithin (fun _ ↦ Moment.namesZone_scanCivil) date last hok
    refine ⟨_, hmark.append hrun, ?_⟩
    rw [List.append_assoc, List.singleton_append, writtenDate_prefixed (isLetter_of_ofWord? htype)]
    exact hzone
  · refine .inr fun o o' ↦ ?_
    cases type with
    | moment anchor =>
      cases anchor with
      | «local» => exact absurd rfl hlocal
      | utc => rfl
    | _ => rfl

theorem readsDate_scanAfterWord {word : List Char} (hword : Between word mark cursor)
    (hcolon : cursor.peek = some ':') :
    ReadsDate Value.moment mark cursor fun localOffset ↦
      scanAfterWord localOffset mark.position word := by
  refine readsDate_bind fun second stood hstood ↦ ?_
  obtain rfl : cursor = stood := (EStateM.Result.ok.inj hstood).2
  refine readsDate_bind fun third stood hstood ↦ ?_
  obtain rfl : cursor = stood := (EStateM.Result.ok.inj hstood).2
  refine readsDate_ite (fun _ ↦ readsDate_const _) fun _ ↦ ?_
  cases htype : LiteralType.ofWord? word with
  | none => exact readsDate_const _
  | some type =>
    refine readsDate_bind fun _ middle hskip ↦ ?_
    cases hskip
    have hpassed : Between [':'] cursor (cursor.passOver 1) := by
      obtain ⟨tail, htail⟩ := List.head?_eq_some_iff.mp hcolon
      exact between_prefix ⟨tail, htail.symm⟩
    exact readsDate_scanTyped (hword.append hpassed) htype _

end Literal

namespace Lexeme

variable {cursor : Cursor}

/-- What is made of a moment that is read. -/
abbrev ofMoment (moment : Moment) : Lexeme :=
  literal (.moment moment)

theorem readsDate_scanWord :
    ReadsDate ofMoment cursor cursor fun localOffset ↦ scanWord localOffset := by
  refine readsDate_bind fun stood middle hstood ↦ ?_
  cases hstood
  refine readsDate_ite (fun _ ↦ readsDate_const _) fun _ ↦ ?_
  refine readsDate_bind fun word middle hword ↦ ?_
  obtain ⟨run, hrun, rfl, -⟩ := spells_readWhile isWordChar word middle hword
  refine readsDate_bind fun colon stood hcolon ↦ ?_
  obtain ⟨hpeek, rfl⟩ : middle.peek.any (· == ':') = colon ∧ middle = stood :=
    EStateM.Result.ok.inj hcolon
  refine readsDate_ite (fun hcolon ↦ ?_) fun _ ↦ readsDate_const _
  obtain ⟨c, hc, hclass⟩ := (Option.any_eq_true _ _).mp (hpeek.trans hcolon)
  obtain rfl : c = ':' := eq_of_beq hclass
  exact (readsDate_scanAfterWord hrun hc).map

theorem isDigit_of_momentAhead (h : Moment.ahead cursor = true) :
    cursor.peek.any Text.isDigit = true := by
  obtain ⟨passed, _ | ⟨c, ahead⟩⟩ := cursor
  · cases h
  by_contra hc
  have hcount : (⟨passed, c :: ahead⟩ : Cursor).countAhead Text.isDigit = 0 := by
    have hnone : ¬Text.isDigit c = true := hc
    rw [countAhead, List.takeWhile_cons_of_neg hnone, List.length_nil]
  rw [Moment.ahead, hcount] at h
  simp at h

theorem readsDate_scanDigits :
    ReadsDate ofMoment cursor cursor fun localOffset ↦ scanDigits localOffset := by
  refine readsDate_bind fun stood middle hstood ↦ ?_
  cases hstood
  refine readsDate_ite (fun _ ↦ readsDate_const _) fun _ ↦ ?_
  refine readsDate_bind fun hex stood hhex ↦ ?_
  obtain rfl : cursor = stood := (EStateM.Result.ok.inj hhex).2
  refine readsDate_ite (fun _ ↦ readsDate_const _) fun _ ↦ ?_
  refine readsDate_ite (fun _ ↦ readsDate_const _) fun _ ↦ ?_
  refine readsDate_ite (fun hahead ↦ ?_) fun _ ↦ readsDate_const _
  refine (readsDate_of_civil Moment.scan_local_eq fun date last hok ↦ ?_).map
  obtain ⟨run, hrun, hzone⟩ := Moment.namesZone_scanCivil date last hok
  refine ⟨run, hrun, ?_⟩
  rw [writtenDate_bare, hzone]
  intro c hc
  obtain ⟨tail, rfl⟩ := List.head?_eq_some_iff.mp hc
  have hpeek : cursor.peek = some c := by
    rw [Cursor.peek, hrun.ahead]
    rfl
  have hdigit : Text.isDigit c = true := by simpa [hpeek] using isDigit_of_momentAhead hahead
  refine ⟨Moment.isLetter_of_isDigit hdigit, ?_⟩
  rintro rfl
  cases hdigit

/-- Only a run of digits or a word can be a date. -/
theorem readsDate_scan (last : Option Symbol) (c : Char) (cursor : Cursor) :
    ReadsDate ofMoment cursor cursor fun localOffset ↦ scan localOffset last c := by
  refine readsDate_bind fun stood middle hstood ↦ ?_
  cases hstood
  cases single? c with
  | some symbol => exact readsDate_const _
  | none =>
    refine readsDate_ite (fun _ ↦ readsDate_const _) fun _ ↦ ?_
    cases comparison? c (cursor.peekAt 1) with
    | some sign => exact readsDate_const _
    | none =>
      refine readsDate_ite (fun _ ↦ readsDate_const _) fun _ ↦ ?_
      refine readsDate_ite (fun _ ↦ readsDate_const _) fun _ ↦ ?_
      refine readsDate_ite (fun _ ↦ readsDate_const _) fun _ ↦ ?_
      refine readsDate_ite (fun _ ↦ readsDate_const _) fun _ ↦ ?_
      refine readsDate_ite (fun _ ↦ readsDate_scanDigits) fun _ ↦ ?_
      cases orderOfSign? c with
      | some order => exact readsDate_const _
      | none => exact readsDate_ite (fun _ ↦ readsDate_const _) fun _ ↦ readsDate_scanWord

end Lexeme

/-! ### What a local offset changes -/

/-- What the text of a local moment means under another local offset: the same instant if it names
a zone, and else the same time of day there. -/
def Moment.rebase (o o' : UtcOffset) (zoned : Bool) (moment : Moment) : Moment where
  anchor := moment.anchor
  seconds := if zoned then moment.seconds else moment.seconds + (o.seconds - o'.seconds)
  nanos := moment.nanos
  offset := o'

def Value.rebase (o o' : UtcOffset) (zoned : Bool) : Value → Value
  | moment instant =>
    .moment (if instant.anchor = .local then instant.rebase o o' zoned else instant)
  | value => value

def Lexeme.rebase (o o' : UtcOffset) (text : List Char) : Lexeme → Lexeme
  | literal value => literal (value.rebase o o' (Moment.namesZone (writtenDate text)))
  | lexeme => lexeme

/-- The text of the token, as the one of a date, names a zone. -/
def Token.namesZone (token : Token) : Bool :=
  Moment.namesZone (writtenDate token.text.toList)

/-- The token that the same text is under another local offset. -/
def Token.rebase (o o' : UtcOffset) (token : Token) : Token :=
  { token with value := token.value.map (Value.rebase o o' token.namesZone) }

variable {o o' : UtcOffset}

theorem Moment.Civil.rebase_under (civil : Moment.Civil) :
    (civil.under o).rebase o o' civil.zone.isSome = civil.under o' := by
  obtain ⟨date, clock, _ | zone⟩ := civil
  · simp only [rebase, under, ofCivil, Option.isSome_none, Option.getD_none, Bool.false_eq_true,
      if_false]
    congr 1
    omega
  · rfl

/-- What is shown in both local offsets does not depend on them. -/
theorem Value.rebase_eq_self {value : Value} {zoned : Bool} (h : value.IsShown o)
    (h' : value.IsShown o') : value.rebase o o' zoned = value := by
  cases value with
  | moment instant =>
    by_cases hlocal : instant.anchor = .local
    · have hoffset := (h instant rfl).offset_eq
      have hoffset' := (h' instant rfl).offset_eq
      rw [hlocal] at hoffset hoffset'
      obtain ⟨anchor, seconds, nanos, offset⟩ := instant
      obtain rfl : offset = o := hoffset
      obtain rfl : offset = o' := hoffset'
      simp [rebase, Moment.rebase]
    · rw [rebase, if_neg hlocal]
  | _ => rfl

theorem Lexeme.rebase_eq_self {lexeme : Lexeme} {text : List Char} (h : lexeme.IsShown o)
    (h' : lexeme.IsShown o') : lexeme.rebase o o' text = lexeme := by
  cases lexeme with
  | literal value => rw [rebase, Value.rebase_eq_self (h value rfl) (h' value rfl)]
  | _ => rfl

theorem Lexeme.token_rebase (lexeme : Lexeme) (text : List Char) (position : Nat) :
    (lexeme.rebase o o' text).token (String.ofList text) position =
      (lexeme.token (String.ofList text) position).rebase o o' := by
  cases lexeme with
  | literal value => simp [rebase, token, Token.rebase, Token.namesZone, symbol, value?]
  | _ => rfl

theorem Lexeme.scan_rebase (last : Option Symbol) (c : Char) (cursor : Cursor) :
    scan o' last c cursor =
      match scan o last c cursor with
      | .ok lexeme next => .ok (lexeme.rebase o o' (next.textFrom cursor.position)) next
      | .error fault next => .error fault next := by
  obtain ⟨civil, start, hdate, htext⟩ | hsame := readsDate_scan last c cursor
  · have hscan (localOffset : UtcOffset) : scan localOffset last c cursor =
        (do return ofMoment ((← civil).under localOffset) : Scan Lexeme) start := hdate localOffset
    cases hcivil : civil start with
    | error fault next => rw [hscan o, hscan o', bind_error hcivil, bind_error hcivil]
    | ok date next =>
      obtain ⟨run, hrun, hzone⟩ := htext date next hcivil
      have hlocal : (date.under o).anchor = .local := rfl
      rw [hscan o, hscan o', Run.map_ok hcivil, Run.map_ok hcivil]
      dsimp only
      rw [hrun.textFrom_eq, rebase, hzone, Value.rebase, if_pos hlocal, Moment.Civil.rebase_under]
  · have hscan : scan o' last c cursor = scan o last c cursor := hsame o' o
    rw [hscan]
    cases hlexeme : scan o last c cursor with
    | error fault next => rfl
    | ok lexeme next =>
      have hshown := isShown_of_scan hlexeme
      have hshown' := isShown_of_scan (hscan.trans hlexeme)
      dsimp only
      rw [rebase_eq_self hshown hshown']

namespace Lexer

/-- The lexer at the same place under another local offset. -/
def under (lexer : Lexer) (localOffset : UtcOffset) : Lexer :=
  { lexer with localOffset }

theorem scanLexeme_under (lexer : Lexer) (o' : UtcOffset) (c : Char) (cursor : Cursor) :
    (lexer.under o').scanLexeme c cursor =
      match lexer.scanLexeme c cursor with
      | .ok lexeme next =>
        .ok (lexeme.rebase lexer.localOffset o' (next.textFrom cursor.position)) next
      | .error fault next => .error fault next := by
  obtain ⟨place, o, last, split⟩ := lexer
  cases split with
  | true => rfl
  | false => exact Lexeme.scan_rebase last c cursor

/-- Under another local offset reading stops where it does, with the same fault or a token of the
same text. -/
theorem next_under (lexer : Lexer) (o' : UtcOffset) :
    (lexer.under o').next =
      (lexer.next.1.map (Token.rebase lexer.localOffset o'), lexer.next.2.under o') := by
  unfold next
  dsimp only [under]
  split
  · rfl
  · next c _ =>
    have hscan := scanLexeme_under lexer o' c (lexer.cursor.readWhile Text.isBlank).2
    dsimp only [under] at hscan
    rw [hscan]
    cases lexer.scanLexeme c (lexer.cursor.readWhile Text.isBlank).2 with
    | error fault next => rfl
    | ok lexeme next =>
      dsimp only
      rw [Lexeme.token_rebase]
      cases lexeme <;> rfl

theorem drain_under (limit : Nat) (lexer : Lexer) (o' : UtcOffset) :
    drain limit (lexer.under o') =
      (drain limit lexer).map (List.map (Token.rebase lexer.localOffset o')) := by
  induction limit generalizing lexer with
  | zero =>
    rw [drain, drain, next_under]
    rcases lexer.next with ⟨error | token, rest⟩ <;> rfl
  | succ limit ih =>
    rcases hnext : lexer.next with ⟨result, rest⟩
    have hunder : (lexer.under o').next =
        (result.map (Token.rebase lexer.localOffset o'), rest.under o') := by
      rw [next_under, hnext]
    cases result with
    | error error =>
      rw [drain_of_error hnext, drain_of_error hunder]
      rfl
    | ok token =>
      by_cases hstop : token.symbol = .stop
      · rw [drain_of_stop hnext hstop, drain_of_stop hunder hstop]
        rfl
      · rw [drain_of_more hnext hstop, drain_of_more hunder hstop, ih, localOffset_of_next hnext]
        cases drain limit rest <;> rfl

/-- The text is cut in the same way under every local offset. -/
theorem scan_under (text : List Char) (o o' : UtcOffset) :
    scan text o' =
      (scan text o).map fun queue ↦ ⟨queue.tokens.map (Token.rebase o o')⟩ := by
  have hdrain := drain_under text.length (start text o) o'
  rw [scan, scan]
  change (drain text.length ((start text o).under o')).map TokenQueue.mk = _
  rw [hdrain]
  cases drain text.length (start text o) <;> rfl

end Lexer

end ResourceQuery
