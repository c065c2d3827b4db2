import ResourceQuery.Proofs.WrittenMoments

/-!
# Scanners go forward

A scanner that succeeds stops at the place where it began or behind it, whatever it tried out in
between, and the scanner of a lexeme always passes something. Going forward is kept by sequences
and choices of scanners; so is passing something, of which one step of a sequence is enough.
-/

namespace ResourceQuery

open Run Cursor

namespace Scan

variable {α β : Type} {cursor : Cursor} {scanner : Scan α} {next : α → Scan β}

/-- The scanner never stops in front of the place where it began. -/
def Forward (scanner : Scan α) : Prop :=
  ∀ cursor, Spells cursor scanner fun _ _ ↦ True

/-- The scanner stops behind the place where it begins. -/
def Advances (cursor : Cursor) (scanner : Scan α) : Prop :=
  Spells cursor scanner fun _ run ↦ run ≠ []

theorem Forward.of_spells {form : Cursor → α → List Char → Prop}
    (h : ∀ cursor, Spells cursor scanner (form cursor)) : Forward scanner :=
  fun cursor ↦ (h cursor).mono fun _ _ _ ↦ trivial

theorem Forward.bind (h : Forward scanner) (hnext : ∀ a, Forward (next a)) :
    Forward (scanner >>= next) :=
  fun cursor ↦ (h cursor).bind fun a middle _ _ ↦ hnext a middle

/-- Behind what has been passed, going forward is enough. -/
theorem Forward.spells_append {run : List Char} (h : Forward scanner) (hrun : run ≠ []) :
    Spells cursor scanner fun _ more ↦ run ++ more ≠ [] :=
  (h cursor).mono fun _ more _ ↦ List.append_ne_nil_of_left_ne_nil hrun more

theorem Advances.bind (h : Advances cursor scanner) (hnext : ∀ a, Forward (next a)) :
    Advances cursor (scanner >>= next) :=
  Spells.bind h fun a _ _ hrun ↦ (hnext a).spells_append hrun

/-- What comes first may read nothing. -/
theorem Forward.advances_bind (h : Forward scanner)
    (hnext : ∀ a middle, scanner cursor = .ok a middle → Advances middle (next a)) :
    Advances cursor (scanner >>= next) := by
  intro b last hok
  obtain ⟨a, middle, ha, hb⟩ := bind_eq_ok.mp hok
  obtain ⟨run, hrun, -⟩ := h cursor a middle ha
  obtain ⟨more, hmore, hne⟩ := hnext a middle ha b last hb
  exact ⟨run ++ more, hrun.append hmore, List.append_ne_nil_of_right_ne_nil run hne⟩

theorem forward_pure (a : α) : Forward (pure a : Scan α) :=
  fun _ ↦ spells_pure trivial

theorem Forward.map (h : Forward scanner) {f : α → β} :
    Forward (do return f (← scanner)) :=
  h.bind fun a ↦ forward_pure (f a)

theorem Advances.map (h : Advances cursor scanner) {f : α → β} :
    Advances cursor (do return f (← scanner)) :=
  h.bind fun a ↦ forward_pure (f a)

theorem spells_throw {form : α → List Char → Prop} (fault : LexicalFault) :
    Spells cursor (throw fault : Scan α) form :=
  fun _ _ h ↦ nomatch h

theorem forward_throw (fault : LexicalFault) : Forward (throw fault : Scan α) :=
  fun _ ↦ spells_throw fault

theorem forward_failFrom (mark : Nat) (fault : String → LexicalFault) :
    Forward (failFrom mark fault : Scan α) :=
  fun _ ↦ spells_failFrom mark fault

theorem forward_failFrom_bind {mark : Nat} {fault : String → LexicalFault} :
    Forward (failFrom mark fault >>= next) :=
  fun _ ↦ spells_failFrom_bind

theorem forward_ite {p : Prop} [Decidable p] {yes no : Scan α} (hyes : Forward yes)
    (hno : Forward no) : Forward (if p then yes else no) := by
  split
  · exact hyes
  · exact hno

/-- A step that only looks ahead. -/
theorem forward_look {look : Cursor → α} (h : ∀ cursor, scanner cursor = .ok (look cursor) cursor) :
    Forward scanner := by
  intro cursor a last hok
  rw [h] at hok
  cases hok
  exact ⟨[], .refl cursor, trivial⟩

theorem forward_get : Forward (get : Scan Cursor) := forward_look fun _ ↦ rfl

theorem forward_position : Forward position := forward_look fun _ ↦ rfl

theorem forward_atBoundary : Forward atBoundary := forward_look fun _ ↦ rfl

theorem forward_nextIs (inClass : Char → Bool) : Forward (nextIs inClass) :=
  forward_look fun _ ↦ rfl

theorem forward_secondIs (inClass : Char → Bool) : Forward (secondIs inClass) :=
  forward_look fun _ ↦ rfl

theorem forward_skip (count : Nat) : Forward (skip count) := .of_spells fun _ ↦ spells_skip count

theorem forward_readWhile (inClass : Char → Bool) : Forward (readWhile inClass) :=
  .of_spells fun _ ↦ spells_readWhile inClass

theorem forward_readAtMost (limit : Nat) (inClass : Char → Bool) :
    Forward (readAtMost limit inClass) :=
  .of_spells fun _ ↦ spells_readAtMost limit inClass

theorem forward_readIf (inClass : Char → Bool) : Forward (readIf inClass) :=
  .of_spells fun _ ↦ spells_readIf inClass

theorem forward_accept (c : Char) : Forward (accept c) := (forward_readIf _).map

theorem advances_skip {count : Nat} (hcount : count ≠ 0) (h : cursor.ahead ≠ []) :
    Advances cursor (skip count) := by
  refine (spells_skip count).mono fun _ run hrun ↦ ?_
  rw [hrun, Ne, List.take_eq_nil_iff]
  exact fun hnone ↦ hnone.elim hcount h

theorem advances_readWhile {inClass : Char → Bool} (h : cursor.peek.any inClass = true) :
    Advances cursor (readWhile inClass) := by
  intro found last hok
  obtain ⟨run, hrun, rfl, -⟩ := spells_readWhile inClass found last hok
  exact ⟨run, hrun, ne_nil_of_readWhile hok h⟩

end Scan

open Scan

/-! ### Literals -/

namespace Guid

theorem forward_scanGroups (mark group : Nat) (widths : List Nat) :
    Forward (scanGroups mark group widths) := by
  induction widths generalizing group with
  | nil => exact forward_pure ()
  | cons width widths ih =>
    have hdigits : Forward (readAtMost width Text.isHexDigit >>= fun digits ↦
        if digits.length ≠ width then
          failFrom mark (.guid · (.shortGroup group width)) >>= fun _ : Unit ↦
            scanGroups mark (group + 1) widths
        else scanGroups mark (group + 1) widths) :=
      (forward_readAtMost width _).bind fun digits ↦
        forward_ite forward_failFrom_bind (ih (group + 1))
    refine forward_ite ?_ hdigits
    exact (forward_accept '-').bind fun _ ↦ forward_ite hdigits forward_failFrom_bind

theorem forward_ofText (text : List Char) : Forward (ofText text) := by
  unfold ofText
  split
  · exact forward_pure _
  · exact forward_throw _

/-- The first group has digits. -/
theorem advances_scan {cursor : Cursor} : Advances cursor scan := by
  have hgroups (mark : Nat) : Advances cursor (scanGroups mark 1 groupWidths) := by
    refine (spells_readAtMost 8 Text.isHexDigit).bind fun digits _ run hrun ↦ ?_
    refine spells_ite (fun _ ↦ spells_failFrom_bind) fun hlength ↦ ?_
    refine (forward_scanGroups mark 2 [4, 4, 4, 12]).spells_append ?_
    rw [hrun.1]
    rintro rfl
    exact hlength (by decide)
  refine forward_position.advances_bind fun mark stood hstood ↦ ?_
  cases hstood
  refine (hgroups _).bind fun _ ↦ forward_atBoundary.bind fun _ ↦ ?_
  exact forward_ite (forward_get.bind fun _ ↦ forward_ofText _) forward_failFrom_bind

theorem forward_scan : Forward scan := .of_spells fun _ ↦ advances_scan

end Guid

namespace TimeSpan

theorem forward_scanFraction : Forward scanFraction := by
  refine (forward_nextIs _).bind fun _ ↦ (forward_secondIs _).bind fun _ ↦ ?_
  refine forward_ite ?_ (forward_pure 0)
  exact (forward_skip 1).bind fun _ ↦ (forward_readWhile _).map

theorem forward_scanTwoDigits (mark : Nat) (part : SpanPart) :
    Forward (scanTwoDigits mark part) :=
  (forward_readAtMost 2 _).bind fun _ ↦ forward_ite forward_failFrom_bind (forward_pure _)

theorem forward_scanColon (mark : Nat) (part : SpanPart) : Forward (scanColon mark part) :=
  (forward_accept ':').bind fun _ ↦ forward_ite (forward_pure ()) (forward_failFrom _ _)

/-- There are hours. -/
theorem advances_scan {cursor : Cursor} : Advances cursor scan := by
  refine forward_position.advances_bind fun mark stood _ ↦ ?_
  refine (forward_readIf _).advances_bind fun sign middle _ ↦ ?_
  refine (spells_readAtMost 9 Text.isDigit).bind fun hours _ run hrun ↦ ?_
  refine spells_ite (fun _ ↦ spells_failFrom_bind) fun hne ↦ ?_
  refine Forward.spells_append ?_ (by simpa [hrun.1] using hne)
  refine (forward_scanColon _ _).bind fun _ ↦ (forward_scanTwoDigits _ _).bind fun minutes ↦ ?_
  refine (forward_scanColon _ _).bind fun _ ↦ (forward_scanTwoDigits _ _).bind fun seconds ↦ ?_
  refine forward_scanFraction.bind fun nanos ↦ forward_atBoundary.bind fun _ ↦ ?_
  refine forward_ite ?_ forward_failFrom_bind
  exact forward_ite forward_failFrom_bind (forward_pure _)

theorem forward_scan : Forward scan := .of_spells fun _ ↦ advances_scan

end TimeSpan

namespace Moment

/-- There is a date. -/
theorem advances_scan (anchor : Anchor) (localOffset : UtcOffset) {cursor : Cursor} :
    Advances cursor (scan anchor localOffset) := by
  refine (spells_scan anchor localOffset).mono ?_
  rintro moment run ⟨civil, zone, -, hscanned⟩
  exact hscanned.ne_nil

theorem forward_scan (anchor : Anchor) (localOffset : UtcOffset) :
    Forward (scan anchor localOffset) := .of_spells fun _ ↦ advances_scan anchor localOffset

end Moment

namespace Number

theorem advances_scanHex {cursor : Cursor} (h : HexMarked cursor) : Advances cursor scanHex :=
  (spells_scanHex h).mono fun _ _ hrun ↦ hrun.1

theorem forward_scanTyped (target : NumberType) : Forward (scanTyped target) :=
  .of_spells fun _ ↦ spells_scanTyped target

end Number

namespace Quoted

/-- The opening quote is passed. -/
theorem advances_scan {quote : Char} {cursor : Cursor} (h : cursor.ahead ≠ []) :
    Advances cursor (scan quote) := by
  refine forward_position.advances_bind fun mark stood hstood ↦ ?_
  cases hstood
  refine forward_get.advances_bind fun other stood hstood ↦ ?_
  cases hstood
  refine (advances_skip (Nat.succ_ne_zero _) h).bind fun _ ↦ ?_
  split
  · exact forward_pure _
  · exact forward_failFrom _ _

theorem forward_scan (quote : Char) : Forward (scan quote) := by
  refine forward_position.bind fun mark ↦ forward_get.bind fun cursor ↦ ?_
  refine (forward_skip _).bind fun _ ↦ ?_
  split
  · exact forward_pure _
  · exact forward_failFrom _ _

theorem advances_scanChar {cursor : Cursor} (h : cursor.ahead ≠ []) :
    Advances cursor scanChar := by
  refine forward_position.advances_bind fun mark stood hstood ↦ ?_
  cases hstood
  refine (advances_scan h).bind fun body ↦ ?_
  split
  · exact forward_pure _
  · exact forward_failFrom _ _

theorem forward_scanChar : Forward scanChar := by
  refine forward_position.bind fun mark ↦ (forward_scan _).bind fun body ↦ ?_
  split
  · exact forward_pure _
  · exact forward_failFrom _ _

end Quoted

namespace Literal

theorem forward_scanBody : Forward scanBody := by
  refine (forward_nextIs _).bind fun _ ↦ forward_ite (Quoted.forward_scan _) ?_
  refine (forward_readWhile _).bind fun word ↦ ?_
  exact forward_ite (fun _ _ _ h ↦ nomatch h) (forward_pure _)

theorem forward_within {α : Type} (body : List Char) (scanner : Scan α) :
    Forward (within body scanner) := by
  unfold within
  split
  · exact forward_ite (forward_pure _) (forward_throw _)
  · exact forward_throw _

theorem forward_bareOrWithin {α : Type} {scanner : Scan α} (h : Forward scanner) :
    Forward (bareOrWithin scanner) := by
  refine (forward_nextIs _).bind fun _ ↦ forward_ite ?_ h
  exact (Quoted.forward_scan _).bind fun body ↦ forward_within body scanner

theorem forward_scanText : Forward scanText :=
  (forward_nextIs _).bind fun _ ↦ forward_ite (Quoted.forward_scan _) forward_scanBody

theorem forward_scanBool (mark : Nat) : Forward (scanBool mark) := by
  refine forward_scanBody.bind fun word ↦ ?_
  split
  · exact forward_pure _
  · exact forward_failFrom _ _

theorem forward_scanTypedChar (mark : Nat) : Forward (scanTypedChar mark) := by
  refine (forward_nextIs _).bind fun _ ↦ forward_ite Quoted.forward_scanChar ?_
  refine forward_scanBody.bind fun body ↦ ?_
  split
  · exact forward_pure _
  · exact forward_failFrom _ _

theorem forward_scanTypedGuid : Forward scanTypedGuid := by
  refine (forward_nextIs _).bind fun _ ↦ forward_ite ?_ Guid.forward_scan
  exact (Quoted.forward_scan _).bind fun body ↦ Guid.forward_ofText body

theorem forward_scanBinary : Forward scanBinary := by
  have hpayload : Forward scanPayload :=
    (forward_nextIs _).bind fun _ ↦ forward_ite (Quoted.forward_scan _) (forward_readWhile _)
  refine hpayload.bind fun payload ↦ ?_
  split
  · exact forward_pure _
  · exact forward_throw _

theorem forward_scanUri : Forward scanUri := (forward_readWhile _).map

theorem forward_scanTypedUri (mark : Nat) : Forward (scanTypedUri mark) := by
  refine (forward_nextIs _).bind fun _ ↦ forward_ite (Quoted.forward_scan _).map ?_
  exact forward_scanUri.bind fun _ ↦ forward_ite forward_failFrom_bind (forward_pure _)

theorem forward_scanTyped (localOffset : UtcOffset) (mark : Nat) (type : LiteralType) :
    Forward (scanTyped localOffset mark type) := by
  cases type with
  | number target => exact Number.forward_scanTyped target
  | bool => exact (forward_scanBool mark).map
  | char => exact (forward_scanTypedChar mark).map
  | string => exact forward_scanText.map
  | guid => exact forward_scanTypedGuid.map
  | binary => exact forward_scanBinary.map
  | uri => exact (forward_scanTypedUri mark).map
  | moment anchor => exact (forward_bareOrWithin (Moment.forward_scan anchor localOffset)).map
  | span => exact (forward_bareOrWithin TimeSpan.forward_scan).map

end Literal

/-! ### Lexemes -/

theorem Cursor.Between.source_eq {cursor next : Cursor} {run : List Char}
    (h : Between run cursor next) : next.source = cursor.source := by
  simp [source, h.passed, h.ahead]

namespace Lexeme

variable {localOffset : UtcOffset} {passed ahead : List Char} {c : Char} {cursor : Cursor}

/-- The sign that begins with an equals sign ends with one. -/
theorem spells_scanEquals :
    Spells ⟨passed, '=' :: ahead⟩ scanEquals fun _ run ↦ run.getLast? = some '=' := by
  refine (spells_skip 1).bind fun _ cursor lead hlead ↦ ?_
  obtain rfl : lead = ['='] := hlead
  intro lexeme last hok
  obtain ⟨mark, stood, hmark, hok⟩ := bind_eq_ok.mp hok
  cases hmark
  obtain ⟨word, middle, hword, hok⟩ := bind_eq_ok.mp hok
  obtain ⟨run, hrun, -⟩ := spells_readAtMost 2 Text.isLetter word middle hword
  -- Where no comparison is found, the cursor goes back behind the first equals sign.
  have hback {stood : Cursor} (hstood : stood.source = cursor.source)
      (hok : (Scan.moveTo cursor.position >>= fun _ ↦
        pure (Lexeme.plain (.comparison .eq)) : Scan Lexeme) stood = .ok lexeme last) :
      ∃ run, Between run cursor last ∧ (['='] ++ run).getLast? = some '=' := by
    rw [moveTo_bind hstood] at hok
    cases hok
    exact ⟨[], .refl cursor, rfl⟩
  cases hop : wordComparison? word with
  | none =>
    rw [hop] at hok
    exact hback hrun.source_eq hok
  | some op =>
    rw [hop] at hok
    obtain ⟨found, stood, hfound, hok⟩ := bind_eq_ok.mp hok
    obtain ⟨more, hmore, rfl⟩ := spells_accept '=' found stood hfound
    cases found with
    | true =>
      cases hok
      have hend : (['='] ++ (run ++ ['='])).getLast? = some '=' := by
        rw [← List.append_assoc, List.getLast?_concat]
      exact ⟨run ++ ['='], hrun.append hmore, hend⟩
    | false => exact hback (hmore.source_eq.trans hrun.source_eq) hok

theorem FromDigits.advances {lexeme : Lexeme} {next : Cursor}
    (h : FromDigits localOffset cursor lexeme next) (hword : cursor.peek.any isWordChar = true) :
    ∃ run, Between run cursor next ∧ run ≠ [] := by
  cases h with
  | guid hread => exact Guid.advances_scan _ _ hread
  | hex hahead hread =>
    exact Number.advances_scanHex (Number.hexMarked_of_hexAhead hahead).1 _ _ hread
  | span hread => exact TimeSpan.advances_scan _ _ hread
  | moment _ hread => exact Moment.advances_scan _ _ _ _ hread
  | number hread =>
    obtain ⟨run, hrun, hvalue⟩ := Number.spells_scan? _ _ hread
    exact ⟨run, hrun, (hvalue _ rfl).1⟩
  | sign =>
    have hahead : cursor.ahead ≠ [] := List.ne_nil_of_length_pos (one_le_of_any_peek hword)
    exact advances_skip Nat.one_ne_zero hahead _ _ rfl
  | word => exact advances_readWhile hword _ _ rfl

theorem isUriChar_of_isWordChar (h : isWordChar c = true) : Literal.isUriChar c = true := by
  simp only [isWordChar, isTerminator, Bool.not_or, Bool.and_eq_true, Bool.not_eq_true',
    List.contains_eq_mem, decide_eq_false_iff_not, List.mem_cons, List.not_mem_nil,
    or_false, not_or] at h
  simp only [Literal.isUriChar, Bool.not_or, Bool.and_eq_true, Bool.not_eq_true',
    List.contains_eq_mem, decide_eq_false_iff_not, List.mem_cons, List.not_mem_nil,
    or_false, not_or]
  tauto

/-- Behind a word and a colon a literal is read, or the word and what follows as a reference. -/
theorem advances_of_scanAfterWord {middle last : Cursor} {run word : List Char} {value : Value}
    (hword : cursor.peek.any isWordChar = true) (hrun : Between run cursor middle) (hne : run ≠ [])
    (h : Literal.scanAfterWord localOffset cursor.position word middle = .ok value last) :
    ∃ run, Between run cursor last ∧ run ≠ [] := by
  cases Literal.fromPrefix_of_scanAfterWord h with
  | reference hread =>
    rw [moveTo_eq hrun.source_eq] at hread
    have huri : cursor.peek.any Literal.isUriChar = true := by
      obtain ⟨c, hc, hclass⟩ := (Option.any_eq_true _ _).mp hword
      exact (Option.any_eq_true _ _).mpr ⟨c, hc, isUriChar_of_isWordChar hclass⟩
    exact (advances_readWhile huri).map _ _ hread
  | typed _ hread =>
    obtain ⟨more, hmore, -⟩ := Literal.forward_scanTyped _ _ _ _ _ _ hread
    have hrest := (between_passOver middle 1).append hmore
    exact ⟨_, hrun.append hrest, List.append_ne_nil_of_left_ne_nil hne _⟩

theorem FromWord.advances {lexeme : Lexeme} {next : Cursor}
    (h : FromWord localOffset cursor lexeme next) (hword : cursor.peek.any isWordChar = true) :
    ∃ run, Between run cursor next ∧ run ≠ [] := by
  cases h with
  | guid hread => exact Guid.advances_scan _ _ hread
  | prefixed hlead _ hread =>
    obtain ⟨run, hrun, hne⟩ := advances_readWhile hword _ _ hlead
    exact advances_of_scanAfterWord hword hrun hne hread
  | function hrun | null hrun | bool hrun | name _ hrun => exact advances_readWhile hword _ _ hrun

theorem isWordChar_of_beginsDigits {second : Option Char} (h : beginsDigits c second = true) :
    isWordChar c = true := by
  simp only [beginsDigits, isSign, Bool.or_eq_true, Bool.and_eq_true, beq_iff_eq] at h
  obtain (hdigit | ⟨rfl, -⟩) | ⟨rfl | rfl, -⟩ := h
  · exact isWordChar_of_isDigit hdigit
  · decide
  · decide
  · decide

theorem ne_zero_of_comparison? {second : Option Char} {op : Comparison} {length : Nat}
    (h : comparison? c second = some (op, length)) : length ≠ 0 := by
  unfold comparison? at h
  dsimp only at h
  split at h
  all_goals grind

/-- A character that is no blank begins a word if it begins nothing else. -/
theorem isWordChar_of_begins_nothing (hblank : Text.isBlank c = false) (hsymbol : c ∉ symbols)
    (hothers : c ∉ ['/', '"', '\'', ':']) : isWordChar c = true := by
  rw [isWordChar, isTerminator, hblank, Bool.false_or, Bool.not_eq_true', List.contains_eq_mem,
    decide_eq_false_iff_not]
  simp only [symbols, stoppers, List.mem_cons, List.not_mem_nil, or_false] at hsymbol hothers ⊢
  tauto

/-- Every lexeme takes up some text. -/
theorem advances_scan (hblank : Text.isBlank c = false) (last : Option Symbol) :
    Advances ⟨passed, c :: ahead⟩ (scan localOffset last c) := by
  have hahead : (⟨passed, c :: ahead⟩ : Cursor).ahead ≠ [] := List.cons_ne_nil _ _
  intro lexeme next h
  cases recognised_of_scan h with
  | symbol hsymbol =>
    cases hsymbol with
    | single => exact advances_skip Nat.one_ne_zero hahead _ _ rfl
    | equals hequals hread =>
      subst hequals
      obtain ⟨run, hrun, hlast⟩ := spells_scanEquals _ _ hread
      refine ⟨run, hrun, ?_⟩
      rintro rfl
      cases hlast
    | comparison hop => exact advances_skip (ne_zero_of_comparison? hop) hahead _ _ rfl
  | slash | direction => exact advances_skip Nat.one_ne_zero hahead _ _ rfl
  | string _ hread => exact Quoted.advances_scan hahead _ _ hread
  | char _ hread => exact Quoted.advances_scanChar hahead _ _ hread
  | uri hslash hread =>
    subst hslash
    exact (advances_readWhile rfl).map _ _ hread
  | digits hdigits hbegins => exact hdigits.advances (isWordChar_of_beginsDigits hbegins)
  | word hword hsymbol hothers =>
    exact hword.advances (isWordChar_of_begins_nothing hblank hsymbol hothers)

end Lexeme

end ResourceQuery
