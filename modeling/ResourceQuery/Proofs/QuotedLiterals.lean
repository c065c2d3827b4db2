import ResourceQuery.Proofs.MomentGrammar

/-!
# Literals between quotes

Behind the name of a type a literal that is no number may stand between double quotes. A body
without quotes and backslashes stands for itself there, so what is read bare up to the end of the
text is the same literal between quotes. Dates and time spans are read once more from the body
alone, which has no blanks at its ends that could be cut off.
-/

namespace ResourceQuery

open Run Scan

/-- Neither a quote nor a backslash is in the body, which so stands for itself between quotes. -/
def IsVerbatim (body : List Char) : Prop :=
  ∀ c ∈ body, c ∉ ['"', '\'', '\\']

namespace IsVerbatim

variable {body : List Char} {c : Char}

theorem head (h : IsVerbatim (c :: body)) : c ≠ '"' ∧ c ≠ '\'' ∧ c ≠ '\\' := by
  simpa using h c List.mem_cons_self

theorem tail (h : IsVerbatim (c :: body)) : IsVerbatim body :=
  fun d hd ↦ h d (List.mem_cons_of_mem c hd)

/-- A verbatim body does not begin with a quote. -/
theorem nextIs_eq (h : IsVerbatim body) {quote : Char} (hquote : quote ∈ ['"', '\''])
    (passed : List Char) : nextIs (· == quote) ⟨passed, body⟩ = .ok false ⟨passed, body⟩ := by
  have hnone : body.head?.any (· == quote) = false := by
    rw [Option.any_eq_false]
    intro c hc
    rw [beq_eq_false_iff_ne]
    rintro rfl
    exact h c (List.mem_of_head? hc) (List.mem_append_left ['\\'] hquote)
  exact congrArg (EStateM.Result.ok · _) hnone

end IsVerbatim

namespace Quoted

variable {body rest : List Char}

theorem decode_verbatim (h : IsVerbatim body) (rest : List Char) :
    decode '"' (body ++ '"' :: rest) = (.ok body, body.length + 1) := by
  induction body with
  | nil => rw [List.nil_append, decode_cons (by decide), if_pos rfl, List.length_nil]
  | cons c body ih =>
    obtain ⟨hquote, -, hescape⟩ := h.head
    rw [List.cons_append, decode_cons hescape, if_neg hquote, ih h.tail]
    rfl

theorem recovers_verbatim (h : IsVerbatim body) :
    Recovers (scan '"') ('"' :: (body ++ ['"'])) body rest := by
  intro passed
  have hdecode := decode_verbatim h rest
  refine scan_eq_ok_iff.mpr ⟨body.length + 1, by simpa using hdecode, ?_⟩
  have hpass := Cursor.passOver_append passed ('"' :: (body ++ ['"'])) rest
  rwa [List.length_cons, List.length_append, List.length_singleton] at hpass

/-- What a step makes of the body is read between quotes. -/
theorem recovers_bind_verbatim {α : Type} {next : List Char → Scan α} {a : α} (h : IsVerbatim body)
    (hnext : ∀ cursor, next body cursor = .ok a cursor) :
    Recovers (scan '"' >>= next) ('"' :: (body ++ ['"'])) a rest := by
  intro passed
  rw [bind_ok (recovers_verbatim h passed)]
  exact hnext _

end Quoted

namespace Literal

variable {α β : Type} {scanner bare : Scan α} {next : α → Scan β}
  {a : α} {body passed last : List Char}

/-- What is read of a whole verbatim text is read between quotes as well. -/
def QuotesAlike (scanner : Scan α) : Prop :=
  ∀ ⦃passed body last : List Char⦄ ⦃a : α⦄, IsVerbatim body →
    scanner ⟨passed, body⟩ = .ok a ⟨last, []⟩ → Recovers scanner ('"' :: (body ++ ['"'])) a []

/-- A step that reads nothing and finds the same thing everywhere, if it finds anything. -/
def IsStill (scanner : Scan α) : Prop :=
  ∀ cursor a last, scanner cursor = .ok a last →
    cursor = last ∧ ∀ other, scanner other = .ok a other

theorem isStill_pure (a : α) : IsStill (pure a : Scan α) := by
  rintro cursor _ _ ⟨⟩
  exact ⟨rfl, fun _ ↦ rfl⟩

theorem isStill_throw (fault : LexicalFault) : IsStill (throw fault : Scan α) :=
  fun _ _ _ h ↦ by cases h

theorem isStill_failFrom (mark : Nat) (fault : String → LexicalFault) :
    IsStill (failFrom mark fault : Scan α) :=
  fun _ _ _ h ↦ by cases h

theorem QuotesAlike.bind (h : QuotesAlike scanner) (hnext : ∀ a, IsStill (next a)) :
    QuotesAlike (scanner >>= next) := by
  intro passed body last b hbody hok place
  obtain ⟨a, middle, ha, hb⟩ := bind_eq_ok.mp hok
  obtain ⟨rfl, hstill⟩ := hnext a middle b _ hb
  rw [bind_ok (h hbody ha place)]
  exact hstill _

theorem QuotesAlike.map (h : QuotesAlike scanner) {f : α → β} :
    QuotesAlike (do return f (← scanner)) :=
  h.bind fun _ ↦ isStill_pure _

/-- It is enough that what is read bare is found in the body between quotes. -/
theorem quotesAlike_of_bare {inside : Scan α}
    (h : ∀ ⦃passed body last : List Char⦄ ⦃a : α⦄, IsVerbatim body →
      bare ⟨passed, body⟩ = .ok a ⟨last, []⟩ → Recovers inside ('"' :: (body ++ ['"'])) a []) :
    QuotesAlike (do if ← quoteAhead then inside else bare) := by
  intro passed body last a hbody hok
  have hahead : quoteAhead ⟨passed, body⟩ = .ok false ⟨passed, body⟩ :=
    hbody.nextIs_eq (by decide) passed
  rw [bind_ok hahead, if_neg Bool.false_ne_true] at hok
  exact recovers_look (a := true) (fun _ ↦ rfl) (h hbody hok)

/-- In front of a single quote there is another scanner, which is not taken in either form. -/
theorem quotesAlike_of_double (single : Scan α) (h : QuotesAlike scanner) :
    QuotesAlike (do if ← nextIs (· == '\'') then single else scanner) := by
  intro passed body last a hbody hok
  rw [bind_ok (hbody.nextIs_eq (by decide) passed), if_neg Bool.false_ne_true] at hok
  refine recovers_look (a := false) (fun _ ↦ rfl) fun place ↦ ?_
  rw [if_neg Bool.false_ne_true]
  exact h hbody hok place

/-- A scanner that comes to the end of a text has passed it. -/
theorem exists_form_of_spells {form : α → List Char → Prop}
    (h : Spells ⟨passed, body⟩ scanner form) (hok : scanner ⟨passed, body⟩ = .ok a ⟨last, []⟩) :
    form a body := by
  obtain ⟨run, hrun, hform⟩ := h a _ hok
  have hbody : body = run := by simpa using hrun.ahead
  exact hbody ▸ hform

/-! ### Words, bytes and references -/

theorem quotesAlike_scanBody : QuotesAlike scanBody := by
  refine quotesAlike_of_bare fun passed body last found hbody hok ↦ ?_
  have hform : Spells ⟨passed, body⟩ (do
      let word ← readWhile isWordChar
      if word.isEmpty then throw .noValue
      return word) fun found run ↦ run = found := by
    refine (spells_readWhile _).bind fun word _ run hrun ↦ spells_ite (fun _ ↦ ?_) fun _ ↦ ?_
    · exact fun _ _ h ↦ by cases h
    · exact spells_pure (by rw [List.append_nil, hrun.1])
  obtain rfl := exists_form_of_spells hform hok
  exact Quoted.recovers_verbatim hbody

theorem quotesAlike_scanBool (mark : Nat) : QuotesAlike (scanBool mark) := by
  refine quotesAlike_scanBody.bind fun word ↦ ?_
  split
  · exact isStill_pure _
  · exact isStill_failFrom _ _

theorem quotesAlike_scanText : QuotesAlike scanText :=
  quotesAlike_of_double _ quotesAlike_scanBody

theorem quotesAlike_scanTypedChar (mark : Nat) : QuotesAlike (scanTypedChar mark) := by
  refine quotesAlike_of_double _ (quotesAlike_scanBody.bind fun word ↦ ?_)
  split
  · exact isStill_pure _
  · exact isStill_failFrom _ _

theorem quotesAlike_scanBinary : QuotesAlike scanBinary := by
  have hpayload : QuotesAlike scanPayload := by
    refine quotesAlike_of_bare fun passed body last found hbody hok ↦ ?_
    obtain ⟨rfl, -⟩ := exists_form_of_spells (spells_readWhile _) hok
    exact Quoted.recovers_verbatim hbody
  refine hpayload.bind fun payload ↦ ?_
  split
  · exact isStill_pure _
  · exact isStill_throw _

theorem quotesAlike_scanTypedUri (mark : Nat) : QuotesAlike (scanTypedUri mark) := by
  refine quotesAlike_of_bare fun passed body last uri hbody hok ↦ ?_
  have hread : Spells ⟨passed, body⟩ scanUri fun uri run ↦ uri = String.ofList run :=
    (spells_readWhile _).bind fun word _ run hrun ↦
      spells_pure (by rw [List.append_nil, hrun.1])
  have hform : Spells ⟨passed, body⟩ (do
      let uri ← scanUri
      if uri.isEmpty then failFrom mark .emptyUri
      return uri) fun uri run ↦ uri = String.ofList run := by
    refine hread.bind fun uri _ run hrun ↦ ?_
    refine spells_ite (fun _ ↦ spells_failFrom_bind) fun _ ↦ spells_pure ?_
    rwa [List.append_nil]
  obtain rfl := exists_form_of_spells hform hok
  exact Quoted.recovers_bind_verbatim hbody fun _ ↦ rfl

/-! ### Identifiers -/

theorem isStill_ofText (text : List Char) : IsStill (Guid.ofText text) := by
  unfold Guid.ofText
  split
  · exact isStill_pure _
  · exact isStill_throw _

/-- A bare identifier is told by the text that is passed. -/
theorem spells_scanGuid {cursor : Cursor} :
    Spells cursor Guid.scan fun id run ↦ ∀ other, Guid.ofText run other = .ok id other := by
  intro id last hok
  obtain ⟨mark, start, hmark, hok⟩ := bind_eq_ok.mp hok
  obtain ⟨rfl, rfl⟩ := EStateM.Result.ok.inj hmark
  obtain ⟨_, middle, hgroups, hok⟩ := bind_eq_ok.mp hok
  obtain ⟨run, hrun, -⟩ := Guid.forward_scanGroups _ _ _ _ _ _ hgroups
  obtain ⟨boundary, stood, hboundary, hok⟩ := bind_eq_ok.mp hok
  obtain rfl : middle = stood := (EStateM.Result.ok.inj hboundary).2
  cases boundary with
  | false => cases hok
  | true =>
    obtain ⟨rfl, hstill⟩ := isStill_ofText _ _ _ _ hok
    rw [hrun.textFrom_eq] at hstill
    exact ⟨run, hrun, hstill⟩

theorem quotesAlike_scanTypedGuid : QuotesAlike scanTypedGuid :=
  quotesAlike_of_bare fun _ _ _ _ hbody hok ↦
    Quoted.recovers_bind_verbatim hbody (exists_form_of_spells spells_scanGuid hok)

/-! ### Dates and time spans -/

/-- What is read of a whole body without blanks at its ends is read of the body within quotes. -/
theorem within_eq (hends : Text.NoBlankEnds body)
    (hagrees : Agrees True passed [] (.start body) scanner scanner)
    (hok : scanner ⟨passed, body⟩ = .ok a ⟨last, []⟩) (cursor : Cursor) :
    within body scanner cursor = .ok a cursor := by
  have hembed : scanner ((Cursor.start body).embed passed []) = .ok a ⟨last, []⟩ := by
    simpa [Cursor.start, Cursor.embed] using hok
  obtain ⟨inner, hinner, -, hlast⟩ := hagrees.of_embed trivial hembed
  have hend : inner.ahead = [] := by
    have hahead := congrArg Cursor.ahead hlast
    rwa [Cursor.embed, List.append_nil, eq_comm] at hahead
  rw [within, Text.trim_eq_self_iff.mpr hends, hinner]
  simp only [Cursor.atEnd, hend]
  rfl

theorem quotesAlike_bareOrWithin
    (hends : ∀ ⦃passed body last : List Char⦄ ⦃a : α⦄,
      scanner ⟨passed, body⟩ = .ok a ⟨last, []⟩ → Text.NoBlankEnds body)
    (hagrees : ∀ passed body, Agrees True passed [] (.start body) scanner scanner) :
    QuotesAlike (bareOrWithin scanner) :=
  quotesAlike_of_bare fun _ _ _ _ hbody hok ↦
    Quoted.recovers_bind_verbatim hbody (within_eq (hends hok) (hagrees _ _) hok)

theorem noBlankEnds_of_scanMoment {anchor : Anchor} {localOffset : UtcOffset} {moment : Moment}
    (hok : Moment.scan anchor localOffset ⟨passed, body⟩ = .ok moment ⟨last, []⟩) :
    Text.NoBlankEnds body := by
  obtain ⟨civil, zone, -, hread⟩ :=
    exists_form_of_spells (CivilTime.spells_scan anchor localOffset) hok
  exact hread.noBlankEnds

theorem noBlankEnds_of_scanSpan {span : TimeSpan}
    (hok : TimeSpan.scan ⟨passed, body⟩ = .ok span ⟨last, []⟩) : Text.NoBlankEnds body := by
  obtain ⟨s, -, hbetween, -, -⟩ := TimeSpan.exists_text_of_scan hok
  have hbody : body = s.chars := by simpa using hbetween.ahead
  exact hbody ▸ s.isPlain_chars.noBlankEnds

/-! ### Types -/

/-- Of every type but those of the numbers. -/
theorem quotesAlike_scanTyped (localOffset : UtcOffset) (mark : Nat) {type : LiteralType}
    (h : ∀ target, type ≠ .number target) : QuotesAlike (scanTyped localOffset mark type) := by
  have hend : FollowsWord [] := by simp [FollowsWord]
  cases type with
  | number target => exact absurd rfl (h target)
  | bool => exact (quotesAlike_scanBool mark).map
  | char => exact (quotesAlike_scanTypedChar mark).map
  | string => exact quotesAlike_scanText.map
  | guid => exact quotesAlike_scanTypedGuid.map
  | binary => exact quotesAlike_scanBinary.map
  | uri => exact (quotesAlike_scanTypedUri mark).map
  | moment anchor =>
    exact (quotesAlike_bareOrWithin (fun _ _ _ _ ↦ noBlankEnds_of_scanMoment)
      fun _ _ ↦ Moment.agrees_scan hend anchor localOffset).map
  | span =>
    exact (quotesAlike_bareOrWithin (fun _ _ _ _ ↦ noBlankEnds_of_scanSpan)
      fun _ _ ↦ TimeSpan.agrees_scan hend).map

end Literal

namespace Lexer

variable {localOffset : UtcOffset} {word text body : List Char} {type : LiteralType} {value : Value}

/-- What a whole text is behind the name of a type, the scanner of the type finds. -/
theorem ScansTo.scanTyped (htype : LiteralType.ofWord? word = some type)
    (h : ScansTo localOffset (word ++ ':' :: text) value) :
    ∃ last, Literal.scanTyped localOffset 0 type ⟨':' :: word.reverse, text⟩ =
      .ok value ⟨last, []⟩ := by
  obtain ⟨c, rest, htext, -, hscan⟩ := scan_typed localOffset htype text
  have hslash : (word ++ ':' :: text).head? ≠ some '/' := by
    obtain ⟨-, hletter, -⟩ := LiteralType.word_chars htype
    cases word with
    | nil => cases hletter
    | cons d rest =>
      rintro ⟨⟩
      cases hletter
  obtain ⟨d, rest', htext', -, hdenotes⟩ := h.denotes hslash
  obtain ⟨rfl, rfl⟩ := List.cons.inj (htext.symm.trans htext')
  have hliteral := hdenotes [] [] none (by simp [FollowsValue])
  rw [List.append_nil, hscan] at hliteral
  obtain ⟨found, middle, hfound, hpure⟩ := bind_eq_ok.mp hliteral
  obtain ⟨hvalue, rfl⟩ := pure_eq_ok.mp hpure
  cases hvalue
  exact ⟨_, hfound⟩

/-- A bare literal behind the name of a type other than a number's is the same literal between
quotes, if it has neither quotes nor backslashes in it. -/
theorem ScansTo.quoted (htype : LiteralType.ofWord? word = some type)
    (hnumber : ∀ target, type ≠ .number target) (hbody : ∀ c ∈ body, c ∉ ['"', '\'', '\\'])
    (h : ScansTo localOffset (word ++ ':' :: body) value) :
    ScansTo localOffset (word ++ ':' :: '"' :: (body ++ ['"'])) value := by
  obtain ⟨last, hscan⟩ := h.scanTyped htype
  exact scansTo_typed htype (Literal.quotesAlike_scanTyped localOffset 0 hnumber hbody hscan)

/-- The blanks within a date stay in place between quotes. -/
theorem ScansTo.quoted_date :
    let civil : CivilTime := ⟨⟨2024, 2, 29, by decide, by decide⟩, 5, 6, 0, 0, by decide, by decide,
      by decide, by decide, by decide⟩
    let moment := civil.moment (some .utc) .local .utc
    ScansTo .utc "Date:2/29/2024 5:06 gmt".toList (.moment moment) ∧
    ScansTo .utc "Date:\"2/29/2024 5:06 gmt\"".toList (.moment moment) := by
  intro civil moment
  have hfield {least most n : Nat} {digits : List Char} (hdigits : digits.all Text.isDigit = true)
      (hlength : least ≤ digits.length ∧ digits.length ≤ most)
      (hvalue : Text.ofDigits digits = n) : Text.IsField least most n digits :=
    ⟨List.all_eq_true.mp hdigits, hlength, hvalue⟩
  have hspells : civil.Spells (some .utc) (("2".toList ++ '/' :: ("29".toList ++ '/' ::
      "2024".toList)) ++ ' ' :: (("5".toList ++ ':' :: "06".toList) ++ ([' '] ++ "gmt".toList))) :=
    .intro (.monthFirst (by decide) (hfield (by decide) (by decide) rfl)
      (hfield (by decide) (by decide) rfl) (hfield (by decide) (by decide) rfl)) (by decide)
      (.short (hfield (by decide) (by decide) rfl) (hfield (by decide) (by decide) rfl) rfl rfl)
      (.gmt (by decide) (by decide))
  have hdate : LiteralType.ofWord? "Date".toList = some (.moment .local) := by decide
  have hbare : ScansTo .utc ("Date".toList ++ ':' :: "2/29/2024 5:06 gmt".toList)
      (.moment moment) :=
    scansTo_typed hdate (hspells.recovers_bareOrWithin .local .utc List.mem_cons_self).map
  have hverbatim : ∀ c ∈ "2/29/2024 5:06 gmt".toList, c ∉ ['"', '\'', '\\'] := by simp
  have hnumber : ∀ target, LiteralType.moment .local ≠ .number target := by simp
  have hquoted := hbare.quoted hdate hnumber hverbatim
  exact ⟨hbare, hquoted⟩

end Lexer

end ResourceQuery
