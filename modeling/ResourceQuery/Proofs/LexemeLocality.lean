import ResourceQuery.Proofs.LiteralLocality
import ResourceQuery.Token.Lexer

/-!
# Words and literals are local

What is recognised at the front of a word or a literal is recognised wherever it stands: the
scanner of a lexeme does not look at what has been read before, save for a slash, and what follows
does not change its choice either. Only the literals behind a prefix need more of what follows than
words do.
-/

namespace ResourceQuery.Lexeme

open Run Scan

variable {strict : Prop} {before rest : List Char} {cursor next : Cursor} {c : Char}
  {lexeme : Lexeme}
  {localOffset : UtcOffset} {last : Option Symbol}

/-! ### Runs that begin with digits -/

theorem peek_bind_orderOfSign?_embed (hrest : FollowsWord rest) (cursor : Cursor) :
    (cursor.embed before rest).peek.bind orderOfSign? = cursor.peek.bind orderOfSign? := by
  obtain ⟨passed, ahead⟩ := cursor
  cases ahead with
  | nil =>
    cases rest with
    | nil => rfl
    | cons c rest =>
      have hstopper : ∀ c ∈ stoppers, orderOfSign? c = none := forall_mem_of_all (by decide)
      exact hstopper c (hrest c rfl)
  | cons c ahead => rfl

theorem agrees_scanDigitWord (hrest : FollowsWord rest) :
    Agrees strict before rest cursor scanDigitWord scanDigitWord := by
  apply agrees_peek
  rw [peek_bind_orderOfSign?_embed hrest]
  split
  · next order hsign =>
    have hplace : 1 ≤ cursor.ahead.length := by
      obtain ⟨passed, _ | ⟨c, ahead⟩⟩ := cursor
      · cases hsign
      · simp
    exact (agrees_skip hplace).bind fun _ _ _ _ ↦ agrees_pure _
  · exact (agrees_readWhile (hrest.bars (by decide))).bind fun _ _ _ _ ↦ agrees_pure _

theorem agrees_scanDigits (hrest : FollowsWord rest) (localOffset : UtcOffset) :
    Agrees strict before rest cursor (scanDigits localOffset) (scanDigits localOffset) := by
  apply agrees_get
  rw [Guid.ahead_embed hrest]
  refine agrees_ite (fun _ ↦ (Guid.agrees_scan hrest).map) fun _ ↦ ?_
  refine Number.agrees_hexAhead_bind hrest fun hex hlength ↦ ?_
  refine agrees_ite (fun hhex ↦ (Number.agrees_scanHex hrest (hlength hhex)).map) fun _ ↦ ?_
  rw [TimeSpan.ahead_embed hrest]
  refine agrees_ite (fun _ ↦ (TimeSpan.agrees_scan hrest).map) fun _ ↦ ?_
  rw [Moment.ahead_embed hrest]
  refine agrees_ite (fun _ ↦ (Moment.agrees_scan hrest .local localOffset).map) fun _ ↦ ?_
  refine (Number.agrees_scan? hrest).bind fun found middle _ hsource ↦ ?_
  split
  · exact agrees_pure _
  · have hmark : cursor.position ≤ middle.source.length := hsource ▸ cursor.position_le
    rw [Cursor.position_embed]
    exact (agrees_moveTo hmark).bind fun _ _ _ _ ↦ agrees_scanDigitWord hrest

/-! ### Words -/

theorem parenFollows_embed (hrest : FollowsWord rest) (cursor : Cursor) :
    parenFollows (cursor.embed before rest) = parenFollows cursor := by
  rw [parenFollows, Cursor.embed, List.dropWhile_append, parenFollows]
  cases cursor.ahead.dropWhile Text.isBlank with
  | cons c behind => rfl
  | nil =>
    cases rest with
    | nil => rfl
    | cons c rest =>
      have hstopper : ∀ c ∈ stoppers, Text.isBlank c = false ∧ c ≠ '(' :=
        forall_mem_of_all (by decide)
      obtain ⟨hblank, hparen⟩ := hstopper c (hrest c rfl)
      simp [hblank, hparen]

theorem get_eq (cursor : Cursor) : (get : Scan Cursor) cursor = .ok cursor cursor := rfl

/-- Recognises a word or, where the word and a colon are a prefix, what `behind` reads. -/
def scanWordWith (behind : Nat → List Char → Scan Value) : Scan Lexeme := do
  let cursor ← get
  if Guid.ahead cursor then return .literal (.guid (← Guid.scan))
  else
    let word ← Scan.readWhile isWordChar
    if ← Scan.nextIs (· == ':') then
      return .literal (← behind cursor.position word)
    else if parenFollows (← get) then
      match keyword? word with
      | some keyword => return .plain (.function keyword)
      | none => return ofWord word
    else return ofWord word

section With

variable {behind other : Nat → List Char → Scan Value}

/-- What is read behind a prefix has to be local in the same sense as the word. -/
theorem agrees_scanWordWith (hrest : FollowsWord rest)
    (hbehind : ∀ word (stood : Cursor), 1 ≤ stood.ahead.length →
      stood.source = cursor.source →
      Agrees strict before rest stood (behind cursor.position word)
        (behind (cursor.position + before.length) word)) :
    Agrees strict before rest cursor (scanWordWith behind) (scanWordWith behind) := by
  apply agrees_get
  rw [Guid.ahead_embed hrest, Cursor.position_embed]
  refine agrees_ite (fun _ ↦ (Guid.agrees_scan hrest).map) fun _ ↦ ?_
  refine (agrees_readWhile (hrest.bars (by decide))).bind fun word middle _ hsource ↦ ?_
  refine (agrees_nextIs (hrest.bars (by decide))).bind fun colon stood hnext hstood ↦ ?_
  refine agrees_ite (fun hcolon ↦ ?_) fun _ ↦ ?_
  · have hplace : 1 ≤ stood.ahead.length := by
      cases hnext
      exact Cursor.one_le_of_any_peek hcolon
    exact (hbehind word stood hplace (hstood.trans hsource)).map
  · apply agrees_get
    rw [parenFollows_embed hrest]
    refine agrees_ite (fun _ ↦ ?_) fun _ ↦ agrees_pure _
    split
    · exact agrees_pure _
    · exact agrees_pure _

/-- A word is recognised the same with another reader behind prefixes, if that one reads the value
that has been read there. -/
theorem scanWordWith_mono
    (hbehind : ∀ mark word stood value, lexeme = .literal value →
      behind mark word stood = .ok value next → other mark word stood = .ok value next)
    (h : scanWordWith behind cursor = .ok lexeme next) :
    scanWordWith other cursor = .ok lexeme next := by
  rw [scanWordWith, bind_ok (get_eq cursor)] at h ⊢
  split at h
  · next hguid => rwa [if_pos hguid]
  · next hguid =>
    rw [if_neg hguid]
    obtain ⟨word, middle, hword, h⟩ := bind_eq_ok.mp h
    obtain ⟨colon, stood, hcolon, h⟩ := bind_eq_ok.mp h
    rw [bind_ok hword, bind_ok hcolon]
    cases colon with
    | false => exact h
    | true =>
      rw [if_pos rfl] at h ⊢
      obtain ⟨value, last, hvalue, hlexeme⟩ := bind_eq_ok.mp h
      cases hlexeme
      exact map_ok (hbehind _ _ _ value rfl hvalue)

end With

/-! ### Lexemes -/

/-- The characters that are symbols or begin one, a slash aside. -/
def symbols : List Char := '(' :: stoppers

/-- Whatever the scanner reads has the property. -/
def Gives {α : Type} (P : α → Prop) (scanner : Scan α) : Prop :=
  ∀ cursor a next, scanner cursor = .ok a next → P a

section Gives

variable {α β : Type} {P : β → Prop} {scanner : Scan α} {yes no : Scan β}

theorem Gives.bind {Q : α → Prop} {next : α → Scan β} (h : Gives Q scanner)
    (hnext : ∀ a, Q a → Gives P (next a)) : Gives P (scanner >>= next) := by
  intro cursor b last hok
  obtain ⟨a, middle, ha, hb⟩ := bind_eq_ok.mp hok
  exact hnext a (h cursor a middle ha) middle b last hb

theorem gives_bind {next : α → Scan β} (h : ∀ a, Gives P (next a)) :
    Gives P (scanner >>= next) :=
  Gives.bind (Q := fun _ ↦ True) (fun _ _ _ _ ↦ trivial) fun a _ ↦ h a

theorem gives_pure {b : β} (h : P b) : Gives P (pure b) := by
  intro cursor a last hok
  cases hok
  exact h

theorem gives_throw (fault : LexicalFault) : Gives P (throw fault) := fun _ _ _ h ↦ nomatch h

theorem gives_failFrom (mark : Nat) (fault : String → LexicalFault) :
    Gives P (failFrom mark fault) :=
  gives_bind fun _ ↦ gives_throw _

theorem gives_ite {p : Prop} [Decidable p] (hyes : Gives P yes) (hno : Gives P no) :
    Gives P (if p then yes else no) := by
  split
  · exact hyes
  · exact hno

end Gives

def IsComparison (lexeme : Lexeme) : Prop :=
  ∃ op, lexeme = .plain (.comparison op)

theorem gives_scanEquals : Gives IsComparison scanEquals := by
  have hequals (mark : Nat) : Gives IsComparison do
      Scan.moveTo mark
      return plain (.comparison .eq) := gives_bind fun _ ↦ gives_pure ⟨.eq, rfl⟩
  refine gives_bind fun _ ↦ gives_bind fun mark ↦ gives_bind fun word ↦ ?_
  split
  · exact gives_bind fun _ ↦ gives_ite (gives_pure ⟨_, rfl⟩) (hequals mark)
  · exact hequals mark

/-- A comparison sign of its own is read without regard to anything but the next character. -/
theorem scan_of_comparison? {op : Comparison} {length : Nat} (hc : c ∈ ['!', '<', '>'])
    (h : comparison? c (cursor.peekAt 1) = some (op, length)) :
    scan localOffset last c cursor = scanPlain (.comparison op) length cursor := by
  simp only [List.mem_cons, List.not_mem_nil, or_false] at hc
  rcases hc with rfl | rfl | rfl
  all_goals
    rw [scan, bind_ok (get_eq cursor)]
    dsimp only [single?]
    rw [if_neg (by decide), h]
    rfl

theorem single?_eq_none (hc : c ∉ symbols) : single? c = none := by
  unfold single?
  split <;> simp_all [symbols, stoppers]

theorem comparison?_eq_none (hc : c ∉ symbols) (second : Option Char) :
    comparison? c second = none := by
  unfold comparison?
  split <;> simp_all [symbols, stoppers]

theorem beginsDigits_embed (hrest : FollowsWord rest) (hplace : 1 ≤ cursor.ahead.length) :
    beginsDigits c ((cursor.embed before rest).peekAt 1) = beginsDigits c (cursor.peekAt 1) := by
  rw [beginsDigits, Cursor.any_peekAt_embed (hrest.bars (by decide)) hplace,
    Cursor.any_peekAt_embed (hrest.bars (by decide)) hplace, beginsDigits]

/-- Recognises what begins with `c` when that is neither a symbol nor a slash. -/
def scanItem (localOffset : UtcOffset) (c : Char) : Scan Lexeme := do
  let second := (← get).peekAt 1
  if c == '"' then return .literal (.string (String.ofList (← Quoted.scan '"')))
  else if c == '\'' then return .literal (.char (← Quoted.scanChar))
  else if beginsDigits c second then scanDigits localOffset
  else if let some order := orderOfSign? c then scanPlain (.direction order) 1
  else if c == ':' then throw .loneColon
  else scanWord localOffset

/-- What has been read before matters for a slash only. -/
theorem scan_eq_scanItem (hc : c ∉ symbols) (hslash : c ≠ '/') (localOffset : UtcOffset)
    (last : Option Symbol) : scan localOffset last c = scanItem localOffset c := by
  have hother {symbol : Char} (hsymbol : symbol ∈ symbols) : ¬(c == symbol) = true := by
    rw [beq_iff_eq]
    rintro rfl
    exact hc hsymbol
  have hslash : ¬(c == '/') = true := by rwa [beq_iff_eq]
  funext cursor
  rw [scan, bind_ok (get_eq cursor), single?_eq_none hc]
  dsimp only
  rw [if_neg (hother (by decide)), comparison?_eq_none hc]
  dsimp only
  rw [if_neg (hother (by decide)), if_neg hslash]
  rfl

/-- Recognises what begins with `c`, and goes on with `second`, when that is neither a symbol nor a
slash nor a quote. -/
def scanUnquoted (localOffset : UtcOffset) (behind : Nat → List Char → Scan Value) (c : Char)
    (second : Option Char) : Scan Lexeme :=
  if beginsDigits c second then scanDigits localOffset
  else if let some order := orderOfSign? c then scanPlain (.direction order) 1
  else if c == ':' then throw .loneColon
  else scanWordWith behind

theorem agrees_scanUnquoted {behind : Nat → List Char → Scan Value} (hrest : FollowsWord rest)
    (hplace : 1 ≤ cursor.ahead.length)
    (hbehind : ∀ word (stood : Cursor), 1 ≤ stood.ahead.length →
      stood.source = cursor.source →
      Agrees strict before rest stood (behind cursor.position word)
        (behind (cursor.position + before.length) word)) :
    Agrees strict before rest cursor (scanUnquoted localOffset behind c (cursor.peekAt 1))
      (scanUnquoted localOffset behind c ((cursor.embed before rest).peekAt 1)) := by
  unfold scanUnquoted
  rw [beginsDigits_embed hrest hplace]
  refine agrees_ite (fun _ ↦ agrees_scanDigits hrest localOffset) fun hdigits ↦ ?_
  cases orderOfSign? c with
  | some order => exact (agrees_skip hplace).bind fun _ _ _ _ ↦ agrees_pure _
  | none => exact agrees_ite (fun _ ↦ agrees_throw _ _) fun _ ↦ agrees_scanWordWith hrest hbehind

/-- Behind a prefix there may be quotes. -/
theorem agrees_scanValue (hrest : FollowsValue rest)
    (hquotes : strict → KeepsQuotes cursor.source rest) (hplace : 1 ≤ cursor.ahead.length) :
    Agrees strict before rest cursor
      (scanUnquoted localOffset (Literal.scanAfterWord localOffset) c (cursor.peekAt 1))
      (scanUnquoted localOffset (Literal.scanAfterWord localOffset) c
        ((cursor.embed before rest).peekAt 1)) := by
  refine agrees_scanUnquoted hrest.stops hplace fun word stood hstood hsource ↦ ?_
  have hmark : cursor.position ≤ stood.source.length := hsource ▸ cursor.position_le
  exact Literal.agrees_scanAfterWord hrest (hsource ▸ hquotes) localOffset word hstood hmark

/-- In front of what may follow a value every item is local. -/
theorem agrees_scanItem (hrest : FollowsValue rest) (hquotes : strict → NoQuotes rest)
    (hplace : 1 ≤ cursor.ahead.length) :
    Agrees strict before rest cursor (scanItem localOffset c) (scanItem localOffset c) := by
  apply agrees_get
  refine agrees_ite (fun _ ↦ (Quoted.agrees_scan fun h ↦ (hquotes h).1).map) fun _ ↦ ?_
  refine agrees_ite (fun _ ↦ (Quoted.agrees_scanChar fun h ↦ (hquotes h).2).map) fun _ ↦ ?_
  exact agrees_scanValue hrest (fun h ↦ keepsQuotes_of_rest (hquotes h)) hplace

/-- If the lexeme has a value, that is a whole number. -/
def IsName (lexeme : Lexeme) : Prop :=
  ∀ value, lexeme = .literal value → ∃ n, value = .integer n

theorem isName_of_symbol (h : lexeme.symbol ≠ .literal) : IsName lexeme := by
  rintro value rfl
  exact absurd rfl h

/-- A reader of numbers, whatever the place of their prefix. -/
abbrev scanNumbers : Nat → List Char → Scan Value :=
  fun _ word ↦ Literal.scanNumberAfter word

/-- For a name only numbers matter behind a prefix. -/
theorem scanUnquoted_name_iff (hname : IsName lexeme) (second : Option Char) :
    scanUnquoted localOffset (Literal.scanAfterWord localOffset) c second cursor =
        .ok lexeme next ↔
      scanUnquoted localOffset scanNumbers c second cursor = .ok lexeme next := by
  unfold scanUnquoted
  split
  · exact Iff.rfl
  · cases orderOfSign? c with
    | some order => exact Iff.rfl
    | none =>
      dsimp only
      split
      · exact Iff.rfl
      · refine ⟨scanWordWith_mono ?_, scanWordWith_mono ?_⟩
        · intro mark word stood value hlexeme hvalue
          obtain ⟨n, rfl⟩ := hname value hlexeme
          exact Literal.scanNumberAfter_of_scanAfterWord hvalue
        · intro mark word stood value _ hvalue
          exact Literal.scanAfterWord_of_scanNumberAfter hvalue

theorem scanItem_eq_scanUnquoted (hdouble : c ≠ '"') (hsingle : c ≠ '\'') :
    scanItem localOffset c cursor =
      scanUnquoted localOffset (Literal.scanAfterWord localOffset) c (cursor.peekAt 1) cursor := by
  rw [scanItem, bind_ok (get_eq cursor), if_neg (by simpa using hdouble),
    if_neg (by simpa using hsingle)]
  rfl

theorem eq_literal_of_scan {α : Type} {scanner : Scan α} {f : α → Value}
    (h : (do return literal (f (← scanner)) : Scan Lexeme) cursor = .ok lexeme next) :
    ∃ a, lexeme = .literal (f a) := by
  obtain ⟨a, _, _, hlexeme⟩ := bind_eq_ok.mp h
  exact ⟨a, (pure_eq_ok.mp hlexeme).1.symm⟩

/-- A name begins with no quote. -/
theorem ne_quote_of_scanItem (hname : IsName lexeme)
    (h : scanItem localOffset c cursor = .ok lexeme next) : c ≠ '"' ∧ c ≠ '\'' := by
  rw [scanItem, bind_ok (get_eq cursor)] at h
  constructor
  · rintro rfl
    obtain ⟨text, hlexeme⟩ := eq_literal_of_scan h
    obtain ⟨_, hvalue⟩ := hname _ hlexeme
    cases hvalue
  · rintro rfl
    obtain ⟨character, hlexeme⟩ := eq_literal_of_scan h
    obtain ⟨_, hvalue⟩ := hname _ hlexeme
    cases hvalue

/-- A name is read by a scanner that is local wherever a word is. -/
theorem scanItem_name_iff (hname : IsName lexeme) :
    scanItem localOffset c cursor = .ok lexeme next ↔
      (c ≠ '"' ∧ c ≠ '\'') ∧
        scanUnquoted localOffset scanNumbers c (cursor.peekAt 1) cursor = .ok lexeme next := by
  constructor
  · intro h
    have hquotes := ne_quote_of_scanItem hname h
    rw [scanItem_eq_scanUnquoted hquotes.1 hquotes.2, scanUnquoted_name_iff hname] at h
    exact ⟨hquotes, h⟩
  · rintro ⟨hquotes, h⟩
    rw [scanItem_eq_scanUnquoted hquotes.1 hquotes.2, scanUnquoted_name_iff hname]
    exact h

theorem agrees_scanName (hrest : FollowsWord rest) (hplace : 1 ≤ cursor.ahead.length) :
    Agrees strict before rest cursor (scanUnquoted localOffset scanNumbers c (cursor.peekAt 1))
      (scanUnquoted localOffset scanNumbers c ((cursor.embed before rest).peekAt 1)) :=
  agrees_scanUnquoted hrest hplace fun word _ hstood _ ↦
    Literal.agrees_scanNumberAfter hrest word hstood

theorem scanItem_embed (before : List Char) (hrest : FollowsWord rest)
    (hplace : 1 ≤ cursor.ahead.length) (h : scanItem localOffset c cursor = .ok lexeme next)
    (hvalue : lexeme.symbol = .literal → FollowsValue rest) :
    next.source = cursor.source ∧
      scanItem localOffset c (cursor.embed before rest) = .ok lexeme (next.embed before rest) := by
  by_cases hsymbol : lexeme.symbol = .literal
  · have hagrees : Agrees False before rest cursor (scanItem localOffset c)
        (scanItem localOffset c) := agrees_scanItem (hvalue hsymbol) nofun hplace
    exact hagrees.embed lexeme next h
  · have hname := isName_of_symbol hsymbol
    obtain ⟨hquotes, hscan⟩ := (scanItem_name_iff hname).mp h
    have hagrees : Agrees False before rest cursor
        (scanUnquoted localOffset scanNumbers c (cursor.peekAt 1)) _ :=
      agrees_scanName hrest hplace
    obtain ⟨hsource, hembed⟩ := hagrees.embed lexeme next hscan
    exact ⟨hsource, (scanItem_name_iff hname).mpr ⟨hquotes, hembed⟩⟩

theorem scan_embed (before : List Char) (hrest : FollowsWord rest) (hc : c ∉ symbols)
    (hslash : c ≠ '/') (hplace : 1 ≤ cursor.ahead.length)
    (h : scan localOffset last c cursor = .ok lexeme next)
    (hvalue : lexeme.symbol = .literal → FollowsValue rest) (last' : Option Symbol) :
    next.source = cursor.source ∧ scan localOffset last' c (cursor.embed before rest) =
      .ok lexeme (next.embed before rest) := by
  rw [scan_eq_scanItem hc hslash] at h ⊢
  exact scanItem_embed before hrest hplace h hvalue

theorem scan_slash (localOffset : UtcOffset) (last : Option Symbol) (cursor : Cursor) :
    scan localOffset last '/' cursor =
      (if continuesPath last cursor.previous then scanPlain .slash 1
        else return .literal (.uri (← Literal.scanUri)) : Scan Lexeme) cursor := rfl

end ResourceQuery.Lexeme
