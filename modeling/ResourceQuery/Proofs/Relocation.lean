import ResourceQuery.Proofs.Tiling

/-!
# Tokens of a piece of text

A piece of a longer text is cut into the same tokens wherever it stands, as long as they are tokens
of a name or of a value and the piece is followed by what may follow these. The pieces of one query
can so be put together to another one. What is read in the longer text is first read in the piece
alone, and from there in the other text; the other direction of locality matters here, as no piece
is known to be read by itself.
-/

namespace ResourceQuery

open Run Scan

/-! ### Lexemes -/

namespace Lexeme

variable {before rest before' rest' passed body : List Char} {cursor : Cursor} {c : Char}
  {localOffset : UtcOffset} {last last' : Option Symbol} {kind : Lexeme → Prop}
  {scanner other : Scan Lexeme}

/-- A lexeme of this kind that is read in one text is also read in the other one. -/
def Moves (kind : Lexeme → Prop) (before rest before' rest' : List Char) (cursor : Cursor)
    (scanner other : Scan Lexeme) : Prop :=
  ∀ lexeme next, kind lexeme → scanner (cursor.embed before rest) = .ok lexeme next →
    ∃ inner : Cursor, inner.source = cursor.source ∧ next = inner.embed before rest ∧
      other (cursor.embed before' rest') = .ok lexeme (inner.embed before' rest')

/-- The piece alone is on the way from one text to the other. -/
theorem moves_of_agrees {alone : Scan Lexeme}
    (h : Agrees True before rest cursor alone scanner)
    (h' : Agrees False before' rest' cursor alone other) :
    Moves kind before rest before' rest' cursor scanner other := by
  intro lexeme next _ hscan
  obtain ⟨inner, halone, hsource, rfl⟩ := h.of_embed trivial hscan
  exact ⟨inner, hsource, rfl, (h'.embed lexeme inner halone).2⟩

theorem moves_scanPlain (symbol : Symbol) (hplace : 1 ≤ cursor.ahead.length) :
    Moves kind before rest before' rest' cursor (scanPlain symbol 1) (scanPlain symbol 1) :=
  moves_of_agrees ((agrees_skip hplace).bind fun _ _ _ _ ↦ agrees_pure _)
    ((agrees_skip hplace).bind fun _ _ _ _ ↦ agrees_pure _)

/-- A slash is one in both texts if a path goes on in both. -/
theorem moves_slash
    (hpath : continuesPath last (cursor.embed before rest).previous =
      continuesPath last' (cursor.embed before' rest').previous)
    (hplace : 1 ≤ cursor.ahead.length)
    (huri : Moves kind before rest before' rest' cursor
      (do return literal (.uri (← Literal.scanUri)))
      (do return literal (.uri (← Literal.scanUri)))) :
    Moves kind before rest before' rest' cursor (scan localOffset last '/')
      (scan localOffset last' '/') := by
  intro lexeme next hkind hscan
  rw [scan_slash, hpath] at hscan
  rw [scan_slash]
  split at hscan
  · next hslash =>
    rw [if_pos hslash]
    exact moves_scanPlain .slash hplace lexeme next hkind hscan
  · next hslash =>
    rw [if_neg hslash]
    exact huri lexeme next hkind hscan

theorem moves_nameItem (hrest : FollowsWord rest) (hrest' : FollowsWord rest')
    (hplace : 1 ≤ cursor.ahead.length) (hc : c ∉ symbols) (hslash : c ≠ '/') :
    Moves IsName before rest before' rest' cursor (scan localOffset last c)
      (scan localOffset last' c) := by
  intro lexeme next hname hscan
  rw [scan_eq_scanItem hc hslash] at hscan ⊢
  obtain ⟨hquotes, hscan⟩ := (scanItem_name_iff hname).mp hscan
  obtain ⟨inner, hsource, hinner, hother⟩ :=
    moves_of_agrees (agrees_scanName hrest hplace) (agrees_scanName hrest' hplace) lexeme next
      hname hscan
  exact ⟨inner, hsource, hinner, (scanItem_name_iff hname).mpr ⟨hquotes, hother⟩⟩

/-- What a name is made of: no comparison, and no value but a whole number. -/
def InName (lexeme : Lexeme) : Prop :=
  IsName lexeme ∧ ∀ op, lexeme.symbol ≠ .comparison op

theorem moves_name (hrest : FollowsWord rest) (hrest' : FollowsWord rest')
    (hplace : 1 ≤ cursor.ahead.length)
    (hpath : continuesPath last (cursor.embed before rest).previous =
      continuesPath last' (cursor.embed before' rest').previous) :
    Moves InName before rest before' rest' cursor (scan localOffset last c)
      (scan localOffset last' c) := by
  intro lexeme next hkind hscan
  by_cases hc : c ∈ symbols
  · obtain ⟨symbol, hsymbol, rfl⟩ | ⟨op, rfl⟩ := single_or_comparison hc hscan
    · have hsingle (last : Option Symbol) (cursor : Cursor) :
          scan localOffset last c cursor = scanPlain symbol 1 cursor := by
        rw [scan, bind_ok (get_eq cursor), hsymbol]
      rw [hsingle] at hscan ⊢
      exact moves_scanPlain symbol hplace _ next hkind hscan
    · exact absurd rfl (hkind.2 op)
  by_cases hslash : c = '/'
  · subst hslash
    refine moves_slash hpath hplace ?_ lexeme next hkind hscan
    intro lexeme next hkind huri
    obtain ⟨text, rfl⟩ := eq_literal_of_scan huri
    obtain ⟨_, hvalue⟩ := hkind.1 _ rfl
    cases hvalue
  exact moves_nameItem hrest hrest' hplace hc hslash lexeme next hkind.1 hscan

/-- What a bare or a literal value is made of. -/
def InValue (lexeme : Lexeme) : Prop :=
  lexeme.symbol ∈ [.slash, .property, .literal] ∨ ∃ order, lexeme.symbol = .direction order

theorem moves_value (hrest : FollowsValue rest) (hquotes : NoQuotes rest)
    (hrest' : FollowsValue rest') (hplace : 1 ≤ cursor.ahead.length)
    (hpath : continuesPath last (cursor.embed before rest).previous =
      continuesPath last' (cursor.embed before' rest').previous) :
    Moves InValue before rest before' rest' cursor (scan localOffset last c)
      (scan localOffset last' c) := by
  intro lexeme next hkind hscan
  by_cases hc : c ∈ symbols
  · obtain ⟨hother, hdirection⟩ := symbol_of_mem_symbols hc hscan
    obtain hmem | ⟨order, horder⟩ := hkind
    · have hwider := List.mem_append_left [.stop] hmem
      exact absurd hwider hother
    · exact absurd horder (hdirection order)
  by_cases hslash : c = '/'
  · subst hslash
    refine moves_slash hpath hplace ?_ lexeme next hkind hscan
    exact moves_of_agrees ((Literal.agrees_scanUri hrest).bind fun _ _ _ _ ↦ agrees_pure _)
      ((Literal.agrees_scanUri hrest').bind fun _ _ _ _ ↦ agrees_pure _)
  rw [scan_eq_scanItem hc hslash] at hscan ⊢
  exact moves_of_agrees (agrees_scanItem hrest (fun _ ↦ hquotes) hplace)
    (agrees_scanItem hrest' nofun hplace) lexeme next hkind hscan

end Lexeme

namespace Lexer

/-! ### All tokens of a text -/

section Halts

variable {lexer : Lexer} {tokens : List Token} {calls : Nat}
  {outcome : Except QueryError (List Token)}

theorem Yields.outcome_eq (h : Yields lexer tokens) (hhalts : lexer.Halts calls outcome) :
    outcome = .ok tokens := by
  induction h generalizing calls outcome with
  | stop hnext hstop =>
    cases hhalts with
    | stop hother =>
      rw [hnext] at hother
      cases hother
      rfl
    | fault hother =>
      rw [hnext] at hother
      cases hother
    | more hother hsymbol =>
      rw [hnext] at hother
      cases hother
      exact absurd hstop hsymbol
  | more hnext hsymbol _ ih =>
    cases hhalts with
    | stop hother hstop =>
      rw [hnext] at hother
      cases hother
      exact absurd hstop hsymbol
    | fault hother =>
      rw [hnext] at hother
      cases hother
    | more hother _ hrest =>
      rw [hnext] at hother
      cases hother
      rw [ih hrest]
      rfl

theorem yields_of_halts (h : lexer.Halts calls outcome) (houtcome : outcome = .ok tokens) :
    Yields lexer tokens := by
  induction h generalizing tokens with
  | stop hnext hstop =>
    cases houtcome
    exact .stop hnext hstop
  | fault => cases houtcome
  | @more _ _ _ _ inner hnext hsymbol _ ih =>
    cases inner with
    | error error => cases houtcome
    | ok more =>
      cases houtcome
      exact .more hnext hsymbol (ih rfl)

/-- The limit on the number of tokens is never reached. -/
theorem scan_eq_ok_iff {text : List Char} {localOffset : UtcOffset} :
    scan text localOffset = .ok ⟨tokens⟩ ↔ Yields (start text localOffset) tokens := by
  obtain ⟨calls, -, hhalts⟩ :=
    halts_drain (isReady_start text localOffset) (Nat.le_refl text.length)
  rw [scan]
  constructor
  · intro h
    cases hdrain : drain text.length (start text localOffset) with
    | error error =>
      rw [hdrain] at h
      cases h
    | ok found =>
      rw [hdrain] at h
      cases h
      exact yields_of_halts hhalts hdrain
  · intro h
    rw [h.outcome_eq hhalts]
    rfl

end Halts

/-! ### One token -/

variable {before rest before' rest' passed ahead blanks : List Char} {localOffset : UtcOffset}
  {last last' : Option Symbol} {split : Bool} {kind : Lexeme → Prop} {token mark : Token}
  {tokens more : List Token} {lexer : Lexer}

/-- Lexemes of this kind are read in one text as in the other wherever a path goes on in both or in
none. -/
def Movable (localOffset : UtcOffset) (kind : Lexeme → Prop)
    (before rest before' rest' : List Char) : Prop :=
  ∀ cursor last last' c, 1 ≤ cursor.ahead.length →
    Lexeme.continuesPath last (cursor.embed before rest).previous =
      Lexeme.continuesPath last' (cursor.embed before' rest').previous →
    Lexeme.Moves kind before rest before' rest' cursor (Lexeme.scan localOffset last c)
      (Lexeme.scan localOffset last' c)

/-- Behind a blank no path goes on. -/
theorem continuesPath_blanks (hblanks : ∀ b ∈ blanks, Text.isBlank b = true)
    {passed passed' : List Char}
    (hpath : Lexeme.continuesPath last passed.head? = Lexeme.continuesPath last' passed'.head?) :
    Lexeme.continuesPath last (blanks.reverse ++ passed).head? =
      Lexeme.continuesPath last' (blanks.reverse ++ passed').head? := by
  cases hreverse : blanks.reverse with
  | nil => exact hpath
  | cons b more =>
    have hblank : Text.isBlank b = true :=
      hblanks b (List.mem_reverse.mp (hreverse ▸ List.mem_cons_self))
    simp [Lexeme.continuesPath, isWordChar, isTerminator, hblank]

theorem moves_scanLexeme (hmovable : Movable localOffset kind before rest before' rest')
    (hrest : FollowsWord rest) (hrest' : FollowsWord rest') {cursor : Cursor}
    (hplace : 1 ≤ cursor.ahead.length)
    (hpath : Lexeme.continuesPath last (cursor.embed before rest).previous =
      Lexeme.continuesPath last' (cursor.embed before' rest').previous) (c : Char)
    (stood stood' : Cursor) :
    Lexeme.Moves kind before rest before' rest' cursor
      (scanLexeme ⟨stood, localOffset, last, split⟩ c)
      (scanLexeme ⟨stood', localOffset, last', split⟩ c) := by
  cases split with
  | true =>
    exact Lexeme.moves_of_agrees
      ((Scan.agrees_readWhile (hrest.bars (by decide))).bind fun _ _ _ _ ↦ Scan.agrees_pure _)
      ((Scan.agrees_readWhile (hrest'.bars (by decide))).bind fun _ _ _ _ ↦ Scan.agrees_pure _)
  | false => exact hmovable cursor last last' c hplace hpath

end Lexer

namespace Token

/-- The same token where the text before has another length. -/
def moved (before before' : List Char) (token : Token) : Token :=
  { token with position := token.position - before.length + before'.length }

/-- The lexeme that the token is cut out for is of this kind. -/
def Within (kind : Lexeme → Prop) (token : Token) : Prop :=
  ∀ lexeme text position, token = Lexeme.token lexeme text position → kind lexeme

end Token

namespace Lexer

variable {before rest before' rest' passed ahead blanks : List Char} {localOffset : UtcOffset}
  {last last' : Option Symbol} {split : Bool} {kind : Lexeme → Prop} {token mark : Token}
  {tokens more : List Token} {lexer : Lexer}

/-- What begins within a piece goes on within it. -/
theorem exists_within {c : Char} {body : List Char} (h : ahead ++ rest = blanks ++ c :: body)
    (hplace : blanks.length < ahead.length) :
    ∃ inner, ahead = blanks ++ c :: inner ∧ body = inner ++ rest := by
  obtain ⟨more, rfl, -⟩ | ⟨more, rfl, hmore⟩ := List.append_eq_append_iff.mp h
  · rw [List.length_append] at hplace
    omega
  · cases more with
    | nil => simp at hplace
    | cons d inner =>
      obtain ⟨rfl, rfl⟩ : c = d ∧ body = inner ++ rest := by simpa using hmore
      exact ⟨inner, rfl, rfl⟩

/-- A token that begins within the piece is read in the other text as well, and ends at the same
place of the piece. -/
theorem next_moves (hmovable : Movable localOffset kind before rest before' rest')
    (hrest : FollowsWord rest) (hrest' : FollowsWord rest')
    (hpath : Lexeme.continuesPath last (passed ++ before).head? =
      Lexeme.continuesPath last' (passed ++ before').head?)
    (hready : IsReady ⟨⟨passed ++ before, ahead ++ rest⟩, localOffset, last, split⟩)
    (hnext : next ⟨⟨passed ++ before, ahead ++ rest⟩, localOffset, last, split⟩ =
      (.ok token, lexer))
    (hsymbol : token.symbol ≠ .stop)
    (hplace : token.position < before.length + (passed.length + ahead.length))
    (hkind : token.Within kind) :
    ∃ (stood : Cursor) (symbol : Symbol) (split₁ : Bool), stood.passed ≠ [] ∧
      stood.source = (⟨passed, ahead⟩ : Cursor).source ∧
      lexer = ⟨stood.embed before rest, localOffset, some symbol, split₁⟩ ∧
      next ⟨⟨passed ++ before', ahead ++ rest'⟩, localOffset, last', split⟩ =
        (.ok (token.moved before before'),
          ⟨stood.embed before' rest', localOffset, some symbol, split₁⟩) := by
  obtain ⟨rfl, -⟩ | ⟨skipped, run, htakes⟩ := next_eq_stop_or_takes hready hnext
  · exact absurd rfl hsymbol
  obtain ⟨-, hstop⟩ | ⟨blanks, c, body, lexeme, cursor, hahead, hblanks, hblank, hscan, htoken,
    rfl⟩ := next_eq_ok hnext
  · exact absurd hstop hsymbol
  have hmark : (blanks.reverse ++ (passed ++ before)).length =
      (blanks.length + passed.length) + before.length := by simp [Nat.add_assoc]
  have hmark' : (blanks.reverse ++ (passed ++ before')).length =
      (blanks.length + passed.length) + before'.length := by simp [Nat.add_assoc]
  -- The token begins within the piece.
  have hwithin : blanks.length < ahead.length := by
    rw [htoken, Lexeme.token, hmark] at hplace
    dsimp only at hplace
    omega
  obtain ⟨inner, rfl, rfl⟩ := exists_within hahead hwithin
  have hplaced : 1 ≤ (⟨blanks.reverse ++ passed, c :: inner⟩ : Cursor).ahead.length := by simp
  have hpaths := continuesPath_blanks hblanks hpath
  rw [← List.append_assoc, ← List.append_assoc] at hpaths
  have hlexeme : kind lexeme := hkind lexeme _ _ htoken
  rw [← List.append_assoc] at hscan
  obtain ⟨stood, hsource, rfl, hother⟩ := moves_scanLexeme hmovable hrest hrest' hplaced hpaths c _
    ⟨blanks.reverse ++ (passed ++ before'), c :: (inner ++ rest')⟩ lexeme cursor hlexeme hscan
  refine ⟨stood, lexeme.symbol, lexeme.isSplitSign, ?_, ?_, rfl, ?_⟩
  · intro hnil
    have hpassed := congrArg List.length htakes.between.passed
    have hrun := List.length_pos_iff.mpr htakes.ne_nil
    simp [Cursor.embed, hnil] at hpassed
    omega
  · rw [hsource]
    simp [Cursor.source]
  · have hother' : scanLexeme
        ⟨⟨blanks.reverse ++ (passed ++ before'), c :: (inner ++ rest')⟩, localOffset, last', split⟩
        c ⟨blanks.reverse ++ (passed ++ before'), c :: (inner ++ rest')⟩ =
        .ok lexeme (stood.embed before' rest') := by
      rw [← List.append_assoc]
      exact hother
    rw [List.append_assoc, List.cons_append, next_skipBlanks hblanks,
      next_of_scanLexeme hblank hother', htoken, hmark, hmark', Cursor.textFrom_embed,
      Cursor.textFrom_embed]
    simp [Token.moved, Lexeme.token]

/-! ### The tokens of a piece -/

/-- If the next token begins behind a piece, the piece has only blanks left, and no sign has been
split off at its end. -/
theorem blanks_of_next (hrest : FollowsWord rest)
    (hready : IsReady ⟨⟨passed ++ before, ahead ++ rest⟩, localOffset, last, split⟩)
    (hnext : next ⟨⟨passed ++ before, ahead ++ rest⟩, localOffset, last, split⟩ =
      (.ok mark, lexer))
    (hmark : mark.position = before.length + (passed.length + ahead.length)) :
    (∀ b ∈ ahead, Text.isBlank b = true) ∧ split = false := by
  have hblanks : ∀ b ∈ ahead, Text.isBlank b = true := by
    obtain ⟨hall, -⟩ | ⟨blanks, c, body, lexeme, cursor, hahead, hblanks, -, -, htoken, -⟩ :=
      next_eq_ok hnext
    · exact fun b hb ↦ hall b (List.mem_append_left _ hb)
    · have hlength : ahead.length = blanks.length := by
        rw [htoken, Lexeme.token] at hmark
        simp only [List.length_append, List.length_reverse] at hmark
        omega
      obtain ⟨rfl, -⟩ := List.append_inj hahead hlength
      exact hblanks
  refine ⟨hblanks, ?_⟩
  rw [← Bool.not_eq_true]
  intro hsplit
  obtain ⟨c, tail, htail, hkept, hword⟩ := hready.exists_ahead hsplit
  dsimp only at htail
  cases ahead with
  | nil =>
    have hstopper : ∀ c ∈ stoppers, isWordChar c = false := forall_mem_of_all (by decide)
    rw [List.nil_append] at htail
    rw [hstopper c (hrest c (by rw [htail]; rfl))] at hword
    cases hword
  | cons b ahead =>
    obtain ⟨rfl, -⟩ : b = c ∧ _ := by simpa using htail
    rw [hblanks b List.mem_cons_self] at hkept
    cases hkept

/-- The tokens of a piece are read in the other text as well, by induction on the tokens; and in
both texts reading goes on behind the piece. -/
theorem Yields.moves (hmovable : Movable localOffset kind before rest before' rest')
    (hrest : FollowsWord rest) (hrest' : FollowsWord rest')
    (h : Yields ⟨⟨passed ++ before, ahead ++ rest⟩, localOffset, last, split⟩
      (tokens ++ mark :: more))
    (hready : IsReady ⟨⟨passed ++ before, ahead ++ rest⟩, localOffset, last, split⟩)
    (hpath : Lexeme.continuesPath last (passed ++ before).head? =
      Lexeme.continuesPath last' (passed ++ before').head?)
    (hmark : mark.position = before.length + (passed.length + ahead.length))
    (hbefore : ∀ token ∈ tokens, token.position < mark.position)
    (hkind : ∀ token ∈ tokens, token.Within kind) :
    (∃ last₁, Yields ⟨⟨ahead.reverse ++ passed ++ before, rest⟩, localOffset, last₁, false⟩
      (mark :: more)) ∧
      ∀ others, (∀ last₁, Yields
          ⟨⟨ahead.reverse ++ passed ++ before', rest'⟩, localOffset, last₁, false⟩ others) →
        Yields ⟨⟨passed ++ before', ahead ++ rest'⟩, localOffset, last', split⟩
          (tokens.map (Token.moved before before') ++ others) := by
  induction tokens generalizing passed ahead last last' split with
  | nil =>
    obtain ⟨lexer, hnext⟩ := h.next_eq
    obtain ⟨hblanks, rfl⟩ := blanks_of_next hrest hready hnext hmark
    rw [List.append_assoc]
    refine ⟨⟨last, h.of_next_eq (next_skipBlanks hblanks).symm⟩, fun others hothers ↦ ?_⟩
    have hbehind := hothers last'
    rw [List.append_assoc] at hbehind
    exact hbehind.skipBlanks hblanks
  | cons token tokens ih =>
    have hmember : mark ∈ tokens ++ mark :: more := by simp
    obtain ⟨lexer, hnext, hsymbol, hyields⟩ := h.tail hmember
    have hplace : token.position < before.length + (passed.length + ahead.length) :=
      hmark ▸ hbefore token List.mem_cons_self
    obtain ⟨stood, symbol, split₁, hne, hsource, rfl, hother⟩ := next_moves hmovable hrest hrest'
      hpath hready hnext hsymbol hplace (hkind token List.mem_cons_self)
    have hsame (text : List Char) : (stood.passed ++ text).head? = stood.passed.head? :=
      List.head?_append_of_ne_nil _ hne
    have hready' := isReady_next hready
    rw [hnext] at hready'
    have hreversed : stood.ahead.reverse ++ stood.passed = ahead.reverse ++ passed := by
      simpa [Cursor.source] using congrArg List.reverse hsource
    have hlength := congrArg List.length hreversed
    simp only [List.length_append, List.length_reverse] at hlength
    obtain ⟨hbehind, hmoved⟩ := ih hyields hready' (by rw [hsame, hsame])
      (by rw [hmark]; omega) (fun other hmem ↦ hbefore other (List.mem_cons_of_mem _ hmem))
      (fun other hmem ↦ hkind other (List.mem_cons_of_mem _ hmem))
    rw [hreversed] at hbehind hmoved
    exact ⟨hbehind, fun others hothers ↦ .more hother hsymbol (hmoved others hothers)⟩

end Lexer

end ResourceQuery
