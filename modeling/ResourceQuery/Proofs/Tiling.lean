import Mathlib
import ResourceQuery.Proofs.Progress

/-!
# Tokens tile their text

Reading tokens comes to an end, since each token takes up some text. What has been read then covers
the text: every token is cut out at its place, none overlaps another, and only blanks are left over.
A sign that is split off a word is no exception, as what follows it is a word.
-/

namespace ResourceQuery

open Run Cursor Scan

theorem Cursor.Between.position_eq {cursor next : Cursor} {run : List Char}
    (h : Between run cursor next) : next.position = cursor.position + run.length := by
  simp [position, h.passed, Nat.add_comm]

namespace Lexeme

variable {localOffset : UtcOffset} {last : Option Symbol} {c : Char} {cursor next : Cursor}
  {order : SortOrder}

/-- What follows a sign that has been split off begins like a number. -/
theorem beginsNumber_of_splitSign {passed ahead : List Char}
    (h : scan localOffset last c ⟨passed, c :: ahead⟩ = .ok (.splitSign order) next) :
    next.peek.any beginsNumber = true := by
  cases recognised_of_scan h with
  | symbol hsymbol => cases hsymbol
  | digits hdigits hbegins =>
    cases hdigits with
    | sign _ horder =>
      obtain rfl := eq_sign_of_orderOfSign? horder
      rwa [peekAt_one, beginsDigits_sign] at hbegins
  | word hword => cases hword

end Lexeme

namespace Lexer

variable {lexer rest : Lexer} {token : Token} {tokens : List Token}

/-! ### One token -/

/-- If a sign has just been split off a word, that word begins like a number. -/
def IsReady (lexer : Lexer) : Prop :=
  lexer.afterSplitSign = true → lexer.cursor.peek.any Lexeme.beginsNumber = true

theorem isReady_start (text : List Char) (localOffset : UtcOffset) :
    (start text localOffset).IsReady :=
  nofun

/-- Nothing can be skipped between a sign and the word that it was split off. -/
theorem IsReady.exists_ahead (hready : lexer.IsReady) (hsplit : lexer.afterSplitSign = true) :
    ∃ c ahead, lexer.cursor.ahead = c :: ahead ∧ Text.isBlank c = false ∧ isWordChar c = true := by
  obtain ⟨c, hc, hnumber⟩ := (Option.any_eq_true _ _).mp (hready hsplit)
  obtain ⟨ahead, hahead⟩ := List.head?_eq_some_iff.mp hc
  exact ⟨c, ahead, hahead, Lexeme.not_blank_of_beginsNumber hnumber,
    Lexeme.isWordChar_of_beginsNumber hnumber⟩

theorem advances_scanLexeme {passed ahead : List Char} {c : Char}
    (hblank : Text.isBlank c = false)
    (hword : lexer.afterSplitSign = true → isWordChar c = true) :
    Advances ⟨passed, c :: ahead⟩ (lexer.scanLexeme c) := by
  unfold scanLexeme
  split
  · next hsplit =>
    have hpeek : (⟨passed, c :: ahead⟩ : Cursor).peek.any isWordChar = true := hword hsplit
    exact (advances_readWhile hpeek).bind fun _ ↦ forward_pure _
  · exact Lexeme.advances_scan hblank lexer.last

theorem beginsNumber_of_scanLexeme {passed ahead : List Char} {c : Char} {order : SortOrder}
    {next : Cursor} (h : lexer.scanLexeme c ⟨passed, c :: ahead⟩ = .ok (.splitSign order) next) :
    next.peek.any Lexeme.beginsNumber = true := by
  unfold scanLexeme at h
  split at h
  · cases h
  · exact Lexeme.beginsNumber_of_splitSign h

theorem symbol_ne_stop_of_scanLexeme {c : Char} {cursor next : Cursor} {lexeme : Lexeme}
    (h : lexer.scanLexeme c cursor = .ok lexeme next) : lexeme.symbol ≠ .stop := by
  unfold scanLexeme at h
  split at h
  · cases h
    exact nofun
  · exact Lexeme.symbol_ne_stop h

/-- A token that is not the end takes up a piece of the text behind some blanks. -/
structure Takes (lexer : Lexer) (token : Token) (rest : Lexer) (blanks run : List Char) : Prop where
  blank : ∀ b ∈ blanks, Text.isBlank b = true
  ne_nil : run ≠ []
  between : Between (blanks ++ run) lexer.cursor rest.cursor
  text : token.text.toList = run
  position : token.position = lexer.cursor.position + blanks.length
  symbol : token.symbol ≠ .stop
  isReady : rest.IsReady

/-- Either there is nothing but blanks, and the token is the end, or the token takes up some text.
-/
theorem next_eq_stop_or_takes (hready : lexer.IsReady) (h : lexer.next = (.ok token, rest)) :
    (token = .stop lexer.cursor.source.length ∧ rest.IsReady ∧
        ∀ b ∈ lexer.cursor.ahead, Text.isBlank b = true) ∨
      ∃ blanks run, lexer.Takes token rest blanks run := by
  have hskip : Scan.readWhile Text.isBlank lexer.cursor = .ok _ lexer.afterBlanks := rfl
  obtain ⟨blanks, hblanks, hfound, hall⟩ := spells_readWhile Text.isBlank _ _ hskip
  have hahead : lexer.afterBlanks.ahead = lexer.cursor.ahead.dropWhile Text.isBlank :=
    ahead_readWhile _ _
  rw [← hfound] at hall
  cases isNext_of_next h with
  | @stop passed hplace =>
    rw [hplace] at hblanks
    have hend : lexer.cursor.ahead = blanks := by simpa using hblanks.ahead
    have hlength : passed.length = lexer.cursor.source.length := by
      rw [source, List.length_append, List.length_reverse, hend]
      exact hblanks.position_eq
    refine .inl ⟨congrArg Token.stop hlength, fun hsplit ↦ ?_, hend ▸ hall⟩
    -- No word is left that a sign could have been split off.
    obtain ⟨d, tail, htail, hkept, -⟩ := hready.exists_ahead hsplit
    rw [hall d (hend ▸ htail ▸ List.mem_cons_self)] at hkept
    cases hkept
  | @lexeme passed ahead c lexeme cursor hplace hscan =>
    rw [hplace] at hblanks hahead
    have hblank : Text.isBlank c = false := by
      have hhead := List.head?_dropWhile_not Text.isBlank lexer.cursor.ahead
      simpa [← hahead] using hhead
    have hword (hsplit : lexer.afterSplitSign = true) : isWordChar c = true := by
      obtain ⟨d, tail, htail, hkept, hd⟩ := hready.exists_ahead hsplit
      rw [htail, List.dropWhile_cons_of_neg (by simp [hkept])] at hahead
      cases hahead
      exact hd
    obtain ⟨run, hrun, hne⟩ := advances_scanLexeme hblank hword lexeme cursor hscan
    refine .inr ⟨blanks, run, hall, hne, hblanks.append hrun, ?_, ?_, ?_, ?_⟩
    · change (String.ofList (cursor.textFrom passed.length)).toList = run
      rw [String.toList_ofList]
      exact hrun.textFrom_eq
    · exact hblanks.position_eq
    · exact symbol_ne_stop_of_scanLexeme hscan
    · intro hsplit
      cases lexeme with
      | plain symbol => cases hsplit
      | literal value => cases hsplit
      | splitSign order => exact beginsNumber_of_scanLexeme hscan

/-- A lexer that has been reached by reading tokens, whether or not they could be read. -/
inductive Reaches (lexer : Lexer) : Lexer → Prop
  | refl : Reaches lexer lexer
  | next {middle : Lexer} (h : Reaches lexer middle) : Reaches lexer middle.next.2

theorem isReady_next (hready : lexer.IsReady) : lexer.next.2.IsReady := by
  rcases hnext : lexer.next with ⟨result, rest⟩
  cases result with
  | error error =>
    have hsplit : rest.afterSplitSign = false := by
      unfold next at hnext
      dsimp only at hnext
      split at hnext
      · cases hnext
      · split at hnext
        · cases hnext
        · cases hnext
          rfl
    exact fun h ↦ absurd h (by simp [hsplit])
  | ok token =>
    obtain ⟨-, hrest, -⟩ | ⟨blanks, run, htakes⟩ := next_eq_stop_or_takes hready hnext
    · exact hrest
    · exact htakes.isReady

theorem isReady_of_reaches (hready : lexer.IsReady) (h : lexer.Reaches rest) : rest.IsReady := by
  induction h with
  | refl => exact hready
  | next _ ih => exact isReady_next ih

/-! ### All tokens -/

/-- Reading tokens comes to an end after so many calls, at the end of the text or at a fault. -/
inductive Halts : (calls : Nat) → Lexer → Except QueryError (List Token) → Prop
  | stop {lexer rest : Lexer} {token : Token} (hnext : lexer.next = (.ok token, rest))
      (hstop : token.symbol = .stop) : Halts 1 lexer (.ok [token])
  | fault {lexer rest : Lexer} {error : QueryError} (hnext : lexer.next = (.error error, rest)) :
      Halts 1 lexer (.error error)
  | more {calls : Nat} {lexer rest : Lexer} {token : Token}
      {outcome : Except QueryError (List Token)} (hnext : lexer.next = (.ok token, rest))
      (hsymbol : token.symbol ≠ .stop) (hrest : Halts calls rest outcome) :
      Halts (calls + 1) lexer (outcome.map (token :: ·))

theorem Takes.length_lt {blanks run : List Char} (h : lexer.Takes token rest blanks run) :
    rest.cursor.ahead.length < lexer.cursor.ahead.length := by
  have hrun : 0 < run.length := List.length_pos_iff.mpr h.ne_nil
  rw [h.between.ahead, List.length_append, List.length_append]
  omega

theorem drain_of_error {limit : Nat} {error : QueryError}
    (h : lexer.next = (.error error, rest)) : drain limit lexer = .error error := by
  unfold drain
  rw [h]
  rfl

theorem drain_of_stop {limit : Nat} (h : lexer.next = (.ok token, rest))
    (hstop : token.symbol = .stop) : drain limit lexer = .ok [token] := by
  unfold drain
  rw [h]
  cases limit with
  | zero => rfl
  | succ limit => exact if_pos hstop

theorem drain_of_more {limit : Nat} (h : lexer.next = (.ok token, rest))
    (hsymbol : token.symbol ≠ .stop) :
    drain (limit + 1) lexer = (drain limit rest).map (token :: ·) := by
  conv_lhs => unfold drain
  rw [h]
  change (if token.symbol = .stop then .ok [token]
    else drain limit rest >>= fun more ↦ pure (token :: more)) = _
  rw [if_neg hsymbol]
  cases drain limit rest <;> rfl

/-- Reading on comes to an end, and the limit on the number of tokens is not reached before. -/
theorem halts_drain {limit : Nat} (hready : lexer.IsReady)
    (hlimit : lexer.cursor.ahead.length ≤ limit) :
    ∃ calls, calls ≤ lexer.cursor.ahead.length + 1 ∧ lexer.Halts calls (drain limit lexer) := by
  induction limit using Nat.strongRecOn generalizing lexer with
  | ind limit ih =>
    rcases hnext : lexer.next with ⟨result, rest⟩
    cases result with
    | error error =>
      rw [drain_of_error hnext]
      exact ⟨1, by omega, .fault hnext⟩
    | ok token =>
      obtain ⟨rfl, -⟩ | ⟨blanks, run, htakes⟩ := next_eq_stop_or_takes hready hnext
      · rw [drain_of_stop hnext rfl]
        exact ⟨1, by omega, .stop hnext rfl⟩
      · have hlength := htakes.length_lt
        obtain ⟨limit, rfl⟩ := Nat.exists_eq_succ_of_ne_zero (n := limit) (by omega)
        obtain ⟨calls, hcalls, hhalts⟩ := ih limit (by omega) htakes.isReady (by omega)
        rw [drain_of_more hnext htakes.symbol]
        exact ⟨calls + 1, by omega, .more hnext htakes.symbol hhalts⟩

/-- The tokens cover a text from a place on: the last one is its end, each of the others is cut out
at its place, they follow upon each other, and there are only blanks between them. -/
structure IsTiling (start : Nat) (text : List Char) (tokens : List Token) : Prop where
  ends : ∃ front, tokens = front ++ [Token.stop text.length] ∧
    ∀ token ∈ front, token.symbol ≠ .stop
  pieces (token : Token) (h : token ∈ tokens) (hsymbol : token.symbol ≠ .stop) :
    token.text.toList ≠ [] ∧
      token.text.toList = (text.drop token.position).take token.text.toList.length
  ordered : tokens.Pairwise fun a b ↦
    a.position < b.position ∧ a.position + a.text.toList.length ≤ b.position
  begins (token : Token) (h : token ∈ tokens) : start ≤ token.position
  blanks (place : Nat) (c : Char) (hstart : start ≤ place) (hc : text[place]? = some c)
    (h : ∀ token ∈ tokens,
      ¬(token.position ≤ place ∧ place < token.position + token.text.toList.length)) :
    Text.isBlank c = true

theorem isTiling_stop {start : Nat} {text : List Char} (hstart : start ≤ text.length)
    (h : ∀ b ∈ text.drop start, Text.isBlank b = true) :
    IsTiling start text [Token.stop text.length] where
  ends := ⟨[], rfl, by simp⟩
  pieces token h hsymbol := by
    obtain rfl := List.mem_singleton.mp h
    exact absurd rfl hsymbol
  ordered := List.pairwise_singleton _ _
  begins token h := by
    obtain rfl := List.mem_singleton.mp h
    exact hstart
  blanks place c hplace hc _ := by
    apply h c
    rw [List.mem_iff_getElem?]
    refine ⟨place - start, ?_⟩
    rw [List.getElem?_drop, Nat.add_sub_cancel' hplace, hc]

/-- A token behind some blanks and the tokens behind it. -/
theorem IsTiling.cons {before blanks run behind : List Char}
    (h : IsTiling (before ++ blanks ++ run).length (before ++ blanks ++ run ++ behind) tokens)
    (hblanks : ∀ b ∈ blanks, Text.isBlank b = true) (hrun : run ≠ [])
    (htext : token.text.toList = run) (hposition : token.position = (before ++ blanks).length)
    (hsymbol : token.symbol ≠ .stop) :
    IsTiling before.length (before ++ blanks ++ run ++ behind) (token :: tokens) where
  ends := by
    obtain ⟨front, rfl, hfront⟩ := h.ends
    exact ⟨token :: front, rfl, List.forall_mem_cons.mpr ⟨hsymbol, hfront⟩⟩
  pieces other hmem hother := by
    obtain rfl | hmem := List.mem_cons.mp hmem
    · rw [htext, hposition, List.append_assoc _ run, List.drop_left, List.take_left]
      exact ⟨hrun, rfl⟩
    · exact h.pieces other hmem hother
  ordered := by
    refine List.pairwise_cons.mpr ⟨fun other hmem ↦ ?_, h.ordered⟩
    have hbegins := h.begins other hmem
    have hlength : 0 < run.length := List.length_pos_iff.mpr hrun
    rw [htext, hposition]
    rw [List.length_append] at hbegins
    omega
  begins other hmem := by
    obtain rfl | hmem := List.mem_cons.mp hmem
    · rw [hposition, List.length_append]
      omega
    · have hbegins := h.begins other hmem
      rw [List.length_append, List.length_append] at hbegins
      omega
  blanks place c hstart hc hfree := by
    obtain ⟨houtside, hfree⟩ := List.forall_mem_cons.mp hfree
    rw [htext, hposition, List.length_append] at houtside
    by_cases hplace : (before ++ blanks ++ run).length ≤ place
    · exact h.blanks place c hplace hc hfree
    · rw [List.length_append, List.length_append] at hplace
      have hblank : place - before.length < blanks.length := by omega
      rw [List.append_assoc, List.append_assoc, List.getElem?_append_right hstart,
        List.getElem?_append_left hblank] at hc
      exact hblanks c (List.mem_of_getElem? hc)

/-- What a run of calls yields covers the text from where it began. -/
theorem isTiling_of_halts {calls : Nat} {outcome : Except QueryError (List Token)}
    (h : lexer.Halts calls outcome) (hready : lexer.IsReady) (houtcome : outcome = .ok tokens) :
    IsTiling lexer.cursor.position lexer.cursor.source tokens := by
  have hposition (cursor : Cursor) : cursor.position = cursor.passed.reverse.length :=
    List.length_reverse.symm
  induction h generalizing tokens with
  | @stop lexer rest token hnext hstop =>
    cases houtcome
    obtain ⟨rfl, -, hblank⟩ | ⟨blanks, run, htakes⟩ := next_eq_stop_or_takes hready hnext
    · refine isTiling_stop lexer.cursor.position_le ?_
      rwa [hposition, source, List.drop_left]
    · exact absurd hstop htakes.symbol
  | fault hnext => cases houtcome
  | @more calls lexer rest token outcome hnext hsymbol hrest ih =>
    cases outcome with
    | error error => cases houtcome
    | ok more =>
      cases houtcome
      obtain ⟨rfl, -⟩ | ⟨blanks, run, htakes⟩ := next_eq_stop_or_takes hready hnext
      · exact absurd rfl hsymbol
      · have hbehind := ih htakes.isReady rfl
        have hpassed : rest.cursor.passed.reverse =
            lexer.cursor.passed.reverse ++ blanks ++ run := by
          simp [htakes.between.passed]
        have hplace := htakes.position
        rw [hposition, source, hpassed] at hbehind
        rw [hposition] at hplace
        rw [hposition, ← htakes.between.source_eq, source, hpassed]
        exact hbehind.cons htakes.blank htakes.ne_nil htakes.text
          (by rw [hplace, List.length_append]) hsymbol

/-- Reading all tokens of a text takes at most one call for each character and one for the end, and
the tokens that are read cover the text. -/
theorem scan_tiles (text : List Char) (localOffset : UtcOffset) :
    (∃ calls outcome, calls ≤ text.length + 1 ∧ (start text localOffset).Halts calls outcome ∧
        scan text localOffset = outcome.map TokenQueue.mk) ∧
      ∀ queue, scan text localOffset = .ok queue → IsTiling 0 text queue.tokens := by
  have hready : (start text localOffset).IsReady := isReady_start text localOffset
  obtain ⟨calls, hcalls, hhalts⟩ := halts_drain hready (Nat.le_refl text.length)
  refine ⟨⟨calls, _, hcalls, hhalts, rfl⟩, fun queue hscan ↦ ?_⟩
  cases hdrain : drain text.length (start text localOffset) with
  | error error =>
    rw [scan, hdrain] at hscan
    cases hscan
  | ok tokens =>
    rw [scan, hdrain] at hscan
    cases hscan
    rw [hdrain] at hhalts
    exact isTiling_of_halts hhalts hready rfl

theorem scan_tiles_splitSign :
    scan " a =lt= -2b ".toList .utc = .ok ⟨[⟨.property, none, "a", 1⟩,
        ⟨.comparison .lt, none, "=lt=", 3⟩, ⟨.direction .descending, none, "-", 8⟩,
        ⟨.property, none, "2b", 9⟩, .stop 12]⟩ ∧
      IsTiling 0 " a =lt= -2b ".toList [⟨.property, none, "a", 1⟩,
        ⟨.comparison .lt, none, "=lt=", 3⟩, ⟨.direction .descending, none, "-", 8⟩,
        ⟨.property, none, "2b", 9⟩, .stop 12] := by
  have hscan : scan " a =lt= -2b ".toList .utc = .ok ⟨[⟨.property, none, "a", 1⟩,
      ⟨.comparison .lt, none, "=lt=", 3⟩, ⟨.direction .descending, none, "-", 8⟩,
      ⟨.property, none, "2b", 9⟩, .stop 12]⟩ := by cbv
  exact ⟨hscan, (scan_tiles _ _).2 _ hscan⟩

end Lexer

end ResourceQuery
