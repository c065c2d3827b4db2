import Mathlib
import ResourceQuery.Proofs.Parsing
import ResourceQuery.Proofs.PrintedQuery
import ResourceQuery.Proofs.SpineFolding

/-!
# Printed queries read back

A query that has been read is well-formed and finished. Printed in either style it is cut into the
tokens of an equal tree, and that tree is finished as well, so reading it again changes nothing.
-/

namespace ResourceQuery

open Grammar

namespace Lexer

variable {lexer rest : Lexer} {token : Token} {tokens : List Token}

theorem isSome_value_of_scanLexeme {c : Char} {cursor last : Cursor} {lexeme : Lexeme}
    (h : lexer.scanLexeme c cursor = .ok lexeme last) (hliteral : lexeme.symbol = .literal) :
    lexeme.value?.isSome = true := by
  cases lexeme with
  | plain symbol =>
    obtain rfl : symbol = .literal := hliteral
    unfold scanLexeme at h
    split at h
    · obtain ⟨_, _, _, hword⟩ := Run.bind_eq_ok.mp h
      cases hword
    · exact absurd rfl (Lexeme.ne_plain_of_scan (by simp) h)
  | literal value => rfl
  | splitSign order => cases hliteral

theorem isSome_value_of_next (h : lexer.next = (.ok token, rest))
    (hliteral : token.symbol = .literal) : token.value.isSome = true := by
  cases isNext_of_next h with
  | stop => cases hliteral
  | lexeme _ hscan => exact isSome_value_of_scanLexeme hscan hliteral

theorem localOffset_of_next {result : Except QueryError Token} (h : lexer.next = (result, rest)) :
    rest.localOffset = lexer.localOffset := by
  unfold next at h
  dsimp only at h
  split at h
  · cases h
    rfl
  · split at h <;> cases h <;> rfl

theorem forall_of_drain {Q : Token → Prop} {localOffset : UtcOffset} {limit : Nat}
    (hnext : ∀ lexer token rest, lexer.localOffset = localOffset →
      next lexer = (.ok token, rest) → Q token)
    (hoffset : lexer.localOffset = localOffset) (h : drain limit lexer = .ok tokens) :
    ∀ token ∈ tokens, Q token := by
  induction tokens generalizing limit lexer with
  | nil => simp
  | cons token tokens ih =>
    obtain ⟨rest, htoken, hmore⟩ := next_of_drain h
    intro other hmem
    obtain rfl | hmem := List.mem_cons.mp hmem
    · exact hnext lexer other rest hoffset htoken
    · obtain ⟨limit, hdrain⟩ := hmore (List.ne_nil_of_mem hmem)
      exact ih ((localOffset_of_next htoken).trans hoffset) hdrain other hmem

/-- What holds of every token that can be read under a local offset holds of all tokens of a query
that is read under it. -/
theorem forall_of_scan {Q : Token → Prop} {text : List Char} {localOffset : UtcOffset}
    {queue : TokenQueue}
    (hnext : ∀ lexer token rest, lexer.localOffset = localOffset →
      next lexer = (.ok token, rest) → Q token)
    (h : scan text localOffset = .ok queue) : ∀ token ∈ queue.tokens, Q token := by
  cases hdrain : drain text.length (start text localOffset) with
  | error error =>
    rw [scan, hdrain] at h
    cases h
  | ok tokens =>
    rw [scan, hdrain] at h
    cases h
    exact forall_of_drain hnext rfl hdrain

theorem literalsValued_of_scan {text : List Char} {localOffset : UtcOffset} {queue : TokenQueue}
    (h : scan text localOffset = .ok queue) : LiteralsValued queue.tokens :=
  forall_of_scan (fun _ _ _ _ ↦ isSome_value_of_next) h

end Lexer

namespace Query

variable {options : ReadOptions} {query : Query}

/-- A text is cut into tokens, these are parsed, and what they mean is finished. -/
theorem exists_parse_of_scan {text : List Char} (h : scan options text = .ok query) :
    ∃ queue parsed rest, Lexer.scan text options.localOffset = .ok queue ∧
      Parse.query (.ofQueue queue) = .ok parsed rest ∧ finish options parsed = .ok query := by
  unfold scan at h
  cases hscan : Lexer.scan text options.localOffset with
  | error error =>
    rw [hscan] at h
    cases h
  | ok queue =>
    rw [hscan] at h
    replace h : ofTokens options queue = .ok query := h
    cases hparse : Parse.query (.ofQueue queue) with
    | error error rest => simp [ofTokens, next, hparse] at h
    | ok parsed rest =>
      simp only [ofTokens, next, hparse] at h
      exact ⟨queue, parsed, rest, rfl, hparse, h⟩

theorem exists_scan_of_read {text : String} (h : read options text = .ok query) :
    ∃ prepared, prepare options text.toList = .ok prepared ∧
      scan options prepared = .ok query := by
  unfold read at h
  cases hprepare : prepare options text.toList with
  | error error =>
    rw [hprepare] at h
    cases h
  | ok prepared =>
    rw [hprepare] at h
    exact ⟨prepared, rfl, h⟩

/-- A query that is read off a text is well-formed before it is finished. -/
theorem exists_finish_of_read {text : String} (h : read options text = .ok query) :
    ∃ parsed, finish options parsed = .ok query ∧ (parsed = noop ∨ parsed.WellFormed) := by
  obtain ⟨prepared, -, hscan⟩ := exists_scan_of_read h
  obtain ⟨queue, parsed, rest, hqueue, hparse, hfinish⟩ := exists_parse_of_scan hscan
  have hvalued := Lexer.literalsValued_of_scan hqueue
  exact ⟨parsed, hfinish, Parse.wellFormed_of_query_eq_ok hparse hvalued⟩

theorem finish_noop : finish options noop = .ok noop := by
  cases hconsolidate : options.consolidate <;> simp [finish, hconsolidate] <;> rfl

/-- The text of a well-formed and finished query is read as an equal one. -/
theorem scan_print {parsed : Query} (style : Style) (h : finish options parsed = .ok query)
    (hquery : query.WellFormed) (hlegible : query.IsLegible style options.localOffset) :
    ∃ again, scan options (query.print style).toList = .ok again ∧ (again == query) = true := by
  have hend : FollowsValue [] := by simp [FollowsValue]
  obtain ⟨tokens, stop, ⟨again, hclauses, hsame⟩, hstop, hscan⟩ :=
    (reads_print style hquery hlegible).scan_eq hend
  refine ⟨again, ?_, hsame⟩
  have hsentence : Sentence (tokens ++ [stop]) again := .clauses hclauses hstop
  rw [scan, hscan]
  change ofTokens options ⟨tokens ++ [stop]⟩ = .ok again
  rw [ofTokens_eq_finish options hsentence]
  exact finish_of_same h hsame

/-- A query that has been read, and whose properties and values read back by themselves, reads back
as an equal one from what is printed for it in either style. -/
theorem scan_print_of_read {text : String} (h : read options text = .ok query)
    (hstable : query.IsStable options.localOffset) (style : Style) :
    ∃ again, scan options (query.print style).toList = .ok again ∧ (again == query) = true := by
  obtain ⟨parsed, hfinish, hparsed⟩ := exists_finish_of_read h
  have hquery : query = noop ∨ query.WellFormed := by
    obtain rfl | hparsed := hparsed
    · rw [finish_noop] at hfinish
      cases hfinish
      exact .inl rfl
    · exact wellFormed_of_finish hparsed hfinish
  obtain rfl | hquery := hquery
  · exact ⟨noop, finish_noop, rfl⟩
  · exact scan_print style hfinish hquery (hstable.isLegible style)

/-- One tree with a group in parentheses, whose select clauses have been folded into the first. -/
theorem scan_print_of_read_folded :
    ∃ query, read {} "select(a)&(a=true|b=x)&select(b)" = .ok query ∧ query.IsStable .utc ∧
      ∀ style, ∃ again, scan {} (query.print style).toList = .ok again ∧
        (again == query) = true := by
  let a : Property := ⟨["a"]⟩
  let b : Property := ⟨["b"]⟩
  have ha : a.IsStable .utc :=
    ⟨⟨.property, none, "a", 0⟩, .stop 1, by cbv, rfl, rfl, by cbv⟩
  have hb : b.IsStable .utc :=
    ⟨⟨.property, none, "b", 0⟩, .stop 1, by cbv, rfl, rfl, by cbv⟩
  have htrue : (Value.bool true).IsStable .utc :=
    ⟨⟨.literal, some (.bool true), "true", 0⟩, .stop 4, _, by cbv, rfl, rfl, rfl, by cbv⟩
  have hx : (Value.string "x").IsStable .utc :=
    ⟨⟨.literal, some (.string "x"), "\"x\"", 0⟩, .stop 3, _, by cbv, rfl, rfl, rfl, by cbv⟩
  have hread : read {} "select(a)&(a=true|b=x)&select(b)" =
      .ok (group .and [select [a, b],
        group .or [compare .eq a (.bool true), compare .eq b (.string "x")]]) := by cbv
  have hstable : (group .and [select [a, b],
      group .or [compare .eq a (.bool true), compare .eq b (.string "x")]]).IsStable .utc := by
    constructor <;>
      simp [preorder, preorderAll, properties, operands, ha, hb, htrue, hx]
  exact ⟨_, hread, hstable, fun style ↦ scan_print_of_read hread hstable style⟩

end Query

end ResourceQuery
