import ResourceQuery.Proofs.ParserComplete
import ResourceQuery.Proofs.ParserFaults
import ResourceQuery.Query.Source

/-!
# Parsing decides the grammar

A list of tokens is parsed exactly if it is a sentence, and then into what the sentence means. It
follows that a sentence means one query only, although nothing in the grammar says so: a
parenthesis may open a group of terms or a property, and it is the tokens behind it that tell.
-/

namespace ResourceQuery

open Grammar

theorem Grammar.Sentence.unique {tokens : List Token} {query other : Query}
    (hquery : Sentence tokens query) (hother : Sentence tokens other) : query = other := by
  obtain ⟨_, hparsed⟩ := Parse.takes_query hquery 0
  obtain ⟨_, hagain⟩ := Parse.takes_query hother 0
  rw [hparsed] at hagain
  cases hagain
  rfl

namespace Query

variable {tokens : List Token} {stop : Token}

theorem query_eq_ok_iff (hinner : ∀ token ∈ tokens, token.symbol ≠ .stop)
    (hstop : stop.symbol = .stop) (hvalued : LiteralsValued (tokens ++ [stop])) (tree : Query) :
    (∃ rest, Parse.query (.ofQueue ⟨tokens ++ [stop]⟩) = .ok tree rest) ↔
      Sentence (tokens ++ [stop]) tree :=
  ⟨fun ⟨_, h⟩ ↦ Parse.sentence_of_query_eq_ok hinner hstop hvalued h, fun h ↦ Parse.takes_query h _⟩

theorem ofTokens_eq_finish (options : ReadOptions) {queue : TokenQueue} {tree : Query}
    (h : Sentence queue.tokens tree) : ofTokens options queue = finish options tree := by
  obtain ⟨rest, hok⟩ := Parse.takes_query h (TokenStream.ofQueue queue).stop
  have hparsed : Parse.query (.ofQueue queue) = .ok tree rest := hok
  simp only [ofTokens, next, hparsed]

/-- What is wrong with a query that has been parsed is not its syntax. -/
theorem finish_ne_syntactic (options : ReadOptions) (tree : Query) (place : Nat)
    (fault : SyntaxFault) : finish options tree ≠ .error (.syntactic place fault) := by
  intro h
  rw [finish, validate] at h
  cases hconflict : tree.conflict? with
  | some conflict =>
    rw [hconflict] at h
    cases h
  | none =>
    rw [hconflict] at h
    cases hfold : options.consolidate <;> simp [hfold] at h

/-- Tokens up to an end are parsed into a query exactly if they are a sentence that means it. A
sentence is then checked and folded, and tokens that are none are refused for their syntax. -/
theorem ofTokens_decides_sentences (options : ReadOptions)
    (hinner : ∀ token ∈ tokens, token.symbol ≠ .stop) (hstop : stop.symbol = .stop)
    (hvalued : LiteralsValued (tokens ++ [stop])) :
    (∀ tree, (∃ rest, Parse.query (.ofQueue ⟨tokens ++ [stop]⟩) = .ok tree rest) ↔
      Sentence (tokens ++ [stop]) tree) ∧
    (∀ tree, Sentence (tokens ++ [stop]) tree →
      ofTokens options ⟨tokens ++ [stop]⟩ = finish options tree) ∧
    ((∃ tree, Sentence (tokens ++ [stop]) tree) ↔
      ∀ place fault, ofTokens options ⟨tokens ++ [stop]⟩ ≠ .error (.syntactic place fault)) := by
  have hparse := query_eq_ok_iff hinner hstop hvalued
  refine ⟨hparse, fun tree h ↦ ofTokens_eq_finish options h, ?_, ?_⟩
  · rintro ⟨tree, htree⟩ place fault
    rw [ofTokens_eq_finish options htree]
    exact finish_ne_syntactic options tree place fault
  · intro hrefused
    cases hresult : Parse.query (.ofQueue ⟨tokens ++ [stop]⟩) with
    | ok tree rest => exact ⟨tree, (hparse tree).mp ⟨rest, hresult⟩⟩
    | error error rest =>
      obtain ⟨place, fault, rfl⟩ := Parse.failsBySyntax_query _ _ _ hresult
      exact absurd (by simp [ofTokens, next, hresult]) (hrefused place fault)

/-- The tokens of `(a,b)=null&(c<null)`, where one parenthesis opens a property, and one a term. -/
theorem ofTokens_decides_sentences_parentheses :
    Sentence ([⟨.openParen, none, "(", 0⟩, ⟨.property, none, "a", 1⟩, ⟨.comma, none, ",", 2⟩,
        ⟨.property, none, "b", 3⟩, ⟨.closeParen, none, ")", 4⟩, ⟨.comparison .eq, none, "=", 5⟩,
        ⟨.literal, some .null, "null", 6⟩, ⟨.joiner .and, none, "&", 10⟩,
        ⟨.openParen, none, "(", 11⟩, ⟨.property, none, "c", 12⟩, ⟨.comparison .lt, none, "<", 13⟩,
        ⟨.literal, some .null, "null", 14⟩, ⟨.closeParen, none, ")", 18⟩] ++ [.stop 19])
      (.group .and [.compare .eq (.ofPath "a" ++ .ofPath "b") .null,
        .compare .lt (.ofPath "c") .null]) := by
  refine ((ofTokens_decides_sentences {} (by decide) rfl ?_).1 _).mp ⟨_, rfl⟩
  simp [LiteralsValued, Token.stop]

end Query

end ResourceQuery
