import ResourceQuery.Proofs.Relocation
import ResourceQuery.Proofs.TextLiterals

/-!
# The notations of a comparison

A comparison can be written as a function of a property and a value, with a sign between the two,
or with its name between two equals signs. The three are the same query whenever the function is
one: the tokens of both arguments do not depend on which notation they stand in. The sign and the
value behind it cannot run into each other either, since a value neither begins with an equals sign
nor with the name of a comparison in front of one.
-/

namespace ResourceQuery

open Lexer

/-! ### Tokens at other places -/

namespace Grammar

/-- The function changes nothing about a token but its place. -/
structure KeepsTokens (f : Token → Token) : Prop where
  symbol (token : Token) : (f token).symbol = token.symbol
  value (token : Token) : (f token).value = token.value
  text (token : Token) : (f token).text = token.text

theorem keepsTokens_moved (before before' : List Char) :
    KeepsTokens (Token.moved before before') :=
  ⟨fun _ ↦ rfl, fun _ ↦ rfl, fun _ ↦ rfl⟩

section Keeps

variable {f : Token → Token} {tokens : List Token} {property : Property} {value : Value}
  {α : Type} {item : Phrase α} {items : List α} {separator : Symbol}

theorem Joined.map (hf : KeepsTokens f) {pieces : List (List Token)}
    (h : Joined separator pieces tokens) :
    Joined separator (pieces.map (List.map f)) (tokens.map f) := by
  induction h with
  | single piece => exact .single (piece.map f)
  | cons hsign hrest ih =>
    rw [List.map_append, List.map_cons]
    exact .cons ((hf.symbol _).trans hsign) ih

theorem Separated.map (hf : KeepsTokens f)
    (hitem : ∀ tokens a, item tokens a → item (tokens.map f) a)
    (h : Separated separator item tokens items) :
    Separated separator item (tokens.map f) items := by
  obtain ⟨pieces, hpieces, hall⟩ := h
  exact ⟨pieces.map (List.map f), hpieces.map hf, List.forall₂_map_left_iff.mpr (hall.imp hitem)⟩

theorem Continued.map (hf : KeepsTokens f)
    (hitem : ∀ tokens a, item tokens a → item (tokens.map f) a)
    (h : Continued separator item tokens items) :
    Continued separator item (tokens.map f) items := by
  cases h with
  | nil => exact .nil
  | cons hsign hitems => exact .cons ((hf.symbol _).trans hsign) (hitems.map hf hitem)

theorem Word.map (hf : KeepsTokens f) (h : Word tokens property) :
    Word (tokens.map f) property := by
  cases h with
  | @intro word hword =>
    rw [← hf.text word]
    exact .intro ((hf.symbol word).trans hword)

theorem Segment.map (hf : KeepsTokens f) (h : Segment tokens property) :
    Segment (tokens.map f) property := by
  cases h with
  | word hword => exact .word (hword.map hf)
  | @number number n hsymbol hvalue =>
    rw [← hf.text number]
    exact .number ((hf.symbol number).trans hsymbol) ((hf.value number).trans hvalue)

theorem Path.map (hf : KeepsTokens f) (h : Path tokens property) :
    Path (tokens.map f) property := by
  cases h with
  | intro hword hrest =>
    rw [List.map_append]
    exact .intro (hword.map hf) (hrest.map hf fun _ _ ↦ Segment.map hf)

theorem Subject.map (hf : KeepsTokens f) (h : Subject tokens property) :
    Subject (tokens.map f) property := by
  cases h with
  | path hpath => exact .path (hpath.map hf)
  | compound hopening hparts hclosing =>
    rw [List.map_append, List.map_cons]
    exact .compound ((hf.symbol _).trans hopening) (hparts.map hf fun _ _ ↦ Path.map hf)
      ((hf.symbol _).trans hclosing)

theorem BareWord.map (hf : KeepsTokens f) {word : String} (h : BareWord tokens word) :
    BareWord (tokens.map f) word := by
  cases h with
  | @intro token hword =>
    rw [← hf.text token]
    exact .intro ((hf.symbol token).trans hword)

theorem Operand.map (hf : KeepsTokens f) (h : Operand tokens value) :
    Operand (tokens.map f) value := by
  cases h with
  | literal hsymbol hvalue =>
    exact .literal ((hf.symbol _).trans hsymbol) ((hf.value _).trans hvalue)
  | bare hwords => exact .bare (hwords.map hf fun _ _ ↦ BareWord.map hf)
  | @signed sign _ _ _ hsign hwords =>
    rw [List.map_cons, ← hf.text sign]
    exact .signed ((hf.symbol sign).trans hsign) (hwords.map hf fun _ _ ↦ BareWord.map hf)

end Keeps

/-! ### The lexemes of names and values -/

section Within

variable {tokens : List Token} {property : Property} {value : Value} {α : Type} {item : Phrase α}
  {items : List α} {separator : Symbol} {token : Token} {P : Token → Prop}

/-- What holds of the separators and of the tokens of each item holds of all tokens. -/
theorem Separated.forall_tokens (hsign : ∀ token : Token, token.symbol = separator → P token)
    (hitem : ∀ tokens a, item tokens a → ∀ token ∈ tokens, P token)
    (h : Separated separator item tokens items) : ∀ token ∈ tokens, P token := by
  obtain ⟨pieces, hpieces, hall⟩ := h
  induction hpieces generalizing items with
  | single piece =>
    obtain - | ⟨hfirst, -⟩ := hall
    exact hitem _ _ hfirst
  | cons hseparator hrest ih =>
    obtain - | ⟨hfirst, hmore⟩ := hall
    refine List.forall_mem_append.mpr ⟨hitem _ _ hfirst, ?_⟩
    exact List.forall_mem_cons.mpr ⟨hsign _ hseparator, ih hmore⟩

theorem Continued.forall_tokens (hsign : ∀ token : Token, token.symbol = separator → P token)
    (hitem : ∀ tokens a, item tokens a → ∀ token ∈ tokens, P token)
    (h : Continued separator item tokens items) : ∀ token ∈ tokens, P token := by
  cases h with
  | nil => simp
  | cons hseparator hitems =>
    exact List.forall_mem_cons.mpr ⟨hsign _ hseparator, hitems.forall_tokens hsign hitem⟩

theorem within_inName (hliteral : token.symbol ≠ .literal)
    (hcomparison : ∀ op, token.symbol ≠ .comparison op) : token.Within Lexeme.InName := by
  rintro lexeme text position rfl
  exact ⟨Lexeme.isName_of_symbol hliteral, hcomparison⟩

theorem within_inName_of_eq {symbol : Symbol}
    (h : symbol ∈ [.openParen, .closeParen, .comma, .slash, .property])
    (htoken : token.symbol = symbol) : token.Within Lexeme.InName := by
  apply within_inName
  · rintro hliteral
    simp [← htoken, hliteral] at h
  · rintro op hop
    simp [← htoken, hop] at h

theorem Word.within (h : Word tokens property) : ∀ token ∈ tokens, token.Within Lexeme.InName := by
  obtain ⟨hword⟩ := h
  exact List.forall_mem_singleton.mpr (within_inName_of_eq (by simp) hword)

theorem Segment.within (h : Segment tokens property) :
    ∀ token ∈ tokens, token.Within Lexeme.InName := by
  cases h with
  | word hword => exact hword.within
  | number hsymbol hvalue =>
    refine List.forall_mem_singleton.mpr ?_
    rintro lexeme text position rfl
    refine ⟨?_, fun op hop ↦ ?_⟩
    · rintro value rfl
      exact ⟨_, Option.some.inj hvalue⟩
    · simp [Lexeme.token, hop] at hsymbol

theorem Path.within (h : Path tokens property) : ∀ token ∈ tokens, token.Within Lexeme.InName := by
  cases h with
  | intro hword hrest =>
    refine List.forall_mem_append.mpr ⟨hword.within, ?_⟩
    exact hrest.forall_tokens (fun _ ↦ within_inName_of_eq (by simp)) fun _ _ ↦ Segment.within

theorem Subject.within (h : Subject tokens property) :
    ∀ token ∈ tokens, token.Within Lexeme.InName := by
  cases h with
  | path hpath => exact hpath.within
  | compound hopening hparts hclosing =>
    rw [List.cons_append]
    refine List.forall_mem_cons.mpr ⟨within_inName_of_eq (by simp) hopening, ?_⟩
    refine List.forall_mem_append.mpr ⟨?_, ?_⟩
    · exact hparts.forall_tokens (fun _ ↦ within_inName_of_eq (by simp)) fun _ _ ↦ Path.within
    · exact List.forall_mem_singleton.mpr (within_inName_of_eq (by simp) hclosing)

/-- The symbols that a value can be made of. -/
def IsValueSymbol (symbol : Symbol) : Prop :=
  symbol ∈ [.slash, .property, .literal] ∨ ∃ order, symbol = .direction order

theorem isValueSymbol_of_eq {symbol : Symbol} (h : symbol ∈ [.slash, .property, .literal])
    (htoken : token.symbol = symbol) : IsValueSymbol token.symbol :=
  .inl (htoken ▸ h)

theorem words_isValueSymbol {words : List String} (h : Separated .slash BareWord tokens words) :
    ∀ token ∈ tokens, IsValueSymbol token.symbol := by
  refine h.forall_tokens (fun _ ↦ isValueSymbol_of_eq (by simp)) ?_
  rintro _ _ ⟨hword⟩
  exact List.forall_mem_singleton.mpr (isValueSymbol_of_eq (by simp) hword)

theorem Operand.isValueSymbol (h : Operand tokens value) :
    ∀ token ∈ tokens, IsValueSymbol token.symbol := by
  cases h with
  | literal hsymbol =>
    exact List.forall_mem_singleton.mpr (isValueSymbol_of_eq (by simp) hsymbol)
  | bare hwords => exact words_isValueSymbol hwords
  | signed hsign hwords =>
    exact List.forall_mem_cons.mpr ⟨.inr ⟨_, hsign⟩, words_isValueSymbol hwords⟩

theorem Operand.within (h : Operand tokens value) :
    ∀ token ∈ tokens, token.Within Lexeme.InValue := by
  rintro _ hmem lexeme text position rfl
  exact h.isValueSymbol _ hmem

theorem IsValueSymbol.ne_comparison {symbol : Symbol} (h : IsValueSymbol symbol)
    (op : Comparison) : symbol ≠ .comparison op := by
  rintro rfl
  obtain h | ⟨order, h⟩ := h <;> simp at h

end Within

end Grammar

namespace Lexer

variable {localOffset : UtcOffset} {follows : List Char → Prop} {text passed rest : List Char}
  {lexeme : Lexeme} {last : Option Symbol} {token : Token} {tokens : List Token} {op : Comparison}

/-- Where the text of a lexeme comes next, the first token is that lexeme. -/
theorem Denotes.uncons (h : Denotes localOffset follows text lexeme)
    (hwhole : lexeme.isSplitSign = false) (hrest : follows rest)
    (hyields : Yields ⟨⟨passed, text ++ rest⟩, localOffset, last, false⟩ (token :: tokens)) :
    token.symbol = lexeme.symbol ∧
      Yields ⟨⟨text.reverse ++ passed, rest⟩, localOffset, some lexeme.symbol, false⟩ tokens := by
  have hnext := h.next_eq passed hrest last
  rw [hwhole] at hnext
  cases hyields with
  | stop hstopped hstop =>
    rw [hnext] at hstopped
    cases hstopped
    exact absurd hstop (h.symbol_ne_stop hrest)
  | more hmore _ hyields =>
    rw [hnext] at hmore
    cases hmore
    exact ⟨rfl, hyields⟩

theorem Yields.symbol_eq_stop {lexer : Lexer} (h : Yields lexer [token]) :
    token.symbol = .stop := by
  cases h with
  | stop _ hstop => exact hstop
  | more _ _ hrest => cases hrest

theorem uncons_single {c : Char} {symbol : Symbol} (h : Lexeme.single? c = some symbol)
    (hblank : Text.isBlank c = false)
    (hyields : Yields ⟨⟨passed, c :: rest⟩, localOffset, last, false⟩ (token :: tokens)) :
    token.symbol = symbol ∧
      Yields ⟨⟨c :: passed, rest⟩, localOffset, some symbol, false⟩ tokens := by
  have hdenotes : Denotes localOffset (fun _ ↦ True) [c] (.plain symbol) :=
    denotes_single h hblank
  exact hdenotes.uncons rfl trivial hyields

theorem comparison_of_next {other : Lexer}
    (h : next ⟨⟨passed, '=' :: rest⟩, localOffset, last, false⟩ = (.ok token, other)) :
    ∃ op, token.symbol = .comparison op := by
  rw [next_cons (by decide)] at h
  split at h
  · next lexeme cursor hscan =>
    obtain ⟨op, rfl⟩ := Lexeme.gives_scanEquals _ lexeme cursor hscan
    cases h
    exact ⟨op, rfl⟩
  · cases h

/-- The name of a comparison in front of an equals sign is a word. -/
theorem denotes_word {word : List Char} (hword : ∀ c ∈ word, Text.isLetter c = true)
    (hop : Lexeme.wordComparison? word = some op) :
    Denotes localOffset (fun rest ↦ rest.head? = some '=') word (.plain .property) := by
  obtain ⟨first, second, rfl⟩ := List.length_eq_two.mp (Lexeme.length_of_wordComparison? hop)
  have hfirst := Lexeme.beginsWord_of_isLetter (hword first (by simp))
  refine ⟨first, [second], rfl, Lexeme.not_blank_of_beginsWord hfirst, ?_⟩
  intro passed rest last hrest
  obtain ⟨behind, rfl⟩ := List.head?_eq_some_iff.mp hrest
  rw [Lexeme.scan_eq_scanWord hfirst]
  exact Lexeme.scanWord_comparison hword hop

/-- A text that is cut into tokens without any comparison may stand behind a comparison sign. -/
theorem endsComparison_of_yields
    (h : Yields ⟨⟨passed, text⟩, localOffset, last, false⟩ tokens)
    (hnone : ∀ token ∈ tokens, ∀ op, token.symbol ≠ .comparison op) : EndsComparison text := by
  have hequals {passed behind : List Char} {last : Option Symbol} {tokens : List Token}
      (h : Yields ⟨⟨passed, '=' :: behind⟩, localOffset, last, false⟩ tokens) :
      ∃ token ∈ tokens, ∃ op, token.symbol = .comparison op := by
    cases tokens with
    | nil => cases h
    | cons token tokens =>
      obtain ⟨_, hnext⟩ := h.next_eq
      exact ⟨token, List.mem_cons_self, comparison_of_next hnext⟩
  constructor
  · intro hhead
    obtain ⟨behind, rfl⟩ := List.head?_eq_some_iff.mp hhead
    obtain ⟨token, hmem, op, hop⟩ := hequals h
    exact hnone token hmem op hop
  · rintro word behind rfl hletters
    cases hop : Lexeme.wordComparison? word with
    | none => rfl
    | some op =>
      cases tokens with
      | nil => cases h
      | cons token tokens =>
        obtain ⟨-, hbehind⟩ := (denotes_word hletters hop).uncons rfl rfl h
        obtain ⟨other, hmem, op, hother⟩ := hequals hbehind
        exact absurd hother (hnone other (List.mem_cons_of_mem token hmem) op)

theorem EndsComparison.of_append {text rest : List Char} (h : EndsComparison (text ++ rest)) :
    EndsComparison text := by
  constructor
  · intro hhead
    exact h.1 (by rw [List.head?_append, hhead]; rfl)
  · rintro word behind rfl
    exact h.2 word (behind ++ rest) (by simp)

/-- Tokens that are read one after another cover the text. -/
theorem isTiling_of_yields (h : Yields (start text localOffset) tokens) :
    IsTiling 0 text tokens := by
  obtain ⟨calls, -, hhalts⟩ :=
    halts_drain (isReady_start text localOffset) (Nat.le_refl text.length)
  exact isTiling_of_halts hhalts (isReady_start text localOffset) (h.outcome_eq hhalts)

/-- Tokens are read in the order of their places. -/
theorem ordered_of_yields (h : Yields (start text localOffset) tokens) :
    tokens.Pairwise fun a b ↦ a.position < b.position :=
  (isTiling_of_yields h).ordered.imp And.left

/-! ### The two arguments -/

section Arguments

variable {before before' behind rest' p v : List Char} {first second more : List Token}
  {comma closing : Token} {property : Property} {value : Value} {sign : Symbol}

/-- The tokens of a property are the same at the front of a query. -/
theorem Yields.moves_subject
    (h : Yields ⟨⟨before, p ++ ',' :: behind⟩, localOffset, some .openParen, false⟩
      (first ++ comma :: more))
    (hcomma : comma.position = before.length + p.length)
    (hplaces : ∀ token ∈ first, token.position < comma.position)
    (hsubject : Grammar.Subject first property) (hrest' : FollowsWord rest') :
    (∃ last, Yields ⟨⟨p.reverse ++ before, ',' :: behind⟩, localOffset, last, false⟩
        (comma :: more)) ∧
      ∀ others, (∀ last, Yields ⟨⟨p.reverse, rest'⟩, localOffset, last, false⟩ others) →
        Yields ⟨⟨[], p ++ rest'⟩, localOffset, none, false⟩
          (first.map (Token.moved before []) ++ others) := by
  have hrest : FollowsWord (',' :: behind) := by
    rintro _ ⟨⟩
    decide
  have hmovable : Movable localOffset Lexeme.InName before (',' :: behind) [] rest' :=
    fun _ _ _ _ hplace hpath ↦ Lexeme.moves_name hrest hrest' hplace hpath
  have hpath : Lexeme.continuesPath (some .openParen) ([] ++ before).head? =
      Lexeme.continuesPath none ([] ++ []).head? := rfl
  have hstart : Yields ⟨⟨[] ++ before, p ++ ',' :: behind⟩, localOffset, some .openParen, false⟩
      (first ++ comma :: more) := h
  have hmoves := hstart.moves hmovable hrest hrest' nofun hpath (by simpa using hcomma) hplaces
    hsubject.within
  simpa using hmoves

/-- The tokens of a value are the same at the end of a query, behind a comparison sign. -/
theorem Yields.moves_operand
    (h : Yields ⟨⟨before, v ++ [')']⟩, localOffset, some .comma, false⟩
      (second ++ closing :: more))
    (hclosing : closing.position = before.length + v.length)
    (hplaces : ∀ token ∈ second, token.position < closing.position)
    (hoperand : Grammar.Operand second value) (op : Comparison) :
    (∃ last, Yields ⟨⟨v.reverse ++ before, [')']⟩, localOffset, last, false⟩
        (closing :: more)) ∧
      ∃ stop : Token, stop.symbol = .stop ∧
        Yields ⟨⟨before', v⟩, localOffset, some (.comparison op), false⟩
          (second.map (Token.moved before before') ++ [stop]) := by
  have hrest : FollowsValue [')'] := by
    rintro _ ⟨⟩
    decide
  have hrest' : FollowsValue [] := nofun
  have hmovable : Movable localOffset Lexeme.InValue before [')'] before' [] :=
    fun _ _ _ _ hplace hpath ↦
      Lexeme.moves_value hrest ⟨by decide, by decide⟩ hrest' hplace hpath
  have hpath : Lexeme.continuesPath (some .comma) ([] ++ before).head? =
      Lexeme.continuesPath (some (.comparison op)) ([] ++ before').head? := rfl
  have hstart : Yields ⟨⟨[] ++ before, v ++ [')']⟩, localOffset, some .comma, false⟩
      (second ++ closing :: more) := h
  obtain ⟨hbehind, hmoved⟩ := hstart.moves hmovable hrest.stops hrest'.stops nofun hpath
    (by simpa using hclosing) hplaces hoperand.within
  refine ⟨by simpa using hbehind, Token.stop (v.reverse ++ [] ++ before').length, rfl, ?_⟩
  have hend (last : Option Symbol) :
      Yields ⟨⟨v.reverse ++ [] ++ before', []⟩, localOffset, last, false⟩
        [Token.stop (v.reverse ++ [] ++ before').length] := .stop rfl rfl
  simpa using hmoved _ hend

end Arguments

end Lexer

namespace Query

/-- A comparison as a function of its arguments. -/
def callText (op : Comparison) (p v : List Char) : List Char :=
  op.name.toList ++ ('(' :: (p ++ (',' :: (v ++ [')']))))

/-- A comparison with a sign between the property and the value. -/
def infixText (op : Comparison) (p v : List Char) : List Char :=
  p ++ (op.sign.toList ++ v)

/-- A comparison with its name between two equals signs. -/
def fiqlText (op : Comparison) (p v : List Char) : List Char :=
  p ++ ('=' :: (op.name.toList ++ '=' :: v))

/-- The function is cut into the tokens of a property, which lie in front of the comma behind `p`,
and those of a value, which lie in front of the parenthesis behind `v`. -/
def IsCall (localOffset : UtcOffset) (op : Comparison) (p v : List Char) (property : Property)
    (value : Value) : Prop :=
  ∃ name opening first comma second closing stop,
    Lexer.scan (callText op p v) localOffset =
        .ok ⟨name :: opening :: (first ++ comma :: (second ++ [closing, stop]))⟩ ∧
      comma.position = (op.name.toList ++ '(' :: p).length ∧
      closing.position = (op.name.toList ++ '(' :: (p ++ ',' :: v)).length ∧
      Grammar.Subject first property ∧ Grammar.Operand second value

section Notations

variable {options : ReadOptions} {localOffset : UtcOffset} {op : Comparison}
  {p v sign text : List Char} {property : Property} {value : Value} {tokens : List Token}

theorem scan_of_sentence (hscan : Lexer.scan text options.localOffset = .ok ⟨tokens⟩)
    (h : Grammar.Sentence tokens (.compare op property value)) :
    scan options text = .ok (.compare op property value) := by
  rw [scan, hscan]
  change ofTokens options ⟨tokens⟩ = _
  rw [ofTokens_eq_finish options h, finish_compare]

/-- The tokens of a function and those of its arguments around a sign are the same comparison. -/
theorem IsCall.sentences (h : IsCall localOffset op p v property value)
    (hsign : Denotes localOffset EndsComparison sign (.plain (.comparison op)))
    (hword : ∀ rest, FollowsWord (sign ++ rest)) :
    (∃ tokens, Lexer.scan (callText op p v) localOffset = .ok ⟨tokens⟩ ∧
        Grammar.Sentence tokens (.compare op property value)) ∧
      ∃ tokens, Lexer.scan (p ++ (sign ++ v)) localOffset = .ok ⟨tokens⟩ ∧
        Grammar.Sentence tokens (.compare op property value) := by
  obtain ⟨name, opening, first, comma, second, closing, stop, hscan, hcomma, hclosing, hsubject,
    hoperand⟩ := h
  have hyields := scan_eq_ok_iff.mp hscan
  have hordered := ordered_of_yields hyields
  have hdenotes : Denotes localOffset (fun rest ↦ rest.head? = some '(') op.name.toList
      (.plain (.function (.compare op))) := denotes_name localOffset (.compare op)
  obtain ⟨hname, hyields⟩ := hdenotes.uncons rfl rfl hyields
  obtain ⟨hopening, hfirst⟩ := uncons_single rfl rfl hyields
  -- The tokens of each argument lie in front of the sign behind it.
  rw [List.pairwise_cons, List.pairwise_cons, List.pairwise_append, List.pairwise_cons,
    List.pairwise_append] at hordered
  obtain ⟨-, -, -, ⟨-, -, -, hsecondPlaces⟩, hfirstPlaces⟩ := hordered
  obtain ⟨⟨_, hyields⟩, hmovedFirst⟩ := hfirst.moves_subject
    (by rw [hcomma]; simp; omega) (fun token hmem ↦ hfirstPlaces token hmem comma (by simp))
    hsubject (hword v)
  obtain ⟨hcommaSymbol, hsecond⟩ := uncons_single rfl rfl hyields
  obtain ⟨⟨_, hyields⟩, stop', hstop', hmovedSecond⟩ := hsecond.moves_operand
    (by rw [hclosing]; simp; omega) (fun token hmem ↦ hsecondPlaces token hmem closing (by simp))
    hoperand op
  obtain ⟨hclosingSymbol, hyields⟩ := uncons_single rfl rfl hyields
  have hstop : stop.symbol = .stop := hyields.symbol_eq_stop
  -- No comparison is among the tokens behind the comma, so the sign is read as it is.
  have hnone : ∀ token ∈ second ++ [closing, stop], ∀ op, token.symbol ≠ .comparison op := by
    refine List.forall_mem_append.mpr ⟨fun token hmem ↦ ?_, ?_⟩
    · exact (hoperand.isValueSymbol token hmem).ne_comparison
    · simp [hclosingSymbol, hstop]
  have hends : EndsComparison v := (endsComparison_of_yields hsecond hnone).of_append
  refine ⟨⟨_, hscan, ?_⟩, _, scan_eq_ok_iff.mpr (hmovedFirst _ fun last ↦ .more
    (hsign.next_eq p.reverse hends last) nofun hmovedSecond), ?_⟩
  · have hcall : Grammar.Call (Grammar.Arguments (.compare op)) (.compare op)
        (name :: opening :: (first ++ comma :: second) ++ [closing]) (.compare op property value) :=
      .intro hname hopening (.compare hsubject hcommaSymbol hoperand) hclosingSymbol
    simpa using Grammar.Sentence.clauses (.term (.function hcall)) hstop
  · have hsubject' := hsubject.map (Grammar.keepsTokens_moved ('(' :: op.name.toList.reverse) [])
    have hoperand' := hoperand.map (Grammar.keepsTokens_moved
      (',' :: (p.reverse ++ '(' :: op.name.toList.reverse)) (sign.reverse ++ p.reverse))
    have hcomparison := Grammar.Term.comparison hsubject'
      (show ((Lexeme.plain (.comparison op)).token (String.ofList sign) p.reverse.length).symbol =
        .comparison op from rfl) hoperand'
    simpa using Grammar.Sentence.clauses (.term hcomparison) hstop'

/-- If the function of a comparison is cut into the tokens of a property and of a value, then it is
read as the comparison of the two, and so are the property and the value around the sign or around
the name of the comparison. -/
theorem notations_agree (options : ReadOptions)
    (h : IsCall options.localOffset op p v property value) :
    scan options (callText op p v) = .ok (.compare op property value) ∧
      scan options (infixText op p v) = .ok (.compare op property value) ∧
      scan options (fiqlText op p v) = .ok (.compare op property value) := by
  have hnamed : Denotes options.localOffset EndsComparison ('=' :: (op.name.toList ++ ['=']))
      (.plain (.comparison op)) := (denotes_named options.localOffset op).narrow fun _ _ ↦ trivial
  have hnamedWord (rest : List Char) :
      FollowsWord ('=' :: (op.name.toList ++ ['=']) ++ rest) := by
    rintro _ ⟨⟩
    decide
  obtain ⟨⟨_, hcall, hcallMeans⟩, _, hinfix, hinfixMeans⟩ :=
    h.sentences (denotes_sign options.localOffset op) (followsWord_sign op)
  obtain ⟨-, _, hfiql, hfiqlMeans⟩ := h.sentences hnamed hnamedWord
  have hfiqlText : p ++ ('=' :: (op.name.toList ++ ['=']) ++ v) = fiqlText op p v := by
    simp [fiqlText]
  rw [hfiqlText] at hfiql
  exact ⟨scan_of_sentence hcall hcallMeans, scan_of_sentence hinfix hinfixMeans,
    scan_of_sentence hfiql hfiqlMeans⟩

/-- A property that is put together of two paths, and a reference with an equals sign in it. -/
theorem notations_agree_paths :
    IsCall .utc .ge " (a/x , b)".toList " /x=y".toList ⟨["a", "x", "b"]⟩ (.uri "/x=y") ∧
      scan {} "ge( (a/x , b), /x=y)".toList = .ok (compare .ge ⟨["a", "x", "b"]⟩ (.uri "/x=y")) ∧
      scan {} " (a/x , b)>= /x=y".toList = .ok (compare .ge ⟨["a", "x", "b"]⟩ (.uri "/x=y")) ∧
      scan {} " (a/x , b)=ge= /x=y".toList =
        .ok (compare .ge ⟨["a", "x", "b"]⟩ (.uri "/x=y")) := by
  let tokens : List Token := [⟨.openParen, none, "(", 4⟩, ⟨.property, none, "a", 5⟩,
    ⟨.slash, none, "/", 6⟩, ⟨.property, none, "x", 7⟩, ⟨.comma, none, ",", 9⟩,
    ⟨.property, none, "b", 11⟩, ⟨.closeParen, none, ")", 12⟩]
  have hsubject : Grammar.Subject tokens ⟨["a", "x", "b"]⟩ := by
    have hsegment : Grammar.Segment [⟨.property, none, "x", 7⟩] (.ofPath "x") := .word (.intro rfl)
    have hfirst : Grammar.Path [⟨.property, none, "a", 5⟩, ⟨.slash, none, "/", 6⟩,
        ⟨.property, none, "x", 7⟩] (Grammar.concat [.ofPath "a", .ofPath "x"]) :=
      .intro (.intro rfl) (.cons rfl (.intro hsegment .nil))
    have hsecond : Grammar.Path [⟨.property, none, "b", 11⟩] (Grammar.concat [.ofPath "b"]) :=
      .intro (.intro rfl) .nil
    have hparts : Grammar.Separated .comma Grammar.Path [⟨.property, none, "a", 5⟩,
        ⟨.slash, none, "/", 6⟩, ⟨.property, none, "x", 7⟩, ⟨.comma, none, ",", 9⟩,
        ⟨.property, none, "b", 11⟩] _ := .intro hfirst (.cons rfl (.intro hsecond .nil))
    exact .compound rfl hparts rfl
  have hscan : Lexer.scan (callText .ge " (a/x , b)".toList " /x=y".toList) .utc =
      .ok ⟨⟨.function (.compare .ge), none, "ge", 0⟩ :: ⟨.openParen, none, "(", 2⟩ ::
        (tokens ++ ⟨.comma, none, ",", 13⟩ :: ([⟨.literal, some (.uri "/x=y"), "/x=y", 15⟩] ++
          [⟨.closeParen, none, ")", 19⟩, .stop 20]))⟩ := by
    cbv
  have hcall : IsCall .utc .ge " (a/x , b)".toList " /x=y".toList ⟨["a", "x", "b"]⟩
      (.uri "/x=y") :=
    ⟨_, _, _, _, _, _, _, hscan, rfl, rfl, hsubject, .literal rfl rfl⟩
  have hagree := notations_agree {} hcall
  have hcallText : callText .ge " (a/x , b)".toList " /x=y".toList =
      "ge( (a/x , b), /x=y)".toList := by decide
  have hinfixText : infixText .ge " (a/x , b)".toList " /x=y".toList =
      " (a/x , b)>= /x=y".toList := by decide
  have hfiqlText : fiqlText .ge " (a/x , b)".toList " /x=y".toList =
      " (a/x , b)=ge= /x=y".toList := by decide
  rw [hcallText, hinfixText, hfiqlText] at hagree
  exact ⟨hcall, hagree⟩

end Notations

end Query

end ResourceQuery
