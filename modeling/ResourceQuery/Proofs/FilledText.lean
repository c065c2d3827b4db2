import ResourceQuery.Proofs.PieceEnds

/-!
# Text that is filled by a phrase

That a printed piece reads back says that the tokens of its text are a phrase. Here is the other
direction: if a phrase begins where the text does, and ends in front of a token that may follow it,
then the phrase takes up the text, and what it means allows a conclusion about what was printed.
-/

namespace ResourceQuery

open Lexer Grammar Query

/-! ### Pieces -/

/-- The characters that may follow clauses. -/
def FollowsClauses (rest : List Char) : Prop :=
  ∀ c ∈ rest.head?, c ∈ [')', ',']

/-- The arguments of a function end here. -/
def FollowsArguments (rest : List Char) : Prop :=
  rest.head? = some ')'

theorem FollowsClauses.value {rest : List Char} (h : FollowsClauses rest) : FollowsValue rest := by
  have hclosers : ∀ c ∈ [')', ','], c ∈ closers := forall_mem_of_all (by decide)
  exact fun c hc ↦ hclosers c (h c hc)

theorem FollowsArguments.clauses {rest : List Char} (h : FollowsArguments rest) :
    FollowsClauses rest := by
  intro c hc
  obtain rfl : ')' = c := Option.some.inj (h.symm.trans hc)
  decide

namespace Symbol

/-- The arguments of a function end in front of the symbol. -/
def endsArguments : Symbol → Bool
  | closeParen => true
  | _ => false

theorem endsClauses_of_endsArguments {symbol : Symbol} (h : symbol.endsArguments = true) :
    symbol.endsClauses = true := by
  cases symbol <;> first | rfl | cases h

theorem endsValue_of_endsClauses {symbol : Symbol} (h : symbol.endsClauses = true) :
    symbol.endsValue = true := by
  cases symbol <;> first | rfl | cases h

end Symbol

/-- Where the text stands in front of something that may follow it, a phrase from its beginning up
to a token that may follow the phrase ends where the text does, and its meaning has the property. -/
def Fills {α : Type} (localOffset : UtcOffset) (follows : List Char → Prop) (ends : Symbol → Bool)
    (phrase : Phrase α) (P : α → Prop) (text : List Char) : Prop :=
  ∀ passed rest last tokens token more a, follows rest → ends token.symbol = true →
    Yields ⟨⟨passed, text ++ rest⟩, localOffset, last, false⟩ (tokens ++ token :: more) →
    phrase tokens a →
      P a ∧ ∃ last', Yields ⟨⟨text.reverse ++ passed, rest⟩, localOffset, last', false⟩
        (token :: more)

section Fills

variable {α β : Type} {localOffset : UtcOffset} {follows narrower : List Char → Prop}
  {ends fewer : Symbol → Bool} {phrase : Phrase α} {P : α → Prop} {text : List Char}
  {separator : Symbol} {sign : Char}

/-- What takes up the text as a phrase of one kind does so as a phrase of another kind. -/
theorem Fills.of_phrase {other : Phrase β} {Q : β → Prop}
    (h : Fills localOffset follows ends phrase P text)
    (hother : ∀ tokens b, other tokens b → ∃ a, phrase tokens a ∧ (P a → Q b)) :
    Fills localOffset follows ends other Q text := by
  intro passed rest last tokens token more b hrest htoken hyields hb
  obtain ⟨a, ha, hQ⟩ := hother tokens b hb
  obtain ⟨hP, hbehind⟩ := h passed rest last tokens token more a hrest htoken hyields ha
  exact ⟨hQ hP, hbehind⟩

theorem Fills.mono {Q : α → Prop} (h : Fills localOffset follows ends phrase P text)
    (hP : ∀ a, P a → Q a) : Fills localOffset follows ends phrase Q text :=
  h.of_phrase fun _ a ha ↦ ⟨a, ha, hP a⟩

theorem Fills.narrow (h : Fills localOffset follows ends phrase P text)
    (hfollows : ∀ rest, narrower rest → follows rest)
    (hends : ∀ symbol, fewer symbol = true → ends symbol = true) :
    Fills localOffset narrower fewer phrase P text :=
  fun passed rest last tokens token more a hrest htoken ↦
    h passed rest last tokens token more a (hfollows rest hrest) (hends _ htoken)

/-- What is read where the text may end is a token that a phrase may end in front of. -/
def Meets (localOffset : UtcOffset) (follows : List Char → Prop) (ends : Symbol → Bool) : Prop :=
  ∀ passed rest last token more, follows rest →
    Yields ⟨⟨passed, rest⟩, localOffset, last, false⟩ (token :: more) → ends token.symbol = true

theorem meets_clauses : Meets localOffset FollowsClauses Symbol.endsClauses := by
  intro passed rest last token more hrest h
  cases rest with
  | nil =>
    obtain ⟨lexer, hnext⟩ := h.next_eq
    cases hnext
    rfl
  | cons c rest =>
    have hc := hrest c rfl
    have hclosers : ∀ c ∈ [')', ','], Text.isBlank c = false ∧
        (Lexeme.single? c).any Symbol.endsClauses = true := forall_mem_of_all (by decide)
    obtain ⟨hblank, hsingle⟩ := hclosers c hc
    obtain ⟨symbol, hsymbol, hends⟩ := (Option.any_eq_true _ _).mp hsingle
    obtain ⟨lexeme, cursor, hscan, rfl, -⟩ := h.uncons hblank
    rw [Lexeme.eq_plain_of_single? hsymbol hscan]
    exact hends

theorem meets_arguments : Meets localOffset FollowsArguments Symbol.endsArguments := by
  intro passed rest last token more hrest h
  obtain ⟨rest, rfl⟩ := List.head?_eq_some_iff.mp hrest
  obtain ⟨hsymbol, -⟩ := uncons_single rfl (by decide) h
  rw [hsymbol]
  rfl

/-- Items with a sign between them. -/
theorem fills_separated {itemFollows : List Char → Prop} {itemEnds : Symbol → Bool}
    {item : Phrase β} {R : β → α → Prop} {texts : List String} {items : List α}
    (hsign : Lexeme.single? sign = some separator) (hblank : Text.isBlank sign = false)
    (hitemSign : ∀ rest, itemFollows (sign :: rest)) (hitemSeparator : itemEnds separator = true)
    (hfollows : ∀ rest, follows rest → itemFollows rest)
    (hends : ∀ symbol, ends symbol = true → itemEnds symbol = true)
    (hmeets : Meets localOffset follows ends) (hseparator : ends separator = false)
    (hne : items ≠ [])
    (h : List.Forall₂ (fun text a ↦
      Fills localOffset itemFollows itemEnds item (R · a) text.toList) texts items) :
    Fills localOffset follows ends (Separated separator item) (fun bs ↦ List.Forall₂ R bs items)
      (sign.toString.intercalate texts).toList := by
  have hnot {token : Token} (hsymbol : token.symbol = separator) :
      ends token.symbol ≠ true := by rw [hsymbol, hseparator]; decide
  -- texts and phrases run out together, as no token is both the separator and an end
  induction h with
  | nil => exact absurd rfl hne
  | @cons text a texts items ha hrest ih =>
    intro passed rest last tokens token more bs hrestText htoken hyields hbs
    obtain ⟨first, behind, b, others, rfl, rfl, hb, hcontinued⟩ := hbs.uncons
    rw [List.append_assoc] at hyields
    cases hrest with
    | nil =>
      rw [String.intercalate_singleton] at hyields ⊢
      cases hcontinued with
      | nil =>
        obtain ⟨hba, hbehind⟩ := ha passed rest last first token more b (hfollows rest hrestText)
          (hends _ htoken) hyields hb
        exact ⟨.cons hba .nil, hbehind⟩
      | @cons comma tokens items hcomma hitems =>
        obtain ⟨-, _, hbehind⟩ := ha passed rest last first comma _ b (hfollows rest hrestText)
          (hcomma ▸ hitemSeparator) hyields hb
        exact absurd (hmeets _ _ _ _ _ hrestText hbehind) (hnot hcomma)
    | @cons next c texts items hc hmore =>
      rw [toList_intercalate_cons, List.append_assoc] at hyields
      cases hcontinued with
      | nil =>
        obtain ⟨-, _, hbehind⟩ := ha passed _ last first token more b (hitemSign _)
          (hends _ htoken) hyields hb
        exact absurd htoken (hnot (uncons_single hsign hblank hbehind).1)
      | @cons comma tokens items hcomma hitems =>
        obtain ⟨hba, _, hbehind⟩ := ha passed _ last first comma _ b (hitemSign _)
          (hcomma ▸ hitemSeparator) hyields hb
        obtain ⟨-, hbehind⟩ := uncons_single hsign hblank hbehind
        obtain ⟨hall, hend⟩ := ih (by simp) _ rest _ tokens token more _ hrestText htoken hbehind
          hitems
        refine ⟨.cons hba hall, ?_⟩
        rw [toList_intercalate_cons]
        simpa using hend

/-! ### Functions -/

/-- Arguments that are all of one form. -/
theorem fills_arguments {item : Phrase β} {R : β → α → Prop} {texts : List String} {items : List α}
    (hne : items ≠ [])
    (h : List.Forall₂ (fun text a ↦
      Fills localOffset FollowsClauses Symbol.endsClauses item (R · a) text.toList) texts items) :
    Fills localOffset FollowsArguments Symbol.endsArguments (Separated .comma item)
      (fun bs ↦ List.Forall₂ R bs items) (commas texts).toList := by
  have hcomma : Lexeme.single? ',' = some .comma := rfl
  have hfollows (rest : List Char) : FollowsClauses (',' :: rest) := by
    rintro _ ⟨⟩
    decide
  have hitems := fills_separated hcomma (by decide) hfollows rfl (fun _ ↦ FollowsArguments.clauses)
    (fun _ ↦ Symbol.endsClauses_of_endsArguments) meets_arguments rfl hne h
  exact hitems

/-- A phrase, a comma and another phrase. -/
def Pair (first : Phrase α) (second : Phrase β) : Phrase (α × β) :=
  fun tokens pair ↦ ∃ front comma behind, tokens = front ++ comma :: behind ∧
    comma.symbol = .comma ∧ first front pair.1 ∧ second behind pair.2

/-- An argument in front of others. -/
theorem fills_pair {second : Phrase β} {R : β → Prop} {first : String} {texts : List String}
    (hne : texts ≠ [])
    (hfirst : Fills localOffset FollowsClauses Symbol.endsClauses phrase P first.toList)
    (hsecond : Fills localOffset FollowsArguments Symbol.endsArguments second R
      (commas texts).toList) :
    Fills localOffset FollowsArguments Symbol.endsArguments (Pair phrase second)
      (fun pair ↦ P pair.1 ∧ R pair.2) (commas (first :: texts)).toList := by
  rintro passed rest last _ token more ⟨a, b⟩ hrest htoken hyields
    ⟨front, comma, behind, rfl, hcomma, ha, hb⟩
  have hfollows : FollowsClauses (',' :: ((commas texts).toList ++ rest)) := by
    rintro _ ⟨⟩
    decide
  have hends : comma.symbol.endsClauses = true := by
    rw [hcomma]
    rfl
  have htext := toList_commas_cons first hne
  rw [htext, List.append_assoc, List.append_assoc] at hyields
  obtain ⟨hP, _, hyields⟩ := hfirst _ _ _ _ _ _ _ hfollows hends hyields ha
  obtain ⟨-, hyields⟩ := uncons_single rfl (by decide) hyields
  obtain ⟨hR, hbehind⟩ := hsecond _ _ _ _ _ _ _ hrest htoken hyields hb
  refine ⟨⟨hP, hR⟩, ?_⟩
  rw [htext]
  simpa using hbehind

/-- Where the text of a function comes next, its name and its parenthesis are read first. -/
theorem uncons_printCall {keyword : Keyword} {arguments : List String} {passed rest : List Char}
    {last : Option Symbol} {name : Token} {tokens : List Token}
    (h : Yields ⟨⟨passed, (printCall keyword.name arguments).toList ++ rest⟩, localOffset, last,
      false⟩ (name :: tokens)) :
    name.symbol = .function keyword ∧
      Yields ⟨⟨keyword.name.toList.reverse ++ passed,
        '(' :: ((commas arguments).toList ++ ')' :: rest)⟩, localOffset,
        some (.function keyword), false⟩ tokens := by
  rw [toList_printCall, List.append_assoc, List.cons_append, List.append_assoc,
    List.singleton_append] at h
  exact (denotes_name localOffset keyword).uncons rfl rfl h

theorem fills_call {keyword : Keyword} {arguments : List String}
    (h : Fills localOffset FollowsArguments Symbol.endsArguments phrase P
      (commas arguments).toList) :
    Fills localOffset follows ends (Call phrase keyword) P
      (printCall keyword.name arguments).toList := by
  rintro passed rest last _ token more a hrest htoken hyields
    ⟨hname, hopening, hphrase, hclosing⟩
  simp only [List.cons_append, List.append_assoc, List.nil_append] at hyields
  obtain ⟨-, hyields⟩ := uncons_printCall hyields
  obtain ⟨-, hyields⟩ := uncons_single rfl (by decide) hyields
  have hfollows : FollowsArguments (')' :: rest) := rfl
  have hends : Symbol.endsArguments _ = true := congrArg Symbol.endsArguments hclosing
  obtain ⟨hP, _, hyields⟩ := h _ _ _ _ _ _ _ hfollows hends hyields hphrase
  obtain ⟨-, hyields⟩ := uncons_single rfl (by decide) hyields
  refine ⟨hP, some .closeParen, ?_⟩
  rw [toList_printCall]
  simpa using hyields

/-- A term that begins with the name of a function is that function. -/
theorem call_of_term {keyword : Keyword} {tokens more : List Token} {query : Query}
    (h : Term tokens query) (hhead : Parse.headSymbol (tokens ++ more) = .function keyword) :
    Call (Arguments keyword) keyword tokens query ∨
      ∃ joiner queries, keyword = .group joiner ∧ query = group joiner queries ∧
        Call (Separated .comma Clauses) keyword tokens queries := by
  cases h with
  | within hopening =>
    rw [List.cons_append, List.cons_append, Parse.headSymbol_cons, hopening] at hhead
    cases hhead
  | @comparison _ second sign _ _ _ hsubject =>
    rw [List.append_assoc] at hhead
    obtain h | h := Parse.head_subject hsubject (sign :: second ++ more) <;> rw [h] at hhead <;>
      cases hhead
  | function hcall =>
    rw [Parse.head_call hcall] at hhead
    cases hhead
    exact .inl hcall
  | group hname hopening hpieces hqueries hclosing =>
    obtain rfl := Symbol.function.inj (hname.symm.trans hhead)
    exact .inr ⟨_, _, rfl, rfl, .intro hname hopening ⟨_, hpieces, hqueries⟩ hclosing⟩

/-- A term that begins neither with a parenthesis nor with a function is a comparison. -/
theorem comparison_of_term {tokens more : List Token} {query : Query} (h : Term tokens query)
    (hopens : (Parse.headSymbol (tokens ++ more)).opens = false) :
    ∃ first sign second op property value, tokens = first ++ sign :: second ∧
      query = compare op property value ∧ Subject first property ∧
      sign.symbol = .comparison op ∧ Operand second value := by
  cases h with
  | within hopening =>
    rw [List.cons_append, List.cons_append, Parse.headSymbol_cons, hopening] at hopens
    cases hopens
  | comparison hsubject hsign hoperand =>
    exact ⟨_, _, _, _, _, _, rfl, rfl, hsubject, hsign, hoperand⟩
  | function hcall =>
    rw [Parse.head_call hcall] at hopens
    cases hopens
  | group hname =>
    rw [List.cons_append, List.cons_append, Parse.headSymbol_cons, hname] at hopens
    cases hopens

theorem head_printCall {keyword : Keyword} {arguments : List String} {passed rest : List Char}
    {last : Option Symbol} {tokens : List Token}
    (h : Yields ⟨⟨passed, (printCall keyword.name arguments).toList ++ rest⟩, localOffset, last,
      false⟩ tokens) : Parse.headSymbol tokens = .function keyword := by
  cases tokens with
  | nil => cases h
  | cons name tokens => exact (uncons_printCall h).1

/-- A function other than a group. -/
theorem fills_function (keyword : Keyword) {name : String} {arguments : List String}
    {P : Query → Prop} (hname : keyword.name = name) (hkeyword : ∀ joiner, keyword ≠ .group joiner)
    (h : Fills localOffset FollowsArguments Symbol.endsArguments (Arguments keyword) P
      (commas arguments).toList) :
    Fills localOffset follows ends Term P (printCall name arguments).toList := by
  subst hname
  intro passed rest last tokens token more query hrest htoken hyields hterm
  obtain hcall | ⟨joiner, _, rfl, -⟩ := call_of_term hterm (head_printCall hyields)
  · exact fills_call h passed rest last tokens token more query hrest htoken hyields hcall
  · exact absurd rfl (hkeyword joiner)

/-! ### Groups -/

section Group

variable {joiner : Joiner} {terms : List Query} {texts : List String} {R : Query → Query → Prop}

/-- A single term is no joined ones. -/
theorem fills_clauses_of_term {P : Query → Prop}
    (h : Fills localOffset FollowsValue Symbol.endsValue Term P text) :
    Fills localOffset FollowsClauses Symbol.endsClauses Clauses P text := by
  intro passed rest last tokens token more query hrest htoken hyields hclauses
  cases hclauses with
  | term hterm =>
    exact h passed rest last tokens token more query hrest.value
      (Symbol.endsValue_of_endsClauses htoken) hyields hterm
  | @joined _ joiner pieces queries hpieces hterms hmany =>
    obtain ⟨first, behind, query, others, rfl, rfl, hfirst, hcontinued⟩ :=
      Separated.uncons ⟨pieces, hpieces, hterms⟩
    cases hcontinued with
    | nil => simp at hmany
    | @cons sign tokens items hsign hitems =>
      have hends : sign.symbol.endsValue = true := by
        rw [hsign]
        rfl
      rw [List.append_assoc] at hyields
      obtain ⟨-, _, hbehind⟩ := h _ _ _ _ _ _ _ hrest.value hends hyields hfirst
      have hmeets := meets_clauses _ _ _ _ _ hrest hbehind
      rw [hsign] at hmeets
      cases hmeets

theorem not_arguments_group {tokens : List Token} {query : Query} :
    ¬Arguments (.group joiner) tokens query := nofun

theorem fills_groupCall (hne : terms ≠ [])
    (h : List.Forall₂ (fun text term ↦ Fills localOffset FollowsClauses Symbol.endsClauses Clauses
      (R · term) text.toList) texts terms) :
    Fills localOffset follows ends Term
      (fun read ↦ ∃ reads, read = group joiner reads ∧ List.Forall₂ R reads terms)
      (printCall joiner.name texts).toList := by
  have hname : joiner.name = (Keyword.group joiner).name := rfl
  have harguments := fills_arguments hne h
  rw [hname]
  intro passed rest last tokens token more query hrest htoken hyields hterm
  obtain hcall | ⟨other, queries, hother, rfl, hcall⟩ :=
    call_of_term hterm (head_printCall hyields)
  · obtain ⟨-, -, hgroup, -⟩ := hcall
    exact absurd hgroup not_arguments_group
  · cases hother
    obtain ⟨hall, hbehind⟩ := fills_call harguments passed rest last tokens token more queries hrest
      htoken hyields hcall
    exact ⟨⟨queries, rfl, hall⟩, hbehind⟩

/-- Terms with a sign between them. -/
theorem fills_joined (hmany : 1 < terms.length)
    (h : List.Forall₂ (fun text term ↦ Fills localOffset FollowsValue Symbol.endsValue Term
      (R · term) text.toList) texts terms) :
    Fills localOffset FollowsClauses Symbol.endsClauses Clauses
      (fun read ↦ ∃ reads, read = group joiner reads ∧ List.Forall₂ R reads terms)
      (joiner.sign.toString.intercalate texts).toList := by
  have hsign : Lexeme.single? joiner.sign = some (.joiner joiner) := by cases joiner <;> rfl
  have hblank : Text.isBlank joiner.sign = false := by cases joiner <;> decide
  have hfollows (rest : List Char) : FollowsValue (joiner.sign :: rest) := by
    rintro _ ⟨⟩
    cases joiner <;> decide
  have hterms : Fills localOffset FollowsClauses Symbol.endsClauses
      (Separated (.joiner joiner) Term) (fun reads ↦ List.Forall₂ R reads terms)
      (joiner.sign.toString.intercalate texts).toList :=
    fills_separated hsign hblank hfollows rfl (fun _ ↦ FollowsClauses.value)
      (fun _ ↦ Symbol.endsValue_of_endsClauses) meets_clauses rfl
      (List.ne_nil_of_length_pos (by omega)) h
  -- what follows the first term is the sign
  have hfirst {passed rest : List Char} {last : Option Symbol} {tokens more : List Token}
      {token : Token} {query : Query} (hends : token.symbol.endsValue = true)
      (hyields : Yields ⟨⟨passed, (joiner.sign.toString.intercalate texts).toList ++ rest⟩,
        localOffset, last, false⟩ (tokens ++ token :: more)) (hterm : Term tokens query) :
      token.symbol = .joiner joiner := by
    cases h with
    | nil => simp at hmany
    | @cons text term texts terms ha hrest =>
      cases hrest with
      | nil => simp at hmany
      | cons =>
        rw [toList_intercalate_cons, List.append_assoc] at hyields
        obtain ⟨-, _, hbehind⟩ := ha _ _ _ _ _ _ _ (hfollows _) hends hyields hterm
        exact (uncons_single hsign hblank hbehind).1
  intro passed rest last tokens token more query hrest htoken hyields hclauses
  cases hclauses with
  | term hterm =>
    rw [hfirst (Symbol.endsValue_of_endsClauses htoken) hyields hterm] at htoken
    cases htoken
  | @joined _ other pieces queries hpieces hall hothers =>
    obtain ⟨first, behind, query, others, rfl, rfl, hterm, hcontinued⟩ :=
      Separated.uncons ⟨pieces, hpieces, hall⟩
    cases hcontinued with
    | nil => simp at hothers
    | @cons sign tokens items hsymbol hitems =>
      have hends : sign.symbol.endsValue = true := by
        rw [hsymbol]
        rfl
      obtain rfl : other = joiner := by
        rw [List.append_assoc] at hyields
        exact Symbol.joiner.inj (hsymbol.symm.trans (hfirst hends hyields hterm))
      obtain ⟨hread, hbehind⟩ := hterms _ _ _ _ _ _ _ hrest htoken hyields ⟨pieces, hpieces, hall⟩
      exact ⟨⟨_, rfl, hread⟩, hbehind⟩

/-- No path with a comma or a closing parenthesis behind it begins where the text does. -/
def OpensNoPath (localOffset : UtcOffset) (text : List Char) : Prop :=
  ∀ passed rest last tokens token more property,
    Yields ⟨⟨passed, text ++ rest⟩, localOffset, last, false⟩ (tokens ++ token :: more) →
      Grammar.Path tokens property → token.symbol.endsClauses = false

theorem OpensNoPath.append (h : OpensNoPath localOffset text) (more : List Char) :
    OpensNoPath localOffset (text ++ more) := by
  intro passed rest last tokens token others property hyields hpath
  rw [List.append_assoc] at hyields
  exact h passed (more ++ rest) last tokens token others property hyields hpath

theorem opensNoPath_of_head {symbol : Symbol} (hsymbol : symbol ≠ .property)
    (h : ∀ passed rest last tokens,
      Yields ⟨⟨passed, text ++ rest⟩, localOffset, last, false⟩ tokens →
        Parse.headSymbol tokens = symbol) : OpensNoPath localOffset text := by
  intro passed rest last tokens token more property hyields hpath
  have hhead := h _ _ _ _ hyields
  rw [Parse.head_path hpath] at hhead
  exact absurd hhead.symm hsymbol

/-- Clauses within parentheses. -/
theorem fills_within {P : Query → Prop} {text : String}
    (hopens : OpensNoPath localOffset text.toList)
    (h : Fills localOffset FollowsClauses Symbol.endsClauses Clauses P text.toList) :
    Fills localOffset follows ends Term P ("(" ++ text ++ ")").toList := by
  have htext (rest : List Char) :
      ("(" ++ text ++ ")").toList ++ rest = '(' :: (text.toList ++ ')' :: rest) := by simp
  intro passed rest last tokens token more query hrest htoken hyields hterm
  rw [htext] at hyields
  have hhead : Parse.headSymbol (tokens ++ token :: more) = .openParen := by
    cases htokens : tokens ++ token :: more with
    | nil => simp at htokens
    | cons first others =>
      rw [htokens] at hyields
      exact (uncons_single rfl (by decide) hyields).1
  cases hterm with
  | @within opening closing tokens _ hopening hclauses hclosing =>
    simp only [List.cons_append, List.append_assoc, List.nil_append] at hyields
    obtain ⟨-, hyields⟩ := uncons_single rfl (by decide) hyields
    have hfollows : FollowsArguments (')' :: rest) := rfl
    have hends : closing.symbol.endsClauses = true := congrArg Symbol.endsClauses hclosing
    obtain ⟨hP, _, hyields⟩ := h _ _ _ _ _ _ _ hfollows.clauses hends hyields hclauses
    obtain ⟨-, hyields⟩ := uncons_single rfl (by decide) hyields
    exact ⟨hP, some .closeParen, by simpa using hyields⟩
  | @comparison _ second sign _ _ _ hsubject hsign hoperand =>
    cases hsubject with
    | path hpath =>
      rw [List.append_assoc, Parse.head_path hpath] at hhead
      cases hhead
    | @compound opening closing tokens parts hopening hparts hclosing =>
      -- behind the first path of a compound subject there is a comma or a closing parenthesis
      obtain ⟨first, behind, _, _, rfl, -, hfirst, hcontinued⟩ := hparts.uncons
      simp only [List.cons_append, List.append_assoc, List.nil_append] at hyields
      obtain ⟨-, hyields⟩ := uncons_single rfl (by decide) hyields
      cases hcontinued with
      | nil =>
        have hno := hopens _ _ _ _ _ _ _ hyields hfirst
        rw [hclosing] at hno
        cases hno
      | cons hcomma hitems =>
        have hno := hopens _ _ _ _ _ _ _ hyields hfirst
        rw [hcomma] at hno
        cases hno
  | function hcall =>
    rw [Parse.head_call hcall] at hhead
    cases hhead
  | group hname =>
    rw [List.cons_append, List.cons_append, Parse.headSymbol_cons, hname] at hhead
    cases hhead

end Group

end Fills

end ResourceQuery
