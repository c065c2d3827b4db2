import ResourceQuery.Proofs.Conservation
import ResourceQuery.Proofs.LocalOffset
import ResourceQuery.Proofs.Relocation
import ResourceQuery.Proofs.RoundTrip
import ResourceQuery.Proofs.Undated

/-!
# Reading under another local offset

A tree holds the local dates of its text in their order, through parsing and consolidation. Together
with what a local offset changes about tokens this tells what it changes about the whole reading:
nothing about errors, shape, properties and other values, and of the local dates those that are
written without a zone, by the difference of the offsets.
-/

namespace ResourceQuery

open Grammar

def Value.localDate? : Value → Option Moment
  | moment instant => if instant.anchor = .local then some instant else none
  | _ => none

/-- The local date that the token is, if it is one. -/
def Token.localDate? (token : Token) : Option Moment :=
  match token.symbol with
  | .literal => token.value.bind Value.localDate?
  | _ => none

/-- The local dates among the values of a tree, from left to right. -/
def Query.localDates (query : Query) : List Moment :=
  query.preorder.flatMap fun node ↦ node.operands.filterMap Value.localDate?

/-! ### The dates of sentences -/

namespace Grammar

variable {tokens : List Token}

def localDates (tokens : List Token) : List Moment :=
  tokens.filterMap Token.localDate?

theorem localDates_append (tokens more : List Token) :
    localDates (tokens ++ more) = localDates tokens ++ localDates more :=
  List.filterMap_append

theorem localDates_cons {token : Token} (h : token.symbol ≠ .literal) (tokens : List Token) :
    localDates (token :: tokens) = localDates tokens := by
  have hnone : token.localDate? = none := by
    unfold Token.localDate?
    split
    · next heq => exact absurd heq h
    · rfl
  exact List.filterMap_cons_none hnone

theorem localDates_cons_append_singleton {opening closing : Token} (h : opening.symbol ≠ .literal)
    (h' : closing.symbol ≠ .literal) (tokens : List Token) :
    localDates (opening :: tokens ++ [closing]) = localDates tokens := by
  rw [List.cons_append, localDates_cons h, localDates_append, localDates_cons h']
  exact List.append_nil _

section Items

variable {α : Type} {separator : Symbol} {item : Phrase α} {items : List α}
  {dates : α → List Moment}

/-- If the dates of each item are those of its tokens, then so are the dates of all items. -/
theorem Separated.localDates_eq (h : Separated separator item tokens items)
    (hseparator : separator ≠ .literal)
    (hitem : ∀ piece a, item piece a → localDates piece = dates a) :
    localDates tokens = items.flatMap dates := by
  obtain ⟨pieces, hpieces, hall⟩ := h
  induction hpieces generalizing items with
  | single piece =>
    obtain - | ⟨hfirst, hnil⟩ := hall
    cases hnil
    rw [List.flatMap_singleton]
    exact hitem _ _ hfirst
  | @cons piece tokens sign pieces hsign hrest ih =>
    obtain - | ⟨hfirst, hmore⟩ := hall
    rw [localDates_append, localDates_cons (hsign ▸ hseparator), List.flatMap_cons,
      hitem _ _ hfirst, ih hmore]

theorem Continued.localDates_eq (h : Continued separator item tokens items)
    (hseparator : separator ≠ .literal)
    (hitem : ∀ piece a, item piece a → localDates piece = dates a) :
    localDates tokens = items.flatMap dates := by
  cases h with
  | nil => rfl
  | cons hsign hitems =>
    rw [localDates_cons (hsign ▸ hseparator), hitems.localDates_eq hseparator hitem]

/-- The tokens of the phrase are no dates. -/
def Dateless (phrase : Phrase α) : Prop :=
  ∀ tokens a, phrase tokens a → localDates tokens = []

theorem Dateless.separated (h : Dateless item) (hseparator : separator ≠ .literal) :
    Dateless (Separated separator item) := by
  intro tokens items hitems
  have hnone : localDates tokens = items.flatMap fun _ ↦ [] := hitems.localDates_eq hseparator h
  rw [hnone, List.flatMap_eq_nil_iff]
  exact fun _ _ ↦ rfl

theorem Dateless.continued (h : Dateless item) (hseparator : separator ≠ .literal) :
    Dateless (Continued separator item) := by
  intro tokens items hitems
  have hnone : localDates tokens = items.flatMap fun _ ↦ [] := hitems.localDates_eq hseparator h
  rw [hnone, List.flatMap_eq_nil_iff]
  exact fun _ _ ↦ rfl

theorem Dateless.call {keyword : Keyword} (h : Dateless item) : Dateless (Call item keyword) := by
  rintro _ _ ⟨hname, hopening, harguments, hclosing⟩
  rw [List.cons_append, localDates_cons (by simp [hname]),
    localDates_cons_append_singleton (by simp [hopening]) (by simp [hclosing])]
  exact h _ _ harguments

end Items

theorem dateless_word : Dateless Word := by
  rintro _ _ ⟨hword⟩
  exact localDates_cons (by simp [hword]) []

theorem dateless_number {number : Token} {value : Value} {n : Int}
    (hsymbol : number.symbol = .literal) (hvalue : number.value = some value)
    (hinteger : value.integer? = some n) : localDates [number] = [] := by
  have hnone : number.localDate? = none := by
    rw [Token.localDate?, hsymbol, hvalue]
    cases value <;> first | rfl | cases hinteger
  exact List.filterMap_cons_none hnone

theorem dateless_segment : Dateless Segment := by
  rintro tokens path (⟨hword⟩ | ⟨hsymbol, hvalue⟩)
  · exact dateless_word _ _ hword
  · exact dateless_number hsymbol hvalue rfl

theorem dateless_path : Dateless Path := by
  rintro _ _ ⟨hword, hrest⟩
  rw [localDates_append, dateless_word _ _ hword,
    dateless_segment.continued (by decide) _ _ hrest]
  rfl

theorem dateless_subject : Dateless Subject := by
  rintro tokens property (⟨hpath⟩ | ⟨hopening, hparts, hclosing⟩)
  · exact dateless_path _ _ hpath
  · rw [localDates_cons_append_singleton (by simp [hopening]) (by simp [hclosing])]
    exact dateless_path.separated (by decide) _ _ hparts

theorem dateless_bareWord : Dateless BareWord := by
  rintro _ _ ⟨hword⟩
  exact localDates_cons (by simp [hword]) []

theorem Operand.localDates_eq {value : Value} (h : Operand tokens value) :
    localDates tokens = value.localDate?.toList := by
  cases h with
  | @literal literal value hsymbol hvalue =>
    have hdate : literal.localDate? = value.localDate? := by
      rw [Token.localDate?, hsymbol, hvalue]
      rfl
    cases hvalue : value.localDate? with
    | none => exact List.filterMap_cons_none (hdate.trans hvalue)
    | some date => exact List.filterMap_cons_some (hdate.trans hvalue)
  | bare hwords => exact dateless_bareWord.separated (by decide) _ _ hwords
  | signed hsign hwords =>
    rw [localDates_cons (by simp [hsign])]
    exact dateless_bareWord.separated (by decide) _ _ hwords

theorem dateless_count : Dateless Count := by
  rintro _ _ ⟨hsymbol, hvalue, hinteger, -, -⟩
  exact dateless_number hsymbol hvalue hinteger

theorem dateless_range : Dateless Range := by
  rintro _ _ (⟨hcount⟩ | ⟨hstart, hcomma, hcount⟩)
  · exact dateless_count _ _ hcount
  · rw [localDates_append, localDates_cons (by simp [hcomma]), dateless_count _ _ hstart,
      dateless_count _ _ hcount]
    rfl

theorem dateless_key : Dateless Key := by
  rintro _ _ (⟨hsubject⟩ | ⟨hsign, hsubject⟩)
  · exact dateless_subject _ _ hsubject
  · rw [localDates_cons (by simp [hsign])]
    exact dateless_subject _ _ hsubject

theorem dateless_counted : Dateless Counted := by
  rintro _ _ (_ | ⟨hsubject⟩)
  · rfl
  · exact dateless_subject _ _ hsubject

theorem dateless_aggregateItem : Dateless AggregateItem := by
  rintro _ _ (⟨hsubject⟩ | ⟨hcall⟩ | ⟨hcall⟩)
  · exact dateless_subject _ _ hsubject
  · exact dateless_subject.call _ _ hcall
  · exact dateless_counted.call _ _ hcall

end Grammar

namespace Query

theorem localDates_eq_append (query : Query) :
    query.localDates =
      query.operands.filterMap Value.localDate? ++ query.nodes.flatMap localDates := by
  rw [localDates, preorder_eq_cons, List.flatMap_cons, List.flatMap_assoc]
  rfl

theorem localDates_group (joiner : Joiner) (terms : List Query) :
    (group joiner terms).localDates = terms.flatMap localDates :=
  localDates_eq_append _

theorem localDates_of_leaf {query : Query} (h : query.nodes = []) :
    query.localDates = query.operands.flatMap fun value ↦ value.localDate?.toList := by
  rw [localDates_eq_append, h, List.flatMap_nil, List.append_nil, List.filterMap_eq_flatMap_toList]

theorem localDates_of_isFunction {query : Query} (h : query.isFunction = true) :
    query.localDates = [] := by
  cases query <;> first | rfl | cases h

end Query

namespace Grammar

variable {tokens : List Token} {query : Query}

theorem Arguments.localDates_eq {keyword : Keyword} (h : Arguments keyword tokens query) :
    localDates tokens = query.localDates := by
  cases h with
  | limit hrange => exact dateless_range _ _ hrange
  | select hproperties => exact dateless_subject.separated (by decide) _ _ hproperties
  | sort hkeys => exact dateless_key.separated (by decide) _ _ hkeys
  | compare hsubject hcomma hoperand =>
    rw [localDates_append, localDates_cons (by simp [hcomma]), dateless_subject _ _ hsubject,
      hoperand.localDates_eq, Query.localDates_of_leaf rfl]
    exact (List.flatMap_singleton _ _).symm
  | pattern hsubject hcomma hoperand =>
    rw [localDates_append, localDates_cons (by simp [hcomma]), dateless_subject _ _ hsubject,
      hoperand.localDates_eq, Query.localDates_of_leaf rfl]
    exact (List.flatMap_singleton _ _).symm
  | membership hsubject hcomma hentries =>
    rw [localDates_append, localDates_cons (by simp [hcomma]), dateless_subject _ _ hsubject,
      hentries.localDates_eq (by decide) fun _ _ ↦ Operand.localDates_eq,
      Query.localDates_of_leaf rfl]
    rfl
  | distinct => rfl
  | first => rfl
  | one => rfl
  | count hcounted => exact dateless_counted _ _ hcounted
  | values hsubject => exact dateless_subject _ _ hsubject
  | summary hsubject => exact dateless_subject _ _ hsubject
  | @aggregate _ groups functions hitems =>
    cases (Arguments.aggregate hitems).wellFormed with
    | aggregate hne hfunctions =>
      rw [dateless_aggregateItem.separated (by decide) _ _ hitems, Query.localDates_eq_append]
      refine (List.flatMap_eq_nil_iff.mpr fun function hmem ↦ ?_).symm
      exact Query.localDates_of_isFunction (hfunctions function hmem)

/-- The dates of a term are those of its tokens if this is so of the clauses inside of it. -/
theorem Term.localDates_eq_of_inner (h : Term tokens query)
    (hinner : ∀ inner query, inner.length < tokens.length → Clauses inner query →
      localDates inner = query.localDates) : localDates tokens = query.localDates := by
  cases h with
  | within hopening hclauses hclosing =>
    rw [localDates_cons_append_singleton (by simp [hopening]) (by simp [hclosing])]
    exact hinner _ _ (by simp) hclauses
  | comparison hsubject hsign hoperand =>
    rw [localDates_append, localDates_cons (by simp [hsign]), dateless_subject _ _ hsubject,
      hoperand.localDates_eq, Query.localDates_of_leaf rfl]
    exact (List.flatMap_singleton _ _).symm
  | function hcall =>
    obtain ⟨hname, hopening, harguments, hclosing⟩ := hcall
    rw [List.cons_append, localDates_cons (by simp [hname]),
      localDates_cons_append_singleton (by simp [hopening]) (by simp [hclosing])]
    exact harguments.localDates_eq
  | @group name opening closing _ inner pieces queries hname hopening hpieces hqueries hclosing =>
    have hseparated : Separated .comma Clauses inner queries := ⟨pieces, hpieces, hqueries⟩
    rw [List.cons_append, localDates_cons (by simp [hname]),
      localDates_cons_append_singleton (by simp [hopening]) (by simp [hclosing]),
      Query.localDates_group]
    refine hseparated.bounded.localDates_eq (by decide) fun piece query h ↦ ?_
    refine hinner piece query ?_ h.1
    rw [List.cons_append, List.length_cons, List.length_append, List.length_cons]
    omega

theorem Clauses.localDates_eq (h : Clauses tokens query) :
    localDates tokens = query.localDates := by
  induction hlength : tokens.length using Nat.strongRecOn generalizing tokens query with
  | ind length ih =>
    have hterm (piece : List Token) (query : Query)
        (h : Term piece query ∧ piece.length ≤ tokens.length) :
        localDates piece = query.localDates :=
      h.1.localDates_eq_of_inner fun inner query hshorter hclauses ↦
        ih inner.length (by omega) hclauses rfl
    cases h with
    | term hone => exact hterm tokens query ⟨hone, Nat.le_refl _⟩
    | joined hpieces hterms hmany =>
      have hseparated : Separated _ Term tokens _ := ⟨_, hpieces, hterms⟩
      rw [Query.localDates_group]
      exact hseparated.bounded.localDates_eq (by simp) hterm

theorem Sentence.localDates_eq (h : Sentence tokens query) :
    localDates tokens = query.localDates := by
  cases h with
  | empty hstop => exact localDates_cons (by simp [hstop]) []
  | clauses hclauses hstop =>
    rw [localDates_append, localDates_cons (by simp [hstop]), hclauses.localDates_eq]
    exact List.append_nil _

end Grammar

/-! ### The dates of trees that are read -/

namespace Query

theorem gathers_localDates : Gathers localDates where
  noop := rfl
  of_group := localDates_group

section Fold

variable {β : Type} {collect : Query → List β} {operation : Operation} {terms pending : List Query}
  {folding : Folding}

/-- Where nothing is collected from the clauses that are folded, nothing is lost or moved. -/
theorem Gathers.flatMap_folds (h : Gathers collect)
    (hclauses : ∀ clause : Query, clause.operation = operation → collect clause = [])
    (hfolds : Folds operation terms pending folding) :
    folding.kept.flatMap collect = terms.flatMap collect := by
  induction hfolds with
  | nil => rfl
  | cons _ _ ihfirst ihrest =>
    rw [List.flatMap_append, ihfirst, ihrest, ← List.flatMap_append]
    rfl
  | rejoined _ ih =>
    rw [h.filter_isNoop, List.flatMap_singleton, List.flatMap_singleton, h.join, h.of_group]
    exact ih
  | unchanged _ ih =>
    rw [List.flatMap_singleton, List.flatMap_singleton, h.of_group, h.of_group]
    exact ih
  | other => rfl
  | replaced _ hoperation htake =>
    have hclause := operation_eq_of_sameKind (takeKind_eq_some htake).1
    rw [List.flatMap_singleton, List.flatMap_singleton, hclauses _ hoperation,
      hclauses _ (hclause.trans hoperation)]
  | dropped _ hoperation =>
    rw [List.flatMap_singleton, hclauses _ hoperation]
    rfl

theorem Gathers.foldSpine_eq (h : Gathers collect)
    (hclauses : ∀ clause : Query, clause.operation = operation → collect clause = [])
    (query : Query) : collect (query.foldSpine operation) = collect query := by
  by_cases hgroup : ∃ terms, query = group .and terms
  · obtain ⟨terms, rfl⟩ := hgroup
    have hfolds := folds_foldAll operation ((group .and terms).spineUnion operation) terms
    rw [foldSpine, apply_ite collect, h.join, h.flatMap_folds hclauses hfolds, h.of_group, ite_self]
  · rw [foldSpine_of_ne fun terms heq ↦ hgroup ⟨terms, heq⟩]

end Fold

theorem localDates_of_finish {options : ReadOptions} {query finished : Query}
    (h : finish options query = .ok finished) : finished.localDates = query.localDates := by
  have hselect (clause : Query) (hclause : clause.operation = .clause .select) :
      clause.localDates = [] := by cases clause <;> first | rfl | cases hclause
  have hsort (clause : Query) (hclause : clause.operation = .clause .sort) :
      clause.localDates = [] := by cases clause <;> first | rfl | cases hclause
  obtain ⟨-, rfl⟩ := finish_eq_ok h
  split
  · rw [gathers_localDates.foldSpine_eq hsort, gathers_localDates.foldSpine_eq hselect]
  · rfl

end Query

namespace Lexer

/-- The tokens of a text are ended by the only end among them. -/
theorem exists_stop_of_yields {lexer : Lexer} {tokens : List Token} (h : Yields lexer tokens) :
    ∃ inner stop, tokens = inner ++ [stop] ∧ stop.symbol = .stop ∧
      ∀ token ∈ inner, token.symbol ≠ .stop := by
  induction h with
  | stop _ hstop => exact ⟨[], _, rfl, hstop, by simp⟩
  | @more _ _ token _ _ hsymbol _ ih =>
    obtain ⟨inner, stop, rfl, hstop, hinner⟩ := ih
    exact ⟨token :: inner, stop, rfl, hstop, List.forall_mem_cons.mpr ⟨hsymbol, hinner⟩⟩

end Lexer

namespace Query

/-- A tree that is read holds the local dates of the text, in their order. -/
theorem localDates_of_ofTokens {options : ReadOptions} {text : List Char} {localOffset : UtcOffset}
    {tokens : List Token} {tree : Query} (htokens : Lexer.scan text localOffset = .ok ⟨tokens⟩)
    (h : ofTokens options ⟨tokens⟩ = .ok tree) :
    tree.localDates = tokens.filterMap Token.localDate? := by
  have hvalued := Lexer.literalsValued_of_scan htokens
  obtain ⟨inner, stop, rfl, hstop, hinner⟩ :=
    Lexer.exists_stop_of_yields (Lexer.scan_eq_ok_iff.mp htokens)
  rw [ofTokens, next] at h
  cases hparse : Parse.query (.ofQueue ⟨inner ++ [stop]⟩) with
  | error error rest =>
    rw [hparse] at h
    cases h
  | ok parsed rest =>
    rw [hparse] at h
    have hsentence := Parse.sentence_of_query_eq_ok hinner hstop hvalued hparse
    rw [localDates_of_finish h, ← hsentence.localDates_eq]
    rfl

end Query

/-! ### Readings under two local offsets -/

variable {o o' : UtcOffset}

theorem Value.undated_rebase (value : Value) (zoned : Bool) :
    (value.rebase o o' zoned).undated = value.undated := by
  cases value with
  | moment instant =>
    by_cases h : instant.anchor = .local <;> simp [rebase, undated, h, Moment.rebase]
  | _ => rfl

theorem Value.localDate?_rebase (value : Value) (zoned : Bool) :
    (value.rebase o o' zoned).localDate? = value.localDate?.map (Moment.rebase o o' zoned) := by
  cases value with
  | moment instant =>
    by_cases h : instant.anchor = .local <;> simp [rebase, localDate?, h, Moment.rebase]
  | _ => rfl

theorem Token.undated_rebase (token : Token) : (token.rebase o o').undated = token.undated := by
  obtain ⟨symbol, value, text, position⟩ := token
  cases value with
  | none => rfl
  | some value => simp [rebase, undated, Value.undated_rebase]

theorem Token.localDate?_rebase (token : Token) :
    (token.rebase o o').localDate? =
      token.localDate?.map (Moment.rebase o o' token.namesZone) := by
  obtain ⟨symbol, value, text, position⟩ := token
  cases symbol with
  | literal =>
    cases value with
    | none => rfl
    | some value => exact value.localDate?_rebase _
  | _ => rfl

namespace Query

/-- Behind the tokens the local offset has no part in the reading of a query. -/
theorem read_eq {options : ReadOptions} {text : String} {prepared : List Char}
    (h : prepare options text.toList = .ok prepared) (localOffset : UtcOffset) :
    read { options with localOffset } text =
      (Lexer.scan prepared localOffset >>= ofTokens options) := by
  change (prepare options text.toList >>= fun prepared ↦
    Lexer.scan prepared localOffset >>= ofTokens options) = _
  rw [h]
  rfl

theorem ofTokens_rebase (options : ReadOptions) (tokens : List Token) (o o' : UtcOffset) :
    (ofTokens options ⟨tokens⟩).map undated =
      (ofTokens options ⟨tokens.map (Token.rebase o o')⟩).map undated := by
  have hsame : Token.undated ∘ Token.rebase o o' = Token.undated := funext Token.undated_rebase
  rw [← ofTokens_undated, ← ofTokens_undated, List.map_map, hsame]

/-- Outcomes that a map makes equal are the same error or results that it makes equal. -/
theorem error_or_ok_of_map_eq {ε α β : Type} {f : α → β} {x y : Except ε α}
    (h : x.map f = y.map f) :
    (∃ error, x = .error error ∧ y = .error error) ∨ ∃ a b, x = .ok a ∧ y = .ok b ∧ f a = f b := by
  cases x with
  | error error =>
    cases y with
    | error error' =>
      cases h
      exact .inl ⟨error, rfl, rfl⟩
    | ok b => cases h
  | ok a =>
    cases y with
    | error error' => cases h
    | ok b => exact .inr ⟨a, b, rfl, rfl, Except.ok.inj h⟩

/-- The local offset only moves local dates without a zone. Under two offsets a text is refused with
the same error, or the trees are the same up to their local dates. These are the dates of the text
in its order, and each of them means the same instant if its text names a zone, and is moved by the
difference of the offsets if it names none. -/
theorem read_rebase (options : ReadOptions) (o o' : UtcOffset) (text : String) :
    (∃ error, read { options with localOffset := o } text = .error error ∧
      read { options with localOffset := o' } text = .error error) ∨
    ∃ prepared tokens tree tree',
      prepare options text.toList = .ok prepared ∧ Lexer.scan prepared o = .ok ⟨tokens⟩ ∧
      Lexer.scan prepared o' = .ok ⟨tokens.map (Token.rebase o o')⟩ ∧
      read { options with localOffset := o } text = .ok tree ∧
      read { options with localOffset := o' } text = .ok tree' ∧ tree.undated = tree'.undated ∧
      tree.localDates = tokens.filterMap Token.localDate? ∧
      tree'.localDates = tokens.filterMap fun token ↦
        token.localDate?.map (Moment.rebase o o' token.namesZone) := by
  cases hprepare : prepare options text.toList with
  | error error =>
    have hread (localOffset : UtcOffset) :
        read { options with localOffset } text = .error error := by
      change (prepare options text.toList >>= scan { options with localOffset }) = _
      rw [hprepare]
      rfl
    exact .inl ⟨error, hread o, hread o'⟩
  | ok prepared =>
    have hread := read_eq hprepare
    have hunder := Lexer.scan_under prepared o o'
    cases hscan : Lexer.scan prepared o with
    | error error =>
      rw [hscan] at hunder
      exact .inl ⟨error, by rw [hread, hscan]; rfl, by rw [hread, hunder]; rfl⟩
    | ok queue =>
      obtain ⟨tokens⟩ := queue
      rw [hscan] at hunder
      have hfirst : read { options with localOffset := o } text = ofTokens options ⟨tokens⟩ := by
        rw [hread, hscan]
        rfl
      have hsecond : read { options with localOffset := o' } text =
          ofTokens options ⟨tokens.map (Token.rebase o o')⟩ := by
        rw [hread, hunder]
        rfl
      rw [hfirst, hsecond]
      refine (error_or_ok_of_map_eq (ofTokens_rebase options tokens o o')).imp_right ?_
      rintro ⟨tree, tree', htree, htree', hsame⟩
      refine ⟨prepared, tokens, tree, tree', rfl, hscan, hunder, htree, htree', hsame,
        localDates_of_ofTokens hscan htree, ?_⟩
      rw [localDates_of_ofTokens hunder htree', List.filterMap_map]
      exact List.filterMap_congr fun token _ ↦ token.localDate?_rebase

end Query

end ResourceQuery
