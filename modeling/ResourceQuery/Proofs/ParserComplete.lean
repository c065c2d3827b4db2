import ResourceQuery.Proofs.ParserSound

/-!
# Every sentence is parsed

The converse of soundness: wherever a phrase stands in a stream, the step for it takes exactly that
phrase, whatever comes behind it, as long as the next symbol could not belong to the phrase as
well. Paths and bare values take every slash, lists take every comma and terms take every sign that
joins them, so a step of the parser comes with the symbols that may follow it. The depth to which
terms stand in one another is less than the number of their tokens.
-/

namespace ResourceQuery.Parse

open Grammar Run

variable {α β : Type} {parser : Parse α} {next : α → Parse β} {phrase : Phrase α}
  {tokens first rest : List Token} {a : α} {b : β} {follow whole : Symbol → Prop}

/-- In front of the symbols that may follow, the parser takes exactly these tokens. -/
def Takes (parser : Parse α) (follow : Symbol → Prop) (tokens : List Token) (a : α) : Prop :=
  ∀ rest stop, follow (headSymbol rest) → parser ⟨tokens ++ rest, stop⟩ = .ok a ⟨rest, stop⟩

theorem Takes.bind (hparser : Takes parser follow first a) (hnext : Takes (next a) whole rest b)
    (hfollow : ∀ more, whole (headSymbol more) → follow (headSymbol (rest ++ more))) :
    Takes (parser >>= next) whole (first ++ rest) b := by
  intro more stop hmore
  rw [List.append_assoc, bind_ok (hparser _ stop (hfollow more hmore))]
  exact hnext more stop hmore

theorem takes_pure : Takes (pure a) follow [] a := fun _ _ _ ↦ rfl

/-- A step behind the last tokens takes none. -/
theorem Takes.finish (hparser : Takes parser follow tokens a)
    (hnext : Takes (next a) follow [] b) : Takes (parser >>= next) follow tokens b := by
  simpa using hparser.bind hnext fun _ h ↦ h

theorem Takes.map {f : α → β} (hparser : Takes parser follow tokens a) :
    Takes (f <$> parser) follow tokens (f a) :=
  hparser.finish takes_pure

theorem Takes.mono {narrower : Symbol → Prop} (hparser : Takes parser follow tokens a)
    (h : ∀ symbol, narrower symbol → follow symbol) : Takes parser narrower tokens a :=
  fun rest stop hrest ↦ hparser rest stop (h _ hrest)

/-- A first step that takes one token leaves the others to the steps behind it. -/
theorem Takes.cons {token : Token}
    (hparser : ∀ rest stop, parser ⟨token :: rest, stop⟩ = .ok a ⟨rest, stop⟩)
    (hnext : Takes (next a) whole rest b) : Takes (parser >>= next) whole (token :: rest) b := by
  intro more stop hmore
  rw [List.cons_append, bind_ok (hparser _ stop)]
  exact hnext more stop hmore

theorem takes_expect {token : Token} {symbol : Symbol} (h : token.symbol = symbol)
    (expected : Expected) : Takes (expect symbol expected) follow [token] token :=
  fun rest stop _ ↦ expect_cons h expected rest stop

theorem takes_get {next : TokenStream → Parse β}
    (h : ∀ more stop, whole (headSymbol more) → next ⟨tokens ++ more, stop⟩ ⟨tokens ++ more, stop⟩ =
      .ok b ⟨more, stop⟩) :
    Takes (get >>= next) whole tokens b := h

theorem takes_peek {next : Symbol → Parse β}
    (h : ∀ symbol, whole symbol → Takes (next symbol) (· = symbol) [] b) :
    Takes (peek >>= next) whole [] b := fun more stop hmore ↦ h _ hmore more stop rfl

theorem takes_position {next : Nat → Parse β} (h : ∀ place, Takes (next place) whole tokens b) :
    Takes (position >>= next) whole tokens b := fun more stop hmore ↦ h _ more stop hmore

theorem takes_yes {symbol : Symbol} {yes no : Parse β} {token : Token}
    (hsymbol : token.symbol = symbol) (h : Takes yes whole (token :: tokens) b) :
    Takes (nextIs symbol >>= fun seen ↦ if seen then yes else no) whole (token :: tokens) b := by
  intro more stop hmore
  rw [nextIs_bind]
  simpa [hsymbol] using h more stop hmore

theorem takes_no {symbol : Symbol} {yes no : Parse β}
    (hsymbol : ∀ more, whole (headSymbol more) → headSymbol (tokens ++ more) ≠ symbol)
    (h : Takes no whole tokens b) :
    Takes (nextIs symbol >>= fun seen ↦ if seen then yes else no) whole tokens b := by
  intro more stop hmore
  rw [nextIs_bind]
  simpa [hsymbol more hmore] using h more stop hmore

theorem follow_continued {separator : Symbol} {items : List α} {more : List Token}
    (h : Continued separator phrase tokens items) (hseparator : follow separator)
    (hmore : follow (headSymbol more)) : follow (headSymbol (tokens ++ more)) := by
  cases h with
  | nil => exact hmore
  | cons hsign =>
    rw [List.cons_append, headSymbol_cons, hsign]
    exact hseparator

theorem takes_itemsAfter {separator : Symbol}
    (hitem : ∀ tokens a, phrase tokens a → Takes parser follow tokens a)
    (hseparator : follow separator) {items : List α} {limit : Nat}
    (h : Continued separator phrase tokens items) (hlimit : tokens.length ≤ limit) :
    Takes (itemsAfter separator parser limit) (fun s ↦ follow s ∧ s ≠ separator) tokens items := by
  induction limit generalizing tokens items with
  | zero =>
    cases h with
    | nil => exact takes_pure
    | cons => simp at hlimit
  | succ limit ih =>
    cases h with
    | nil => exact takes_no (fun _ h ↦ h.2) takes_pure
    | cons hsign hitems =>
      refine takes_yes hsign (.cons (skip_cons _) ?_)
      obtain ⟨first, rest, a, more, rfl, rfl, hfirst, hrest⟩ := hitems.uncons
      refine (hitem _ _ hfirst).bind ((ih hrest ?_).map) fun _ h ↦
        follow_continued hrest hseparator h.1
      simp at hlimit
      omega

theorem takes_items {separator : Symbol}
    (hitem : ∀ tokens a, phrase tokens a → Takes parser follow tokens a)
    (hseparator : follow separator) {items : List α} (h : Separated separator phrase tokens items) :
    Takes (Parse.items separator parser) (fun s ↦ follow s ∧ s ≠ separator) tokens items := by
  obtain ⟨first, rest, a, more, rfl, rfl, hfirst, hrest⟩ := h.uncons
  refine (hitem _ _ hfirst).bind (takes_get fun left stop hleft ↦ ?_)
    fun _ h ↦ follow_continued hrest hseparator h.1
  exact (takes_itemsAfter hitem hseparator hrest (by simp)).map left stop hleft

/-- What may follow a number: any symbol. -/
def Anything (_ : Symbol) : Prop := True

/-- What may follow a path, which would take a slash for a part of itself. -/
def NoSlash (symbol : Symbol) : Prop := symbol ≠ .slash

theorem takes_segment {path : Property} (h : Segment tokens path) :
    Takes segment Anything tokens path := by
  obtain ⟨token, rfl, hsegments⟩ : ∃ token, tokens = [token] ∧ segments? token = some path := by
    cases h with
    | word hword =>
      obtain ⟨hword⟩ := hword
      exact ⟨_, rfl, by simp [segments?, hword]⟩
    | number hsymbol hvalue => exact ⟨_, rfl, by simp [segments?, hsymbol, hvalue]⟩
  intro rest stop _
  change (advance >>= _) _ = _
  rw [List.singleton_append, bind_ok (advance_cons token rest stop), hsegments]
  rfl

theorem takes_path {property : Property} (h : Path tokens property) :
    Takes path NoSlash tokens property := by
  obtain ⟨⟨hword⟩, hrest⟩ := h
  rw [List.singleton_append]
  refine .cons (expect_cons hword _) (takes_get fun more stop hmore ↦ ?_)
  rw [concat_cons]
  refine (takes_itemsAfter (fun _ _ ↦ takes_segment) trivial hrest ?_).map more stop
    ⟨trivial, hmore⟩
  simp

theorem head_path {property : Property} (h : Path tokens property) (more : List Token) :
    headSymbol (tokens ++ more) = .property := by
  obtain ⟨⟨hword⟩, -⟩ := h
  exact hword

theorem takes_property {path : Property} (h : Subject tokens path) :
    Takes property NoSlash tokens path := by
  cases h with
  | path hpath =>
    refine takes_no (fun more _ ↦ ?_) (takes_path hpath)
    rw [head_path hpath more]
    decide
  | compound hopening hparts hclosing =>
    refine takes_yes hopening (.cons (skip_cons _) ?_)
    have hlist := takes_items (fun _ _ ↦ takes_path) (by simp [NoSlash]) hparts
    refine hlist.bind ?_ fun _ _ ↦ by simp [hclosing, NoSlash]
    rw [concat_eq_foldl]
    exact (takes_expect hclosing .closeParen).map

theorem slashedWords_append {words : List String} (h : Continued .slash BareWord tokens words)
    {more : List Token} (hmore : NoSlash (headSymbol more)) :
    slashedWords (tokens ++ more) = (words, more) := by
  induction words generalizing tokens with
  | nil =>
    cases h with
    | nil =>
      rcases more with _ | ⟨first, _ | ⟨second, rest⟩⟩
      · rfl
      · rfl
      · have hslash : first.symbol ≠ .slash := hmore
        simp [slashedWords, hslash]
    | cons hsign hitems =>
      obtain ⟨_, _, _, _, -, h, -, -⟩ := hitems.uncons
      exact nomatch h
  | cons word words ih =>
    cases h with
    | cons hsign hitems =>
      obtain ⟨_, rest, a, rest', rfl, hwords, ⟨hword⟩, hrest⟩ := hitems.uncons
      obtain ⟨rfl, rfl⟩ := List.cons.inj hwords
      simp [slashedWords, hsign, hword, ih hrest]

theorem takes_bareText {head : String} {words : List String}
    (h : Continued .slash BareWord tokens words) :
    Takes (bareText head) NoSlash tokens ("/".intercalate (head :: words)) := by
  intro more stop hmore
  have hwords := slashedWords_append h hmore
  rw [← foldl_eq_intercalate]
  change EStateM.Result.ok _ _ = _
  rw [hwords]

theorem takes_value {a : Value} (h : Operand tokens a) : Takes value NoSlash tokens a := by
  cases h with
  | literal hsymbol hvalue =>
    intro more stop _
    change (advance >>= _) _ = _
    rw [List.singleton_append, bind_ok (advance_cons _ more stop)]
    simp only [hsymbol, hvalue]
    rfl
  | bare hwords =>
    obtain ⟨_, rest, _, words, rfl, rfl, ⟨hword⟩, hrest⟩ := hwords.uncons
    refine .cons (advance_cons _) ?_
    simp only [hword]
    exact (takes_bareText hrest).map
  | signed hsign hwords =>
    obtain ⟨_, rest, word, words, rfl, rfl, ⟨hword⟩, hrest⟩ := hwords.uncons
    refine .cons (advance_cons _) ?_
    simp only [hsign]
    rw [← String.intercalate_cons_append]
    refine takes_yes hword (.cons (advance_cons _) ?_)
    exact (takes_bareText hrest).map

theorem takes_infixTail {sign : Token} {op : Comparison} {property : Property} {a : Value}
    (hsign : sign.symbol = .comparison op) (h : Operand tokens a) :
    Takes (infixTail property) NoSlash (sign :: tokens) (.compare op property a) := by
  refine .cons (advance_cons sign) ?_
  simp only [hsign]
  exact (takes_value h).map

theorem takes_subject {comma : Token} {path : Property} (h : Subject tokens path)
    (hcomma : comma.symbol = .comma) : Takes subject Anything (tokens ++ [comma]) path := by
  refine (takes_property h).bind ?_ fun _ _ ↦ by simp [hcomma, NoSlash]
  exact (takes_expect hcomma .comma).map

theorem takes_limitNumber {number : UInt64} (h : Count tokens number) :
    Takes limitNumber Anything tokens number := by
  obtain ⟨hsymbol, hvalue, hinteger, hlow, hhigh⟩ := h
  have hlimit := Query.limitArgument_eq_ok.mpr ⟨_, hinteger, hlow, hhigh, rfl⟩
  intro more stop _
  change (advance >>= _) _ = _
  rw [List.singleton_append, bind_ok (advance_cons _ more stop)]
  simp only [hsymbol, hvalue, hlimit]
  rfl

theorem takes_limit {range : Limit} (h : Range tokens range) :
    Takes limit (· ≠ .comma) tokens range := by
  cases h with
  | count hcount =>
    rw [← List.append_nil tokens]
    refine (takes_limitNumber hcount).bind ?_ fun _ _ ↦ trivial
    exact takes_no (fun _ h ↦ h) takes_pure
  | page hstart hcomma hcount =>
    refine (takes_limitNumber hstart).bind ?_ fun _ _ ↦ trivial
    refine takes_yes hcomma (.cons (skip_cons _) ?_)
    exact (takes_limitNumber hcount).map.mono fun _ _ ↦ trivial

theorem head_subject {path : Property} (h : Subject tokens path) (more : List Token) :
    headSymbol (tokens ++ more) = .property ∨ headSymbol (tokens ++ more) = .openParen := by
  cases h with
  | path hpath => exact .inl (head_path hpath more)
  | compound hopening => exact .inr hopening

theorem takes_sortKey {key : SortKey} (h : Key tokens key) : Takes sortKey NoSlash tokens key := by
  intro more stop hmore
  rw [sortKey, peek_bind]
  cases h with
  | plain hsubject =>
    obtain h | h := head_subject hsubject more <;> rw [h] <;>
      exact (takes_property hsubject).map more stop hmore
  | signed hsign hsubject =>
    simp only [List.cons_append, headSymbol_cons, hsign]
    rw [bind_ok (skip_cons _ _ stop)]
    exact (takes_property hsubject).map more stop hmore

theorem takes_pattern {op : PatternOp} {query : Query} (h : Arguments (.pattern op) tokens query) :
    Takes (pattern op) NoSlash tokens query := by
  cases h with
  | @pattern _ _ _ _ _ value hsubject hcomma hoperand hpattern =>
    rw [List.append_cons]
    refine (takes_subject hsubject hcomma).bind (takes_position fun place ↦ ?_) fun _ _ ↦ trivial
    apply (takes_value hoperand).finish
    have htext : (op = .like && !isText value) = false := by
      simpa [isText_iff] using hpattern
    rw [htext]
    exact takes_pure

theorem takes_call {parser : Parse β} {keyword : Keyword} {f : α → β}
    (hparser : ∀ tokens a, phrase tokens a → Takes parser (· = .closeParen) tokens (f a))
    (h : Call phrase keyword tokens a) : Takes (call parser) Anything tokens (f a) := by
  obtain ⟨hname, hopening, harguments, hclosing⟩ := h
  refine .cons (skip_cons _) (.cons (expect_cons hopening _) ?_)
  refine (hparser _ _ harguments).bind ?_ fun _ _ ↦ hclosing
  exact (takes_expect hclosing .closeParen).map

theorem head_call {keyword : Keyword} (h : Call phrase keyword tokens a) (more : List Token) :
    headSymbol (tokens ++ more) = .function keyword := by
  obtain ⟨hname, -, -, -⟩ := h
  exact hname

theorem noSlash_of_closing {symbol : Symbol} (h : symbol = .closeParen) : NoSlash symbol := by
  simp [h, NoSlash]

/-- A property that is all the arguments of a function. -/
theorem takes_only {f : Property → β} {path : Property} (h : Subject tokens path) :
    Takes (f <$> property) (· = .closeParen) tokens (f path) :=
  (takes_property h).map.mono fun _ ↦ noSlash_of_closing

theorem takes_count {counted : Option Property} (h : Counted tokens counted) :
    Takes count (· = .closeParen) tokens (.count counted) := by
  cases h with
  | all =>
    intro more stop hmore
    rw [count, nextIs_bind]
    simp [hmore]
    rfl
  | some hsubject =>
    refine takes_no (fun more _ ↦ ?_) (takes_only hsubject)
    obtain h | h := head_subject hsubject more <;> rw [h] <;> decide

theorem takes_aggregateItem {item : Child} (h : AggregateItem tokens item) :
    Takes aggregateItem NoSlash tokens item := by
  intro more stop hmore
  rw [aggregateItem, peek_bind]
  cases h with
  | group hsubject =>
    obtain h | h := head_subject hsubject more <;> rw [h] <;>
      exact (takes_property hsubject).map more stop hmore
  | summary hcall =>
    rw [head_call hcall more]
    exact (takes_call (fun _ _ h ↦ takes_only h) hcall).map more stop trivial
  | count hcall =>
    rw [head_call hcall more]
    exact (takes_call (fun _ _ h ↦ takes_count h) hcall).map more stop trivial

theorem takes_addItem {query result : Query} {item : Child} (h : AggregateItem tokens item)
    (hadd : query.add item = .ok result) : Takes (addItem query) NoSlash tokens result := by
  refine takes_position fun place ↦ (takes_aggregateItem h).finish ?_
  rw [hadd]
  exact takes_pure

theorem takes_addItems {query result : Query} {items : List Child} {limit : Nat}
    (h : Continued .comma AggregateItem tokens items)
    (hadd : items.foldlM Query.add query = .ok result) (hlimit : tokens.length ≤ limit) :
    Takes (addItems query limit) (fun s ↦ NoSlash s ∧ s ≠ .comma) tokens result := by
  induction limit generalizing query tokens items with
  | zero =>
    cases h with
    | nil =>
      cases hadd
      exact takes_pure
    | cons => simp at hlimit
  | succ limit ih =>
    cases h with
    | nil =>
      cases hadd
      exact takes_no (fun _ h ↦ h.2) takes_pure
    | cons hsign hitems =>
      refine takes_yes hsign (.cons (skip_cons _) ?_)
      obtain ⟨first, rest, item, more, rfl, rfl, hfirst, hrest⟩ := hitems.uncons
      rw [List.foldlM_cons] at hadd
      cases hmiddle : query.add item with
      | error fault =>
        rw [hmiddle] at hadd
        cases hadd
      | ok middle =>
        rw [hmiddle] at hadd
        refine (takes_addItem hfirst hmiddle).bind (ih hrest hadd ?_) fun _ h ↦ ?_
        · simp at hlimit
          omega
        · exact follow_continued hrest (by simp [NoSlash]) h.1

theorem takes_aggregate {groups : List Property} {functions : List Query}
    (h : Separated .comma AggregateItem tokens (groups.map .property ++ functions.map .node)) :
    Takes aggregate (fun s ↦ NoSlash s ∧ s ≠ .comma) tokens (.aggregate groups functions) := by
  have hfold : (groups.map Child.property ++ functions.map Child.node).foldlM Query.add
      (.aggregate [] []) = .ok (.aggregate groups functions) :=
    (foldlM_add_eq_ok (h.forall fun _ _ h ↦ h.shape)).mpr
      ⟨groups, functions, ⟨rfl, fun h ↦ absurd rfl h⟩, rfl⟩
  obtain ⟨first, rest, item, more, rfl, hitems, hfirst, hrest⟩ := h.uncons
  rw [hitems, List.foldlM_cons] at hfold
  cases hquery : Query.add (.aggregate [] []) item with
  | error fault =>
    rw [hquery] at hfold
    cases hfold
  | ok query =>
    rw [hquery] at hfold
    refine (takes_addItem hfirst hquery).bind (takes_get fun left stop hleft ↦ ?_) fun _ h ↦ ?_
    · exact takes_addItems hrest hfold (by simp) left stop hleft
    · exact follow_continued hrest (by simp [NoSlash]) h.1

theorem noSlash_noComma_of_closing {symbol : Symbol} (h : symbol = .closeParen) :
    NoSlash symbol ∧ symbol ≠ .comma := by
  simp [h, NoSlash]

theorem takes_arguments {inner : Parse Query} {keyword : Keyword} {query : Query}
    (h : Arguments keyword tokens query) :
    Takes (arguments inner keyword) (· = .closeParen) tokens query := by
  cases h with
  | limit hrange => exact (takes_limit hrange).map.mono fun _ h ↦ (noSlash_noComma_of_closing h).2
  | select hproperties =>
    have hlist := takes_items (fun _ _ ↦ takes_property) (by simp [NoSlash]) hproperties
    exact hlist.map.mono fun _ ↦ noSlash_noComma_of_closing
  | sort hkeys =>
    have hlist := takes_items (fun _ _ ↦ takes_sortKey) (by simp [NoSlash]) hkeys
    exact hlist.map.mono fun _ ↦ noSlash_noComma_of_closing
  | compare hsubject hcomma hoperand =>
    rw [List.append_cons]
    refine (takes_subject hsubject hcomma).bind ?_ fun _ _ ↦ trivial
    exact (takes_value hoperand).map.mono fun _ ↦ noSlash_of_closing
  | pattern hsubject hcomma hoperand hpattern =>
    have hpattern := takes_pattern (.pattern hsubject hcomma hoperand hpattern)
    exact hpattern.mono fun _ ↦ noSlash_of_closing
  | membership hsubject hcomma hentries =>
    rw [List.append_cons]
    refine (takes_subject hsubject hcomma).bind ?_ fun _ _ ↦ trivial
    have hlist := takes_items (fun _ _ ↦ takes_value) (by simp [NoSlash]) hentries
    exact hlist.map.mono fun _ ↦ noSlash_noComma_of_closing
  | distinct => exact takes_pure
  | first => exact takes_pure
  | one => exact takes_pure
  | count hcounted => exact takes_count hcounted
  | values hsubject => exact takes_only hsubject
  | summary hsubject => exact takes_only hsubject
  | aggregate hitems => exact (takes_aggregate hitems).mono fun _ ↦ noSlash_noComma_of_closing

/-! ### Which parenthesis opens a property -/

theorem afterSegments_append {segments : List Property}
    (h : Continued .slash Segment tokens segments) {more : List Token}
    (hmore : NoSlash (headSymbol more)) : afterSegments (tokens ++ more) = more := by
  induction segments generalizing tokens with
  | nil =>
    cases h with
    | nil =>
      rcases more with _ | ⟨first, _ | ⟨second, rest⟩⟩
      · rfl
      · rfl
      · have hslash : first.symbol ≠ .slash := hmore
        simp [afterSegments, hslash]
    | cons hsign hitems =>
      obtain ⟨_, _, _, _, -, h, -, -⟩ := hitems.uncons
      exact nomatch h
  | cons segment segments ih =>
    cases h with
    | cons hsign hitems =>
      obtain ⟨_, rest, _, _, rfl, hsegments, hsegment, hrest⟩ := hitems.uncons
      obtain ⟨rfl, rfl⟩ := List.cons.inj hsegments
      cases hsegment with
      | word hword =>
        obtain ⟨hword⟩ := hword
        simp [afterSegments, hsign, hword, ih hrest]
      | number hsymbol hvalue => simp [afterSegments, hsign, hsymbol, ih hrest]

theorem beginsCompound_path {property : Property} {opening : Token} {more : List Token}
    (h : Path tokens property) (hmore : NoSlash (headSymbol more)) :
    beginsCompound (opening :: tokens ++ more) =
      more.head?.any fun token ↦ token.symbol == .comma || token.symbol == .closeParen := by
  obtain ⟨⟨hword⟩, hrest⟩ := h
  simp [beginsCompound, hword, afterSegments_append hrest hmore]

theorem beginsCompound_compound {parts : List Property} {opening closing : Token}
    {more : List Token} (h : Separated .comma Path tokens parts)
    (hclosing : closing.symbol = .closeParen) :
    beginsCompound (opening :: tokens ++ closing :: more) = true := by
  obtain ⟨first, rest, _, _, rfl, -, hfirst, hrest⟩ := h.uncons
  have hmore : NoSlash (headSymbol (rest ++ closing :: more)) :=
    follow_continued hrest (by simp [NoSlash]) (by simp [NoSlash, hclosing])
  rw [← List.cons_append, List.append_assoc, beginsCompound_path hfirst hmore]
  cases hrest with
  | nil => simp [hclosing]
  | cons hsign => simp [hsign]

theorem beginsCompound_of_ne {opening word : Token} {more : List Token}
    (hword : word.symbol ≠ .property) : beginsCompound (opening :: word :: more) = false := by
  simp [beginsCompound, hword]

theorem beginsCompound_term {query : Query} {opening : Token} (h : Term tokens query)
    (more : List Token) : beginsCompound (opening :: tokens ++ more) = false := by
  cases h with
  | within hopening => exact beginsCompound_of_ne (by simp [hopening])
  | comparison hsubject hsign hoperand =>
    cases hsubject with
    | path hpath =>
      rw [← List.cons_append, List.append_assoc, beginsCompound_path hpath] <;>
        simp [hsign, NoSlash]
    | compound hopening => exact beginsCompound_of_ne (by simp [hopening])
  | function hcall =>
    obtain ⟨hname, -, -, -⟩ := hcall
    exact beginsCompound_of_ne (by simp [hname])
  | group hname => exact beginsCompound_of_ne (by simp [hname])

theorem beginsCompound_clauses {query : Query} {opening : Token} (h : Clauses tokens query)
    (more : List Token) : beginsCompound (opening :: tokens ++ more) = false := by
  cases h with
  | term hterm => exact beginsCompound_term hterm more
  | joined hpieces hterms hmany =>
    obtain ⟨first, rest, _, _, rfl, -, hfirst, -⟩ := Separated.uncons ⟨_, hpieces, hterms⟩
    rw [← List.cons_append, List.append_assoc]
    exact beginsCompound_term hfirst (rest ++ more)

/-! ### Terms in terms -/

/-- What may follow the terms of a query or of a group. -/
def Closes (symbol : Symbol) : Prop :=
  NoSlash symbol ∧ ∀ joiner, symbol ≠ .joiner joiner

theorem closes_of_closing {symbol : Symbol} (h : symbol = .closeParen) : Closes symbol := by
  simp [h, Closes, NoSlash]

section Term

variable {inner : Parse Query} {opening : Token} {stop : Nat}

theorem term_group (hopening : opening.symbol = .openParen)
    (h : beginsCompound (opening :: tokens) = false) :
    term inner ⟨opening :: tokens, stop⟩ = (do
      skip
      let query ← inner
      let _ ← expect .closeParen .closeParen
      return query : Parse Query) ⟨opening :: tokens, stop⟩ := by
  rw [term, peek_bind, headSymbol_cons, hopening]
  change (if beginsCompound (opening :: tokens) then _ else _ : Parse Query) _ = _
  rw [h]
  rfl

theorem term_compound (hopening : opening.symbol = .openParen)
    (h : beginsCompound (opening :: tokens) = true) :
    term inner ⟨opening :: tokens, stop⟩ = (property >>= infixTail) ⟨opening :: tokens, stop⟩ := by
  rw [term, peek_bind, headSymbol_cons, hopening]
  change (if beginsCompound (opening :: tokens) then _ else _ : Parse Query) _ = _
  rw [h]
  rfl

theorem term_property (h : headSymbol tokens = .property) :
    term inner ⟨tokens, stop⟩ = (property >>= infixTail) ⟨tokens, stop⟩ := by
  rw [term, peek_bind, h]

theorem term_function {keyword : Keyword} (h : headSymbol tokens = .function keyword) :
    term inner ⟨tokens, stop⟩ = call (arguments inner keyword) ⟨tokens, stop⟩ := by
  rw [term, peek_bind, h]

theorem takes_comparison {sign : Token} {op : Comparison} {path : Property} {value : Value}
    (hsubject : Subject first path) (hsign : sign.symbol = .comparison op)
    (hoperand : Operand rest value) :
    Takes (term inner) NoSlash (first ++ sign :: rest) (.compare op path value) := by
  have hcomparison := (takes_property hsubject).bind (takes_infixTail hsign hoperand)
    fun _ _ ↦ by simp [hsign, NoSlash]
  intro more stop hmore
  rw [← hcomparison more stop hmore, List.append_assoc]
  cases hsubject with
  | path hpath => exact term_property (head_path hpath _)
  | compound hopening hparts hclosing =>
    rw [List.append_assoc]
    exact term_compound hopening (beginsCompound_compound hparts hclosing)

theorem takes_within {closing : Token} {query : Query} (hopening : opening.symbol = .openParen)
    (hclauses : Clauses tokens query) (hinner : Takes inner Closes tokens query)
    (hclosing : closing.symbol = .closeParen) :
    Takes (term inner) NoSlash (opening :: tokens ++ [closing]) query := by
  intro more stop hmore
  have hgroup : beginsCompound (opening :: (tokens ++ ([closing] ++ more))) = false :=
    beginsCompound_clauses hclauses _
  have hcloses : Closes (headSymbol ([closing] ++ more)) := closes_of_closing hclosing
  rw [List.append_assoc, List.cons_append, term_group hopening hgroup, bind_ok (skip_cons _ _ stop),
    bind_ok (hinner _ stop hcloses)]
  exact (takes_expect hclosing .closeParen).map more stop hmore

theorem takes_term {n : Nat} {query : Query}
    (hinner : ∀ tokens query, tokens.length < n → Clauses tokens query →
      Takes inner Closes tokens query)
    (h : Term tokens query) (hlength : tokens.length ≤ n) :
    Takes (term inner) NoSlash tokens query := by
  cases h with
  | within hopening hclauses hclosing =>
    refine takes_within hopening hclauses (hinner _ _ ?_ hclauses) hclosing
    simp at hlength
    omega
  | comparison hsubject hsign hoperand => exact takes_comparison hsubject hsign hoperand
  | function hcall =>
    intro more stop hmore
    rw [term_function (head_call hcall more)]
    exact takes_call (fun _ _ h ↦ takes_arguments h) hcall more stop trivial
  | group hname hopening hpieces hqueries hclosing =>
    have hseparated := Separated.bounded ⟨_, hpieces, hqueries⟩
    rw [List.length_append, List.length_cons, List.length_cons] at hlength
    have hlist := takes_items (fun piece query h ↦ hinner piece query (by omega) h.1)
      (by simp [Closes, NoSlash]) hseparated
    have hcall : Call (Takes (list inner) (· = .closeParen)) _ _ _ :=
      .intro hname hopening (hlist.mono fun _ h ↦ ⟨closes_of_closing h, by simp [h]⟩) hclosing
    intro more stop hmore
    rw [term_function (head_call hcall more)]
    exact takes_call (fun _ _ h ↦ h.map) hcall more stop trivial

end Term

theorem takes_noOtherJoiner (joiner : Joiner) : Takes (noOtherJoiner joiner) Closes [] () := by
  refine takes_peek fun symbol hsymbol ↦ ?_
  split
  · exact absurd rfl (hsymbol.2 _)
  · exact takes_pure

theorem takes_terms {depth : Nat} {query : Query} (h : Clauses tokens query)
    (hdepth : tokens.length < depth) : Takes (terms depth) Closes tokens query := by
  induction depth generalizing tokens query with
  | zero => cases hdepth
  | succ depth ih =>
    have hterm (piece : List Token) (query : Query) (h : Term piece query ∧ piece.length ≤ depth) :
        Takes (term (terms depth)) NoSlash piece query :=
      takes_term (fun _ _ hlength h ↦ ih h hlength) h.1 h.2
    cases h with
    | term hone =>
      apply ((hterm _ _ ⟨hone, by omega⟩).mono fun _ h ↦ h.1).finish
      refine takes_peek fun symbol hsymbol ↦ ?_
      split
      · exact absurd rfl (hsymbol.2 _)
      · exact takes_pure
    | @joined _ joiner _ queries hpieces hterms hmany =>
      have hitem (piece : List Token) (query : Query)
          (h : Term piece query ∧ piece.length ≤ tokens.length) :=
        hterm piece query ⟨h.1, by omega⟩
      obtain ⟨first, rest, head, more, rfl, rfl, hfirst, hrest⟩ :=
        Separated.uncons (Separated.bounded ⟨_, hpieces, hterms⟩)
      refine (hitem first head hfirst).bind ?_ fun _ h ↦
        follow_continued hrest (by simp [NoSlash]) h.1
      have hothers (limit : Nat) (hlimit : rest.length ≤ limit) :
          Takes (itemsAfter (.joiner joiner) (term (terms depth)) limit) Closes rest more :=
        (takes_itemsAfter hitem (by simp [NoSlash]) hrest hlimit).mono
          fun _ h ↦ ⟨h.1, h.2 joiner⟩
      cases hrest with
      | nil => simp at hmany
      | cons hsign hitems =>
        intro left stop hleft
        rw [peek_bind, List.cons_append, headSymbol_cons, hsign]
        refine (hothers _ (by simp)).finish ?_ left stop hleft
        exact (takes_noOtherJoiner joiner).finish takes_pure

theorem head_term {query : Query} (h : Term tokens query) (more : List Token) :
    headSymbol (tokens ++ more) ≠ .stop := by
  cases h with
  | within hopening => simp [hopening]
  | @comparison _ second sign _ _ _ hsubject =>
    rw [List.append_assoc]
    obtain h | h := head_subject hsubject (sign :: second ++ more) <;> rw [h] <;> decide
  | function hcall => simp [head_call hcall]
  | group hname => simp [hname]

theorem head_clauses {query : Query} (h : Clauses tokens query) (more : List Token) :
    headSymbol (tokens ++ more) ≠ .stop := by
  cases h with
  | term hterm => exact head_term hterm more
  | joined hpieces hterms hmany =>
    obtain ⟨first, rest, _, _, rfl, -, hfirst, -⟩ := Separated.uncons ⟨_, hpieces, hterms⟩
    rw [List.append_assoc]
    exact head_term hfirst (rest ++ more)

theorem takes_query {query : Query} (h : Sentence tokens query) (place : Nat) :
    ∃ rest, Parse.query ⟨tokens, place⟩ = .ok query rest := by
  cases h with
  | @empty stop hstop =>
    rw [Parse.query, nextIs_bind, headSymbol_cons, hstop]
    exact ⟨⟨[stop], place⟩, rfl⟩
  | @clauses tokens stop _ hclauses hstop =>
    rw [Parse.query, nextIs_bind]
    have hhead : (headSymbol (tokens ++ [stop]) == .stop) = false := by
      simpa using head_clauses hclauses [stop]
    rw [hhead]
    have hcloses : Closes (headSymbol [stop]) := by simp [hstop, Closes, NoSlash]
    have hdepth : tokens.length < (tokens ++ [stop]).length + 1 := by
      rw [List.length_append]
      omega
    have hterms := takes_terms hclauses hdepth [stop] place hcloses
    refine ⟨⟨[], place⟩, ?_⟩
    change (terms ((tokens ++ [stop]).length + 1) >>= _) _ = _
    rw [bind_ok hterms, bind_ok (expect_cons hstop _ [] place)]
    rfl

end ResourceQuery.Parse
