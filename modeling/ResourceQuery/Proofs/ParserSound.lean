import ResourceQuery.Proofs.Grammar
import ResourceQuery.Proofs.Run
import ResourceQuery.Query.Parser

/-!
# What parsing takes is a phrase

Parsing only succeeds on sentences of the grammar, and it gives them a meaning that the grammar
gives them as well. Each step of the parser is sound for a phrase: whenever the step succeeds, the
tokens it took off the stream form that phrase, with the result for its meaning. The law for a
sequence of steps puts their phrases side by side, and the recursion of terms in one another is
followed by induction on the depth.
-/

namespace ResourceQuery.Parse

open Grammar Run

variable {α β : Type} {stream rest : TokenStream} {parser : Parse α} {next : α → Parse β}

def headSymbol (tokens : List Token) : Symbol :=
  tokens.head?.elim .stop (·.symbol)

@[simp]
theorem headSymbol_cons (token : Token) (tokens : List Token) :
    headSymbol (token :: tokens) = token.symbol := rfl

theorem get_bind (next : TokenStream → Parse β) : (get >>= next) stream = next stream stream := rfl

theorem peek_bind (next : Symbol → Parse β) :
    (peek >>= next) stream = next (headSymbol stream.tokens) stream := rfl

theorem nextIs_bind (symbol : Symbol) (next : Bool → Parse β) :
    (nextIs symbol >>= next) stream = next (headSymbol stream.tokens == symbol) stream := rfl

theorem advance_cons (token : Token) (tokens : List Token) (stop : Nat) :
    advance ⟨token :: tokens, stop⟩ = .ok token ⟨tokens, stop⟩ := rfl

theorem skip_cons (token : Token) (tokens : List Token) (stop : Nat) :
    skip ⟨token :: tokens, stop⟩ = .ok () ⟨tokens, stop⟩ := rfl

theorem expect_cons {token : Token} {symbol : Symbol} (h : token.symbol = symbol)
    (expected : Expected) (tokens : List Token) (stop : Nat) :
    expect symbol expected ⟨token :: tokens, stop⟩ = .ok token ⟨tokens, stop⟩ := by
  rw [expect, bind_ok (advance_cons token tokens stop), if_pos h]
  rfl

theorem fail_ne_ok {position : Nat} {fault : SyntaxFault} {a : α} :
    (fail position fault : Parse α) stream ≠ .ok a rest := by
  intro h
  cases h

/-! ### What a step takes is a phrase -/

variable {phrase : Phrase α} {whole : Phrase β}

/-- Started on this stream, the parser succeeds only by taking a phrase off its front. -/
def SoundFrom (stream : TokenStream) (parser : Parse α) (phrase : Phrase α) : Prop :=
  ∀ a rest, parser stream = .ok a rest → LiteralsValued stream.tokens →
    ∃ tokens, stream.tokens = tokens ++ rest.tokens ∧ phrase tokens a

def Sound (parser : Parse α) (phrase : Phrase α) : Prop :=
  ∀ stream, SoundFrom stream parser phrase

theorem SoundFrom.bind (hparser : SoundFrom stream parser phrase)
    (hnext : ∀ a tokens, phrase tokens a → Sound (next a) fun more ↦ whole (tokens ++ more)) :
    SoundFrom stream (parser >>= next) whole := by
  intro b rest h hvalued
  obtain ⟨a, middle, ha, hb⟩ := bind_eq_ok.mp h
  obtain ⟨tokens, htokens, hphrase⟩ := hparser a middle ha hvalued
  have hmiddle : LiteralsValued middle.tokens := fun token hmem ↦
    hvalued token (htokens ▸ List.mem_append_right tokens hmem)
  obtain ⟨more, hmore, hwhole⟩ := hnext a tokens hphrase middle b rest hb hmiddle
  exact ⟨tokens ++ more, by rw [htokens, hmore, List.append_assoc], hwhole⟩

theorem Sound.bind (hparser : Sound parser phrase)
    (hnext : ∀ a tokens, phrase tokens a → Sound (next a) fun more ↦ whole (tokens ++ more)) :
    Sound (parser >>= next) whole := fun stream ↦ (hparser stream).bind hnext

theorem Sound.mono {weaker : Phrase α} (hparser : Sound parser phrase)
    (h : ∀ tokens a, LiteralsValued tokens → phrase tokens a → weaker tokens a) :
    Sound parser weaker := by
  intro stream a rest hok hvalued
  obtain ⟨tokens, htokens, hphrase⟩ := hparser stream a rest hok hvalued
  have hfront : LiteralsValued tokens := fun token hmem ↦
    hvalued token (htokens ▸ List.mem_append_left rest.tokens hmem)
  exact ⟨tokens, htokens, h tokens a hfront hphrase⟩

theorem sound_pure {a : α} (h : phrase [] a) : Sound (pure a) phrase := by
  intro stream b rest hok hvalued
  obtain ⟨rfl, rfl⟩ := pure_eq_ok.mp hok
  exact ⟨[], rfl, h⟩

theorem Sound.map {f : α → β} (hparser : Sound parser phrase)
    (h : ∀ tokens a, phrase tokens a → whole tokens (f a)) : Sound (f <$> parser) whole :=
  hparser.bind fun a tokens ha ↦ sound_pure (by simpa using h tokens a ha)

theorem sound_fail (position : Nat) (fault : SyntaxFault) : Sound (fail position fault) phrase :=
  fun _ _ _ h ↦ nomatch h

theorem sound_unexpected (token : Token) (expected : Expected) :
    Sound (unexpected token expected) phrase :=
  sound_fail _ _

theorem sound_get {next : TokenStream → Parse β} (h : ∀ stream, Sound (next stream) whole) :
    Sound (get >>= next) whole := fun stream ↦ h stream stream

theorem sound_position {next : Nat → Parse β} (h : ∀ position, Sound (next position) whole) :
    Sound (position >>= next) whole := fun stream ↦ h _ stream

theorem soundFrom_peek {next : Symbol → Parse β}
    (h : SoundFrom stream (next (headSymbol stream.tokens)) whole) :
    SoundFrom stream (peek >>= next) whole := h

theorem soundFrom_nextIs {symbol : Symbol} {yes no : Parse β}
    (hyes : headSymbol stream.tokens = symbol → SoundFrom stream yes whole)
    (hno : headSymbol stream.tokens ≠ symbol → SoundFrom stream no whole) :
    SoundFrom stream (nextIs symbol >>= fun seen ↦ if seen then yes else no) whole := by
  rw [SoundFrom, nextIs_bind]
  split
  · next hhead => exact hyes (eq_of_beq hhead)
  · next hhead => exact hno (ne_of_beq_false (by simpa using hhead))

/-- The token taken is the next one, unless there is none. -/
theorem sound_advance :
    Sound advance fun tokens token ↦ tokens = [token] ∨ tokens = [] ∧ token.symbol = .stop := by
  rintro ⟨tokens, stop⟩ token rest hok -
  cases tokens with
  | nil =>
    cases hok
    exact ⟨[], rfl, .inr ⟨rfl, rfl⟩⟩
  | cons first others =>
    cases hok
    exact ⟨[token], rfl, .inl rfl⟩

/-- A token whose symbol was seen before is taken. -/
theorem soundFrom_advance {symbol : Symbol} (hhead : headSymbol stream.tokens = symbol)
    (hsymbol : symbol ≠ .stop) :
    SoundFrom stream advance fun tokens token ↦ tokens = [token] ∧ token.symbol = symbol := by
  obtain ⟨tokens, stop⟩ := stream
  rintro token rest hok -
  cases tokens with
  | nil => exact absurd hhead.symm hsymbol
  | cons first others =>
    cases hok
    exact ⟨[token], rfl, rfl, hhead⟩

theorem soundFrom_skip {symbol : Symbol} (hhead : headSymbol stream.tokens = symbol)
    (hsymbol : symbol ≠ .stop) :
    SoundFrom stream skip fun tokens _ ↦ ∃ token, tokens = [token] ∧ token.symbol = symbol := by
  apply (soundFrom_advance hhead hsymbol).bind
  rintro token _ ⟨rfl, htoken⟩
  exact sound_pure ⟨token, rfl, htoken⟩

theorem sound_expect {symbol : Symbol} (hsymbol : symbol ≠ .stop) (expected : Expected) :
    Sound (expect symbol expected) fun tokens token ↦ tokens = [token] ∧ token.symbol = symbol := by
  refine sound_advance.bind fun token tokens htoken ↦ ?_
  split
  · next h =>
    obtain rfl | ⟨-, hstop⟩ := htoken
    · exact sound_pure ⟨rfl, h⟩
    · exact absurd (h.symm.trans hstop) hsymbol
  · exact sound_unexpected token expected

theorem sound_shaped (position : Nat) (shape : Except ShapeFault α) :
    Sound (shaped position shape) fun tokens a ↦ tokens = [] ∧ shape = .ok a := by
  cases shape with
  | ok a => exact sound_pure ⟨rfl, rfl⟩
  | error fault => exact sound_fail position _

theorem sound_itemsAfter {separator : Symbol} (hseparator : separator ≠ .stop)
    (hitem : Sound parser phrase) (limit : Nat) :
    Sound (itemsAfter separator parser limit) (Continued separator phrase) := by
  induction limit with
  | zero => exact sound_pure .nil
  | succ limit ih =>
    intro stream
    refine soundFrom_nextIs (fun hhead ↦ ?_) fun _ ↦ sound_pure .nil stream
    apply (soundFrom_skip hhead hseparator).bind
    rintro - _ ⟨sign, rfl, hsign⟩
    refine hitem.bind fun a tokens ha ↦ ih.bind fun more rest hmore ↦ sound_pure ?_
    simpa using Continued.cons hsign (.intro ha hmore)

/-- Items whose first separator has been seen are not taken as none at all. -/
theorem soundFrom_itemsAfter {separator : Symbol} (hseparator : separator ≠ .stop)
    (hitem : Sound parser phrase) (hhead : headSymbol stream.tokens = separator) :
    SoundFrom stream (get >>= fun s ↦ itemsAfter separator parser s.tokens.length)
      fun tokens items ↦ items ≠ [] ∧ Continued separator phrase tokens items := by
  obtain ⟨tokens, stop⟩ := stream
  cases tokens with
  | nil => exact absurd hhead.symm hseparator
  | cons sign rest =>
    change SoundFrom _ (itemsAfter separator parser (rest.length + 1)) _
    refine soundFrom_nextIs (fun hhead ↦ ?_) fun hother ↦ absurd hhead hother
    apply (soundFrom_skip hhead hseparator).bind
    rintro - _ ⟨sign, rfl, hsign⟩
    refine hitem.bind fun a tokens ha ↦ ?_
    refine (sound_itemsAfter hseparator hitem _).bind fun more rest hmore ↦ sound_pure ?_
    exact ⟨by simp, by simpa using Continued.cons hsign (.intro ha hmore)⟩

theorem sound_items {separator : Symbol} (hseparator : separator ≠ .stop)
    (hitem : Sound parser phrase) :
    Sound (items separator parser) (Separated separator phrase) := by
  refine hitem.bind fun a tokens ha ↦ sound_get fun stream ↦ ?_
  refine (sound_itemsAfter hseparator hitem _).bind fun more rest hmore ↦ sound_pure ?_
  simpa using Separated.intro ha hmore

theorem segments?_eq_some {token : Token} {path : Property} (h : segments? token = some path) :
    Segment [token] path := by
  unfold segments? at h
  split at h
  · next hsymbol => exact Option.some.inj h ▸ .word (.intro hsymbol)
  · next hsymbol hvalue => exact Option.some.inj h ▸ .number hsymbol hvalue
  · cases h

theorem sound_segment : Sound segment Segment := by
  refine sound_advance.bind fun token tokens htoken ↦ ?_
  split
  · next path hpath =>
    have hsegment := segments?_eq_some hpath
    obtain rfl | ⟨-, hstop⟩ := htoken
    · exact sound_pure hsegment
    · cases hsegment with
      | word hword => cases hword with | intro h => exact absurd (h.symm.trans hstop) (by decide)
      | number h => exact absurd (h.symm.trans hstop) (by decide)
  · exact sound_unexpected token .property

theorem sound_path : Sound path Path := by
  apply (sound_expect (by decide) _).bind
  rintro token _ ⟨rfl, hsymbol⟩
  refine sound_get fun stream ↦ ?_
  refine (sound_itemsAfter (by decide) sound_segment _).bind fun more rest hmore ↦ sound_pure ?_
  rw [← concat_cons, List.append_nil]
  exact .intro (.intro hsymbol) hmore

theorem sound_property : Sound property Subject := by
  intro stream
  refine soundFrom_nextIs (fun hhead ↦ ?_) fun _ ↦ sound_path.mono (fun _ _ _ h ↦ .path h) stream
  apply (soundFrom_skip hhead (by decide)).bind
  rintro - _ ⟨opening, rfl, hopening⟩
  refine (sound_items (by decide) sound_path).bind fun parts tokens hparts ↦ ?_
  apply (sound_expect (by decide) _).bind
  rintro closing _ ⟨rfl, hclosing⟩
  apply sound_pure
  rw [← concat_eq_foldl]
  simpa using Subject.compound hopening hparts hclosing

/-- The words behind slashes are the tokens taken, and what is left follows them. -/
theorem slashedWords_sound (tokens : List Token) :
    ∃ front, tokens = front ++ (slashedWords tokens).2 ∧
      Continued .slash BareWord front (slashedWords tokens).1 := by
  fun_induction slashedWords tokens with
  | case1 slash word rest h words others hrest ih =>
    simp only [hrest] at ih
    obtain ⟨front, hfront, hwords⟩ := ih
    rw [Bool.and_eq_true, decide_eq_true_eq, decide_eq_true_eq] at h
    refine ⟨slash :: word :: front, by simp [hfront], .cons h.1 ?_⟩
    exact Separated.intro (.intro h.2 : BareWord [word] _) hwords
  | case2 => exact ⟨[], rfl, .nil⟩
  | case3 => exact ⟨[], rfl, .nil⟩

theorem foldl_eq_intercalate (separator head : String) (rest : List String) :
    rest.foldl (fun text word ↦ text ++ separator ++ word) head =
      separator.intercalate (head :: rest) := by
  induction rest generalizing head with
  | nil => rw [List.foldl_nil, String.intercalate_singleton]
  | cons word rest ih =>
    rw [List.foldl_cons, ih, String.intercalate_cons_append, String.intercalate_cons_cons]

theorem sound_bareText (head : String) :
    Sound (bareText head) fun tokens text ↦ ∃ words, Continued .slash BareWord tokens words ∧
      text = "/".intercalate (head :: words) := by
  rintro ⟨tokens, stop⟩ text rest hok -
  obtain ⟨front, hfront, hwords⟩ := slashedWords_sound tokens
  cases hok
  exact ⟨front, hfront, _, hwords, foldl_eq_intercalate _ _ _⟩

theorem sound_value : Sound value Operand := by
  have hloose : Sound value fun tokens value ↦ LiteralsValued tokens → Operand tokens value := by
    refine sound_advance.bind fun token tokens htoken ↦ ?_
    have hone {symbol : Symbol} (h : token.symbol = symbol) (hsymbol : symbol ≠ .stop) :
        tokens = [token] := htoken.resolve_right fun h' ↦ hsymbol (h.symm.trans h'.2)
    split
    · next hsymbol =>
      rw [hone hsymbol (by decide)]
      refine sound_pure fun hvalued ↦ ?_
      obtain ⟨value, hvalue⟩ := Option.isSome_iff_exists.mp (hvalued token (by simp) hsymbol)
      rw [hvalue]
      exact .literal hsymbol hvalue
    · next hsymbol =>
      rw [hone hsymbol (by decide)]
      apply (sound_bareText token.text).bind
      rintro text rest ⟨words, hwords, rfl⟩
      refine sound_pure fun _ ↦ .bare ?_
      simpa using Separated.intro (.intro hsymbol) hwords
    · next order hsymbol =>
      rw [hone hsymbol (by simp)]
      intro stream
      refine soundFrom_nextIs (fun hhead ↦ ?_) fun _ ↦ sound_unexpected token .value stream
      apply (soundFrom_advance hhead (by decide)).bind
      rintro word _ ⟨rfl, hword⟩
      apply (sound_bareText _).bind
      rintro text rest ⟨words, hwords, rfl⟩
      refine sound_pure fun _ ↦ ?_
      rw [String.intercalate_cons_append]
      refine .signed hsymbol ?_
      simpa using Separated.intro (.intro hword) hwords
    · exact sound_unexpected token .value
  exact hloose.mono fun _ _ hvalued h ↦ h hvalued

theorem sound_infixTail (property : Property) :
    Sound (infixTail property) fun tokens query ↦ ∃ sign rest op value, tokens = sign :: rest ∧
      sign.symbol = .comparison op ∧ Operand rest value ∧ query = .compare op property value := by
  refine sound_advance.bind fun token tokens htoken ↦ ?_
  split
  · next op hsymbol =>
    obtain rfl | ⟨-, hstop⟩ := htoken
    · refine sound_value.bind fun value rest hvalue ↦ sound_pure ?_
      exact ⟨token, rest, op, value, by simp, hsymbol, hvalue, rfl⟩
    · exact nomatch hsymbol.symm.trans hstop
  · exact sound_unexpected token .comparison

theorem sound_subject :
    Sound subject fun tokens property ↦ ∃ first comma, tokens = first ++ [comma] ∧
      Subject first property ∧ comma.symbol = .comma := by
  refine sound_property.bind fun property first hfirst ↦ ?_
  apply (sound_expect (by decide) _).bind
  rintro comma _ ⟨rfl, hcomma⟩
  exact sound_pure ⟨first, comma, by simp, hfirst, hcomma⟩

theorem sound_limitNumber : Sound limitNumber Count := by
  refine sound_advance.bind fun token tokens htoken ↦ ?_
  split
  · next value hsymbol hvalue =>
    obtain rfl | ⟨-, hstop⟩ := htoken
    · apply (sound_shaped _ _).mono
      rintro _ count - ⟨rfl, hcount⟩
      obtain ⟨n, hinteger, hlow, hhigh, rfl⟩ := Query.limitArgument_eq_ok.mp hcount
      exact .intro hsymbol hvalue hinteger hlow hhigh
    · exact nomatch hsymbol.symm.trans hstop
  · exact sound_unexpected token .count

theorem sound_limit : Sound limit Range := by
  refine sound_limitNumber.bind fun number first hnumber ↦ ?_
  intro stream
  refine soundFrom_nextIs (fun hhead ↦ ?_) fun _ ↦
    sound_pure (by simpa using Range.count hnumber) stream
  apply (soundFrom_skip hhead (by decide)).bind
  rintro - _ ⟨comma, rfl, hcomma⟩
  refine sound_limitNumber.bind fun count rest hcount ↦ sound_pure ?_
  simpa using Range.page hnumber hcomma hcount

theorem sound_sortKey : Sound sortKey Key := by
  intro stream
  apply soundFrom_peek
  split
  · next order hhead =>
    apply (soundFrom_skip hhead (by simp)).bind
    rintro - _ ⟨sign, rfl, hsign⟩
    refine sound_property.bind fun property tokens hproperty ↦ sound_pure ?_
    simpa using Key.signed hsign hproperty
  · refine (sound_property stream).bind fun property tokens hproperty ↦ sound_pure ?_
    simpa using Key.plain hproperty

theorem isText_iff (value : Value) : isText value = true ↔ IsText value := by
  constructor
  · intro h
    cases value <;> first | exact .string _ | exact .char _ | cases h
  · rintro (_ | _) <;> rfl

theorem sound_pattern (op : PatternOp) : Sound (pattern op) (Arguments (.pattern op)) := by
  apply sound_subject.bind
  rintro property _ ⟨first, comma, rfl, hsubject, hcomma⟩
  refine sound_position fun position ↦ ?_
  refine sound_value.bind fun value rest hvalue ↦ ?_
  split
  · exact sound_fail _ _
  · next h =>
    apply sound_pure
    have hpattern : op = .like → IsText value := by
      intro hop
      by_contra hvalue
      rw [← isText_iff] at hvalue
      exact h (by simp [hop, hvalue])
    simpa using Arguments.pattern hsubject hcomma hvalue hpattern

theorem sound_call {α : Type} {keyword : Keyword} {parser : Parse α} {phrase : Phrase α}
    {stream : TokenStream} (hhead : headSymbol stream.tokens = .function keyword)
    (hparser : Sound parser phrase) :
    SoundFrom stream (call parser) (Call phrase keyword) := by
  apply (soundFrom_skip hhead (by simp)).bind
  rintro - _ ⟨name, rfl, hname⟩
  apply (sound_expect (by decide) _).bind
  rintro opening _ ⟨rfl, hopening⟩
  refine hparser.bind fun a tokens ha ↦ ?_
  apply (sound_expect (by decide) _).bind
  rintro closing _ ⟨rfl, hclosing⟩
  apply sound_pure
  simpa using Call.intro hname hopening ha hclosing

theorem sound_count : Sound count fun tokens query ↦ ∃ counted, Counted tokens counted ∧
    query = .count counted := by
  intro stream
  refine soundFrom_nextIs (fun _ ↦ sound_pure ⟨none, .all, rfl⟩ stream) fun _ ↦ ?_
  refine (sound_property stream).bind fun property tokens hproperty ↦ sound_pure ?_
  exact ⟨some property, by simpa using Counted.some hproperty, rfl⟩

/-! ### Building up an aggregate -/

/-- The items are these properties and then these functions; behind functions there are only more
functions. -/
def Arranged (functions : List Query) (items : List Child) (properties : List Property)
    (more : List Query) : Prop :=
  items = properties.map .property ++ more.map .node ∧ (functions ≠ [] → properties = [])

section Arranged

variable {items : List Child} {properties : List Property} {functions more : List Query}

theorem arranged_nil_iff : Arranged functions [] properties more ↔ properties = [] ∧ more = [] := by
  constructor
  · intro h
    simpa using h.1.symm
  · intro h
    exact ⟨by simp [h], fun _ ↦ h.1⟩

/-- A property may stand in front of items that are arranged. -/
theorem arranged_property_iff {property : Property} :
    Arranged [] (.property property :: items) properties more ↔
      ∃ rest, properties = property :: rest ∧ Arranged [] items rest more := by
  constructor
  · intro h
    have hitems := h.1
    cases properties with
    | nil => cases more <;> simp at hitems
    | cons head rest =>
      have hparts : property = head ∧ items = rest.map .property ++ more.map .node := by
        simpa using hitems
      exact ⟨rest, by rw [hparts.1], hparts.2, by simp⟩
  · rintro ⟨rest, rfl, hitems, -⟩
    exact ⟨by simp [hitems], by simp⟩

theorem not_arranged_property {function : Query} {property : Property} :
    ¬Arranged (function :: functions) (.property property :: items) properties more := by
  intro h
  have hitems := h.1
  rw [h.2 (by simp)] at hitems
  cases more <;> simp at hitems

/-- Behind a function there are functions only. -/
theorem arranged_function_iff {function : Query} :
    Arranged functions (.node function :: items) properties more ↔
      properties = [] ∧ ∃ rest, more = function :: rest ∧
        Arranged (functions ++ [function]) items [] rest := by
  constructor
  · intro h
    have hitems := h.1
    cases properties with
    | cons head rest => simp at hitems
    | nil =>
      cases more with
      | nil => simp at hitems
      | cons head rest =>
        have hparts : function = head ∧ items = rest.map .node := by simpa using hitems
        exact ⟨rfl, rest, by rw [hparts.1], hparts.2, fun _ ↦ rfl⟩
  · rintro ⟨rfl, rest, rfl, hitems, -⟩
    exact ⟨by simp [hitems], fun _ ↦ rfl⟩

end Arranged

theorem add_function {groups : List Property} {functions : List Query} {function : Query}
    (h : function.isFunction = true) : Query.add (.aggregate groups functions) (.node function) =
      .ok (.aggregate groups (functions ++ [function])) := by
  rw [Query.add_node, if_pos h]

/-- An aggregate can be built up from some items exactly if no property follows a function. -/
theorem foldlM_add_eq_ok {items : List Child} {groups : List Property} {functions : List Query}
    {query : Query}
    (hitems : ∀ item ∈ items, (∃ property, item = .property property) ∨
      ∃ function, item = .node function ∧ function.isFunction = true) :
    items.foldlM Query.add (.aggregate groups functions) = .ok query ↔
      ∃ properties more, Arranged functions items properties more ∧
        query = .aggregate (groups ++ properties) (functions ++ more) := by
  induction items generalizing groups functions with
  | nil =>
    simp only [arranged_nil_iff]
    constructor
    · intro h
      cases h
      exact ⟨[], [], ⟨rfl, rfl⟩, by simp⟩
    · rintro ⟨_, _, ⟨rfl, rfl⟩, rfl⟩
      simp [pure, Except.pure]
  | cons item rest ih =>
    have hrest := fun item hmem ↦ hitems item (List.mem_cons_of_mem _ hmem)
    obtain ⟨property, rfl⟩ | ⟨function, rfl, hfunction⟩ := hitems item (by simp)
    · cases functions with
      | nil =>
        change rest.foldlM Query.add (.aggregate (groups ++ [property]) []) = .ok query ↔ _
        simp only [ih hrest, arranged_property_iff]
        constructor
        · rintro ⟨properties, more, h, rfl⟩
          exact ⟨property :: properties, more, ⟨properties, rfl, h⟩, by simp⟩
        · rintro ⟨_, more, ⟨properties, rfl, h⟩, rfl⟩
          exact ⟨properties, more, h, by simp⟩
      | cons function functions =>
        constructor
        · intro h
          cases h
        · rintro ⟨properties, more, h, -⟩
          exact absurd h not_arranged_property
    · rw [List.foldlM_cons, add_function hfunction]
      change rest.foldlM Query.add (.aggregate groups (functions ++ [function])) = .ok query ↔ _
      simp only [ih hrest, arranged_function_iff]
      constructor
      · rintro ⟨properties, more, h, rfl⟩
        obtain rfl := h.2 (by simp)
        exact ⟨[], function :: more, ⟨rfl, more, rfl, h⟩, by simp⟩
      · rintro ⟨_, _, ⟨rfl, more, rfl, h⟩, rfl⟩
        exact ⟨[], more, h, by simp⟩

theorem sound_aggregateItem : Sound aggregateItem AggregateItem := by
  intro stream
  apply soundFrom_peek
  split
  · next op hhead =>
    have hproperty : Sound (Query.summary op <$> property) fun tokens query ↦
        ∃ path, Subject tokens path ∧ query = .summary op path :=
      sound_property.map fun _ path h ↦ ⟨path, h, rfl⟩
    refine (sound_call hhead hproperty).bind fun query tokens hcall ↦ ?_
    obtain ⟨path, hpath, rfl⟩ := hcall.of_exists
    exact sound_pure (by simpa using AggregateItem.summary hpath)
  · next hhead =>
    refine (sound_call hhead sound_count).bind fun query tokens hcall ↦ ?_
    obtain ⟨counted, hcounted, rfl⟩ := hcall.of_exists
    exact sound_pure (by simpa using AggregateItem.count hcounted)
  · refine (sound_property stream).bind fun property tokens hproperty ↦ sound_pure ?_
    simpa using AggregateItem.group hproperty
  · refine (sound_property stream).bind fun property tokens hproperty ↦ sound_pure ?_
    simpa using AggregateItem.group hproperty
  · exact (sound_advance stream).bind fun token _ _ ↦ sound_unexpected token _

theorem sound_addItem (query : Query) :
    Sound (addItem query) fun tokens result ↦ ∃ item, AggregateItem tokens item ∧
      query.add item = .ok result := by
  refine sound_position fun position ↦ sound_aggregateItem.bind fun item tokens hitem ↦ ?_
  apply (sound_shaped _ _).mono
  rintro _ result - ⟨rfl, hresult⟩
  exact ⟨item, by simpa using hitem, hresult⟩

theorem sound_addItems (query : Query) (limit : Nat) :
    Sound (addItems query limit) fun tokens result ↦ ∃ items,
      Continued .comma AggregateItem tokens items ∧ items.foldlM Query.add query = .ok result := by
  induction limit generalizing query with
  | zero => exact sound_pure ⟨[], .nil, rfl⟩
  | succ limit ih =>
    intro stream
    refine soundFrom_nextIs (fun hhead ↦ ?_) fun _ ↦ sound_pure ⟨[], .nil, rfl⟩ stream
    apply (soundFrom_skip hhead (by decide)).bind
    rintro - _ ⟨comma, rfl, hcomma⟩
    apply (sound_addItem query).bind
    rintro middle first ⟨item, hitem, hmiddle⟩
    apply (ih middle).mono
    rintro rest result - ⟨items, hitems, hresult⟩
    refine ⟨item :: items, by simpa using .cons hcomma (.intro hitem hitems), ?_⟩
    rw [List.foldlM_cons, hmiddle]
    exact hresult

theorem sound_aggregate : Sound aggregate (Arguments .aggregate) := by
  apply (sound_addItem _).bind
  rintro query first ⟨item, hitem, hquery⟩
  refine sound_get fun stream ↦ (sound_addItems query _).mono ?_
  rintro rest result - ⟨items, hitems, hresult⟩
  have hall : Separated .comma AggregateItem (first ++ rest) (item :: items) := .intro hitem hitems
  have hfold : (item :: items).foldlM Query.add (.aggregate [] []) = .ok result := by
    rw [List.foldlM_cons, hquery]
    exact hresult
  obtain ⟨groups, functions, harranged, rfl⟩ :=
    (foldlM_add_eq_ok (hall.forall fun _ _ h ↦ h.shape)).mp hfold
  rw [harranged.1] at hall
  exact .aggregate hall

theorem sound_arguments_of_leaf {inner : Parse Query} {keyword : Keyword}
    (hkeyword : ∀ joiner, keyword ≠ .group joiner) :
    Sound (arguments inner keyword) (Arguments keyword) := by
  cases keyword with
  | limit => exact sound_limit.map fun _ _ ↦ .limit
  | select => exact (sound_items (by decide) sound_property).map fun _ _ ↦ .select
  | sort => exact (sound_items (by decide) sound_sortKey).map fun _ _ ↦ .sort
  | group joiner => exact absurd rfl (hkeyword joiner)
  | compare op =>
    apply sound_subject.bind
    rintro property _ ⟨first, comma, rfl, hsubject, hcomma⟩
    refine sound_value.bind fun value rest hvalue ↦ sound_pure ?_
    simpa using Arguments.compare hsubject hcomma hvalue
  | pattern op => exact sound_pattern op
  | membership op =>
    apply sound_subject.bind
    rintro property _ ⟨first, comma, rfl, hsubject, hcomma⟩
    refine (sound_items (by decide) sound_value).bind fun entries rest hentries ↦ sound_pure ?_
    simpa using Arguments.membership hsubject hcomma hentries
  | distinct => exact sound_pure .distinct
  | first => exact sound_pure .first
  | one => exact sound_pure .one
  | count =>
    apply sound_count.mono
    rintro tokens _ - ⟨counted, hcounted, rfl⟩
    exact .count hcounted
  | values => exact sound_property.map fun _ _ ↦ .values
  | summary op => exact sound_property.map fun _ _ ↦ .summary
  | aggregate => exact sound_aggregate

theorem sound_term {inner : Parse Query} (hinner : Sound inner Clauses) :
    Sound (term inner) Term := by
  have hcomparison (stream : TokenStream) :
      SoundFrom stream (property >>= infixTail) Term := by
    refine (sound_property stream).bind fun property first hproperty ↦ ?_
    apply (sound_infixTail property).mono
    rintro _ _ - ⟨sign, rest, op, value, rfl, hsign, hvalue, rfl⟩
    exact .comparison hproperty hsign hvalue
  intro stream
  apply soundFrom_peek
  split
  · next hhead =>
    change SoundFrom stream (if beginsCompound stream.tokens then _ else _) Term
    split
    · exact hcomparison stream
    · apply (soundFrom_skip hhead (by decide)).bind
      rintro - _ ⟨opening, rfl, hopening⟩
      refine hinner.bind fun query tokens hquery ↦ ?_
      apply (sound_expect (by decide) _).bind
      rintro closing _ ⟨rfl, hclosing⟩
      exact sound_pure (by simpa using Term.within hopening hquery hclosing)
  · next keyword hhead =>
    by_cases hgroup : ∃ joiner, keyword = .group joiner
    · obtain ⟨joiner, rfl⟩ := hgroup
      have harguments : Sound (arguments inner (.group joiner)) fun tokens query ↦
          ∃ queries, Separated .comma Clauses tokens queries ∧ query = .group joiner queries :=
        (sound_items (by decide) hinner).map fun _ queries h ↦ ⟨queries, h, rfl⟩
      intro query rest hok hvalued
      obtain ⟨tokens, htokens, hcall⟩ := sound_call hhead harguments query rest hok hvalued
      obtain ⟨queries, ⟨hname, hopening, ⟨pieces, hpieces, hall⟩, hclosing⟩, rfl⟩ := hcall.of_exists
      exact ⟨_, htokens, .group hname hopening hpieces hall hclosing⟩
    · have hkeyword := fun joiner h ↦ hgroup ⟨joiner, h⟩
      intro query rest hok hvalued
      obtain ⟨tokens, htokens, hcall⟩ :=
        sound_call hhead (sound_arguments_of_leaf hkeyword) query rest hok hvalued
      exact ⟨tokens, htokens, .function hcall⟩
  · exact hcomparison stream
  · exact (sound_advance stream).bind fun token _ _ ↦ sound_unexpected token _

theorem sound_noOtherJoiner (joiner : Joiner) :
    Sound (noOtherJoiner joiner) fun tokens _ ↦ tokens = [] := by
  intro stream
  apply soundFrom_peek
  split
  · exact (sound_advance stream).bind fun token _ _ ↦ sound_fail _ _
  · exact fun _ _ h _ ↦ ⟨[], by rw [(pure_eq_ok.mp h).2]; rfl, rfl⟩

theorem sound_terms (depth : Nat) : Sound (terms depth) Clauses := by
  induction depth with
  | zero => exact sound_advance.bind fun token _ _ ↦ sound_unexpected token _
  | succ depth ih =>
    refine (sound_term ih).bind fun head first hhead ↦ ?_
    intro stream
    apply soundFrom_peek
    split
    · next joiner hjoiner =>
      change SoundFrom stream ((get >>= fun s ↦
        itemsAfter (.joiner joiner) (term (terms depth)) s.tokens.length) >>= _) _
      apply (soundFrom_itemsAfter (by simp) (sound_term ih) hjoiner).bind
      rintro more rest ⟨hmany, hmore⟩
      apply (sound_noOtherJoiner joiner).bind
      rintro - _ rfl
      obtain ⟨pieces, hpieces, hall⟩ := Separated.intro hhead hmore
      have hlength : 1 < (head :: more).length := by simpa using List.length_pos_iff.mpr hmany
      exact sound_pure (by simpa using .joined hpieces hall hlength)
    · exact sound_pure (by simpa using .term hhead) stream

/-- A query that is parsed is a sentence, when the only end among the tokens is the last one. -/
theorem sentence_of_query_eq_ok {tokens : List Token} {stop : Token} {place : Nat} {query : Query}
    {rest : TokenStream} (hinner : ∀ token ∈ tokens, token.symbol ≠ .stop)
    (hstop : stop.symbol = .stop) (hvalued : LiteralsValued (tokens ++ [stop]))
    (hok : Parse.query ⟨tokens ++ [stop], place⟩ = .ok query rest) :
    Sentence (tokens ++ [stop]) query := by
  rw [Parse.query, nextIs_bind] at hok
  split at hok
  · next hhead =>
    obtain ⟨rfl, -⟩ := pure_eq_ok.mp hok
    cases tokens with
    | nil => exact .empty hstop
    | cons first tokens => exact absurd (eq_of_beq hhead) (hinner first (by simp))
  · rw [get_bind] at hok
    obtain ⟨parsed, middle, hterms, hok⟩ := bind_eq_ok.mp hok
    obtain ⟨last, after, hlast, hok⟩ := bind_eq_ok.mp hok
    obtain ⟨rfl, rfl⟩ := pure_eq_ok.mp hok
    obtain ⟨front, hfront, hclauses⟩ := sound_terms _ _ parsed middle hterms hvalued
    obtain ⟨left, place⟩ := middle
    dsimp only at hfront
    -- The clauses do not reach over the end, and what is left begins with an end.
    cases left with
    | nil =>
      obtain ⟨before, final, rfl, hfinal⟩ := hclauses.endsOpen
      rw [List.append_nil] at hfront
      obtain ⟨-, rfl⟩ := List.append_inj' hfront rfl |>.imp id List.singleton_inj.mp
      exact absurd hstop hfinal
    | cons next left =>
      have hnext : next.symbol = .stop := by
        by_contra hnext
        rw [expect, bind_ok (advance_cons next left place), if_neg hnext] at hlast
        exact fail_ne_ok hlast
      obtain rfl : left = [] := by
        by_contra hleft
        obtain ⟨more, last, rfl⟩ := (List.eq_nil_or_concat' left).resolve_left hleft
        rw [← List.cons_append, ← List.append_assoc] at hfront
        obtain ⟨rfl, -⟩ := List.append_inj' hfront rfl
        exact hinner next (by simp) hnext
      obtain ⟨rfl, hlast⟩ := List.append_inj' hfront rfl
      obtain rfl := List.singleton_inj.mp hlast
      exact .clauses hclauses hstop

end ResourceQuery.Parse
