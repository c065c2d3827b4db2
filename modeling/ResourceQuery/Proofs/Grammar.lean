import Mathlib.Data.List.Forall2
import ResourceQuery.Query.Child
import ResourceQuery.Token

/-!
# The grammar of queries

The sentences of the query language, as lists of tokens together with what they mean. Nothing here
reads tokens one by one: a phrase is cut into smaller phrases wherever that is possible, no order
of trying them is fixed, and no token is looked ahead at. That parsing recognises exactly these
sentences, and that a sentence therefore has one meaning, is a theorem about the parser.
-/

namespace ResourceQuery.Grammar

/-- The forms of a construct, with the meaning of each. -/
abbrev Phrase (α : Type) := List Token → α → Prop

/-- The tokens of some pieces in order, with one separator between any two neighbours. -/
inductive Joined (separator : Symbol) : List (List Token) → List Token → Prop
  | single (piece : List Token) : Joined separator [piece] piece
  | cons {piece tokens : List Token} {sign : Token} {pieces : List (List Token)}
      (hsign : sign.symbol = separator) (hrest : Joined separator pieces tokens) :
      Joined separator (piece :: pieces) (piece ++ sign :: tokens)

/-- One item or more, with a separator between them. -/
def Separated {α : Type} (separator : Symbol) (item : Phrase α) : Phrase (List α) :=
  fun tokens items ↦ ∃ pieces, Joined separator pieces tokens ∧ List.Forall₂ item pieces items

/-- Any number of items, each behind a separator. -/
inductive Continued {α : Type} (separator : Symbol) (item : Phrase α) : Phrase (List α)
  | nil : Continued separator item [] []
  | cons {sign : Token} {tokens : List Token} {items : List α} (hsign : sign.symbol = separator)
      (hitems : Separated separator item tokens items) :
      Continued separator item (sign :: tokens) items

/-- A path made up of others. -/
def concat (parts : List Property) : Property :=
  ⟨parts.flatMap (·.segments)⟩

/-- A word of a path, which may itself be dotted. -/
inductive Word : Phrase Property
  | intro {word : Token} (hword : word.symbol = .property) : Word [word] (.ofPath word.text)

/-- What may follow a slash within a path: a word, or a whole number by its text. -/
inductive Segment : Phrase Property
  | word {tokens : List Token} {path : Property} (hword : Word tokens path) : Segment tokens path
  | number {number : Token} {n : SizedInteger} (hsymbol : number.symbol = .literal)
      (hvalue : number.value = some (.integer n)) : Segment [number] ⟨[number.text]⟩

inductive Path : Phrase Property
  | intro {first rest : List Token} {path : Property} {segments : List Property}
      (hword : Word first path) (hrest : Continued .slash Segment rest segments) :
      Path (first ++ rest) (concat (path :: segments))

/-- A path, or the parts of one within parentheses. -/
inductive Subject : Phrase Property
  | path {tokens : List Token} {path : Property} (hpath : Path tokens path) : Subject tokens path
  | compound {opening closing : Token} {tokens : List Token} {parts : List Property}
      (hopening : opening.symbol = .openParen) (hparts : Separated .comma Path tokens parts)
      (hclosing : closing.symbol = .closeParen) :
      Subject (opening :: tokens ++ [closing]) (concat parts)

/-- A word of a bare value, which is kept as it is written. -/
inductive BareWord : Phrase String
  | intro {word : Token} (hword : word.symbol = .property) : BareWord [word] word.text

inductive Operand : Phrase Value
  | literal {literal : Token} {value : Value} (hsymbol : literal.symbol = .literal)
      (hvalue : literal.value = some value) : Operand [literal] value
  | bare {tokens : List Token} {words : List String}
      (hwords : Separated .slash BareWord tokens words) :
      Operand tokens (.string ("/".intercalate words))
  | signed {sign : Token} {order : SortOrder} {tokens : List Token} {words : List String}
      (hsign : sign.symbol = .direction order) (hwords : Separated .slash BareWord tokens words) :
      Operand (sign :: tokens) (.string (sign.text ++ "/".intercalate words))

/-- A whole number from zero up to the highest count. -/
inductive Count : Phrase UInt64
  | intro {number : Token} {value : Value} {n : Int} (hsymbol : number.symbol = .literal)
      (hvalue : number.value = some value) (hinteger : value.integer? = some n)
      (hlow : 0 ≤ n) (hhigh : n < twoTo 64) : Count [number] (.ofNat n.toNat)

inductive Range : Phrase Limit
  | count {tokens : List Token} {count : UInt64} (hcount : Count tokens count) :
      Range tokens ⟨none, count⟩
  | page {first second : List Token} {comma : Token} {start count : UInt64}
      (hstart : Count first start) (hcomma : comma.symbol = .comma) (hcount : Count second count) :
      Range (first ++ comma :: second) ⟨some start, count⟩

inductive Key : Phrase SortKey
  | plain {tokens : List Token} {property : Property} (hsubject : Subject tokens property) :
      Key tokens ⟨.ascending, property⟩
  | signed {sign : Token} {order : SortOrder} {tokens : List Token} {property : Property}
      (hsign : sign.symbol = .direction order) (hsubject : Subject tokens property) :
      Key (sign :: tokens) ⟨order, property⟩

/-- A function with its arguments in parentheses. -/
inductive Call {α : Type} (arguments : Phrase α) : Keyword → Phrase α
  | intro {name opening closing : Token} {keyword : Keyword} {tokens : List Token} {a : α}
      (hname : name.symbol = .function keyword) (hopening : opening.symbol = .openParen)
      (harguments : arguments tokens a) (hclosing : closing.symbol = .closeParen) :
      Call arguments keyword (name :: opening :: tokens ++ [closing]) a

/-- The argument of a count, which may be left out. -/
inductive Counted : Phrase (Option Property)
  | all : Counted [] none
  | some {tokens : List Token} {property : Property} (hsubject : Subject tokens property) :
      Counted tokens (some property)

/-- An argument of an aggregate: a property to group by, or a function. -/
inductive AggregateItem : Phrase Child
  | group {tokens : List Token} {property : Property} (hsubject : Subject tokens property) :
      AggregateItem tokens (.property property)
  | summary {tokens : List Token} {op : SummaryOp} {property : Property}
      (hcall : Call Subject (.summary op) tokens property) :
      AggregateItem tokens (.node (.summary op property))
  | count {tokens : List Token} {counted : Option Property}
      (hcall : Call Counted .count tokens counted) :
      AggregateItem tokens (.node (.count counted))

/-- A value that can be a pattern of `like`. -/
inductive IsText : Value → Prop
  | string (text : String) : IsText (.string text)
  | char (c : Char) : IsText (.char c)

/-- The arguments of every function but the groups, with the node that the function stands for. -/
inductive Arguments : Keyword → Phrase Query
  | limit {tokens : List Token} {range : Limit} (hrange : Range tokens range) :
      Arguments .limit tokens (.limit range)
  | select {tokens : List Token} {properties : List Property}
      (hproperties : Separated .comma Subject tokens properties) :
      Arguments .select tokens (.select properties)
  | sort {tokens : List Token} {keys : List SortKey} (hkeys : Separated .comma Key tokens keys) :
      Arguments .sort tokens (.sort keys)
  | compare {first second : List Token} {comma : Token} {op : Comparison} {property : Property}
      {value : Value} (hsubject : Subject first property) (hcomma : comma.symbol = .comma)
      (hoperand : Operand second value) :
      Arguments (.compare op) (first ++ comma :: second) (.compare op property value)
  | pattern {first second : List Token} {comma : Token} {op : PatternOp} {property : Property}
      {value : Value} (hsubject : Subject first property) (hcomma : comma.symbol = .comma)
      (hoperand : Operand second value) (hpattern : op = .like → IsText value) :
      Arguments (.pattern op) (first ++ comma :: second) (.pattern op property value)
  | membership {first second : List Token} {comma : Token} {op : MembershipOp}
      {property : Property} {entries : List Value} (hsubject : Subject first property)
      (hcomma : comma.symbol = .comma) (hentries : Separated .comma Operand second entries) :
      Arguments (.membership op) (first ++ comma :: second) (.membership op property entries)
  | distinct : Arguments .distinct [] .distinct
  | first : Arguments .first [] .first
  | one : Arguments .one [] .one
  | count {tokens : List Token} {counted : Option Property} (hcounted : Counted tokens counted) :
      Arguments .count tokens (.count counted)
  | values {tokens : List Token} {property : Property} (hsubject : Subject tokens property) :
      Arguments .values tokens (.values property)
  | summary {tokens : List Token} {op : SummaryOp} {property : Property}
      (hsubject : Subject tokens property) :
      Arguments (.summary op) tokens (.summary op property)
  | aggregate {tokens : List Token} {groups : List Property} {functions : List Query}
      (hitems : Separated .comma AggregateItem tokens
        (groups.map .property ++ functions.map .node)) :
      Arguments .aggregate tokens (.aggregate groups functions)

mutual

/-- A term, or two terms or more that are joined by one and the same sign. -/
inductive Clauses : List Token → Query → Prop
  | term {tokens : List Token} {query : Query} (hterm : Term tokens query) : Clauses tokens query
  | joined {tokens : List Token} {joiner : Joiner} {pieces : List (List Token)}
      {queries : List Query} (hpieces : Joined (.joiner joiner) pieces tokens)
      (hterms : List.Forall₂ Term pieces queries) (hmany : 1 < queries.length) :
      Clauses tokens (.group joiner queries)

inductive Term : List Token → Query → Prop
  | within {opening closing : Token} {tokens : List Token} {query : Query}
      (hopening : opening.symbol = .openParen) (hclauses : Clauses tokens query)
      (hclosing : closing.symbol = .closeParen) :
      Term (opening :: tokens ++ [closing]) query
  | comparison {first second : List Token} {sign : Token} {op : Comparison} {property : Property}
      {value : Value} (hsubject : Subject first property) (hsign : sign.symbol = .comparison op)
      (hoperand : Operand second value) :
      Term (first ++ sign :: second) (.compare op property value)
  | function {tokens : List Token} {keyword : Keyword} {query : Query}
      (hcall : Call (Arguments keyword) keyword tokens query) : Term tokens query
  | group {name opening closing : Token} {joiner : Joiner} {tokens : List Token}
      {pieces : List (List Token)} {queries : List Query}
      (hname : name.symbol = .function (.group joiner)) (hopening : opening.symbol = .openParen)
      (hpieces : Joined .comma pieces tokens) (hqueries : List.Forall₂ Clauses pieces queries)
      (hclosing : closing.symbol = .closeParen) :
      Term (name :: opening :: tokens ++ [closing]) (.group joiner queries)

end

/-- A whole query, up to the token that ends it. -/
inductive Sentence : Phrase Query
  | empty {stop : Token} (hstop : stop.symbol = .stop) : Sentence [stop] .noop
  | clauses {tokens : List Token} {stop : Token} {query : Query} (hclauses : Clauses tokens query)
      (hstop : stop.symbol = .stop) : Sentence (tokens ++ [stop]) query

section Items

variable {α : Type} {separator : Symbol} {item : Phrase α}

theorem Separated.intro {first rest : List Token} {a : α} {items : List α} (hfirst : item first a)
    (hrest : Continued separator item rest items) :
    Separated separator item (first ++ rest) (a :: items) := by
  cases hrest with
  | nil => exact ⟨[first], by simpa using .single first, .cons hfirst .nil⟩
  | cons hsign hitems =>
    obtain ⟨pieces, hpieces, hall⟩ := hitems
    exact ⟨first :: pieces, .cons hsign hpieces, .cons hfirst hall⟩

theorem Separated.uncons {tokens : List Token} {items : List α}
    (h : Separated separator item tokens items) :
    ∃ first rest a more, tokens = first ++ rest ∧ items = a :: more ∧ item first a ∧
      Continued separator item rest more := by
  obtain ⟨pieces, hpieces, hall⟩ := h
  cases hpieces with
  | single =>
    obtain - | ⟨hfirst, hnil⟩ := hall
    cases hnil
    exact ⟨_, [], _, [], by simp, rfl, hfirst, .nil⟩
  | cons hsign hrest =>
    obtain - | ⟨hfirst, hmore⟩ := hall
    exact ⟨_, _, _, _, rfl, rfl, hfirst, .cons hsign ⟨_, hrest, hmore⟩⟩

theorem Separated.forall {P : α → Prop} {tokens : List Token} {items : List α}
    (h : Separated separator item tokens items)
    (hitem : ∀ tokens a, item tokens a → P a) : ∀ a ∈ items, P a := by
  obtain ⟨pieces, -, hall⟩ := h
  induction hall with
  | nil => simp
  | cons hfirst _ ih => exact List.forall_mem_cons.mpr ⟨hitem _ _ hfirst, ih⟩

theorem Separated.mono {weaker : Phrase α} {tokens : List Token} {items : List α}
    (h : Separated separator item tokens items)
    (hitem : ∀ tokens a, item tokens a → weaker tokens a) :
    Separated separator weaker tokens items := by
  obtain ⟨pieces, hpieces, hall⟩ := h
  exact ⟨pieces, hpieces, hall.imp hitem⟩

/-- The tokens of each item are taken from the tokens of all, in their order. -/
theorem Separated.inside {tokens : List Token} {items : List α}
    (h : Separated separator item tokens items) :
    Separated separator (fun piece a ↦ item piece a ∧ piece.Sublist tokens) tokens items := by
  obtain ⟨pieces, hpieces, hall⟩ := h
  refine ⟨pieces, hpieces, ?_⟩
  have hinside (piece : List Token) (hmem : piece ∈ pieces) : piece.Sublist tokens := by
    clear hall
    induction hpieces with
    | single => rw [List.mem_singleton.mp hmem]
    | cons hsign hrest ih =>
      obtain rfl | hmem := List.mem_cons.mp hmem
      · exact List.sublist_append_left _ _
      · exact ((ih hmem).trans (List.sublist_cons_self _ _)).trans (List.sublist_append_right _ _)
  clear hpieces
  induction hall with
  | nil => exact .nil
  | cons hfirst _ ih =>
    exact .cons ⟨hfirst, hinside _ (by simp)⟩ (ih fun piece hmem ↦ hinside piece (by simp [hmem]))

theorem Separated.bounded {tokens : List Token} {items : List α}
    (h : Separated separator item tokens items) :
    Separated separator (fun piece a ↦ item piece a ∧ piece.length ≤ tokens.length) tokens
      items :=
  h.inside.mono fun _ _ hpiece ↦ ⟨hpiece.1, hpiece.2.length_le⟩

end Items

theorem concat_eq_foldl (parts : List Property) : concat parts = parts.foldl (· ++ ·) ⟨[]⟩ := by
  have h (parts : List Property) (path : Property) :
      parts.foldl (· ++ ·) path = path ++ concat parts := by
    induction parts generalizing path with
    | nil => exact congrArg Property.mk (List.append_nil _).symm
    | cons part rest ih =>
      rw [List.foldl_cons, ih]
      exact congrArg Property.mk (List.append_assoc _ _ _)
  rw [h]
  rfl

theorem concat_cons (path : Property) (parts : List Property) :
    concat (path :: parts) = parts.foldl (· ++ ·) path := by
  rw [concat_eq_foldl, List.foldl_cons]
  rfl

theorem Call.of_exists {α β : Type} {phrase : Phrase α} {f : α → β} {keyword : Keyword}
    {tokens : List Token} {b : β}
    (h : Call (fun tokens b ↦ ∃ a, phrase tokens a ∧ b = f a) keyword tokens b) :
    ∃ a, Call phrase keyword tokens a ∧ b = f a := by
  obtain ⟨hname, hopening, ⟨a, ha, rfl⟩, hclosing⟩ := h
  exact ⟨a, .intro hname hopening ha hclosing, rfl⟩

/-- What an aggregate is given item by item: properties first, and then functions. -/
theorem AggregateItem.shape {tokens : List Token} {item : Child} (h : AggregateItem tokens item) :
    (∃ property, item = .property property) ∨
      ∃ function, item = .node function ∧ function.isFunction = true := by
  cases h with
  | group => exact .inl ⟨_, rfl⟩
  | summary => exact .inr ⟨_, rfl, rfl⟩
  | count => exact .inr ⟨_, rfl, rfl⟩

/-- The last token is not the end of a query. -/
def EndsOpen (tokens : List Token) : Prop :=
  ∃ front last, tokens = front ++ [last] ∧ last.symbol ≠ .stop

theorem EndsOpen.append {tokens : List Token} (h : EndsOpen tokens) (before : List Token) :
    EndsOpen (before ++ tokens) := by
  obtain ⟨front, last, rfl, hlast⟩ := h
  exact ⟨before ++ front, last, by simp, hlast⟩

theorem endsOpen_closing {closing : Token} (hclosing : closing.symbol = .closeParen)
    (before : List Token) : EndsOpen (before ++ [closing]) :=
  ⟨before, closing, rfl, by simp [hclosing]⟩

theorem Separated.endsOpen {α : Type} {separator : Symbol} {item : Phrase α} {tokens : List Token}
    {items : List α} (h : Separated separator item tokens items)
    (hitem : ∀ tokens a, item tokens a → EndsOpen tokens) : EndsOpen tokens := by
  obtain ⟨pieces, hpieces, hall⟩ := h
  induction hpieces generalizing items with
  | single =>
    obtain - | ⟨hfirst, -⟩ := hall
    exact hitem _ _ hfirst
  | cons hsign hrest ih =>
    obtain - | ⟨-, hmore⟩ := hall
    rw [List.append_cons]
    exact (ih hmore).append _

theorem Operand.endsOpen {tokens : List Token} {value : Value} (h : Operand tokens value) :
    EndsOpen tokens := by
  have hword (tokens : List Token) (word : String) (h : BareWord tokens word) :
      EndsOpen tokens := by
    obtain ⟨h⟩ := h
    exact ⟨[], _, rfl, by simp [h]⟩
  cases h with
  | literal hsymbol => exact ⟨[], _, rfl, by simp [hsymbol]⟩
  | bare hwords => exact hwords.endsOpen hword
  | signed hsign hwords => exact (hwords.endsOpen hword).append [_]

theorem Term.endsOpen {tokens : List Token} {query : Query} (h : Term tokens query) :
    EndsOpen tokens := by
  cases h with
  | within hopening hclauses hclosing => exact endsOpen_closing hclosing _
  | comparison hsubject hsign hoperand =>
    rw [List.append_cons]
    exact hoperand.endsOpen.append _
  | function hcall =>
    obtain ⟨hname, hopening, harguments, hclosing⟩ := hcall
    exact endsOpen_closing hclosing _
  | group hname hopening hpieces hqueries hclosing => exact endsOpen_closing hclosing _

theorem Clauses.endsOpen {tokens : List Token} {query : Query} (h : Clauses tokens query) :
    EndsOpen tokens := by
  cases h with
  | term hterm => exact hterm.endsOpen
  | joined hpieces hterms hmany =>
    exact Separated.endsOpen ⟨_, hpieces, hterms⟩ fun _ _ ↦ Term.endsOpen

/-- Every literal among the tokens carries its value. -/
def LiteralsValued (tokens : List Token) : Prop :=
  ∀ token ∈ tokens, token.symbol = .literal → token.value.isSome

end ResourceQuery.Grammar
