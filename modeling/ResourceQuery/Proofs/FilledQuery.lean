import ResourceQuery.Proofs.FilledItems

/-!
# Legible queries

Reading what is printed for a query shows what the query holds: if the sentence in the text is an
equal query, then every name, key and value in the tree is legible. The proof follows the printer
from the outside to the inside, since only the text around a piece says which phrase is read in it.
-/

namespace ResourceQuery

open Lexer Grammar Query

variable {localOffset : UtcOffset} {follows : List Char → Prop} {ends : Symbol → Bool}
  {property : Property} {value : Value}

theorem forall_mem_of_forall₂ {α β : Type} {R S : α → β → Prop} {P : β → Prop} {as : List α}
    {bs : List β} (h : List.Forall₂ R as bs) (h' : List.Forall₂ S as bs)
    (hP : ∀ a b, R a b → S a b → P b) : ∀ b ∈ bs, P b := by
  induction h with
  | nil => exact List.forall_mem_nil P
  | cons hab hrest ih =>
    obtain _ | ⟨hab', hrest'⟩ := h'
    exact List.forall_mem_cons.mpr ⟨hP _ _ hab hab', ih hrest'⟩

theorem Query.isLegible_of_nodes_eq_nil {style : Style} {query : Query} (hnodes : query.nodes = [])
    (h : query.HoldsLegible style localOffset) : query.IsLegible style localOffset :=
  isLegible_iff.mpr ⟨h, by simp [hnodes]⟩

theorem Query.isLegible_of_holds_nothing {style : Style} {query : Query}
    (hnodes : query.nodes = []) (hproperties : query.properties = [])
    (hoperands : query.operands = []) (hsort : ∀ keys, query ≠ sort keys) :
    query.IsLegible style localOffset := by
  refine isLegible_of_nodes_eq_nil hnodes ?_
  cases query with
  | sort keys => exact absurd rfl (hsort keys)
  | _ => simp [HoldsLegible, hproperties, hoperands]

theorem Query.isLegible_count {style : Style} {counted : Option Property}
    (h : ∀ property ∈ counted, property.IsStable localOffset) :
    (Query.count counted).IsLegible style localOffset := by
  refine isLegible_of_nodes_eq_nil rfl ⟨?_, List.forall_mem_nil _⟩
  cases counted with
  | none => exact List.forall_mem_nil _
  | some property => exact List.forall_mem_singleton.mpr (h property rfl)

/-! ### Arguments -/

theorem fills_empty {α : Type} {phrase : Phrase α} (h : ∀ tokens a, phrase tokens a → tokens = []) :
    Fills localOffset follows ends phrase (fun _ ↦ True) [] := by
  intro passed rest last tokens token more a _ _ hyields ha
  obtain rfl := h tokens a ha
  exact ⟨trivial, last, hyields⟩

theorem fills_propertyArgument (h : property.IsClean) :
    Fills localOffset FollowsClauses Symbol.endsClauses Subject
      (fun _ ↦ property.IsStable localOffset) property.path.toList :=
  (fills_property h).narrow (fun _ hrest ↦ hrest.value.stops) fun _ _ ↦ rfl

theorem fills_valueArgument (value : Value) :
    Fills localOffset FollowsClauses Symbol.endsClauses Operand
      (fun read ↦ read.sameIgnoringCase value = true → value.IsStable localOffset)
      value.print.toList :=
  (fills_value value).narrow (fun _ ↦ FollowsClauses.value)
    fun _ ↦ Symbol.endsValue_of_endsClauses

theorem fills_limit (range : Limit) :
    Fills localOffset FollowsArguments Symbol.endsArguments (Arguments .limit) (fun _ ↦ True)
      (commas ((range.start.toList ++ [range.count]).map printNumber)).toList := by
  have hitems : List.Forall₂ (fun text (n : UInt64) ↦
      Fills localOffset FollowsClauses Symbol.endsClauses Count (fun _ ↦ True) text.toList)
      ((range.start.toList ++ [range.count]).map printNumber)
      (range.start.toList ++ [range.count]) := by
    refine List.forall₂_map_left_iff.mpr (List.forall₂_same.mpr fun n _ ↦ ?_)
    exact (fills_count n).narrow (fun _ ↦ FollowsClauses.value)
      fun _ ↦ Symbol.endsValue_of_endsClauses
  apply (fills_arguments (by simp) hitems).of_phrase
  rintro tokens _ ⟨hrange⟩
  cases hrange with
  | count hcount => exact ⟨_, separated_single hcount, fun _ ↦ trivial⟩
  | page hstart hcomma hcount =>
    exact ⟨_, separated_cons hstart hcomma (separated_single hcount), fun _ ↦ trivial⟩

theorem fills_select {properties : List Property} (hne : properties ≠ [])
    (h : ∀ property ∈ properties, property.IsClean) :
    Fills localOffset FollowsArguments Symbol.endsArguments (Arguments .select)
      (fun _ ↦ (Query.select properties).IsLegible .standard localOffset)
      (commas (properties.map (·.path))).toList := by
  have hitems : List.Forall₂ (fun text (property : Property) ↦
      Fills localOffset FollowsClauses Symbol.endsClauses Subject
        (fun _ ↦ property.IsStable localOffset) text.toList)
      (properties.map (·.path)) properties :=
    List.forall₂_map_left_iff.mpr (List.forall₂_same.mpr fun property hmem ↦
      fills_propertyArgument (h property hmem))
  apply (fills_arguments hne hitems).of_phrase
  intro tokens read harguments
  cases harguments with
  | select hproperties =>
    refine ⟨_, hproperties, fun hall ↦
      isLegible_of_nodes_eq_nil rfl ⟨?_, List.forall_mem_nil _⟩⟩
    exact forall_mem_of_forall₂ hall hall fun _ _ hstable _ ↦ hstable

theorem fills_sort {keys : List SortKey} (hne : keys ≠ [])
    (h : ∀ key ∈ keys, key.property.IsClean) :
    Fills localOffset FollowsArguments Symbol.endsArguments (Arguments .sort)
      (fun read ↦ (read == Query.sort keys) = true →
        (Query.sort keys).IsLegible .standard localOffset)
      (commas (keys.map (printSortKey .standard))).toList := by
  have hitems : List.Forall₂ (fun text (key : SortKey) ↦
      Fills localOffset FollowsClauses Symbol.endsClauses Key
        (fun read ↦ (read == key) = true → key.IsLegible .standard localOffset) text.toList)
      (keys.map (printSortKey .standard)) keys :=
    List.forall₂_map_left_iff.mpr (List.forall₂_same.mpr fun key hmem ↦
      (fills_sortKey .standard (h key hmem)).narrow (fun _ hrest ↦ hrest.value.stops)
        fun _ _ ↦ rfl)
  apply (fills_arguments hne hitems).of_phrase
  intro tokens read harguments
  cases harguments with
  | sort hkeys =>
    refine ⟨_, hkeys, fun hall hsame ↦ isLegible_of_nodes_eq_nil rfl ?_⟩
    cases same_iff.mp hsame with
    | sort hsame =>
      exact forall_mem_of_forall₂ hall (list_beq_iff.mp hsame) fun _ _ hlegible hkey ↦
        hlegible hkey

/-- A property and a value, as the arguments of a function. -/
theorem fills_pattern {op : PatternOp} (h : property.IsClean) (value : Value) :
    Fills localOffset FollowsArguments Symbol.endsArguments (Arguments (.pattern op))
      (fun read ↦ (read == Query.pattern op property value) = true →
        (Query.pattern op property value).IsLegible .standard localOffset)
      (commas [property.path, value.print]).toList := by
  have hvalue : Fills localOffset FollowsArguments Symbol.endsArguments Operand
      (fun read ↦ read.sameIgnoringCase value = true → value.IsStable localOffset)
      (commas [value.print]).toList := by
    rw [commas_singleton]
    exact (fills_valueArgument value).narrow (fun _ ↦ FollowsArguments.clauses)
      fun _ ↦ Symbol.endsClauses_of_endsArguments
  apply (fills_pair (by simp) (fills_propertyArgument h) hvalue).of_phrase
  intro tokens read harguments
  cases harguments with
  | pattern hsubject hcomma hoperand =>
    refine ⟨(_, _), ⟨_, _, _, rfl, hcomma, hsubject, hoperand⟩, fun hread hsame ↦ ?_⟩
    cases same_iff.mp hsame with
    | pattern _ hproperty hvalue =>
      exact isLegible_of_nodes_eq_nil rfl
        ⟨List.forall_mem_singleton.mpr hread.1, List.forall_mem_singleton.mpr (hread.2 hvalue)⟩

theorem fills_membership {op : MembershipOp} {entries : List Value} (hne : entries ≠ [])
    (h : property.IsClean) :
    Fills localOffset FollowsArguments Symbol.endsArguments (Arguments (.membership op))
      (fun read ↦ (read == Query.membership op property entries) = true →
        (Query.membership op property entries).IsLegible .standard localOffset)
      (commas (property.path :: entries.map (·.print))).toList := by
  have hitems : List.Forall₂ (fun text (value : Value) ↦
      Fills localOffset FollowsClauses Symbol.endsClauses Operand
        (fun read ↦ read.sameIgnoringCase value = true → value.IsStable localOffset) text.toList)
      (entries.map (·.print)) entries :=
    List.forall₂_map_left_iff.mpr (List.forall₂_same.mpr fun value _ ↦ fills_valueArgument value)
  apply (fills_pair (by simpa using hne) (fills_propertyArgument h)
    (fills_arguments hne hitems)).of_phrase
  intro tokens read harguments
  cases harguments with
  | membership hsubject hcomma hentries =>
    refine ⟨(_, _), ⟨_, _, _, rfl, hcomma, hsubject, hentries⟩, fun hread hsame ↦ ?_⟩
    cases same_iff.mp hsame with
    | membership _ hproperty hvalues =>
      refine isLegible_of_nodes_eq_nil rfl ⟨List.forall_mem_singleton.mpr hread.1, ?_⟩
      exact forall_mem_of_forall₂ hread.2 (sameValues_iff.mp hvalues) fun _ _ hstable hvalue ↦
        hstable hvalue

theorem fills_counted {counted : Option Property} (h : ∀ property ∈ counted, property.IsClean) :
    Fills localOffset FollowsArguments Symbol.endsArguments Counted
      (fun read ↦ (read == counted) = true → ∀ property ∈ counted, property.IsStable localOffset)
      (commas (counted.toList.map (·.path))).toList := by
  cases counted with
  | none =>
    intro passed rest last tokens token more read hrest _ hyields hcounted
    cases hcounted with
    | all => exact ⟨nofun, last, hyields⟩
    | some hsubject =>
      have hempty : ∀ c ∈ [], Lexeme.isPathChar c = true := nofun
      obtain ⟨-, hname, -⟩ :=
        hyields.fills_subject hrest.clauses.value.stops hempty (isReady_unsplit _ _ _) hsubject
      exact absurd rfl (hname rfl).ne_nil
  | some property =>
    rw [Option.toList_some, List.map_singleton, commas_singleton]
    have hproperty := h property rfl
    intro passed rest last tokens token more read hrest htoken hyields hcounted
    cases hcounted with
    | all =>
      have hends : token.symbol.endsValue = true :=
        Symbol.endsValue_of_endsClauses (Symbol.endsClauses_of_endsArguments htoken)
      have hnil : property.path.toList = [] := by
        refine hyields.eq_nil_of_endsValue (fun c hc ↦ ?_) hends
        obtain ⟨hsymbol, -, hblank⟩ :=
          Lexeme.not_mem_symbols_of_isPathChar (hproperty.isPathChar c hc)
        exact ⟨Lexeme.single?_eq_none hsymbol, hblank⟩
      rw [hnil] at hyields ⊢
      exact ⟨nofun, last, hyields⟩
    | some hsubject =>
      obtain ⟨hstable, hbehind⟩ := fills_propertyArgument hproperty _ _ _ _ _ _ _ hrest.clauses
        (Symbol.endsClauses_of_endsArguments htoken) hyields hsubject
      refine ⟨fun _ ↦ ?_, hbehind⟩
      rintro _ ⟨⟩
      exact hstable

/-! ### Aggregates -/

/-- What the argument of an aggregate holds reads back. -/
inductive Child.IsLegible (localOffset : UtcOffset) : Child → Prop
  | property {group : Property} (h : group.IsStable localOffset) : IsLegible localOffset
      (.property group)
  | node {function : Query} (h : function.IsLegible .standard localOffset) : IsLegible localOffset
      (.node function)

/-- An argument of an aggregate that begins with the name of a function is that function. -/
theorem call_of_aggregateItem {keyword : Keyword} {tokens more : List Token} {child : Child}
    (h : AggregateItem tokens child)
    (hhead : Parse.headSymbol (tokens ++ more) = .function keyword) :
    (∃ op property, keyword = .summary op ∧ child = .node (.summary op property) ∧
      Call Subject keyword tokens property) ∨
      ∃ counted, keyword = .count ∧ child = .node (.count counted) ∧
        Call Counted keyword tokens counted := by
  cases h with
  | group hsubject =>
    obtain h | h := Parse.head_subject hsubject more <;> rw [h] at hhead <;> cases hhead
  | summary hcall =>
    rw [Parse.head_call hcall] at hhead
    cases hhead
    exact .inl ⟨_, _, rfl, rfl, hcall⟩
  | count hcall =>
    rw [Parse.head_call hcall] at hhead
    cases hhead
    exact .inr ⟨_, rfl, rfl, hcall⟩

theorem fills_group {group : Property} (h : group.IsClean) :
    Fills localOffset FollowsClauses Symbol.endsClauses AggregateItem
      (fun item ↦ SameChild item (.property group) →
        (Child.property group).IsLegible localOffset) group.path.toList := by
  intro passed rest last tokens token more item hrest htoken hyields hitem
  have hopens (head : Token) (others : List Token)
      (htokens : tokens ++ token :: more = head :: others) : head.symbol.opens = false := by
    rw [htokens] at hyields
    exact hyields.opens_eq_false hrest.value.stops h.isPathChar (isReady_unsplit _ _ _)
  cases hitem with
  | group hsubject =>
    obtain ⟨hstable, hbehind⟩ :=
      fills_propertyArgument h _ _ _ _ _ _ _ hrest htoken hyields hsubject
    exact ⟨fun _ ↦ .property hstable, hbehind⟩
  | summary hcall =>
    obtain ⟨hname⟩ := hcall
    have hhead := hopens _ _ rfl
    rw [hname] at hhead
    cases hhead
  | count hcall =>
    obtain ⟨hname⟩ := hcall
    have hhead := hopens _ _ rfl
    rw [hname] at hhead
    cases hhead

theorem fills_aggregateFunction {function : Query} (hfunction : function.isFunction = true)
    (h : function.AllProperties Property.IsClean) :
    Fills localOffset FollowsClauses Symbol.endsClauses AggregateItem
      (fun item ↦ SameChild item (.node function) → (Child.node function).IsLegible localOffset)
      (printWithin .standard false function).toList := by
  intro passed rest last tokens token more item hrest htoken hyields hitem
  cases function with
  | summary op property =>
    have hclean := (allProperties_iff.mp h).1 property (List.mem_singleton_self property)
    have harguments : Fills localOffset FollowsArguments Symbol.endsArguments Subject
        (fun _ ↦ property.IsStable localOffset) (commas [property.path]).toList := by
      rw [commas_singleton]
      exact (fills_propertyArgument hclean).narrow (fun _ ↦ FollowsArguments.clauses)
        fun _ ↦ Symbol.endsClauses_of_endsArguments
    rw [printWithin] at hyields ⊢
    obtain ⟨_, _, hkeyword, rfl, hcall⟩ | ⟨_, hkeyword, -⟩ :=
      call_of_aggregateItem hitem (head_printCall hyields)
    · obtain ⟨hstable, hbehind⟩ := fills_call harguments _ _ _ _ _ _ _ hrest htoken hyields hcall
      refine ⟨fun _ ↦ .node (isLegible_of_nodes_eq_nil rfl ?_), hbehind⟩
      exact ⟨List.forall_mem_singleton.mpr hstable, List.forall_mem_nil _⟩
    · cases hkeyword
  | count counted =>
    have hclean : ∀ property ∈ counted, property.IsClean := by
      intro property hmem
      obtain rfl := Option.mem_def.mp hmem
      exact (allProperties_iff.mp h).1 property (List.mem_singleton_self property)
    have htext : printWithin .standard false (.count counted) =
        printCall Keyword.count.name (counted.toList.map (·.path)) := by
      rw [printWithin, Keyword.name]
    rw [htext] at hyields ⊢
    obtain ⟨_, _, hkeyword, -⟩ | ⟨_, -, rfl, hcall⟩ :=
      call_of_aggregateItem hitem (head_printCall hyields)
    · cases hkeyword
    · obtain ⟨hstable, hbehind⟩ :=
        fills_call (fills_counted hclean) _ _ _ _ _ _ _ hrest htoken hyields hcall
      refine ⟨?_, hbehind⟩
      rintro (_ | hsame)
      exact .node (isLegible_count (hstable hsame))
  | _ => cases hfunction

theorem fills_aggregate {groups : List Property} {functions : List Query}
    (hne : groups.map Child.property ++ functions.map Child.node ≠ [])
    (hfunctions : ∀ function ∈ functions, function.isFunction = true)
    (h : (Query.aggregate groups functions).AllProperties Property.IsClean) :
    Fills localOffset FollowsArguments Symbol.endsArguments (Arguments .aggregate)
      (fun read ↦ (read == Query.aggregate groups functions) = true →
        (Query.aggregate groups functions).IsLegible .standard localOffset)
      (commas (groups.map (·.path) ++ printAll .standard functions)).toList := by
  obtain ⟨hgroups, hnodes⟩ := allProperties_iff.mp h
  have hfront : List.Forall₂ (fun text child ↦
      Fills localOffset FollowsClauses Symbol.endsClauses AggregateItem
        (fun item ↦ SameChild item child → child.IsLegible localOffset) text.toList)
      (groups.map (·.path)) (groups.map .property) := by
    rw [List.forall₂_map_left_iff, List.forall₂_map_right_iff, List.forall₂_same]
    exact fun group hgroup ↦ fills_group (hgroups group hgroup)
  have hbehind : List.Forall₂ (fun text child ↦
      Fills localOffset FollowsClauses Symbol.endsClauses AggregateItem
        (fun item ↦ SameChild item child → child.IsLegible localOffset) text.toList)
      (printAll .standard functions) (functions.map .node) := by
    rw [printAll_eq_map, List.forall₂_map_left_iff, List.forall₂_map_right_iff, List.forall₂_same]
    exact fun function hmem ↦
      fills_aggregateFunction (hfunctions function hmem) (hnodes function hmem)
  apply (fills_arguments hne (List.rel_append hfront hbehind)).of_phrase
  intro tokens read harguments
  cases harguments with
  | @aggregate _ ps fs hitems =>
    refine ⟨_, hitems, fun hall hsame ↦ ?_⟩
    have hchildren : List.Forall₂ SameChild (ps.map .property ++ fs.map .node)
        (groups.map .property ++ functions.map .node) := by
      cases same_iff.mp hsame with
      | aggregate hps hfs =>
        refine List.rel_append ?_ ?_ <;>
          rw [List.forall₂_map_left_iff, List.forall₂_map_right_iff]
        · exact (list_beq_iff.mp hps).imp fun _ _ ↦ .property
        · exact hfs.imp fun _ _ ↦ .node
    have hlegible := forall_mem_of_forall₂ hall hchildren fun _ _ hlegible hchild ↦ hlegible hchild
    rw [List.forall_mem_append, List.forall_mem_map, List.forall_mem_map] at hlegible
    refine isLegible_iff.mpr ⟨⟨fun group hgroup ↦ ?_, List.forall_mem_nil _⟩, fun node hnode ↦ ?_⟩
    · obtain hstable | _ := hlegible.1 group hgroup
      exact hstable
    · obtain _ | hnode := hlegible.2 node hnode
      exact hnode

/-! ### Groups -/

theorem opensNoPath_printCall (keyword : Keyword) {name : String} (arguments : List String)
    (hname : keyword.name = name) : OpensNoPath localOffset (printCall name arguments).toList := by
  subst hname
  have hsymbol : Symbol.function keyword ≠ .property := nofun
  exact opensNoPath_of_head hsymbol fun _ _ _ _ ↦ head_printCall

theorem opensNoPath_within (text : String) :
    OpensNoPath localOffset ("(" ++ text ++ ")").toList := by
  have hsymbol : Symbol.openParen ≠ .property := nofun
  refine opensNoPath_of_head hsymbol fun passed rest last tokens hyields ↦ ?_
  have htext : ("(" ++ text ++ ")").toList ++ rest = '(' :: (text.toList ++ ')' :: rest) := by simp
  rw [htext] at hyields
  cases tokens with
  | nil => cases hyields
  | cons token tokens => exact (uncons_single rfl (by decide) hyields).1

/-- Behind the path of a comparison there is its sign. -/
theorem opensNoPath_comparison (op : Comparison) (h : property.IsClean) (text : List Char) :
    OpensNoPath localOffset (property.path.toList ++ (op.sign.toList ++ text)) := by
  intro passed rest last tokens token more other hyields hpath
  rw [List.append_assoc, List.append_assoc] at hyields
  obtain ⟨-, -, -, _, hbehind⟩ := hyields.fills_subject (followsWord_sign op _) h.isPathChar
    (isReady_unsplit _ _ _) (.path hpath)
  obtain ⟨c, sign, hsign, hsingle, hblank⟩ : ∃ c sign, op.sign.toList = c :: sign ∧
      Lexeme.single? c = none ∧ Text.isBlank c = false := by
    cases op <;> exact ⟨_, _, rfl, by decide, by decide⟩
  rw [hsign] at hbehind
  obtain ⟨lexeme, cursor, hscan, rfl, -⟩ := hbehind.uncons hblank
  have hends : lexeme.symbol.endsValue = false := Lexeme.endsValue_eq_false hsingle hscan
  rw [← Bool.not_eq_true] at hends ⊢
  exact fun hclauses ↦ hends (Symbol.endsValue_of_endsClauses hclauses)

theorem opensNoPath_term {query : Query} (h : query.WellFormed)
    (hclean : query.AllProperties Property.IsClean) :
    OpensNoPath localOffset (printWithin .standard false query).toList := by
  cases h with
  | @group joiner terms =>
    rw [printWithin]
    split
    · exact opensNoPath_within _
    · exact opensNoPath_printCall (.group joiner) _ rfl
  | compare op property value =>
    have hproperty := (allProperties_iff.mp hclean).1 property (List.mem_singleton_self property)
    have htext : (property.path ++ op.sign ++ value.print).toList =
        property.path.toList ++ (op.sign.toList ++ value.print.toList) := by simp
    rw [printWithin, htext]
    exact opensNoPath_comparison op hproperty _
  | limit => rw [printWithin]; exact opensNoPath_printCall .limit _ rfl
  | select => rw [printWithin]; exact opensNoPath_printCall .select _ rfl
  | sort => rw [printWithin]; exact opensNoPath_printCall .sort _ rfl
  | pattern => rw [printWithin]; exact opensNoPath_printCall _ _ rfl
  | membership => rw [printWithin]; exact opensNoPath_printCall _ _ rfl
  | distinct => rw [printWithin]; exact opensNoPath_printCall .distinct _ rfl
  | first => rw [printWithin]; exact opensNoPath_printCall .first _ rfl
  | one => rw [printWithin]; exact opensNoPath_printCall .one _ rfl
  | count => rw [printWithin]; exact opensNoPath_printCall .count _ rfl
  | values => rw [printWithin]; exact opensNoPath_printCall .values _ rfl
  | summary => rw [printWithin]; exact opensNoPath_printCall _ _ rfl
  | aggregate => rw [printWithin]; exact opensNoPath_printCall .aggregate _ rfl

/-- What is said of each term by its text is said of a group by the terms in it. -/
theorem isLegible_group {joiner : Joiner} {reads terms : List Query}
    (hall : List.Forall₂ (fun read term ↦
      (read == term) = true → term.IsLegible .standard localOffset) reads terms)
    (hsame : (Query.group joiner reads == Query.group joiner terms) = true) :
    (Query.group joiner terms).IsLegible .standard localOffset := by
  cases same_iff.mp hsame with
  | group _ hterms =>
    refine isLegible_iff.mpr ⟨⟨List.forall_mem_nil _, List.forall_mem_nil _⟩, ?_⟩
    exact forall_mem_of_forall₂ hall hterms fun _ _ hlegible hterm ↦ hlegible hterm

section Group

variable {joiner : Joiner} {terms : List Query}

/-- The terms of a group with its signs between them. -/
theorem fills_joinedTerms (hmany : 1 < terms.length)
    (h : ∀ term ∈ terms, Fills localOffset FollowsValue Symbol.endsValue Term
      (fun read ↦ (read == term) = true → term.IsLegible .standard localOffset)
      (printWithin .standard false term).toList) :
    Fills localOffset FollowsClauses Symbol.endsClauses Clauses
      (fun read ↦ (read == Query.group joiner terms) = true →
        (Query.group joiner terms).IsLegible .standard localOffset)
      (joiner.sign.toString.intercalate (printAll .standard terms)).toList := by
  have hterms : List.Forall₂ (fun text term ↦ Fills localOffset FollowsValue Symbol.endsValue Term
      (fun read ↦ (read == term) = true → term.IsLegible .standard localOffset) text.toList)
      (printAll .standard terms) terms := by
    rw [printAll_eq_map, List.forall₂_map_left_iff, List.forall₂_same]
    exact h
  apply (fills_joined hmany hterms).mono
  rintro _ ⟨reads, rfl, hall⟩
  exact isLegible_group hall

theorem fills_groupTerm (hne : terms ≠ []) (hwell : ∀ term ∈ terms, term.WellFormed)
    (hclean : ∀ term ∈ terms, term.AllProperties Property.IsClean)
    (h : ∀ term ∈ terms, Fills localOffset FollowsValue Symbol.endsValue Term
      (fun read ↦ (read == term) = true → term.IsLegible .standard localOffset)
      (printWithin .standard false term).toList) :
    Fills localOffset FollowsValue Symbol.endsValue Term
      (fun read ↦ (read == Query.group joiner terms) = true →
        (Query.group joiner terms).IsLegible .standard localOffset)
      (printWithin .standard false (.group joiner terms)).toList := by
  rw [printWithin]
  split
  · next hsigns =>
    rw [Bool.and_eq_true, decide_eq_true_iff, decide_eq_true_iff] at hsigns
    have hopens : OpensNoPath localOffset
        (joiner.sign.toString.intercalate (printAll .standard terms)).toList := by
      cases terms with
      | nil => exact absurd rfl hne
      | cons term terms =>
        have hfirst : OpensNoPath localOffset (printWithin .standard false term).toList :=
          opensNoPath_term (hwell term (by simp)) (hclean term (by simp))
        cases terms with
        | nil => simp at hsigns
        | cons next terms =>
          rw [printAll, printAll, toList_intercalate_cons]
          exact hfirst.append _
    exact fills_within hopens (fills_joinedTerms hsigns.2 h)
  · have hterms : List.Forall₂ (fun text term ↦
        Fills localOffset FollowsClauses Symbol.endsClauses Clauses
          (fun read ↦ (read == term) = true → term.IsLegible .standard localOffset) text.toList)
        (printAll .standard terms) terms := by
      rw [printAll_eq_map, List.forall₂_map_left_iff, List.forall₂_same]
      exact fun term hmem ↦ fills_clauses_of_term (h term hmem)
    apply (fills_groupCall hne hterms).mono
    rintro _ ⟨reads, rfl, hall⟩
    exact isLegible_group hall

end Group

/-! ### Trees -/

section Function

variable {query : Query} {name : String}

/-- A function without arguments. -/
theorem fills_bare (keyword : Keyword) (hname : keyword.name = name)
    (hkeyword : ∀ joiner, keyword ≠ .group joiner)
    (hlegible : query.IsLegible .standard localOffset)
    (harguments : ∀ tokens read, Arguments keyword tokens read → tokens = []) :
    Fills localOffset FollowsValue Symbol.endsValue Term
      (fun read ↦ (read == query) = true → query.IsLegible .standard localOffset)
      (printCall name []).toList :=
  fills_function keyword hname hkeyword ((fills_empty harguments).mono fun _ _ _ ↦ hlegible)

/-- A function of a property. -/
theorem fills_ofProperty (keyword : Keyword) (hname : keyword.name = name)
    (hkeyword : ∀ joiner, keyword ≠ .group joiner) (h : property.IsClean)
    (harguments : ∀ tokens read, Arguments keyword tokens read → ∃ other, Subject tokens other)
    (hlegible : property.IsStable localOffset → query.IsLegible .standard localOffset) :
    Fills localOffset FollowsValue Symbol.endsValue Term
      (fun read ↦ (read == query) = true → query.IsLegible .standard localOffset)
      (printCall name [property.path]).toList := by
  apply fills_function keyword hname hkeyword
  rw [commas_singleton]
  refine ((fills_propertyArgument h).narrow (fun _ ↦ FollowsArguments.clauses)
    fun _ ↦ Symbol.endsClauses_of_endsArguments).of_phrase fun tokens read hread ↦ ?_
  obtain ⟨other, hsubject⟩ := harguments tokens read hread
  exact ⟨other, hsubject, fun hstable _ ↦ hlegible hstable⟩

end Function

/-- If the term in the text of a well-formed query is an equal query, then the query is legible, by
induction on the query. -/
theorem fills_term {query : Query} (h : query.WellFormed)
    (hclean : query.AllProperties Property.IsClean) :
    Fills localOffset FollowsValue Symbol.endsValue Term
      (fun read ↦ (read == query) = true → query.IsLegible .standard localOffset)
      (printWithin .standard false query).toList := by
  obtain ⟨hproperties, hnodes⟩ := allProperties_iff.mp hclean
  induction h with
  | limit range =>
    rw [printWithin]
    have hlegible : (Query.limit range).IsLegible .standard localOffset :=
      isLegible_of_holds_nothing rfl rfl rfl (by simp)
    exact fills_function .limit rfl (by simp) ((fills_limit range).mono fun _ _ _ ↦ hlegible)
  | select hne =>
    rw [printWithin]
    exact fills_function .select rfl (by simp)
      ((fills_select hne hproperties).mono fun _ hlegible _ ↦ hlegible)
  | sort hne =>
    rw [printWithin]
    exact fills_function .sort rfl (by simp)
      (fills_sort hne fun key hmem ↦ hproperties _ (List.mem_map_of_mem hmem))
  | group hne hterms ih =>
    refine fills_groupTerm hne hterms hnodes fun term hmem ↦ ?_
    obtain ⟨hself, hinner⟩ := allProperties_iff.mp (hnodes term hmem)
    exact ih term hmem (hnodes term hmem) hself hinner
  | compare op property value =>
    have hproperty := hproperties property (List.mem_singleton_self property)
    rw [printWithin]
    apply (fills_comparison op hproperty value).mono
    rintro _ ⟨p, v, rfl, hstable, hvalue⟩ hsame
    cases same_iff.mp hsame with
    | compare _ _ hv =>
      exact isLegible_of_nodes_eq_nil rfl
        ⟨List.forall_mem_singleton.mpr hstable, List.forall_mem_singleton.mpr (hvalue hv)⟩
  | pattern property hpattern =>
    have hproperty := hproperties property (List.mem_singleton_self property)
    rw [printWithin]
    exact fills_function (.pattern _) rfl (by simp) (fills_pattern hproperty _)
  | membership op property hne =>
    have hproperty := hproperties property (List.mem_singleton_self property)
    rw [printWithin]
    exact fills_function (.membership op) rfl (by simp) (fills_membership hne hproperty)
  | distinct =>
    rw [printWithin]
    refine fills_bare .distinct rfl (by simp) ?_ ?_
    · exact isLegible_of_holds_nothing rfl rfl rfl (by simp)
    · rintro tokens _ ⟨⟩
      rfl
  | first =>
    rw [printWithin]
    refine fills_bare .first rfl (by simp) ?_ ?_
    · exact isLegible_of_holds_nothing rfl rfl rfl (by simp)
    · rintro tokens _ ⟨⟩
      rfl
  | one =>
    rw [printWithin]
    refine fills_bare .one rfl (by simp) ?_ ?_
    · exact isLegible_of_holds_nothing rfl rfl rfl (by simp)
    · rintro tokens _ ⟨⟩
      rfl
  | count counted =>
    rw [printWithin]
    have hclean : ∀ property ∈ counted, property.IsClean := by
      intro property hmem
      obtain rfl := Option.mem_def.mp hmem
      exact hproperties property (List.mem_singleton_self property)
    apply fills_function .count rfl (by simp)
    apply (fills_counted hclean).of_phrase
    rintro tokens _ harguments
    cases harguments with
    | count hcounted => exact ⟨_, hcounted, fun hstable hsame ↦ isLegible_count (hstable hsame)⟩
  | values property =>
    rw [printWithin]
    apply fills_ofProperty .values rfl (by simp) (hproperties property (List.mem_singleton_self _))
    · intro tokens read harguments
      cases harguments with
      | values hsubject => exact ⟨_, hsubject⟩
    · intro hstable
      exact isLegible_of_nodes_eq_nil rfl
        ⟨List.forall_mem_singleton.mpr hstable, List.forall_mem_nil _⟩
  | summary op property =>
    rw [printWithin]
    apply fills_ofProperty (.summary op) rfl (by simp)
      (hproperties property (List.mem_singleton_self _))
    · intro tokens read harguments
      cases harguments with
      | summary hsubject => exact ⟨_, hsubject⟩
    · intro hstable
      exact isLegible_of_nodes_eq_nil rfl
        ⟨List.forall_mem_singleton.mpr hstable, List.forall_mem_nil _⟩
  | aggregate hne hfunctions =>
    rw [printWithin]
    exact fills_function .aggregate rfl (by simp) (fills_aggregate hne hfunctions hclean)

/-- The clauses in the text of a whole query. -/
theorem fills_print {query : Query} (h : query.WellFormed)
    (hclean : query.AllProperties Property.IsClean) :
    Fills localOffset FollowsClauses Symbol.endsClauses Clauses
      (fun read ↦ (read == query) = true → query.IsLegible .standard localOffset)
      (query.print .standard).toList := by
  have hwithin (htext : query.print .standard = printWithin .standard false query) :
      Fills localOffset FollowsClauses Symbol.endsClauses Clauses
        (fun read ↦ (read == query) = true → query.IsLegible .standard localOffset)
        (query.print .standard).toList := by
    rw [htext]
    exact fills_clauses_of_term (fills_term h hclean)
  cases h with
  | @group joiner terms hne hterms =>
    by_cases hmany : 1 < terms.length
    · have hsigns : (decide (Style.standard = .standard) && decide (1 < terms.length)) = true := by
        simpa using hmany
      have htext : (Query.group joiner terms).print .standard =
          joiner.sign.toString.intercalate (printAll .standard terms) := by
        rw [Query.print, printWithin, if_pos hsigns, if_pos rfl]
      rw [htext]
      exact fills_joinedTerms hmany fun term hmem ↦
        fills_term (hterms term hmem) ((allProperties_iff.mp hclean).2 term hmem)
    · have hsigns : ¬(decide (Style.standard = .standard) && decide (1 < terms.length)) = true := by
        simpa using hmany
      apply hwithin
      rw [Query.print, printWithin, if_neg hsigns, printWithin, if_neg hsigns]
  | _ => exact hwithin rfl

namespace Query

/-- A well-formed query is legible if the sentence in its text is an equal query. -/
theorem isLegible_of_sentence {query again : Query} {tokens : List Token} (h : query.WellFormed)
    (hclean : query.AllProperties Property.IsClean)
    (hscan : Lexer.scan (query.print .standard).toList localOffset = .ok ⟨tokens⟩)
    (hsentence : Sentence tokens again) (hsame : (again == query) = true) :
    query.IsLegible .standard localOffset := by
  have hyields := scan_eq_ok_iff.mp hscan
  cases hsentence with
  | empty =>
    cases same_iff.mp hsame
    cases h
  | @clauses tokens stop _ hclauses hstop =>
    have hfollows : FollowsClauses [] := nofun
    have hends : stop.symbol.endsClauses = true := by
      rw [hstop]
      rfl
    have hstart : Yields ⟨⟨[], (query.print .standard).toList ++ []⟩, localOffset, none, false⟩
        (tokens ++ stop :: []) := by
      rw [List.append_nil]
      exact hyields
    exact (fills_print h hclean _ _ _ _ _ _ _ hfollows hends hstart hclauses).1 hsame

end Query

end ResourceQuery
