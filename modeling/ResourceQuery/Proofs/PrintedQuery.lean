import ResourceQuery.Proofs.PrintedText
import ResourceQuery.Proofs.Sameness
import ResourceQuery.Proofs.Shape

/-!
# Reading printed queries

A printed tree is cut into tokens that mean an equal tree, in both styles. Inside of a tree the text
of a node is a term; only the root may stand without parentheses.
-/

namespace ResourceQuery

open Grammar Lexer Query

/-! ### Stable and legible queries -/

namespace Query

/-- The values that the node itself holds. -/
def operands : Query → List Value
  | compare _ _ value | pattern _ _ value => [value]
  | membership _ _ entries => entries
  | _ => []

/-- Every property and every value in the tree reads back by itself. -/
structure IsStable (localOffset : UtcOffset) (query : Query) : Prop where
  properties : ∀ node ∈ query.preorder, ∀ property ∈ node.properties,
    property.IsStable localOffset
  operands : ∀ node ∈ query.preorder, ∀ value ∈ node.operands, value.IsStable localOffset

/-- What the node itself holds reads back: a sort key with its sign, and every other property and
every value by itself. -/
def HoldsLegible (style : Style) (localOffset : UtcOffset) : Query → Prop
  | sort keys => ∀ key ∈ keys, key.IsLegible style localOffset
  | query => (∀ property ∈ query.properties, property.IsStable localOffset) ∧
      ∀ value ∈ query.operands, value.IsStable localOffset

/-- What the tree holds reads back from where it is printed. -/
def IsLegible (style : Style) (localOffset : UtcOffset) (query : Query) : Prop :=
  ∀ node ∈ query.preorder, node.HoldsLegible style localOffset

theorem isLegible_iff {style : Style} {localOffset : UtcOffset} {query : Query} :
    query.IsLegible style localOffset ↔
      query.HoldsLegible style localOffset ∧
        ∀ node ∈ query.nodes, node.IsLegible style localOffset := by
  simp only [IsLegible]
  rw [preorder_eq_cons, List.forall_mem_cons, List.forall_mem_flatMap]

theorem IsLegible.self {style : Style} {localOffset : UtcOffset} {query : Query}
    (h : query.IsLegible style localOffset) : query.HoldsLegible style localOffset :=
  (isLegible_iff.mp h).1

theorem IsLegible.node {style : Style} {localOffset : UtcOffset} {query node : Query}
    (h : query.IsLegible style localOffset) (hnode : node ∈ query.nodes) :
    node.IsLegible style localOffset :=
  (isLegible_iff.mp h).2 node hnode

theorem IsLegible.of_counted {style : Style} {localOffset : UtcOffset} {counted : Option Property}
    (h : (count counted).IsLegible style localOffset) :
    ∀ property ∈ counted, property.IsStable localOffset := by
  intro property hmem
  obtain rfl := Option.mem_def.mp hmem
  exact h.self.1 property (List.mem_singleton_self property)

theorem IsStable.isLegible {localOffset : UtcOffset} {query : Query}
    (h : query.IsStable localOffset) (style : Style) : query.IsLegible style localOffset := by
  intro node hnode
  cases node with
  | sort keys =>
    exact fun key hkey ↦ isLegible_key style (h.properties _ hnode _ (List.mem_map_of_mem hkey))
  | _ => exact ⟨h.properties _ hnode, h.operands _ hnode⟩

theorem printAll_eq_map (style : Style) (queries : List Query) :
    printAll style queries = queries.map (printWithin style false) := by
  induction queries with
  | nil => rfl
  | cons query rest ih => rw [printAll, ih, List.map_cons]

end Query

/-! ### Arguments -/

theorem toList_commas_cons (first : String) {texts : List String} (hne : texts ≠ []) :
    (commas (first :: texts)).toList = first.toList ++ ',' :: (commas texts).toList := by
  obtain ⟨next, more, rfl⟩ := List.exists_cons_of_ne_nil hne
  exact toList_intercalate_cons ',' first next more

theorem commas_singleton (text : String) : commas [text] = text :=
  String.intercalate_singleton

section Arguments

variable {localOffset : UtcOffset} {property : Property} {value : Value}

/-- An argument in front of others. -/
theorem reads_argument {first : String} {texts : List String}
    {firstForm restForm form : List Token → Prop} (hne : texts ≠ [])
    (hfirst : Reads localOffset FollowsValue firstForm first.toList)
    (hrest : Reads localOffset FollowsValue restForm (commas texts).toList)
    (hform : ∀ a comma b, firstForm a → comma.symbol = .comma → restForm b →
      form (a ++ comma :: b)) :
    Reads localOffset FollowsValue form (commas (first :: texts)).toList := by
  have hcomma : Lexeme.single? ',' = some .comma := rfl
  rw [toList_commas_cons first hne]
  exact hfirst.around hcomma (by decide) hrest (followsValue_cons (by decide)) hform

/-- Arguments that are all of one form. -/
theorem reads_arguments {α β : Type} {phrase : Phrase β} {R : β → α → Prop} {print : α → String}
    {items : List α} (hne : items ≠ [])
    (h : ∀ a ∈ items,
      Reads localOffset FollowsValue (Means phrase fun b ↦ R b a) (print a).toList) :
    Reads localOffset FollowsValue
      (Means (Separated .comma phrase) fun bs ↦ List.Forall₂ R bs items)
      (commas (items.map print)).toList := by
  have hcomma : Lexeme.single? ',' = some .comma := rfl
  exact reads_separated hcomma (by decide) hne
    (List.forall₂_map_left_iff.mpr (List.forall₂_same.mpr h))

theorem reads_property (h : property.IsStable localOffset) :
    Reads localOffset FollowsValue (Means Subject fun read ↦ (read == property) = true)
      property.path.toList :=
  (reads_path h).narrow fun _ hrest ↦ hrest.stops

/-- A function whose arguments read back. -/
theorem reads_function (keyword : Keyword) {name : String} {query : Query}
    {arguments : List String} (hname : keyword.name = name)
    (h : Reads localOffset FollowsValue
      (Means (Arguments keyword) fun read ↦ (read == query) = true) (commas arguments).toList) :
    Reads localOffset FollowsValue (Means Term fun read ↦ (read == query) = true)
      (printCall name arguments).toList := by
  subst hname
  apply (reads_call h).mono
  rintro tokens ⟨read, hcall, hsame⟩
  exact ⟨read, .function hcall, hsame⟩

/-- A property in front of a value. -/
theorem reads_propertyAndValue (keyword : Keyword) {node : Property → Value → Query}
    (hproperty : property.IsStable localOffset) (hvalue : value.IsStable localOffset)
    (harguments : ∀ first comma second p v, Subject first p → comma.symbol = .comma →
      Operand second v → v.sameIgnoringCase value = true →
        Arguments keyword (first ++ comma :: second) (node p v))
    (hsame : ∀ p v, (p == property) = true → v.sameIgnoringCase value = true →
      (node p v == node property value) = true) :
    Reads localOffset FollowsValue (Means Term fun read ↦ (read == node property value) = true)
      (printCall keyword.name [property.path, value.print]).toList := by
  refine reads_function keyword rfl (reads_argument (by simp) (reads_property hproperty)
    (commas_singleton value.print ▸ reads_value hvalue) ?_)
  rintro first comma second ⟨p, hp, hpsame⟩ hcomma ⟨v, hv, hvsame⟩
  exact ⟨node p v, harguments first comma second p v hp hcomma hv hvsame, hsame p v hpsame hvsame⟩

theorem reads_limit (range : Limit) :
    Reads localOffset FollowsValue
      (Means (Arguments .limit) fun read ↦ (read == Query.limit range) = true)
      (commas ((range.start.toList ++ [range.count]).map printNumber)).toList := by
  have hsame (range : Limit) : (Query.limit range == Query.limit range) = true :=
    beq_self_eq_true range
  obtain ⟨start, count⟩ := range
  have hcount : Reads localOffset FollowsValue (Means Count fun read ↦ read = count)
      (commas [printNumber count]).toList := by
    rw [commas_singleton]
    exact reads_count count
  cases start with
  | none =>
    apply hcount.mono
    rintro tokens ⟨n, hn, rfl⟩
    exact ⟨_, .limit (.count hn), hsame _⟩
  | some start =>
    apply reads_argument (by simp) (reads_count start) hcount
    rintro first comma second ⟨m, hm, rfl⟩ hcomma ⟨n, hn, rfl⟩
    exact ⟨_, .limit (.page hm hcomma hn), hsame _⟩

theorem reads_select {properties : List Property} (hne : properties ≠ [])
    (h : ∀ property ∈ properties, property.IsStable localOffset) :
    Reads localOffset FollowsValue
      (Means (Arguments .select) fun read ↦ (read == Query.select properties) = true)
      (commas (properties.map (·.path))).toList := by
  apply (reads_arguments hne fun property hmem ↦ reads_property (h property hmem)).mono
  rintro tokens ⟨ps, hps, hsame⟩
  exact ⟨.select ps, .select hps, beq_of_forall₂ hsame⟩

theorem reads_sort (style : Style) {keys : List SortKey} (hne : keys ≠ [])
    (h : ∀ key ∈ keys, key.IsLegible style localOffset) :
    Reads localOffset FollowsValue
      (Means (Arguments .sort) fun read ↦ (read == Query.sort keys) = true)
      (commas (keys.map (printSortKey style))).toList := by
  have hkey (key : SortKey) (hmem : key ∈ keys) :
      Reads localOffset FollowsValue (Means Key fun read ↦ (read == key) = true)
        (printSortKey style key).toList :=
    Reads.narrow (h key hmem) fun _ hrest ↦ hrest.stops
  apply (reads_arguments hne hkey).mono
  rintro tokens ⟨ks, hks, hsame⟩
  exact ⟨.sort ks, .sort hks, beq_of_forall₂ hsame⟩

theorem reads_membership (op : MembershipOp) {entries : List Value} (hne : entries ≠ [])
    (hproperty : property.IsStable localOffset)
    (hentries : ∀ value ∈ entries, value.IsStable localOffset) :
    Reads localOffset FollowsValue
      (Means (Arguments (.membership op))
        fun read ↦ (read == Query.membership op property entries) = true)
      (commas (property.path :: entries.map (·.print))).toList := by
  have hlist := reads_arguments hne fun value hvalue ↦ reads_value (hentries value hvalue)
  apply reads_argument (by simpa using hne) (reads_property hproperty) hlist
  rintro first comma second ⟨p, hp, hpsame⟩ hcomma ⟨vs, hvs, hvsame⟩
  refine ⟨.membership op p vs, .membership hp hcomma hvs, ?_⟩
  change (op == op && p == property && sameValues vs entries) = true
  rw [beq_self_eq_true, hpsame, sameValues_iff.mpr hvsame]
  rfl

theorem reads_counted {counted : Option Property}
    (h : ∀ property ∈ counted, property.IsStable localOffset) :
    Reads localOffset FollowsValue (Means Counted fun read ↦ (read == counted) = true)
      (commas (counted.toList.map (·.path))).toList := by
  cases counted with
  | none => exact reads_nil ⟨none, .all, rfl⟩
  | some property =>
    have hpath := reads_property (h property rfl)
    rw [Option.toList_some, List.map_singleton, commas_singleton]
    apply hpath.mono
    rintro tokens ⟨p, hp, hsame⟩
    exact ⟨some p, .some hp, hsame⟩

theorem reads_count_property {counted : Option Property}
    (h : ∀ property ∈ counted, property.IsStable localOffset) :
    Reads localOffset FollowsValue
      (Means (Arguments .count) fun read ↦ (read == Query.count counted) = true)
      (commas (counted.toList.map (·.path))).toList := by
  apply (reads_counted h).mono
  rintro tokens ⟨p, hp, hsame⟩
  exact ⟨.count p, .count hp, hsame⟩

theorem reads_values (h : property.IsStable localOffset) :
    Reads localOffset FollowsValue
      (Means (Arguments .values) fun read ↦ (read == Query.values property) = true)
      (commas [property.path]).toList := by
  rw [commas_singleton]
  apply (reads_property h).mono
  rintro tokens ⟨p, hp, hsame⟩
  exact ⟨.values p, .values hp, hsame⟩

theorem reads_summary (op : SummaryOp) (h : property.IsStable localOffset) :
    Reads localOffset FollowsValue
      (Means (Arguments (.summary op)) fun read ↦ (read == Query.summary op property) = true)
      (commas [property.path]).toList := by
  rw [commas_singleton]
  apply (reads_property h).mono
  rintro tokens ⟨p, hp, hsame⟩
  refine ⟨.summary op p, .summary hp, ?_⟩
  change (op == op && p == property) = true
  rw [beq_self_eq_true, hsame, Bool.and_self]

end Arguments

/-! ### Aggregates -/

section Aggregate

variable {localOffset : UtcOffset} {groups : List Property} {functions : List Query}

/-- The children are of one kind and equal. -/
inductive SameChild : Child → Child → Prop
  | property {p q : Property} (h : (p == q) = true) : SameChild (.property p) (.property q)
  | node {f g : Query} (h : (f == g) = true) : SameChild (.node f) (.node g)

theorem exists_children {items : List Child}
    (h : List.Forall₂ SameChild items (groups.map .property ++ functions.map .node)) :
    ∃ ps fs, items = ps.map .property ++ fs.map .node ∧ (ps == groups) = true ∧
      Alike fs functions := by
  induction groups generalizing items with
  | nil =>
    refine ⟨[], ?_⟩
    induction functions generalizing items with
    | nil =>
      cases h
      exact ⟨[], rfl, rfl, .nil⟩
    | cons g functions ih =>
      obtain _ | ⟨hfirst, hrest⟩ := h
      obtain ⟨fs, rfl, -, hfs⟩ := ih hrest
      obtain _ | hfirst := hfirst
      exact ⟨_ :: fs, rfl, rfl, .cons hfirst hfs⟩
  | cons q groups ih =>
    obtain _ | ⟨hfirst, hrest⟩ := h
    obtain ⟨ps, fs, rfl, hps, hfs⟩ := ih hrest
    obtain hfirst | _ := hfirst
    refine ⟨_ :: ps, fs, rfl, ?_, hfs⟩
    rw [List.cons_beq_cons, hfirst, hps, Bool.and_self]

theorem reads_group {group : Property} (h : group.IsStable localOffset) :
    Reads localOffset FollowsValue
      (Means AggregateItem fun item ↦ SameChild item (.property group)) group.path.toList := by
  apply (reads_property h).mono
  rintro tokens ⟨p, hp, hsame⟩
  exact ⟨.property p, .group hp, .property hsame⟩

theorem reads_aggregateFunction (style : Style) {function : Query}
    (hfunction : function.isFunction = true) (h : function.IsLegible style localOffset) :
    Reads localOffset FollowsValue
      (Means AggregateItem fun item ↦ SameChild item (.node function))
      (printWithin style false function).toList := by
  cases function with
  | summary op property =>
    have hproperty := reads_property (h.self.1 property (List.mem_singleton_self property))
    rw [← commas_singleton property.path] at hproperty
    apply (reads_call hproperty).mono
    rintro tokens ⟨p, hcall, hsame⟩
    refine ⟨.node (.summary op p), .summary hcall, .node ?_⟩
    change (op == op && p == property) = true
    rw [beq_self_eq_true, hsame, Bool.and_self]
  | count counted =>
    have htext : printWithin style false (.count counted) =
        printCall Keyword.count.name (counted.toList.map (·.path)) := by
      rw [printWithin, Keyword.name]
    rw [htext]
    apply (reads_call (reads_counted h.of_counted)).mono
    rintro tokens ⟨p, hcall, hsame⟩
    exact ⟨.node (.count p), .count hcall, .node hsame⟩
  | _ => cases hfunction

theorem reads_aggregate (style : Style)
    (hne : groups.map Child.property ++ functions.map Child.node ≠ [])
    (hfunctions : ∀ function ∈ functions, function.isFunction = true)
    (h : (Query.aggregate groups functions).IsLegible style localOffset) :
    Reads localOffset FollowsValue
      (Means (Arguments .aggregate)
        fun read ↦ (read == Query.aggregate groups functions) = true)
      (commas (groups.map (·.path) ++ printAll style functions)).toList := by
  have hgroups : List.Forall₂
      (fun text item ↦ Reads localOffset FollowsValue
        (Means AggregateItem fun read ↦ SameChild read item) text.toList)
      (groups.map (·.path)) (groups.map .property) := by
    rw [List.forall₂_map_left_iff, List.forall₂_map_right_iff, List.forall₂_same]
    exact fun group hgroup ↦ reads_group (h.self.1 group hgroup)
  have hcalls : List.Forall₂
      (fun text item ↦ Reads localOffset FollowsValue
        (Means AggregateItem fun read ↦ SameChild read item) text.toList)
      (printAll style functions) (functions.map .node) := by
    rw [printAll_eq_map, List.forall₂_map_left_iff, List.forall₂_map_right_iff, List.forall₂_same]
    exact fun function hmem ↦ reads_aggregateFunction style (hfunctions function hmem) (h.node hmem)
  have hcomma : Lexeme.single? ',' = some .comma := rfl
  apply (reads_separated hcomma (by decide) hne (List.rel_append hgroups hcalls)).mono
  rintro tokens ⟨items, hitems, hsame⟩
  obtain ⟨ps, fs, rfl, hps, hfs⟩ := exists_children hsame
  refine ⟨.aggregate ps fs, .aggregate hitems, ?_⟩
  change (ps == groups && sameAll fs functions) = true
  rw [hps, sameAll_iff.mpr hfs, Bool.and_self]

end Aggregate

/-! ### Groups -/

section Group

variable {localOffset : UtcOffset} {joiner : Joiner} {terms : List Query} {texts : List String}

/-- Terms with a sign between them. -/
theorem reads_joined (hmany : 1 < terms.length)
    (h : List.Forall₂ (fun text term ↦ Reads localOffset FollowsValue
      (Means Term fun read ↦ (read == term) = true) text.toList) texts terms) :
    Reads localOffset FollowsValue
      (Means Clauses fun read ↦ (read == group joiner terms) = true)
      (joiner.sign.toString.intercalate texts).toList := by
  have hsign : Lexeme.single? joiner.sign = some (.joiner joiner) := by cases joiner <;> rfl
  have hcloser : joiner.sign ∈ closers := by cases joiner <;> decide
  have hne : terms ≠ [] := List.ne_nil_of_length_pos (by omega)
  apply (reads_separated hsign hcloser hne h).mono
  rintro tokens ⟨reads, ⟨pieces, hpieces, hreads⟩, hsame⟩
  refine ⟨group joiner reads, .joined hpieces hreads (by rwa [hsame.length_eq]), ?_⟩
  change (joiner == joiner && sameAll reads terms) = true
  rw [beq_self_eq_true, sameAll_iff.mpr hsame, Bool.and_self]

/-- Clauses within parentheses. -/
theorem reads_within {P : Query → Prop} {text : String}
    (h : Reads localOffset FollowsValue (Means Clauses P) text.toList) :
    Reads localOffset FollowsValue (Means Term P) ("(" ++ text ++ ")").toList := by
  have hopen : Lexeme.single? '(' = some .openParen := rfl
  have hclose : Lexeme.single? ')' = some .closeParen := rfl
  have htext : ("(" ++ text ++ ")").toList = [] ++ '(' :: (text.toList ++ ')' :: []) := by simp
  have hempty : Reads localOffset (fun _ ↦ True) (fun tokens ↦ tokens = []) [] := reads_nil rfl
  have hinner : Reads localOffset FollowsValue
      (fun tokens ↦ ∃ inner closing query, tokens = inner ++ [closing] ∧ Clauses inner query ∧
        P query ∧ closing.symbol = .closeParen) (text.toList ++ ')' :: []) := by
    refine h.append (reads_single hclose (by decide))
      (fun rest _ ↦ followsValue_cons (by decide) rest) ?_
    rintro inner _ ⟨query, hquery, hP⟩ ⟨closing, rfl, hclosing⟩
    exact ⟨inner, closing, query, rfl, hquery, hP, hclosing⟩
  rw [htext]
  apply hempty.around hopen (by decide) hinner (fun _ ↦ trivial)
  rintro _ opening _ rfl hopening ⟨inner, closing, query, rfl, hquery, hP, hclosing⟩
  exact ⟨query, .within hopening hquery hclosing, hP⟩

/-- Clauses as the arguments of a function. -/
theorem reads_groupCall (hne : terms ≠ [])
    (h : List.Forall₂ (fun text term ↦ Reads localOffset FollowsValue
      (Means Clauses fun read ↦ (read == term) = true) text.toList) texts terms) :
    Reads localOffset FollowsValue (Means Term fun read ↦ (read == group joiner terms) = true)
      (printCall joiner.name texts).toList := by
  have hcomma : Lexeme.single? ',' = some .comma := rfl
  have harguments := reads_separated hcomma (by decide) hne h
  have hname : joiner.name = (Keyword.group joiner).name := rfl
  rw [hname]
  apply (reads_call harguments).mono
  rintro tokens ⟨reads, hcall, hsame⟩
  obtain ⟨hname, hopening, ⟨pieces, hpieces, hreads⟩, hclosing⟩ := hcall
  refine ⟨group joiner reads, .group hname hopening hpieces hreads hclosing, ?_⟩
  change (joiner == joiner && sameAll reads terms) = true
  rw [beq_self_eq_true, sameAll_iff.mpr hsame, Bool.and_self]

end Group

/-! ### Comparisons -/

theorem followsWord_sign (op : Comparison) (rest : List Char) :
    FollowsWord (op.sign.toList ++ rest) := by
  cases op <;>
    · rintro _ ⟨⟩
      decide

/-- A subject, a comparison sign and a value. -/
theorem reads_comparisonTerm {localOffset : UtcOffset} {path text : List Char}
    {P : Property → Prop} {V : Value → Prop} (op : Comparison)
    (hpath : Reads localOffset FollowsWord (Means Subject P) path)
    (htext : Reads localOffset FollowsValue (Means Operand V) text)
    (hends : ∀ rest, FollowsValue rest → EndsComparison (text ++ rest)) :
    Reads localOffset FollowsValue
      (Means Term fun read ↦ ∃ property value,
        read = Query.compare op property value ∧ P property ∧ V value)
      (path ++ (op.sign.toList ++ text)) := by
  have hbehind : Reads localOffset FollowsValue
      (fun tokens ↦ ∃ sign second v, tokens = sign :: second ∧ sign.symbol = .comparison op ∧
        Operand second v ∧ V v) (op.sign.toList ++ text) := by
    refine (reads_comparison op).append htext hends ?_
    rintro _ second ⟨sign, rfl, hsign⟩ ⟨v, hv, hV⟩
    exact ⟨sign, second, v, rfl, hsign, hv, hV⟩
  have hfollows (rest : List Char) : FollowsWord (op.sign.toList ++ text ++ rest) := by
    rw [List.append_assoc]
    exact followsWord_sign op _
  apply hpath.append hbehind (fun rest _ ↦ hfollows rest)
  rintro first _ ⟨p, hp, hP⟩ ⟨sign, second, v, rfl, hsign, hv, hV⟩
  exact ⟨.compare op p v, .comparison hp hsign hv, p, v, rfl, hP, hV⟩

theorem reads_compare {localOffset : UtcOffset} {property : Property} {value : Value}
    (op : Comparison) (hproperty : property.IsStable localOffset)
    (hvalue : value.IsStable localOffset) :
    Reads localOffset FollowsValue
      (Means Term fun read ↦ (read == Query.compare op property value) = true)
      (property.path ++ op.sign ++ value.print).toList := by
  have htext : (property.path ++ op.sign ++ value.print).toList =
      property.path.toList ++ (op.sign.toList ++ value.print.toList) := by simp
  rw [htext]
  apply (reads_comparisonTerm op (reads_path hproperty) (reads_value hvalue)
    fun _ ↦ endsComparison_print hvalue).mono
  rintro tokens ⟨_, hterm, p, v, rfl, hp, hv⟩
  refine ⟨_, hterm, ?_⟩
  change (op == op && p == property && v.sameIgnoringCase value) = true
  rw [beq_self_eq_true, hp, hv]
  rfl

/-! ### Trees -/

theorem isText_of_sameIgnoringCase {v value : Value} (h : v.sameIgnoringCase value = true)
    (hvalue : IsText value) : IsText v := by
  cases hvalue with
  | string text => cases v <;> first | exact .string _ | cases h
  | char c => cases v <;> first | exact .char _ | cases h

/-- The terms of a group, if each of them reads back, with signs or as a function. -/
theorem reads_groupTerm (style : Style) {localOffset : UtcOffset} {joiner : Joiner}
    {terms : List Query} (hne : terms ≠ [])
    (h : ∀ term ∈ terms, Reads localOffset FollowsValue
      (Means Term fun read ↦ (read == term) = true) (printWithin style false term).toList) :
    Reads localOffset FollowsValue (Means Term fun read ↦ (read == group joiner terms) = true)
      (printWithin style false (group joiner terms)).toList := by
  have hterms : List.Forall₂ (fun text term ↦ Reads localOffset FollowsValue
      (Means Term fun read ↦ (read == term) = true) text.toList) (printAll style terms) terms := by
    rw [printAll_eq_map, List.forall₂_map_left_iff, List.forall₂_same]
    exact h
  rw [printWithin]
  split
  · next hsigns =>
    rw [Bool.and_eq_true, decide_eq_true_iff, decide_eq_true_iff] at hsigns
    exact reads_within (reads_joined hsigns.2 hterms)
  · refine reads_groupCall hne (hterms.imp fun text term hread ↦ hread.mono ?_)
    rintro tokens ⟨read, hread, hsame⟩
    exact ⟨read, .term hread, hsame⟩

theorem reads_compareCall {localOffset : UtcOffset} {property : Property} {value : Value}
    (op : Comparison) (hproperty : property.IsStable localOffset)
    (hvalue : value.IsStable localOffset) :
    Reads localOffset FollowsValue
      (Means Term fun read ↦ (read == Query.compare op property value) = true)
      (printCall op.name [property.path, value.print]).toList := by
  refine reads_propertyAndValue (.compare op) hproperty hvalue ?_ ?_
  · exact fun _ _ _ _ _ hp hcomma hv _ ↦ .compare hp hcomma hv
  · intro p v hp hv
    change (op == op && p == property && v.sameIgnoringCase value) = true
    rw [beq_self_eq_true, hp, hv]
    rfl

theorem reads_pattern {localOffset : UtcOffset} {property : Property} {value : Value}
    {op : PatternOp} (hpattern : op = .like → IsText value)
    (hproperty : property.IsStable localOffset) (hvalue : value.IsStable localOffset) :
    Reads localOffset FollowsValue
      (Means Term fun read ↦ (read == Query.pattern op property value) = true)
      (printCall (Keyword.pattern op).name [property.path, value.print]).toList := by
  refine reads_propertyAndValue (.pattern op) hproperty hvalue ?_ ?_
  · exact fun _ _ _ _ _ hp hcomma hv hsame ↦
      .pattern hp hcomma hv fun hlike ↦ isText_of_sameIgnoringCase hsame (hpattern hlike)
  · intro p v hp hv
    change (op == op && p == property && v.sameIgnoringCase value) = true
    rw [beq_self_eq_true, hp, hv]
    rfl

/-- Inside of a tree the text of a well-formed query is a term. -/
theorem reads_term (style : Style) {localOffset : UtcOffset} {query : Query}
    (h : query.WellFormed) (hlegible : query.IsLegible style localOffset) :
    Reads localOffset FollowsValue (Means Term fun read ↦ (read == query) = true)
      (printWithin style false query).toList := by
  induction h with
  | limit range =>
    rw [printWithin]
    exact reads_function .limit rfl (reads_limit range)
  | select hne =>
    rw [printWithin]
    have hproperties := reads_select hne hlegible.self.1
    exact reads_function .select rfl hproperties
  | sort hne =>
    rw [printWithin]
    have hkeys := reads_sort style hne hlegible.self
    exact reads_function .sort rfl hkeys
  | group hne hterms ih =>
    exact reads_groupTerm style hne fun term hmem ↦ ih term hmem (hlegible.node hmem)
  | compare op property value =>
    have hproperty := hlegible.self.1 _ (List.mem_singleton.mpr rfl)
    have hvalue := hlegible.self.2 _ (List.mem_singleton.mpr rfl)
    cases style with
    | standard =>
      rw [printWithin]
      exact reads_compare op hproperty hvalue
    | normalized =>
      rw [printWithin]
      exact reads_compareCall op hproperty hvalue
  | pattern property hpattern =>
    have hproperty := hlegible.self.1 _ (List.mem_singleton.mpr rfl)
    have hvalue := hlegible.self.2 _ (List.mem_singleton.mpr rfl)
    rw [printWithin]
    exact reads_pattern hpattern hproperty hvalue
  | membership op property hne =>
    have hproperty := hlegible.self.1 _ (List.mem_singleton.mpr rfl)
    rw [printWithin]
    have hentries := reads_membership op hne hproperty hlegible.self.2
    exact reads_function (.membership op) rfl hentries
  | distinct =>
    rw [printWithin]
    exact reads_function .distinct rfl (reads_nil ⟨_, .distinct, rfl⟩)
  | first =>
    rw [printWithin]
    exact reads_function .first rfl (reads_nil ⟨_, .first, rfl⟩)
  | one =>
    rw [printWithin]
    exact reads_function .one rfl (reads_nil ⟨_, .one, rfl⟩)
  | count counted =>
    rw [printWithin]
    exact reads_function .count rfl (reads_count_property hlegible.of_counted)
  | values property =>
    have hproperty := hlegible.self.1 _ (List.mem_singleton.mpr rfl)
    rw [printWithin]
    exact reads_function .values rfl (reads_values hproperty)
  | summary op property =>
    have hproperty := hlegible.self.1 _ (List.mem_singleton.mpr rfl)
    rw [printWithin]
    exact reads_function (.summary op) rfl (reads_summary op hproperty)
  | aggregate hne hfunctions =>
    rw [printWithin]
    exact reads_function .aggregate rfl (reads_aggregate style hne hfunctions hlegible)

/-- The text of a well-formed query is clauses. -/
theorem reads_print (style : Style) {localOffset : UtcOffset} {query : Query}
    (h : query.WellFormed) (hlegible : query.IsLegible style localOffset) :
    Reads localOffset FollowsValue (Means Clauses fun read ↦ (read == query) = true)
      (print style query).toList := by
  have hwithin (htext : print style query = printWithin style false query) :
      Reads localOffset FollowsValue (Means Clauses fun read ↦ (read == query) = true)
        (print style query).toList := by
    rw [htext]
    apply (reads_term style h hlegible).mono
    rintro tokens ⟨read, hread, hsame⟩
    exact ⟨read, .term hread, hsame⟩
  cases h with
  | @group joiner terms hne hterms =>
    by_cases hsigns : (style = .standard && 1 < terms.length) = true
    · have htext : print style (group joiner terms) =
          joiner.sign.toString.intercalate (printAll style terms) := by
        rw [print, printWithin, if_pos hsigns, if_pos rfl]
      have hinner : List.Forall₂ (fun text term ↦ Reads localOffset FollowsValue
          (Means Term fun read ↦ (read == term) = true) text.toList) (printAll style terms)
          terms := by
        rw [printAll_eq_map, List.forall₂_map_left_iff, List.forall₂_same]
        exact fun term hmem ↦ reads_term style (hterms term hmem) (hlegible.node hmem)
      rw [htext]
      rw [Bool.and_eq_true, decide_eq_true_iff, decide_eq_true_iff] at hsigns
      exact reads_joined hsigns.2 hinner
    · apply hwithin
      rw [print, printWithin, if_neg hsigns, printWithin, if_neg hsigns]
  | compare => cases style <;> exact hwithin rfl
  | _ => exact hwithin rfl

end ResourceQuery
