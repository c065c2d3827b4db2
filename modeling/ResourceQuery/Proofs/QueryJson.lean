import ResourceQuery.Proofs.ValueJson

/-!
# Queries as JSON

Nothing is lost when a query that has been read becomes JSON. The document of a node names its
operation, and with the operation it is clear which members there are and what they stand for. The
path of a property names the property again as its segments are clean, and the values are told
apart as they are shown in one local offset.
-/

namespace ResourceQuery

/-! ### Names of operations -/

theorem Keyword.name_injective : Function.Injective Keyword.name := fun a b h ↦ by
  have hfound := ofName?_name a
  rw [h, ofName?_name] at hfound
  exact (Option.some.inj hfound).symm

theorem Operation.name_injective : Function.Injective Operation.name := by
  have hnoop (keyword : Keyword) : keyword.name ≠ "noop" := by
    intro h
    have hfound := Keyword.ofName?_name keyword
    rw [h] at hfound
    cases hfound
  intro a b h
  cases a with
  | noop =>
    cases b with
    | noop => rfl
    | clause keyword => exact absurd h.symm (hnoop keyword)
  | clause keyword =>
    cases b with
    | noop => exact absurd h (hnoop keyword)
    | clause other => exact congrArg clause (Keyword.name_injective h)

/-! ### What a node holds -/

theorem forall₂_of_mem {α β : Type} {R S : α → β → Prop} {as : List α} {bs : List β}
    (h : List.Forall₂ R as bs) (hRS : ∀ a ∈ as, ∀ b ∈ bs, R a b → S a b) :
    List.Forall₂ S as bs := by
  induction h with
  | nil => exact .nil
  | cons hab _ ih =>
    refine .cons (hRS _ (by simp) _ (by simp) hab) (ih fun a ha b hb ↦ ?_)
    exact hRS a (List.mem_cons_of_mem _ ha) b (List.mem_cons_of_mem _ hb)

theorem Property.eq_of_json {p q : Property} (hp : p.IsClean) (hq : q.IsClean)
    (h : (p.json == q.json) = true) : p = q := by
  rw [← ofPath_path hp, ← ofPath_path hq, Json.string_beq_iff.mp h]

theorem SortKey.parts_of_json {k l : SortKey} (h : (k.json == l.json) = true) :
    k.order = l.order ∧ (k.property.json == l.property.json) = true := by
  have horder := Json.string_beq_iff.mp (Json.member_beq "order" h rfl rfl)
  refine ⟨?_, Json.member_beq "property" h rfl rfl⟩
  cases hk : k.order <;> cases hl : l.order <;> simp_all

instance : ReflBEq SortKey where
  rfl := Bool.and_eq_true_iff.mpr ⟨BEq.rfl, BEq.rfl⟩

namespace Query

theorem numberJson_injective {m n : UInt64} (h : (numberJson m == numberJson n) = true) :
    m = n := by
  have hpoint : '.' ∉ Text.decimal m.toNat := Text.not_mem_decimal (by decide) _
  have htext := Json.eq_of_number_beq (by simpa using hpoint) h
  exact UInt64.toNat_inj.mp (Text.decimal_injective (String.ofList_injective htext))

theorem jsonAll_eq_map (queries : List Query) : jsonAll queries = queries.map json := by
  induction queries with
  | nil => rfl
  | cons query rest ih => rw [jsonAll, ih, List.map_cons]

theorem forall₂_json_of_jsonAll {queries others : List Query}
    (h : (Json.array (jsonAll queries) == Json.array (jsonAll others)) = true) :
    List.Forall₂ (fun a b ↦ (a.json == b.json) = true) queries others := by
  rw [jsonAll_eq_map, jsonAll_eq_map] at h
  exact Json.array_map_beq_iff.mp h

/-- A document begins with the name of the operation. -/
theorem json_eq (query : Query) :
    ∃ members, query.json = .object (("op", .string query.operation.name) :: members) := by
  cases query <;> exact ⟨_, rfl⟩

theorem operation_eq_of_json {a b : Query} (h : (a.json == b.json) = true) :
    a.operation = b.operation := by
  obtain ⟨members, ha⟩ := a.json_eq
  obtain ⟨others, hb⟩ := b.json_eq
  rw [ha, hb] at h
  exact Operation.name_injective (Json.string_beq_iff.mp (Json.member_beq "op" h rfl rfl))

/-- Queries of one operation have one form. -/
inductive OneForm : Query → Query → Prop
  | noop : OneForm noop noop
  | limit (range other : Limit) : OneForm (limit range) (limit other)
  | select (properties others : List Property) : OneForm (select properties) (select others)
  | sort (keys others : List SortKey) : OneForm (sort keys) (sort others)
  | group (joiner : Joiner) (terms others : List Query) :
      OneForm (group joiner terms) (group joiner others)
  | compare (op : Comparison) (p q : Property) (v w : Value) :
      OneForm (compare op p v) (compare op q w)
  | pattern (op : PatternOp) (p q : Property) (v w : Value) :
      OneForm (pattern op p v) (pattern op q w)
  | membership (op : MembershipOp) (p q : Property) (entries others : List Value) :
      OneForm (membership op p entries) (membership op q others)
  | distinct : OneForm distinct distinct
  | first : OneForm first first
  | one : OneForm one one
  | count (counted other : Option Property) : OneForm (count counted) (count other)
  | values (p q : Property) : OneForm (values p) (values q)
  | summary (op : SummaryOp) (p q : Property) : OneForm (summary op p) (summary op q)
  | aggregate (groups others : List Property) (functions calls : List Query) :
      OneForm (aggregate groups functions) (aggregate others calls)

theorem oneForm_of_operation_eq {a b : Query} (h : a.operation = b.operation) : OneForm a b := by
  cases a <;> cases b <;> cases h <;> constructor

/-- The range of a limit clause. -/
def range? : Query → Option Limit
  | limit range => some range
  | _ => none

/-- The directions of the keys of a sort clause. -/
def orders : Query → List SortOrder
  | sort keys => keys.map (·.order)
  | _ => []

/-- Two nodes are of one operation, and what they hold has equal documents place by place. -/
structure SameDocuments (a b : Query) : Prop where
  operation : a.operation = b.operation
  range : a.range? = b.range?
  orders : a.orders = b.orders
  properties : List.Forall₂ (fun p q ↦ (p.json == q.json) = true) a.properties b.properties
  operands : List.Forall₂ (fun v w ↦ (v.json == w.json) = true) a.operands b.operands
  nodes : List.Forall₂ (fun x y ↦ (x.json == y.json) = true) a.nodes b.nodes

theorem limit_inj_of_json {range other : Limit}
    (h : ((limit range).json == (limit other).json) = true) : range = other := by
  obtain ⟨start, count⟩ := range
  obtain ⟨start', count'⟩ := other
  have hstart : start = start' := by
    cases start with
    | none =>
      cases start' with
      | none => rfl
      | some n => cases Json.length_eq_of_object_beq h
    | some m =>
      cases start' with
      | none => cases Json.length_eq_of_object_beq h
      | some n => rw [numberJson_injective (Json.member_beq "start" h rfl rfl)]
  subst hstart
  have hcount : count = count' := by
    cases start <;> exact numberJson_injective (Json.member_beq "count" h rfl rfl)
  rw [hcount]

theorem sameDocuments_of_json {a b : Query} (h : (a.json == b.json) = true) :
    a.SameDocuments b := by
  have hop := operation_eq_of_json h
  cases oneForm_of_operation_eq hop with
  | noop | distinct | first | one => exact ⟨hop, rfl, rfl, .nil, .nil, .nil⟩
  | limit range other =>
    obtain rfl := limit_inj_of_json h
    exact ⟨hop, rfl, rfl, .nil, .nil, .nil⟩
  | select properties others =>
    have hpaths := Json.array_map_beq_iff.mp (Json.member_beq "properties" h rfl rfl)
    exact ⟨hop, rfl, rfl, hpaths, .nil, .nil⟩
  | sort keys others =>
    have hkeys := (Json.array_map_beq_iff.mp (Json.member_beq "keys" h rfl rfl)).imp
      fun _ _ ↦ SortKey.parts_of_json
    refine ⟨hop, rfl, ?_, ?_, .nil, .nil⟩
    · rw [orders, orders, ← List.forall₂_eq_eq_eq, List.forall₂_map_left_iff,
        List.forall₂_map_right_iff]
      exact hkeys.imp fun _ _ h ↦ h.1
    · rw [properties, properties, List.forall₂_map_left_iff, List.forall₂_map_right_iff]
      exact hkeys.imp fun _ _ h ↦ h.2
  | group joiner terms others =>
    have hterms := forall₂_json_of_jsonAll (Json.member_beq "nodes" h rfl rfl)
    exact ⟨hop, rfl, rfl, .nil, .nil, hterms⟩
  | compare op p q v w | pattern op p q v w =>
    have hpath := Json.member_beq "property" h rfl rfl
    have hvalue := Json.member_beq "value" h rfl rfl
    exact ⟨hop, rfl, rfl, .cons hpath .nil, .cons hvalue .nil, .nil⟩
  | membership op p q entries others =>
    have hpath := Json.member_beq "property" h rfl rfl
    have hentries := Json.array_map_beq_iff.mp (Json.member_beq "values" h rfl rfl)
    exact ⟨hop, rfl, rfl, .cons hpath .nil, hentries, .nil⟩
  | count counted other =>
    -- the member for the property is there if and only if there is a property
    cases counted with
    | none =>
      cases other with
      | none => exact ⟨hop, rfl, rfl, .nil, .nil, .nil⟩
      | some q => cases Json.length_eq_of_object_beq h
    | some p =>
      cases other with
      | none => cases Json.length_eq_of_object_beq h
      | some q =>
        have hpath := Json.member_beq "property" h rfl rfl
        exact ⟨hop, rfl, rfl, .cons hpath .nil, .nil, .nil⟩
  | values p q | summary op p q =>
    have hpath := Json.member_beq "property" h rfl rfl
    exact ⟨hop, rfl, rfl, .cons hpath .nil, .nil, .nil⟩
  | aggregate groups others functions calls =>
    have hpaths := Json.array_map_beq_iff.mp (Json.member_beq "groups" h rfl rfl)
    have hfunctions := forall₂_json_of_jsonAll (Json.member_beq "functions" h rfl rfl)
    exact ⟨hop, rfl, rfl, hpaths, .nil, hfunctions⟩

/-! ### Equal trees -/

theorem sameValues_of_forall₂ {vs ws : List Value}
    (h : List.Forall₂ (fun v w ↦ v.typeName = w.typeName ∧ (v == w) = true) vs ws) :
    sameValues vs ws = true :=
  sameValues_iff.mpr (h.imp fun _ _ h ↦ Value.sameIgnoringCase_iff.mpr (.equal h.2))

/-- The entries of the node are as those of a query that has been read. -/
structure Legible (localOffset : UtcOffset) (query : Query) : Prop where
  properties : ∀ property ∈ query.properties, property.IsClean
  operands : ∀ value ∈ query.operands, value.IsShown localOffset

/-- The nodes are of one operation and hold the same properties, and values of the same types that
are equal place by place. -/
structure Coincide (a b : Query) : Prop where
  operation : a.operation = b.operation
  properties : a.properties = b.properties
  operands : List.Forall₂ (fun v w ↦ v.typeName = w.typeName ∧ (v == w) = true)
    a.operands b.operands

theorem SameDocuments.coincide {localOffset : UtcOffset} {a b : Query} (h : a.SameDocuments b)
    (ha : a.Legible localOffset) (hb : b.Legible localOffset) : a.Coincide b where
  operation := h.operation
  properties := by
    rw [← List.forall₂_eq_eq_eq]
    exact forall₂_of_mem h.properties fun p hp q hq ↦
      Property.eq_of_json (ha.properties p hp) (hb.properties q hq)
  operands := forall₂_of_mem h.operands fun v hv w hw ↦
    Value.beq_of_json (ha.operands v hv) (hb.operands w hw)

theorem zipWith_mk_keys (keys : List SortKey) :
    List.zipWith SortKey.mk (keys.map (·.order)) (keys.map (·.property)) = keys := by
  rw [List.zipWith_map, List.zipWith_self]
  exact List.map_id keys

/-- Nodes that coincide are equal if the nodes below and what else they hold are. -/
theorem Coincide.beq {a b : Query} (h : a.Coincide b) (hrange : a.range? = b.range?)
    (horders : a.orders = b.orders) (hnodes : Alike a.nodes b.nodes) : (a == b) = true := by
  obtain ⟨hop, hproperties, hoperands⟩ := h
  have hvalues := sameValues_of_forall₂ hoperands
  change same a b = true
  cases oneForm_of_operation_eq hop with
  | noop | distinct | first | one => rfl
  | limit range other =>
    cases hrange
    simp [same]
  | select properties others =>
    obtain rfl : properties = others := hproperties
    simp [same]
  | sort keys others =>
    obtain rfl : keys = others := by
      rw [← zipWith_mk_keys keys, ← zipWith_mk_keys others]
      exact congrArg₂ _ horders hproperties
    simp [same]
  | group joiner terms others =>
    have hterms : sameAll terms others = true := sameAll_iff.mpr hnodes
    simp [same, hterms]
  | compare op p q v w | pattern op p q v w =>
    cases hproperties
    simpa [same, Query.operands, sameValues] using hvalues
  | membership op p q entries others =>
    cases hproperties
    simpa [same, Query.operands] using hvalues
  | count counted other =>
    obtain rfl : counted = other := by
      cases counted <;> cases other <;> cases hproperties <;> rfl
    simp [same]
  | values p q | summary op p q =>
    cases hproperties
    simp [same]
  | aggregate groups others functions calls =>
    cases hproperties
    have hfunctions : sameAll functions calls = true := sameAll_iff.mpr hnodes
    simp [same, hfunctions]

/-- Trees of legible nodes with equal documents are equal, node by node. -/
theorem beq_of_json {localOffset : UtcOffset} {a b : Query}
    (ha : ∀ node ∈ a.preorder, node.Legible localOffset)
    (hb : ∀ node ∈ b.preorder, node.Legible localOffset) (h : (a.json == b.json) = true) :
    (a == b) = true ∧ List.Forall₂ Coincide a.preorder b.preorder := by
  induction a using nodes_induction generalizing b with
  | h a ih =>
    rw [preorder_eq_cons, List.forall_mem_cons, List.forall_mem_flatMap] at ha hb
    have hdocuments := sameDocuments_of_json h
    have hcoincide := hdocuments.coincide ha.1 hb.1
    -- the documents of the nodes below are equal, so these nodes are
    have hbelow := forall₂_of_mem hdocuments.nodes fun x hx y hy ↦ ih x hx (ha.2 x hx) (hb.2 y hy)
    refine ⟨hcoincide.beq hdocuments.range hdocuments.orders (hbelow.imp fun _ _ h ↦ h.1), ?_⟩
    rw [preorder_eq_cons, preorder_eq_cons]
    exact .cons hcoincide (forall₂_flatMap hbelow fun _ _ _ h ↦ h.2)

theorem legible_of_read {options : ReadOptions} {text : String} {query : Query}
    (h : read options text = .ok query) :
    ∀ node ∈ query.preorder, node.Legible options.localOffset :=
  fun node hnode ↦
    ⟨allProperties_isClean_of_read h node hnode, allHeld_operands_of_read h node hnode⟩

/-- Queries read under the same options whose documents are equal are equal trees, and node by node
they are of the same operation and hold the same properties, and equal values of the same types. -/
theorem beq_of_read_json {options : ReadOptions} {text other : String} {a b : Query}
    (ha : read options text = .ok a) (hb : read options other = .ok b)
    (h : (a.json == b.json) = true) :
    (a == b) = true ∧ List.Forall₂ Coincide a.preorder b.preorder :=
  beq_of_json (legible_of_read ha) (legible_of_read hb) h

/-- Two notations of a path, of a comparison and of a date. -/
theorem beq_of_read_json_notations : ∃ a b,
    read {} "and(select(a/c),lt(b,1/2/2000))" = .ok a ∧
      read {} "select((a,c))&b<2000-01-02" = .ok b ∧ (a.json == b.json) = true ∧
        (a == b) = true ∧ List.Forall₂ Coincide a.preorder b.preorder := by
  let tree : Query := group .and [select [⟨["a", "c"]⟩],
    compare .lt ⟨["b"]⟩ (.moment ⟨.local, 946771200, 0, .utc⟩)]
  have ha : read {} "and(select(a/c),lt(b,1/2/2000))" = .ok tree := by cbv
  have hb : read {} "select((a,c))&b<2000-01-02" = .ok tree := by cbv
  have hjson : (tree.json == tree.json) = true := by cbv
  exact ⟨tree, tree, ha, hb, hjson, beq_of_read_json ha hb hjson⟩

end Query

end ResourceQuery
