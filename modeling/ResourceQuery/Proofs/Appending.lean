import Mathlib.Data.List.Forall2
import ResourceQuery.Query.Child

/-!
# Appending to a node

A node may be built up in place, by appending one child after the other. An append checks first and
changes afterwards, so the node is as it was when the child is refused, and has the child behind all
others when it is not. What a sequence of appends makes of a node follows from that: its children
are those it had and, behind them, those that were not refused, in the order of the appends.
Therefore no property gets behind a function of an aggregate, and a limit and a count remain as
short as they have to be.
-/

namespace ResourceQuery

/-- How a node with this operation keeps a child: as it is, but a limit keeps a number as an
unsigned one of 64 bits. -/
inductive Child.StoredAs (operation : Operation) : Child → Child → Prop
  | same {child : Child} (h : operation ≠ .clause .limit) : StoredAs operation child child
  | number {value : Value} {number : SizedInteger} (h : operation = .clause .limit)
      (htype : number.type = .uint64) (hvalue : value.integer? = some number.value) :
      StoredAs operation (.value value) (.value (.integer number))

theorem Child.StoredAs.eq {operation : Operation} {child stored : Child}
    (h : StoredAs operation child stored) (hother : operation ≠ .clause .limit) :
    stored = child := by
  cases h with
  | same => rfl
  | number hlimit => exact absurd hlimit hother

namespace Query

variable {query next : Query} {child : Child} {calls : List Child}

/-! ### One append -/

/-- Appends a child in place. -/
def append (child : Child) : EStateM ShapeFault Query Unit := do
  match ← get, child with
  | select properties, .property p => set (select (properties ++ [p]))
  | sort keys, .sortKey key => set (sort (keys ++ [key]))
  | group joiner terms, .node term => set (group joiner (terms ++ [term]))
  | membership op property entries, .value v => set (membership op property (entries ++ [v]))
  | count none, .property p => set (count (some p))
  | count (some _), .property _ => throw .countIsFull
  | limit range, .value v =>
    if range.start.isSome then throw .limitIsFull
    match limitArgument v with
    | .ok n => set (limit ⟨some range.count, n⟩)
    | .error fault => throw fault
  | aggregate groups functions, .property p =>
    if !functions.isEmpty then throw (.groupAfterFunction p)
    set (aggregate (groups ++ [p]) functions)
  | aggregate groups functions, .node function =>
    if !function.isFunction then throw (.notASummary function.operation)
    set (aggregate groups (functions ++ [function]))
  | compare op _ _, child => throw (.complete (.clause (.compare op)) child.describe)
  | pattern op _ _, child => throw (.complete (.clause (.pattern op)) child.describe)
  | query, child => throw (.refused query.operation child.describe)

/-- Appending in place comes to `add`, and a node that refuses a child stays as it is. -/
theorem append_eq (child : Child) (query : Query) :
    append child query = match query.add child with
      | .ok next => .ok () next
      | .error fault => .error fault query := by
  cases query with
  | limit range =>
    obtain ⟨_ | start, count⟩ := range
    · cases child with
      | value v =>
        change (match limitArgument v with
            | .ok n => set (limit ⟨some count, n⟩)
            | .error fault => throw fault : EStateM ShapeFault Query Unit) (limit ⟨none, count⟩) =
          match (limitArgument v >>= fun n ↦ pure (limit ⟨some count, n⟩)) with
          | .ok next => .ok () next
          | .error fault => .error fault (limit ⟨none, count⟩)
        cases limitArgument v <;> rfl
      | _ => rfl
    · cases child <;> rfl
  | aggregate groups functions =>
    cases child with
    | property p => cases functions <;> rfl
    | node function =>
      change (do
        if !function.isFunction then throw (.notASummary function.operation)
        set (aggregate groups (functions ++ [function])) : EStateM ShapeFault Query Unit)
          (aggregate groups functions) = _
      rw [add_node]
      cases function.isFunction <;> rfl
    | _ => cases functions <;> rfl
  | count property => cases property <;> cases child <;> rfl
  | _ => cases child <;> rfl

/-- A node, a child that it has a place for, and the node with this child. -/
inductive Gains : Query → Child → Query → Prop
  | select (properties : List Property) (p : Property) :
      Gains (select properties) (.property p) (select (properties ++ [p]))
  | sort (keys : List SortKey) (key : SortKey) :
      Gains (sort keys) (.sortKey key) (sort (keys ++ [key]))
  | group (joiner : Joiner) (terms : List Query) (term : Query) :
      Gains (group joiner terms) (.node term) (group joiner (terms ++ [term]))
  | membership (op : MembershipOp) (property : Property) (entries : List Value) (v : Value) :
      Gains (membership op property entries) (.value v) (membership op property (entries ++ [v]))
  | count (p : Property) : Gains (count none) (.property p) (count (some p))
  | limit {v : Value} {n : UInt64} (start : UInt64) (h : limitArgument v = .ok n) :
      Gains (limit ⟨none, start⟩) (.value v) (limit ⟨some start, n⟩)
  | property (groups : List Property) (p : Property) :
      Gains (aggregate groups []) (.property p) (aggregate (groups ++ [p]) [])
  | function (groups : List Property) (functions : List Query) {function : Query}
      (h : function.isFunction = true) :
      Gains (aggregate groups functions) (.node function)
        (aggregate groups (functions ++ [function]))

theorem add_eq_ok_iff : query.add child = .ok next ↔ Gains query child next := by
  constructor
  · intro h
    fun_cases add query child with
    | case1 properties p =>
      cases h
      exact .select properties p
    | case2 keys key =>
      cases h
      exact .sort keys key
    | case3 joiner terms term =>
      cases h
      exact .group joiner terms term
    | case4 op property entries v =>
      cases h
      exact .membership op property entries v
    | case5 p =>
      cases h
      exact .count p
    | case7 start v =>
      change (limitArgument v >>= fun n ↦ pure (.limit ⟨some start, n⟩)) = .ok next at h
      cases hn : limitArgument v with
      | ok n =>
        rw [hn] at h
        cases h
        exact .limit start hn
      | error fault =>
        rw [hn] at h
        cases h
    | case9 groups p =>
      cases h
      exact .property groups p
    | case11 groups functions function hfunction =>
      rw [add_node, if_pos hfunction] at h
      cases h
      exact .function groups functions hfunction
    | case12 groups functions function hfunction =>
      rw [add_node, if_neg hfunction] at h
      cases h
    | case15 =>
      rw [add] at h
      cases h
      all_goals assumption
    | _ => cases h
  · intro h
    cases h with
    | limit start h =>
      rw [add, h]
      rfl
    | function groups functions h => rw [add_node, if_pos h]
    | _ => rfl

theorem append_eq_ok_iff : append child query = .ok () next ↔ Gains query child next := by
  rw [append_eq, ← add_eq_ok_iff]
  cases query.add child <;> simp

theorem append_eq_error_iff {fault : ShapeFault} :
    append child query = .error fault next ↔ query.add child = .error fault ∧ next = query := by
  rw [append_eq]
  cases query.add child <;> simp [eq_comm]

theorem Gains.operation_eq (h : Gains query child next) : next.operation = query.operation := by
  cases h <;> rfl

/-- The number that a limit keeps is the one that it was given. -/
theorem storedAs_limitValue {v : Value} {n : UInt64} (h : limitArgument v = .ok n) :
    Child.StoredAs (.clause .limit) (.value v) (.value (limitValue n)) := by
  obtain ⟨number, hnumber, hlow, hhigh, rfl⟩ := limitArgument_eq_ok.mp h
  refine .number rfl rfl ?_
  have hvalue : (IntegerType.ofBits .uint64 (UInt64.ofNat number.toNat).toNat).value =
      ((UInt64.ofNat number.toNat).toNat : Int) % twoTo 64 := rfl
  have hpower : twoTo 64 = 2 ^ 64 := rfl
  rw [hpower] at hhigh hvalue
  rw [hnumber, hvalue, UInt64.toNat_ofNat']
  congr 1
  omega

theorem Gains.children_eq (h : Gains query child next) :
    ∃ stored, child.StoredAs query.operation stored ∧
      next.children = query.children ++ [stored] := by
  cases h with
  | limit start h => exact ⟨_, storedAs_limitValue h, rfl⟩
  | group joiner terms term =>
    exact ⟨_, .same (by cases joiner <;> exact nofun), by simp [children]⟩
  | property groups p => exact ⟨_, .same nofun, by simp [children]⟩
  | _ => exact ⟨_, .same nofun, by simp [children]⟩

/-! ### A sequence of appends -/

/-- A node that has been built up, and the children that it has not refused. -/
structure Buildup where
  taken : List Child
  node : Query

/-- Appends one child after the other, and goes on behind a child that is refused. -/
def appendEach : List Child → Query → Buildup
  | [], query => ⟨[], query⟩
  | child :: rest, query =>
    match append child query with
    | .ok () next => ⟨child :: (appendEach rest next).taken, (appendEach rest next).node⟩
    | .error _ next => appendEach rest next

/-- What a node that gains a child keeps holds of all that is built up from it. -/
theorem appendEach_induction {P : Query → Prop}
    (hgains : ∀ query child next, P query → Gains query child next → P next)
    (calls : List Child) (h : P query) : P (appendEach calls query).node := by
  induction calls generalizing query with
  | nil => exact h
  | cons child rest ih =>
    rw [appendEach]
    cases hcall : append child query with
    | ok _ next => exact ih (hgains query child next h (append_eq_ok_iff.mp hcall))
    | error fault next =>
      obtain ⟨-, rfl⟩ := append_eq_error_iff.mp hcall
      exact ih h

theorem operation_appendEach (calls : List Child) (query : Query) :
    (appendEach calls query).node.operation = query.operation :=
  appendEach_induction (P := fun next ↦ next.operation = query.operation)
    (fun _ _ _ h hgains ↦ hgains.operation_eq.trans h) calls rfl

/-- Behind the children that a node had are those that it has not refused. -/
theorem children_appendEach (calls : List Child) (query : Query) :
    ∃ stored, List.Forall₂ (Child.StoredAs query.operation) (appendEach calls query).taken stored ∧
      (appendEach calls query).node.children = query.children ++ stored := by
  induction calls generalizing query with
  | nil => exact ⟨[], .nil, (List.append_nil _).symm⟩
  | cons child rest ih =>
    rw [appendEach]
    cases hcall : append child query with
    | ok _ next =>
      have hgains := append_eq_ok_iff.mp hcall
      obtain ⟨first, hfirst, hnext⟩ := hgains.children_eq
      obtain ⟨stored, hstored, hchildren⟩ := ih next
      rw [hgains.operation_eq] at hstored
      refine ⟨first :: stored, .cons hfirst hstored, ?_⟩
      rw [hchildren, hnext, List.append_assoc, List.singleton_append]
    | error fault next =>
      obtain ⟨-, rfl⟩ := append_eq_error_iff.mp hcall
      exact ih next

/-- The children that are refused leave no trace. -/
theorem appendEach_taken (calls : List Child) (query : Query) :
    appendEach (appendEach calls query).taken query = appendEach calls query := by
  induction calls generalizing query with
  | nil => rfl
  | cons child rest ih =>
    rw [appendEach]
    cases hcall : append child query with
    | ok _ next =>
      dsimp only
      rw [appendEach, hcall]
      dsimp only
      rw [ih next]
    | error fault next =>
      obtain ⟨-, rfl⟩ := append_eq_error_iff.mp hcall
      exact ih next

/-! ### Shapes -/

theorem ofGroups_eq_ok {groups : List Property} {functions : List Query} :
    ofGroups groups functions = .ok query ↔
      (∀ function ∈ functions, function.isFunction = true) ∧
        query = aggregate groups functions := by
  have hfold (start : List Query) :
      functions.foldlM (fun query function ↦ query.add (.node function)) (aggregate groups start) =
          .ok query ↔ (∀ function ∈ functions, function.isFunction = true) ∧
        query = aggregate groups (start ++ functions) := by
    induction functions generalizing start with
    | nil =>
      rw [List.append_nil]
      constructor
      · intro h
        cases h
        exact ⟨List.forall_mem_nil _, rfl⟩
      · rintro ⟨-, rfl⟩
        rfl
    | cons function rest ih =>
      rw [List.foldlM_cons, add_node]
      split
      · next hfunction =>
        refine (ih (start ++ [function])).trans ?_
        simp [hfunction]
      · next hfunction =>
        constructor
        · exact nofun
        · exact fun h ↦ absurd (h.1 function List.mem_cons_self) hfunction
  exact hfold []

/-- An aggregate of functions remains one. -/
theorem appendEach_aggregate {groups : List Property} {functions : List Query}
    (calls : List Child) (h : ∀ function ∈ functions, function.isFunction = true) :
    ∃ properties summaries, (appendEach calls (aggregate groups functions)).node =
        aggregate properties summaries ∧
      ∀ function ∈ summaries, function.isFunction = true := by
  refine appendEach_induction (P := fun next ↦ ∃ properties summaries,
    next = aggregate properties summaries ∧ ∀ function ∈ summaries, function.isFunction = true)
    ?_ calls ⟨groups, functions, rfl, h⟩
  rintro _ child next ⟨properties, summaries, rfl, hsummaries⟩ hgains
  cases hgains with
  | property _ p => exact ⟨_, _, rfl, hsummaries⟩
  | function _ _ hfunction =>
    refine ⟨_, _, rfl, List.forall_mem_append.mpr ⟨hsummaries, ?_⟩⟩
    exact List.forall_mem_singleton.mpr hfunction

theorem length_children_limit (h : query.operation = .clause .limit) :
    query.children.length ≤ 2 := by
  cases query with
  | limit range =>
    obtain ⟨_ | start, count⟩ := range <;> simp [children]
  | _ => cases h

theorem length_children_count (h : query.operation = .clause .count) :
    query.children.length ≤ 1 := by
  cases query with
  | count property => cases property <;> simp [children]
  | _ => cases h

/-- An append puts the child behind all others, which it does just if the node has a place for it,
or leaves the node as it is. Whatever is appended to it, an aggregate has its properties in front of
its functions in the order of the appends, and nothing but functions behind them; a limit has at
most two values and a count at most one property. -/
theorem append_grows_or_keeps (calls : List Child) :
    (∀ query child fault last, append child query = .error fault last →
      query.add child = .error fault ∧ last = query) ∧
    (∀ query child next, append child query = .ok () next ↔ Gains query child next) ∧
    (∀ query child next, append child query = .ok () next →
      query.add child = .ok next ∧ next.operation = query.operation ∧
        ∃ stored, child.StoredAs query.operation stored ∧
          next.children = query.children ++ [stored]) ∧
    (∀ query, appendEach (appendEach calls query).taken query = appendEach calls query ∧
      (appendEach calls query).node.operation = query.operation ∧
        ∃ stored, List.Forall₂ (Child.StoredAs query.operation)
            (appendEach calls query).taken stored ∧
          (appendEach calls query).node.children = query.children ++ stored) ∧
    (∀ groups functions query, ofGroups groups functions = .ok query →
      ∃ properties summaries, (appendEach calls query).node = aggregate properties summaries ∧
        (∀ function ∈ summaries, function.isFunction = true) ∧
        groups.map .property ++ functions.map .node ++ (appendEach calls query).taken =
          properties.map .property ++ summaries.map .node) ∧
    (∀ range, (appendEach calls (limit range)).node.children.length ≤ 2) ∧
    ∀ property, (appendEach calls (count property)).node.children.length ≤ 1 := by
  refine ⟨fun query child fault last h ↦ append_eq_error_iff.mp h,
    fun query child next ↦ append_eq_ok_iff, fun query child next h ↦ ?_,
    fun query ↦ ⟨appendEach_taken calls query, operation_appendEach calls query,
      children_appendEach calls query⟩, fun groups functions query h ↦ ?_,
    fun range ↦ length_children_limit (operation_appendEach calls _),
    fun property ↦ length_children_count (operation_appendEach calls _)⟩
  · have hgains := append_eq_ok_iff.mp h
    exact ⟨add_eq_ok_iff.mpr hgains, hgains.operation_eq, hgains.children_eq⟩
  · obtain ⟨hfunctions, rfl⟩ := ofGroups_eq_ok.mp h
    obtain ⟨properties, summaries, hnode, hsummaries⟩ := appendEach_aggregate calls hfunctions
    obtain ⟨stored, hstored, hchildren⟩ := children_appendEach calls (aggregate groups functions)
    have htaken : (appendEach calls (aggregate groups functions)).taken = stored := by
      rw [← List.forall₂_eq_eq_eq]
      exact hstored.imp fun _ _ h ↦ (h.eq nofun).symm
    rw [hnode, ← htaken] at hchildren
    exact ⟨properties, summaries, hnode, hsummaries, hchildren.symm⟩

/-- Of a property, `count()`, `distinct()` and a value, an aggregate that has a function takes
`count()` only; and a limit takes an integer of 32 bits as one of 64 bits. -/
theorem append_grows_or_keeps_mixed :
    let region : Child := .property ⟨["Region"]⟩
    let ten : Child := .value (.integer ⟨.int32, 10, by decide⟩)
    let start : Query := aggregate [⟨["Category"]⟩] [summary .sum ⟨["Price"]⟩]
    let calls : List Child := [region, .node (count none), .node distinct, ten]
    append region start = .error (.groupAfterFunction ⟨["Region"]⟩) start ∧
      append ten (limit ⟨none, 1⟩) = .ok () (limit ⟨some 1, 10⟩) ∧
      ofGroups [⟨["Category"]⟩] [summary .sum ⟨["Price"]⟩] = .ok start ∧
      (appendEach calls start).taken = [.node (count none)] ∧
      start.add region = .error (.groupAfterFunction ⟨["Region"]⟩) ∧
      (∃ stored, ten.StoredAs (.clause .limit) stored ∧
        (limit ⟨some 1, 10⟩).children = (limit ⟨none, 1⟩).children ++ [stored]) ∧
      ∃ properties summaries, (appendEach calls start).node = aggregate properties summaries ∧
        (∀ function ∈ summaries, function.isFunction = true) ∧
        [.property ⟨["Category"]⟩] ++ [.node (summary .sum ⟨["Price"]⟩)] ++
            (appendEach calls start).taken =
          properties.map .property ++ summaries.map .node := by
  intro region ten start calls
  obtain ⟨hkeeps, -, hgrows, -, haggregate, -⟩ := append_grows_or_keeps calls
  exact ⟨rfl, rfl, rfl, rfl, (hkeeps start region _ _ rfl).1,
    (hgrows (limit ⟨none, 1⟩) ten _ rfl).2.2,
    haggregate [⟨["Category"]⟩] [summary .sum ⟨["Price"]⟩] start rfl⟩

end Query

end ResourceQuery
