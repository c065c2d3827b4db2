import ResourceQuery.Query
import ResourceQuery.QueryError

/-!
# Children

What a node consists of, as a list, and the building of a node from such parts one at a time. Each
kind of node accepts only the children that its form has a place for.
-/

namespace ResourceQuery

inductive Child where
  | node (query : Query)
  | property (property : Property)
  | sortKey (key : SortKey)
  | value (value : Value)

/-- How the child reads in a message. -/
def Child.describe : Child → String
  | node query => s!"{query.operation.name} node"
  | property path => s!"property {path.path}"
  | sortKey key => s!"sort property {key.property.path}"
  | value v => s!"{v.typeName} value"

namespace Query

/-- A count or a start of a limit, as a value. -/
def limitValue (n : UInt64) : Value :=
  .integer (IntegerType.uint64.ofBits n.toNat)

/-- The number that a value stands for in a limit. -/
def limitArgument (value : Value) : Except ShapeFault UInt64 :=
  match value.integer? with
  | some n =>
    if 0 ≤ n && n < twoTo 64 then return UInt64.ofNat n.toNat
    else throw (.notACount value.typeName)
  | none => throw (.notACount value.typeName)

def children : Query → List Child
  | noop | distinct | first | one => []
  | limit range => (range.start.toList ++ [range.count]).map fun n ↦ .value (limitValue n)
  | select properties => properties.map .property
  | sort keys => keys.map .sortKey
  | group _ terms => terms.map .node
  | compare _ property value | pattern _ property value => [.property property, .value value]
  | membership _ property entries => .property property :: entries.map .value
  | count property => property.toList.map .property
  | values property | summary _ property => [.property property]
  | aggregate groups functions => groups.map .property ++ functions.map .node

/-- The node may stand among the functions of an aggregate. -/
def isFunction : Query → Bool
  | summary _ _ | count _ => true
  | _ => false

/-- The node with one more child at its end. -/
def add (query : Query) (child : Child) : Except ShapeFault Query :=
  match query, child with
  | select properties, .property p => return select (properties ++ [p])
  | sort keys, .sortKey key => return sort (keys ++ [key])
  | group joiner terms, .node term => return group joiner (terms ++ [term])
  | membership op property entries, .value v => return membership op property (entries ++ [v])
  | count none, .property p => return count (some p)
  | count (some _), .property _ => throw .countIsFull
  | limit ⟨none, start⟩, .value v => return limit ⟨some start, ← limitArgument v⟩
  | limit ⟨some _, _⟩, .value _ => throw .limitIsFull
  | aggregate groups [], .property p => return aggregate (groups ++ [p]) []
  | aggregate _ (_ :: _), .property p => throw (.groupAfterFunction p)
  | aggregate groups functions, .node function =>
    if function.isFunction then return aggregate groups (functions ++ [function])
    else throw (.notASummary function.operation)
  | compare op _ _, child => throw (.complete (.clause (.compare op)) child.describe)
  | pattern op _ _, child => throw (.complete (.clause (.pattern op)) child.describe)
  | query, child => throw (.refused query.operation child.describe)

/-- An aggregate whose functions are checked one by one. -/
def ofGroups (groups : List Property) (functions : List Query) : Except ShapeFault Query :=
  functions.foldlM (fun query function ↦ query.add (.node function)) (aggregate groups [])

theorem limitArgument_eq_ok {value : Value} {count : UInt64} :
    limitArgument value = .ok count ↔
      ∃ n, value.integer? = some n ∧ 0 ≤ n ∧ n < twoTo 64 ∧ count = .ofNat n.toNat := by
  unfold limitArgument
  split
  · next n hn =>
    simp only [hn, Option.some.injEq, exists_eq_left']
    split
    · next h =>
      rw [Bool.and_eq_true, decide_eq_true_eq, decide_eq_true_eq] at h
      constructor
      · intro hcount
        cases hcount
        exact ⟨h.1, h.2, rfl⟩
      · rintro ⟨-, -, rfl⟩
        rfl
    · next h =>
      rw [Bool.and_eq_true, decide_eq_true_eq, decide_eq_true_eq] at h
      refine ⟨fun hcount ↦ ?_, fun hcount ↦ absurd ⟨hcount.1, hcount.2.1⟩ h⟩
      cases hcount
  · next hn => simp [hn, throw, throwThe, MonadExceptOf.throw]

theorem add_node (groups : List Property) (functions : List Query) (function : Query) :
    (aggregate groups functions).add (.node function) =
      if function.isFunction then .ok (aggregate groups (functions ++ [function]))
      else .error (.notASummary function.operation) := by
  cases functions <;> rfl

end Query

end ResourceQuery
