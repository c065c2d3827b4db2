import ResourceQuery.Text.Case

/-!
# Properties

A property is a path of member names, the first of which belongs to the queried resource. Paths
compare without regard to case: `==` holds of two paths whose segments agree up to case. A sort
key is a property with a direction.
-/

namespace ResourceQuery

structure Property where
  segments : List String
  deriving DecidableEq, Repr

namespace Property

/-- The path whose segments are the parts of a text between dots; empty parts do not count. -/
def ofPath (path : String) : Property :=
  ⟨((path.toList.splitOn '.').filter (!·.isEmpty)).map String.ofList⟩

/-- The segments with dots between them. -/
def path (property : Property) : String :=
  ".".intercalate property.segments

def size (property : Property) : Nat :=
  property.segments.length

def isEmpty (property : Property) : Bool :=
  property.segments.isEmpty

def push (property : Property) (segment : String) : Property :=
  ⟨property.segments ++ [segment]⟩

instance : Append Property where
  append p q := ⟨p.segments ++ q.segments⟩

/-- What the segments are compared by. -/
def key (caseSensitive : Bool) (property : Property) : List String :=
  if caseSensitive then property.segments else property.segments.map Text.foldCase

/-- The path begins with all of another one. -/
def startsWith (caseSensitive : Bool) (property lead : Property) : Bool :=
  (lead.key caseSensitive).isPrefixOf (property.key caseSensitive)

def agrees (caseSensitive : Bool) (p q : Property) : Bool :=
  p.key caseSensitive == q.key caseSensitive

instance : BEq Property where
  beq := agrees false

theorem beq_iff (p q : Property) :
    (p == q) = true ↔ p.segments.map Text.foldCase = q.segments.map Text.foldCase := by
  show agrees false p q = true ↔ _
  simp [agrees, key]

instance : EquivBEq Property where
  rfl := (beq_iff _ _).mpr rfl
  symm h := (beq_iff _ _).mpr ((beq_iff _ _).mp h).symm
  trans h k := (beq_iff _ _).mpr (((beq_iff _ _).mp h).trans ((beq_iff _ _).mp k))

theorem startsWith_iff (caseSensitive : Bool) (property lead : Property) :
    property.startsWith caseSensitive lead = true ↔
      lead.key caseSensitive <+: property.key caseSensitive := by
  simp [startsWith, List.isPrefixOf_iff_prefix]

end Property

inductive SortOrder where
  | ascending
  | descending
  deriving DecidableEq, Repr

/-- The sign that marks a direction. -/
def SortOrder.sign : SortOrder → Char
  | ascending => '+'
  | descending => '-'

structure SortKey where
  order : SortOrder
  property : Property
  deriving DecidableEq, Repr

instance : BEq SortKey where
  beq a b := a.order == b.order && a.property == b.property

end ResourceQuery
