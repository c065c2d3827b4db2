import ResourceQuery.Query

/-!
# Unions of list clauses

Two select clauses, two sort clauses, or two membership lists of one operation and property are of
one kind and can be made into one: the entries of the second that the first does not hold yet are
appended.
-/

namespace ResourceQuery.Query

/-- Appends the elements of a second list that do not agree with one already held. -/
def appendNew {α : Type} (agree : α → α → Bool) (held : List α) : List α → List α
  | [] => held
  | a :: rest => appendNew agree (if held.any (agree · a) then held else held ++ [a]) rest

/-- The clauses are lists of one kind. -/
def sameKind : Query → Query → Bool
  | select _, select _ | sort _, sort _ => true
  | membership op p _, membership op' q _ => op == op' && p == q
  | _, _ => false

/-- The union of two clauses of one kind. A sort key counts by its property, whatever its
direction. -/
def absorb : Query → Query → Query
  | select held, select more => select (appendNew (· == ·) held more)
  | sort held, sort more => sort (appendNew (fun a b ↦ a.property == b.property) held more)
  | membership op property held, membership _ _ more =>
    membership op property (appendNew Value.sameIgnoringCase held more)
  | query, _ => query

/-- Unites a clause with the first one of its kind, or appends it. -/
def unite : List Query → Query → List Query
  | [], clause => [clause]
  | held :: rest, clause =>
    if held.sameKind clause then held.absorb clause :: rest else held :: unite rest clause

/-- The clauses with one of each kind. -/
def uniteAll (clauses : List Query) : List Query :=
  clauses.foldl unite []

/-- The first clause that is of one kind with another, and the clauses without it. -/
def takeKind (clause : Query) : List Query → Option (Query × List Query)
  | [] => none
  | held :: rest =>
    if held.sameKind clause then some (held, rest)
    else (takeKind clause rest).map fun (found, others) ↦ (found, held :: others)

end ResourceQuery.Query
