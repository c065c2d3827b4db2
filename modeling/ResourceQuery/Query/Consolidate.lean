import ResourceQuery.Query.Union
import ResourceQuery.QueryError

/-!
# Consolidation

Scattered select, sort, in or out clauses of a conjunction are folded into the first one of their
kind. Only the spine counts: what is reached from the root through `and` groups alone. A group
that loses a term, at any depth, is joined anew.
-/

namespace ResourceQuery.Query

mutual

/-- The nodes reached through `and` groups, without these groups. -/
def spine : Query → List Query
  | group .and terms => spineAll terms
  | query => [query]

def spineAll : List Query → List Query
  | [] => []
  | query :: rest => spine query ++ spineAll rest

end

/-- What becomes of some terms of the spine: the terms kept, the clauses still to be put in place,
and whether any term was dropped. -/
structure Folding where
  kept : List Query
  pending : List Query
  dropped : Bool

mutual

/-- Puts the pending clause of its kind in place of the first clause and drops the later ones. -/
def fold (operation : Operation) (pending : List Query) : Query → Folding
  | group .and terms =>
    let inner := foldAll operation pending terms
    if inner.dropped then
      ⟨[join .and inner.kept].filter (!·.isNoop), inner.pending, true⟩
    else ⟨[group .and inner.kept], inner.pending, false⟩
  | query =>
    if query.operation = operation then
      match takeKind query pending with
      | some (clause, others) => ⟨[clause], others, false⟩
      | none => ⟨[], pending, true⟩
    else ⟨[query], pending, false⟩

def foldAll (operation : Operation) (pending : List Query) : List Query → Folding
  | [] => ⟨[], pending, false⟩
  | query :: rest =>
    let first := fold operation pending query
    let others := foldAll operation first.pending rest
    ⟨first.kept ++ others.kept, others.pending, first.dropped || others.dropped⟩

end

/-- The operation is one whose clauses are lists that combine. -/
def combines : Operation → Bool
  | .clause .select | .clause .sort | .clause (.membership _) => true
  | _ => false

/-- The clauses of an operation on the spine, united by kind. -/
def spineUnion (operation : Operation) (query : Query) : List Query :=
  uniteAll (query.spine.filter (·.operation == operation))

/-- Folds the clauses of an operation whose clauses combine. -/
def foldSpine (operation : Operation) (query : Query) : Query :=
  match query with
  | group .and terms =>
    let folding := foldAll operation (query.spineUnion operation) terms
    if folding.dropped then join .and folding.kept else query
  | _ => query

def consolidate (operation : Operation) (query : Query) : Except ShapeFault Query :=
  if combines operation then return query.foldSpine operation
  else throw (.notFoldable operation)

end ResourceQuery.Query
