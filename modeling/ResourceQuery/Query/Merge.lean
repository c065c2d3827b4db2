import ResourceQuery.Query.Census
import ResourceQuery.Query.Union

/-!
# Merging

The conjunction of two queries: records have to meet the conditions of both, and the clauses that
shape the answer are taken from both, with list clauses of one kind united. Each query is parted
into the conditions that remain and the clauses taken out; membership lists directly under the
root are taken out as well. The merged query is validated like a query that was read.
-/

namespace ResourceQuery.Query

/-- Terms that stay a condition, and clauses that were taken out. -/
structure Parts where
  kept : List Query
  clauses : List Query

instance : Append Parts where
  append a b := ⟨a.kept ++ b.kept, a.clauses ++ b.clauses⟩

mutual

/-- Parts a term, and the terms of `and` groups in it. -/
def part : Query → Parts
  | group .and terms =>
    let inner := partAll terms
    ⟨[join .and inner.kept].filter (!·.isNoop), inner.clauses⟩
  | query => if query.isShaping then ⟨[], [query]⟩ else ⟨[query], []⟩

def partAll : List Query → Parts
  | [] => ⟨[], []⟩
  | query :: rest => part query ++ partAll rest

end

/-- Parts a term of a group at the root. -/
def partTerm : Query → Parts
  | noop => ⟨[], []⟩
  | membership op property entries => ⟨[], [membership op property entries]⟩
  | query => part query

/-- Parts a whole query. Out of a disjunction only its own shaping terms are taken. -/
def partRoot : Query → Parts
  | group .and terms =>
    let parts := (terms.map partTerm).foldr (· ++ ·) ⟨[], []⟩
    ⟨(join .and parts.kept).conjuncts, parts.clauses⟩
  | group .or terms =>
    ⟨(join .or (terms.filter (!·.isShaping))).conjuncts, terms.filter isShaping⟩
  | membership op property entries => ⟨[], [membership op property entries]⟩
  | query => if query.isShaping then ⟨[], [query]⟩ else ⟨query.conjuncts, []⟩

/-- The conjunction of two queries, neither of which is empty. -/
def conjoin (a b : Query) : Query :=
  let parts := a.partRoot ++ b.partRoot
  join .and (parts.kept ++ uniteAll parts.clauses)

def merge (a b : Query) : Except QueryError Query :=
  if b.isNoop then return a
  else if a.isNoop then return b
  else do
    let merged := conjoin a b
    merged.validate
    return merged

end ResourceQuery.Query
