import ResourceQuery.Proofs.RoundTrip

/-!
# What the nodes of a tree hold

Nodes hold entries of their own, such as properties and values. Folding moves clauses and unites
them, but it makes no new entries: what can be said of every entry when the tokens have been parsed
can still be said of every entry of the query that is read.
-/

namespace ResourceQuery.Query

open Grammar

variable {α : Type} {held : Query → List α} {P : α → Prop} {query : Query}

/-- Every entry that a node of the tree holds has the property. -/
def AllHeld (held : Query → List α) (P : α → Prop) (query : Query) : Prop :=
  ∀ node ∈ query.preorder, ∀ a ∈ held node, P a

theorem allHeld_iff : query.AllHeld held P ↔
    (∀ a ∈ held query, P a) ∧ ∀ node ∈ query.nodes, node.AllHeld held P := by
  simp only [AllHeld]
  rw [preorder_eq_cons, List.forall_mem_cons, List.forall_mem_flatMap]

theorem allHeld_of_nodes_eq_nil (hnodes : query.nodes = []) (h : ∀ a ∈ held query, P a) :
    query.AllHeld held P :=
  allHeld_iff.mpr ⟨h, by simp [hnodes]⟩

theorem nodes_absorb (a b : Query) : (a.absorb b).nodes = a.nodes := by
  unfold absorb
  split <;> rfl

/-- Entries that are held by neither groups nor the empty query, and of which a clause has no others
when it has taken up another one than the two had before. -/
structure Holding (held : Query → List α) : Prop where
  noop : held noop = []
  group (joiner : Joiner) (terms : List Query) : held (group joiner terms) = []
  absorb {a b : Query} {entry : α} (h : entry ∈ held (a.absorb b)) :
    entry ∈ held a ∨ entry ∈ held b

namespace Holding

theorem allHeld_noop (hheld : Holding held) : Query.noop.AllHeld held P :=
  allHeld_of_nodes_eq_nil rfl (by simp [hheld.noop])

theorem allHeld_group_iff (hheld : Holding held) {joiner : Joiner} {terms : List Query} :
    (Query.group joiner terms).AllHeld held P ↔ ∀ term ∈ terms, term.AllHeld held P := by
  rw [allHeld_iff, hheld.group]
  exact and_iff_right (List.forall_mem_nil P)

theorem allHeld_absorb (hheld : Holding held) {a b : Query} (ha : a.AllHeld held P)
    (hb : b.AllHeld held P) : (a.absorb b).AllHeld held P := by
  rw [allHeld_iff, nodes_absorb]
  refine ⟨fun entry hmem ↦ ?_, (allHeld_iff.mp ha).2⟩
  obtain hmem | hmem := hheld.absorb hmem
  · exact (allHeld_iff.mp ha).1 entry hmem
  · exact (allHeld_iff.mp hb).1 entry hmem

theorem inherited (hheld : Holding held) (P : α → Prop) :
    Inherited fun query ↦ query.WellFormed ∧ query.AllHeld held P where
  group_iff {joiner terms} := by
    rw [hheld.allHeld_group_iff, inherited_wellFormed.group_iff]
    constructor
    · rintro ⟨⟨hne, hterms⟩, hall⟩
      exact ⟨hne, fun term hmem ↦ ⟨hterms term hmem, hall term hmem⟩⟩
    · rintro ⟨hne, hterms⟩
      exact ⟨⟨hne, fun term hmem ↦ (hterms term hmem).1⟩, fun term hmem ↦ (hterms term hmem).2⟩
  absorb ha hb := ⟨inherited_wellFormed.absorb ha.1 hb.1, hheld.allHeld_absorb ha.2 hb.2⟩

theorem allHeld_finish (hheld : Holding held) {options : ReadOptions} {parsed : Query}
    (hparsed : parsed.WellFormed) (h : parsed.AllHeld held P)
    (hfinish : finish options parsed = .ok query) : query.AllHeld held P := by
  obtain ⟨-, rfl⟩ := finish_eq_ok hfinish
  split
  · obtain hnoop | hselected := (hheld.inherited P).foldSpine ⟨hparsed, h⟩ (.clause .select)
    · rw [hnoop]
      exact hheld.allHeld_noop
    · obtain hnoop | hsorted := (hheld.inherited P).foldSpine hselected (.clause .sort)
      · rw [hnoop]
        exact hheld.allHeld_noop
      · exact hsorted.2
  · exact h

/-- What tokens allow to be said of the entries in the tree that they mean can be said of all
entries of a query that has been read. -/
theorem allHeld_of_read (hheld : Holding held) {options : ReadOptions} {text : String}
    {Q : Token → Prop}
    (hclauses : ∀ tokens query, Clauses tokens query → (∀ token ∈ tokens, Q token) →
      query.AllHeld held P)
    (htokens : ∀ text queue, Lexer.scan text options.localOffset = .ok queue →
      ∀ token ∈ queue.tokens, Q token)
    (h : read options text = .ok query) : query.AllHeld held P := by
  obtain ⟨prepared, -, hscan⟩ := exists_scan_of_read h
  obtain ⟨queue, parsed, rest, hqueue, hparse, hfinish⟩ := exists_parse_of_scan hscan
  have hvalued := Lexer.literalsValued_of_scan hqueue
  obtain rfl | ⟨front, behind, hsplit, hphrase⟩ := Parse.clauses_of_query_eq_ok hparse hvalued
  · rw [finish_noop] at hfinish
    cases hfinish
    exact hheld.allHeld_noop
  · have hqueue' : queue.tokens = front ++ behind := hsplit
    have hfront : ∀ token ∈ front, Q token := fun token hmem ↦
      htokens prepared queue hqueue token (hqueue' ▸ List.mem_append_left behind hmem)
    exact hheld.allHeld_finish hphrase.wellFormed (hclauses front parsed hphrase hfront) hfinish

end Holding

end ResourceQuery.Query
