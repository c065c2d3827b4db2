import Mathlib.Data.List.Flatten
import Mathlib.Data.List.Perm.Basic
import ResourceQuery.Proofs.Conflicts

/-!
# Clauses that can stand together

The rules on a tree are about its nodes, and a node is told from another one by its address, so two
equal nodes at two places count as two. The check accepts just the trees that keep all rules. Since
no rule is about the order of the nodes below a node, no reordering changes the verdict.
-/

namespace ResourceQuery.Query

/-- The node at an address, which is the list of the places to go down to from the root. -/
def at? (query : Query) : List Nat → Option Query
  | [] => some query
  | place :: rest => query.nodes[place]?.bind (·.at? rest)

/-- Some node has a property. -/
def Has (query : Query) (P : Query → Prop) : Prop :=
  ∃ address node, query.at? address = some node ∧ P node

/-- All nodes with a property are one and the same. -/
def HasAtMostOne (query : Query) (P : Query → Prop) : Prop :=
  ∀ a b x y, query.at? a = some x → query.at? b = some y → P x → P y → a = b

/-- No node on the way down to an address is an aggregate. -/
def IsOutside (query : Query) (address : List Nat) : Prop :=
  ∀ above below node, address = above ++ below → below ≠ [] → query.at? above = some node →
    node.operation ≠ .clause .aggregate

/-- Some function of a property stands outside every aggregate. -/
def HasUngrouped (query : Query) : Prop :=
  ∃ address node property, query.at? address = some node ∧ node.target? = some property ∧
    query.IsOutside address

/-- All rules are kept. -/
structure Compatible (query : Query) : Prop where
  once (keyword : Keyword)
    (h : keyword ∈ [Keyword.limit, .distinct, .one, .first, .values, .aggregate]) :
    query.HasAtMostOne (·.operation = .clause keyword)
  bareCount : query.HasAtMostOne (· = count none)
  projection : ¬(query.Has (·.operation = .clause .select) ∧
    query.Has (·.operation = .clause .values))
  grouped (h : query.Has (·.operation = .clause .aggregate)) : ¬query.HasUngrouped
  unlimited (h : query.Has (·.operation = .clause .limit)) :
    ¬query.Has (·.operation = .clause .aggregate) ∧ ¬query.Has (· = count none) ∧
      ¬query.HasUngrouped
  targets (a b : List Nat) (x y : Query) (p q : Property) (hx : query.at? a = some x)
    (hy : query.at? b = some y) (hp : x.target? = some p) (hq : y.target? = some q)
    (hpq : (p == q) = true) : a = b

/-! ### Addresses and walks -/

variable {query node : Query}

theorem at?_cons_eq_some {place : Nat} {rest : List Nat} :
    query.at? (place :: rest) = some node ↔
      ∃ child, query.nodes[place]? = some child ∧ child.at? rest = some node :=
  Option.bind_eq_some_iff

theorem mem_preorder_iff : node ∈ query.preorder ↔ ∃ address, query.at? address = some node := by
  induction query using nodes_induction with
  | h query ih =>
    rw [preorder_eq_cons, List.mem_cons, List.mem_flatMap]
    constructor
    · rintro (rfl | ⟨child, hchild, hnode⟩)
      · exact ⟨[], rfl⟩
      · obtain ⟨place, hplace⟩ := List.mem_iff_getElem?.mp hchild
        obtain ⟨rest, hrest⟩ := (ih child hchild).mp hnode
        exact ⟨place :: rest, at?_cons_eq_some.mpr ⟨child, hplace, hrest⟩⟩
    · rintro ⟨_ | ⟨place, rest⟩, haddress⟩
      · exact .inl (Option.some.inj haddress).symm
      · obtain ⟨child, hplace, hrest⟩ := at?_cons_eq_some.mp haddress
        have hchild : child ∈ query.nodes := List.mem_of_getElem? hplace
        exact .inr ⟨child, hchild, (ih child hchild).mpr ⟨rest, hrest⟩⟩

theorem mem_below_iff :
    node ∈ query.nodes.flatMap preorder ↔ ∃ place rest, query.at? (place :: rest) = some node := by
  rw [List.mem_flatMap]
  constructor
  · rintro ⟨child, hchild, hnode⟩
    obtain ⟨place, hplace⟩ := List.mem_iff_getElem?.mp hchild
    obtain ⟨rest, hrest⟩ := mem_preorder_iff.mp hnode
    exact ⟨place, rest, at?_cons_eq_some.mpr ⟨child, hplace, hrest⟩⟩
  · rintro ⟨place, rest, hnode⟩
    obtain ⟨child, hplace, hrest⟩ := at?_cons_eq_some.mp hnode
    exact ⟨child, List.mem_of_getElem? hplace, mem_preorder_iff.mpr ⟨rest, hrest⟩⟩

theorem outer_eq (query : Query) :
    query.outer = query ::
      if query.operation = .clause .aggregate then [] else query.nodes.flatMap outer := by
  cases query <;> simp [outer, operation, nodes, outerAll_eq_flatMap]

theorem isOutside_nil : query.IsOutside [] := by
  intro above below node haddress hbelow _
  exact absurd (List.append_eq_nil_iff.mp haddress.symm).2 hbelow

theorem isOutside_cons {place : Nat} {rest : List Nat} {child : Query}
    (hplace : query.nodes[place]? = some child) :
    query.IsOutside (place :: rest) ↔
      query.operation ≠ .clause .aggregate ∧ child.IsOutside rest := by
  constructor
  · intro h
    refine ⟨h [] (place :: rest) query rfl (List.cons_ne_nil _ _) rfl, ?_⟩
    intro above below node haddress hbelow hnode
    exact h (place :: above) below node (by rw [haddress, List.cons_append]) hbelow
      (at?_cons_eq_some.mpr ⟨child, hplace, hnode⟩)
  · rintro ⟨hroot, hrest⟩ (_ | ⟨first, above⟩) below node haddress hbelow hnode
    · cases hnode
      exact hroot
    · rw [List.cons_append, List.cons.injEq] at haddress
      obtain ⟨rfl, haddress⟩ := haddress
      obtain ⟨other, hother, hnode⟩ := at?_cons_eq_some.mp hnode
      cases hplace.symm.trans hother
      exact hrest above below node haddress hbelow hnode

theorem mem_outer_iff :
    node ∈ query.outer ↔ ∃ address, query.at? address = some node ∧ query.IsOutside address := by
  induction query using nodes_induction with
  | h query ih =>
    rw [outer_eq, List.mem_cons]
    constructor
    · rintro (rfl | hnode)
      · exact ⟨[], rfl, isOutside_nil⟩
      · split at hnode
        · cases hnode
        · next hroot =>
          obtain ⟨child, hchild, hnode⟩ := List.mem_flatMap.mp hnode
          obtain ⟨place, hplace⟩ := List.mem_iff_getElem?.mp hchild
          obtain ⟨rest, hrest, houtside⟩ := (ih child hchild).mp hnode
          exact ⟨place :: rest, at?_cons_eq_some.mpr ⟨child, hplace, hrest⟩,
            (isOutside_cons hplace).mpr ⟨hroot, houtside⟩⟩
    · rintro ⟨_ | ⟨place, rest⟩, haddress, houtside⟩
      · exact .inl (Option.some.inj haddress).symm
      · obtain ⟨child, hplace, hrest⟩ := at?_cons_eq_some.mp haddress
        have hchild : child ∈ query.nodes := List.mem_of_getElem? hplace
        obtain ⟨hroot, houtside⟩ := (isOutside_cons hplace).mp houtside
        have hnode := (ih child hchild).mpr ⟨rest, hrest, houtside⟩
        rw [if_neg hroot]
        exact .inr (List.mem_flatMap.mpr ⟨child, hchild, hnode⟩)

section Pairs

variable {R : Query → Query → Prop} (hsymm : ∀ x y, R x y → R y x)

include hsymm

theorem rel_of_pairwise_preorder (h : query.preorder.Pairwise R) {a b : List Nat} {x y : Query}
    (hx : query.at? a = some x) (hy : query.at? b = some y) (hne : a ≠ b) : R x y := by
  induction a generalizing query b with
  | nil =>
    cases hx
    rw [preorder_eq_cons, List.pairwise_cons] at h
    cases b with
    | nil => exact absurd rfl hne
    | cons place rest => exact h.1 y (mem_below_iff.mpr ⟨place, rest, hy⟩)
  | cons place rest ih =>
    rw [preorder_eq_cons, List.pairwise_cons, List.pairwise_flatMap,
      List.pairwise_iff_getElem] at h
    obtain ⟨hroot, hwithin, hbetween⟩ := h
    cases b with
    | nil =>
      cases hy
      exact hsymm _ _ (hroot x (mem_below_iff.mpr ⟨place, rest, hx⟩))
    | cons place' rest' =>
      obtain ⟨child, hplace, hx⟩ := at?_cons_eq_some.mp hx
      obtain ⟨child', hplace', hy⟩ := at?_cons_eq_some.mp hy
      obtain ⟨hbound, rfl⟩ := List.getElem?_eq_some_iff.mp hplace
      obtain ⟨hbound', rfl⟩ := List.getElem?_eq_some_iff.mp hplace'
      have hxmem := mem_preorder_iff.mpr ⟨rest, hx⟩
      have hymem := mem_preorder_iff.mpr ⟨rest', hy⟩
      obtain hlt | rfl | hgt := Nat.lt_trichotomy place place'
      · exact hbetween place place' hbound hbound' hlt x hxmem y hymem
      · exact ih (hwithin _ (List.getElem_mem hbound)) hx hy fun heq ↦ hne (by rw [heq])
      · exact hsymm _ _ (hbetween place' place hbound' hbound hgt y hymem x hxmem)

/-- What holds between the nodes at any two addresses holds along the walk, where each address
comes once. -/
theorem pairwise_preorder_iff :
    query.preorder.Pairwise R ↔
      ∀ a b x y, query.at? a = some x → query.at? b = some y → a ≠ b → R x y := by
  refine ⟨fun h _ _ _ _ ↦ rel_of_pairwise_preorder hsymm h, fun h ↦ ?_⟩
  induction query using nodes_induction with
  | h query ih =>
    rw [preorder_eq_cons, List.pairwise_cons, List.pairwise_flatMap, List.pairwise_iff_getElem]
    refine ⟨fun node hnode ↦ ?_, fun child hchild ↦ ?_, fun i j hi hj hlt x hx y hy ↦ ?_⟩
    · obtain ⟨place, rest, hnode⟩ := mem_below_iff.mp hnode
      exact h [] (place :: rest) query node rfl hnode (List.cons_ne_nil _ _).symm
    · obtain ⟨place, hplace⟩ := List.mem_iff_getElem?.mp hchild
      apply ih child hchild
      intro a b x y hx hy hne
      exact h (place :: a) (place :: b) x y (at?_cons_eq_some.mpr ⟨child, hplace, hx⟩)
        (at?_cons_eq_some.mpr ⟨child, hplace, hy⟩) fun heq ↦ hne (List.cons.inj heq).2
    · obtain ⟨a, hx⟩ := mem_preorder_iff.mp hx
      obtain ⟨b, hy⟩ := mem_preorder_iff.mp hy
      exact h (i :: a) (j :: b) x y
        (at?_cons_eq_some.mpr ⟨_, List.getElem?_eq_getElem hi, hx⟩)
        (at?_cons_eq_some.mpr ⟨_, List.getElem?_eq_getElem hj, hy⟩)
        fun heq ↦ Nat.ne_of_lt hlt (List.cons.inj heq).1

end Pairs

theorem countP_le_one_iff {α : Type} {P : α → Bool} {as : List α} :
    as.countP P ≤ 1 ↔ as.Pairwise fun a b ↦ ¬(P a = true ∧ P b = true) := by
  induction as with
  | nil => simp
  | cons a as ih =>
    rw [List.countP_cons, List.pairwise_cons, ← ih]
    cases ha : P a with
    | false => simp
    | true =>
      have hnone : (as.countP P + if true = true then 1 else 0) ≤ 1 ↔ as.countP P = 0 := by simp
      rw [hnone, List.countP_eq_zero]
      constructor
      · intro h
        refine ⟨fun b hb hP ↦ h b hb hP.2, ?_⟩
        rw [List.countP_eq_zero.mpr h]
        exact Nat.zero_le 1
      · rintro ⟨h, -⟩ b hb hP
        exact h b hb ⟨rfl, hP⟩

/-! ### The rules by counting -/

section Count

variable {P : Query → Bool} {Q : Query → Prop} (h : ∀ node, P node = true ↔ Q node)

include h

theorem countP_pos_iff_has : 0 < query.preorder.countP P ↔ query.Has Q := by
  rw [List.countP_pos_iff]
  constructor
  · rintro ⟨node, hnode, hP⟩
    obtain ⟨address, haddress⟩ := mem_preorder_iff.mp hnode
    exact ⟨address, node, haddress, (h node).mp hP⟩
  · rintro ⟨address, node, haddress, hQ⟩
    exact ⟨node, mem_preorder_iff.mpr ⟨address, haddress⟩, (h node).mpr hQ⟩

theorem countP_le_one_iff_hasAtMostOne :
    query.preorder.countP P ≤ 1 ↔ query.HasAtMostOne Q := by
  rw [countP_le_one_iff, pairwise_preorder_iff fun x y hxy hyx ↦ hxy ⟨hyx.2, hyx.1⟩]
  constructor
  · intro hpairs a b x y hx hy hQx hQy
    by_contra hne
    exact hpairs a b x y hx hy hne ⟨(h x).mpr hQx, (h y).mpr hQy⟩
  · rintro hone a b x y hx hy hne ⟨hPx, hPy⟩
    exact hne (hone a b x y hx hy ((h x).mp hPx) ((h y).mp hPy))

end Count

theorem isBareCount_iff (node : Query) : node.isBareCount = true ↔ node = count none := by
  cases node with
  | count property => cases property <;> simp [isBareCount]
  | _ => simp [isBareCount]

theorem occurrences_pos_iff {keyword : Keyword} :
    0 < query.occurrences keyword ↔ query.Has (·.operation = .clause keyword) :=
  countP_pos_iff_has fun _ ↦ beq_iff_eq

theorem occurrences_le_one_iff {keyword : Keyword} :
    query.occurrences keyword ≤ 1 ↔ query.HasAtMostOne (·.operation = .clause keyword) :=
  countP_le_one_iff_hasAtMostOne fun _ ↦ beq_iff_eq

theorem ungroupedFunctions_pos_iff : 0 < query.ungroupedFunctions ↔ query.HasUngrouped := by
  rw [ungroupedFunctions, List.countP_pos_iff]
  constructor
  · rintro ⟨node, hnode, htarget⟩
    obtain ⟨address, haddress, houtside⟩ := mem_outer_iff.mp hnode
    obtain ⟨property, hproperty⟩ := Option.isSome_iff_exists.mp htarget
    exact ⟨address, node, property, haddress, hproperty, houtside⟩
  · rintro ⟨address, node, property, haddress, hproperty, houtside⟩
    refine ⟨node, mem_outer_iff.mpr ⟨address, haddress, houtside⟩, ?_⟩
    rw [hproperty]
    rfl

theorem distinct_targets_iff :
    Distinct query.targets ↔
      ∀ a b x y p q, query.at? a = some x → query.at? b = some y → x.target? = some p →
        y.target? = some q → (p == q) = true → a = b := by
  rw [Distinct, targets, List.pairwise_filterMap, pairwise_preorder_iff]
  · constructor
    · intro h a b x y p q hx hy hp hq hpq
      by_contra hne
      have hdiffer := h a b x y hx hy hne p hp q hq
      rw [BEq.symm hpq] at hdiffer
      cases hdiffer
    · intro h a b x y hx hy hne p hp q hq
      rw [Bool.eq_false_iff]
      exact fun hqp ↦ hne (h a b x y p q hx hy hp hq (BEq.symm hqp))
  · intro x y h q hq p hp
    rw [BEq.comm]
    exact h p hp q hq

theorem conflict?_eq_none_iff_compatible : query.conflict? = none ↔ query.Compatible := by
  have hbare : 0 < query.bareCounts ↔ query.Has (· = count none) :=
    countP_pos_iff_has isBareCount_iff
  have hbares : query.bareCounts ≤ 1 ↔ query.HasAtMostOne (· = count none) :=
    countP_le_one_iff_hasAtMostOne isBareCount_iff
  have hsummaries : 0 < query.ungroupedFunctions + query.occurrences .aggregate +
      query.bareCounts ↔ query.Has (·.operation = .clause .aggregate) ∨
        query.Has (· = count none) ∨ query.HasUngrouped := by
    rw [← occurrences_pos_iff, ← hbare, ← ungroupedFunctions_pos_iff]
    omega
  rw [conflict?_eq_none_iff, repeated?_eq_none_iff, distinct_targets_iff, hbares, hsummaries]
  simp only [occurrences_pos_iff, occurrences_le_one_iff, ungroupedFunctions_pos_iff]
  constructor
  · rintro ⟨htargets, ⟨honce, hcount⟩, hprojection, hgrouped, hlimit⟩
    refine ⟨honce, hcount, hprojection, fun h h' ↦ hgrouped ⟨h, h'⟩, fun h ↦ ?_, htargets⟩
    have hnone := fun h' ↦ hlimit ⟨h, h'⟩
    exact ⟨fun h' ↦ hnone (.inl h'), fun h' ↦ hnone (.inr (.inl h')),
      fun h' ↦ hnone (.inr (.inr h'))⟩
  · intro h
    refine ⟨h.targets, ⟨h.once, h.bareCount⟩, h.projection, fun h' ↦ h.grouped h'.1 h'.2, ?_⟩
    rintro ⟨hlimit, haggregate | hcount | hungrouped⟩
    · exact (h.unlimited hlimit).1 haggregate
    · exact (h.unlimited hlimit).2.1 hcount
    · exact (h.unlimited hlimit).2.2 hungrouped

/-! ### The order of the nodes -/

/-- A query is another one with the nodes below some of its nodes in another order. -/
inductive Rearranges : Query → Query → Prop
  | group {joiner : Joiner} {terms others : List Query} (h : terms.Perm others) :
      Rearranges (group joiner terms) (group joiner others)
  | aggregate {groups : List Property} {functions others : List Query}
      (h : functions.Perm others) :
      Rearranges (aggregate groups functions) (aggregate groups others)
  | inGroup (joiner : Joiner) (before after : List Query) {term other : Query}
      (h : Rearranges term other) :
      Rearranges (.group joiner (before ++ term :: after))
        (.group joiner (before ++ other :: after))
  | inAggregate (groups : List Property) (before after : List Query) {function other : Query}
      (h : Rearranges function other) :
      Rearranges (.aggregate groups (before ++ function :: after))
        (.aggregate groups (before ++ other :: after))
  | trans {a b c : Query} (h : Rearranges a b) (h' : Rearranges b c) : Rearranges a c

/-- The same is found on a walk through both trees, in whatever order. -/
theorem IsWalk.perm_of_rearranges {β : Type} {walk inside : Query → List Query}
    {look : Query → Option β} (hwalk : IsWalk walk inside)
    (hinside : inside = walk ∨ inside = fun _ ↦ []) (hlook : IsShallow look) {a b : Query}
    (h : Rearranges a b) : ((walk a).filterMap look).Perm ((walk b).filterMap look) := by
  induction h with
  | group h =>
    rw [hwalk.filterMap_group hlook, hwalk.filterMap_group hlook]
    exact (h.flatMap_right _).append_left _
  | aggregate h =>
    rw [hwalk.filterMap_aggregate hlook, hwalk.filterMap_aggregate hlook]
    exact (h.flatMap_right _).append_left _
  | inGroup joiner before after _ ih =>
    rw [hwalk.filterMap_group hlook, hwalk.filterMap_group hlook]
    simp only [List.flatMap_append, List.flatMap_cons]
    exact ((ih.append_right _).append_left _).append_left _
  | inAggregate groups before after _ ih =>
    rw [hwalk.filterMap_aggregate hlook, hwalk.filterMap_aggregate hlook]
    simp only [List.flatMap_append, List.flatMap_cons]
    obtain rfl | rfl := hinside
    · exact ((ih.append_right _).append_left _).append_left _
    · exact .refl _
  | trans _ _ ih ih' => exact ih.trans ih'

theorem Rearranges.symm {a b : Query} (h : Rearranges a b) : Rearranges b a := by
  induction h with
  | group h => exact .group h.symm
  | aggregate h => exact .aggregate h.symm
  | inGroup joiner before after _ ih => exact .inGroup joiner before after ih
  | inAggregate groups before after _ ih => exact .inAggregate groups before after ih
  | trans _ _ ih ih' => exact ih'.trans ih

theorem lighter_of_rearranges {a b : Query} (h : Rearranges a b) : Lighter a b :=
  lighter_of_subperm
    (fun hlook ↦ (isWalk_preorder.perm_of_rearranges (.inl rfl) hlook h).subperm)
    (fun hlook ↦ (isWalk_outer.perm_of_rearranges (.inr rfl) hlook h).subperm)

/-- A tree passes the check just if its nodes keep all rules, and then so does every tree with the
same nodes in another order. -/
theorem validate_decides_compatible (query : Query) :
    (query.validate = .ok () ↔ query.Compatible) ∧
      ∀ other, Rearranges query other → (query.validate = .ok () ↔ other.validate = .ok ()) := by
  refine ⟨validate_eq_ok_iff.trans conflict?_eq_none_iff_compatible, fun other h ↦ ?_⟩
  rw [validate_eq_ok_iff, validate_eq_ok_iff]
  exact ⟨(lighter_of_rearranges h.symm).conflict?_eq_none,
    (lighter_of_rearranges h).conflict?_eq_none⟩

theorem validate_decides_compatible_swapped :
    Rearranges
        (.group .and
          [.aggregate [⟨["area"]⟩] [.count none, .summary .sum ⟨["price"]⟩], .distinct])
        (.group .and
          [.distinct, .aggregate [⟨["area"]⟩] [.summary .sum ⟨["price"]⟩, .count none]]) ∧
      (Query.group .and
        [.aggregate [⟨["area"]⟩] [.count none, .summary .sum ⟨["price"]⟩], .distinct]).Compatible ∧
      (Query.group .and
        [.distinct, .aggregate [⟨["area"]⟩] [.summary .sum ⟨["price"]⟩, .count none]]).validate =
          .ok () := by
  have hrearranges : Rearranges
      (.group .and
        [.aggregate [⟨["area"]⟩] [.count none, .summary .sum ⟨["price"]⟩], .distinct])
      (.group .and
        [.distinct, .aggregate [⟨["area"]⟩] [.summary .sum ⟨["price"]⟩, .count none]]) :=
    .trans (.inGroup .and [] [.distinct] (.aggregate (.swap _ _ _))) (.group (.swap _ _ _))
  have hrules := validate_decides_compatible
    (.group .and [.aggregate [⟨["area"]⟩] [.count none, .summary .sum ⟨["price"]⟩], .distinct])
  exact ⟨hrearranges, hrules.1.mp rfl, (hrules.2 _ hrearranges).mp rfl⟩

end ResourceQuery.Query
