import Mathlib.Data.List.Basic
import Mathlib.Data.List.Pairwise
import ResourceQuery.Query.Union

/-!
# United clauses

What is known of a list of clauses once those of one kind have been made into one: no two of them
are of one kind any more, and each has taken up clauses of its own kind only.
-/

namespace ResourceQuery.Query

theorem any_appendNew {α : Type} {agree : α → α → Bool} {f : α → Bool}
    (hagree : ∀ a b, agree a b = true → f a = f b) (held more : List α) :
    (appendNew agree held more).any f = (held.any f || more.any f) := by
  induction more generalizing held with
  | nil => simp [appendNew]
  | cons a rest ih =>
    rw [appendNew, ih, List.any_cons]
    split
    · next hheld =>
      obtain ⟨b, hb, hba⟩ := List.any_eq_true.mp hheld
      have habsorbed (h : f a = true) : held.any f = true :=
        List.any_eq_true.mpr ⟨b, hb, (hagree b a hba).trans h⟩
      cases hfa : f a with
      | true => simp [habsorbed hfa]
      | false => simp
    · simp [Bool.or_assoc]

theorem mem_of_mem_appendNew {α : Type} {agree : α → α → Bool} {held more : List α} {a : α}
    (h : a ∈ appendNew agree held more) : a ∈ held ∨ a ∈ more := by
  induction more generalizing held with
  | nil => exact .inl h
  | cons b rest ih =>
    rw [appendNew] at h
    obtain hheld | hrest := ih h
    · split at hheld
      · exact .inl hheld
      · obtain hmem | rfl := by simpa using hheld
        · exact .inl hmem
        · exact .inr List.mem_cons_self
    · exact .inr (List.mem_cons_of_mem b hrest)

/-- A clause that takes up another one keeps its kind. -/
theorem sameKind_absorb_left (held clause other : Query) :
    (held.absorb clause).sameKind other = held.sameKind other := by
  unfold absorb
  split <;> first | rfl | (cases other <;> rfl)

theorem sameKind_absorb_right (held clause other : Query) :
    other.sameKind (held.absorb clause) = other.sameKind held := by
  unfold absorb
  split <;> first | rfl | (cases other <;> rfl)

theorem sameKind_symm {a b : Query} (h : a.sameKind b = true) : b.sameKind a = true := by
  unfold sameKind at h
  split at h
  · rfl
  · rfl
  · rw [Bool.and_eq_true] at h
    rw [sameKind, Bool.and_eq_true]
    exact ⟨BEq.symm h.1, BEq.symm h.2⟩
  · cases h

theorem operation_eq_of_sameKind {a b : Query} (h : a.sameKind b = true) :
    a.operation = b.operation := by
  unfold sameKind at h
  split at h
  · rfl
  · rfl
  · rw [Bool.and_eq_true] at h
    rw [operation, operation, eq_of_beq h.1]
  · cases h

theorem nodes_of_sameKind {a b : Query} (h : a.sameKind b = true) :
    a.nodes = [] ∧ b.nodes = [] := by
  unfold sameKind at h
  split at h <;> first | exact ⟨rfl, rfl⟩ | cases h

theorem target?_of_sameKind {a b : Query} (h : a.sameKind b = true) :
    a.target? = none ∧ b.target? = none := by
  unfold sameKind at h
  split at h <;> first | exact ⟨rfl, rfl⟩ | cases h

/-- The clauses are not lists of one kind. -/
def Differs (a b : Query) : Prop := a.sameKind b = false

instance : Std.Symm Differs where
  symm a b h := by
    rw [Differs, ← Bool.not_eq_true] at h ⊢
    exact fun hba ↦ h (sameKind_symm hba)

theorem forall_unite {held : List Query} {clause : Query} {P : Query → Prop}
    (hheld : ∀ query ∈ held, P query) (hclause : P clause)
    (habsorb : ∀ query ∈ held, query.sameKind clause = true → P (query.absorb clause)) :
    ∀ query ∈ unite held clause, P query := by
  induction held with
  | nil => simpa [unite] using hclause
  | cons head rest ih =>
    rw [List.forall_mem_cons] at hheld habsorb
    rw [unite]
    split
    · next hkind => exact List.forall_mem_cons.mpr ⟨habsorb.1 hkind, hheld.2⟩
    · exact List.forall_mem_cons.mpr ⟨hheld.1, ih hheld.2 habsorb.2⟩

theorem forall_uniteAll {clauses : List Query} {P : Query → Prop} (h : ∀ clause ∈ clauses, P clause)
    (habsorb : ∀ a b, P a → P b → a.sameKind b = true → P (a.absorb b)) :
    ∀ query ∈ uniteAll clauses, P query := by
  have hfold (held : List Query) (hheld : ∀ query ∈ held, P query) :
      ∀ query ∈ clauses.foldl unite held, P query := by
    induction clauses generalizing held with
    | nil => exact hheld
    | cons clause rest ih =>
      rw [List.forall_mem_cons] at h
      refine ih h.2 _ (forall_unite hheld h.1 fun query hmem hkind ↦ ?_)
      exact habsorb query clause (hheld query hmem) h.1 hkind
  exact hfold [] (by simp)

/-- Clauses of which no two are of one kind stay such when another one is united with them. -/
theorem pairwise_unite {held : List Query} (clause : Query)
    (h : held.Pairwise Differs) :
    (unite held clause).Pairwise Differs := by
  induction held with
  | nil => simp [unite]
  | cons head rest ih =>
    rw [List.pairwise_cons] at h
    rw [unite]
    split
    · rw [List.pairwise_cons]
      refine ⟨fun other hmem ↦ ?_, h.2⟩
      rw [Differs, sameKind_absorb_left]
      exact h.1 other hmem
    · next hkind =>
      rw [List.pairwise_cons]
      refine ⟨forall_unite h.1 (by simpa [Differs] using hkind) fun other hmem _ ↦ ?_, ih h.2⟩
      rw [Differs, sameKind_absorb_right]
      exact h.1 other hmem

theorem pairwise_uniteAll (clauses : List Query) :
    (uniteAll clauses).Pairwise Differs := by
  have hfold (held : List Query) (h : held.Pairwise Differs) :
      (clauses.foldl unite held).Pairwise Differs := by
    induction clauses generalizing held with
    | nil => exact h
    | cons clause rest ih => exact ih _ (pairwise_unite clause h)
  exact hfold [] .nil

theorem exists_mem_unite {held : List Query} {clause : Query} {P : Query → Prop}
    (hP : ∀ a b, a.sameKind b = true → (P (a.absorb b) ↔ P a ∨ P b)) :
    (∃ query ∈ unite held clause, P query) ↔ (∃ query ∈ held, P query) ∨ P clause := by
  induction held with
  | nil => simp [unite]
  | cons head rest ih =>
    rw [unite]
    split
    · next hkind =>
      rw [List.exists_mem_cons_iff, List.exists_mem_cons_iff, hP head clause hkind]
      exact or_right_comm
    · rw [List.exists_mem_cons_iff, List.exists_mem_cons_iff, ih]
      exact or_assoc.symm

/-- What uniting two clauses of a kind spares holds of some united clause just if it holds of some
clause before. -/
theorem exists_mem_uniteAll {clauses : List Query} {P : Query → Prop}
    (hP : ∀ a b, a.sameKind b = true → (P (a.absorb b) ↔ P a ∨ P b)) :
    (∃ query ∈ uniteAll clauses, P query) ↔ ∃ query ∈ clauses, P query := by
  have hfold (held : List Query) :
      (∃ query ∈ clauses.foldl unite held, P query) ↔
        (∃ query ∈ held, P query) ∨ ∃ query ∈ clauses, P query := by
    induction clauses generalizing held with
    | nil => simp
    | cons clause rest ih =>
      rw [List.foldl_cons, ih, exists_mem_unite hP, List.exists_mem_cons_iff]
      exact or_assoc
  rw [uniteAll, hfold []]
  simp

end ResourceQuery.Query
