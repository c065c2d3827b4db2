import Mathlib.Data.List.Forall2
import ResourceQuery.Query.Census
import ResourceQuery.Query.Consolidate

/-!
# Equal values and queries

Equality of values and its relaxation for texts are equivalences. Equal queries have the same form:
in whatever order their nodes are gone through, the nodes are equal one by one, and so are the
operations, the functions and their properties.
-/

namespace ResourceQuery

/-! ### Equal values -/

theorem FloatingPoint.beq_iff {format : FloatFormat} (x y : FloatingPoint format) :
    (x == y) = true ↔ x.isZero = true ∧ y.isZero = true ∨ x = y := by
  change ((x.isZero && y.isZero) || decide (x = y)) = true ↔ _
  rw [Bool.or_eq_true, Bool.and_eq_true, decide_eq_true_iff]

instance {format : FloatFormat} : EquivBEq (FloatingPoint format) where
  rfl := (FloatingPoint.beq_iff _ _).mpr (.inr rfl)
  symm h := (FloatingPoint.beq_iff _ _).mpr (((FloatingPoint.beq_iff _ _).mp h).imp .symm .symm)
  trans {x y z} h h' := by
    rw [FloatingPoint.beq_iff] at h h' ⊢
    obtain h | rfl := h
    · obtain h' | rfl := h'
      · exact .inl ⟨h.1, h'.2⟩
      · exact .inl h
    · exact h'

theorem ScaledDecimal.beq_iff (x y : ScaledDecimal) :
    (x == y) = true ↔ x.coefficient * tenTo y.scale = y.coefficient * tenTo x.scale := by
  change (x.coefficient * tenTo y.scale == y.coefficient * tenTo x.scale) = true ↔ _
  exact beq_iff_eq

instance : EquivBEq ScaledDecimal where
  rfl := (ScaledDecimal.beq_iff _ _).mpr rfl
  symm h := (ScaledDecimal.beq_iff _ _).mpr ((ScaledDecimal.beq_iff _ _).mp h).symm
  trans {x y z} h h' := by
    rw [ScaledDecimal.beq_iff] at h h' ⊢
    have hpos : (tenTo y.scale : Int) ≠ 0 :=
      Int.natCast_ne_zero.mpr (Nat.ne_of_gt (Nat.pow_pos (by decide)))
    apply Int.eq_of_mul_eq_mul_right hpos
    calc
      x.coefficient * tenTo z.scale * tenTo y.scale
        = x.coefficient * tenTo y.scale * tenTo z.scale := Int.mul_right_comm _ _ _
      _ = y.coefficient * tenTo x.scale * tenTo z.scale := by rw [h]
      _ = y.coefficient * tenTo z.scale * tenTo x.scale := Int.mul_right_comm _ _ _
      _ = z.coefficient * tenTo y.scale * tenTo x.scale := by rw [h']
      _ = z.coefficient * tenTo x.scale * tenTo y.scale := Int.mul_right_comm _ _ _

theorem Moment.beq_iff (a b : Moment) :
    (a == b) = true ↔ a.seconds = b.seconds ∧ a.nanos = b.nanos ∧ a.anchor = b.anchor := by
  change (a.seconds == b.seconds && a.nanos == b.nanos && a.anchor == b.anchor) = true ↔ _
  simp [and_assoc]

instance : EquivBEq Moment where
  rfl := (Moment.beq_iff _ _).mpr ⟨rfl, rfl, rfl⟩
  symm h := by
    rw [Moment.beq_iff] at h ⊢
    exact ⟨h.1.symm, h.2.1.symm, h.2.2.symm⟩
  trans h h' := by
    rw [Moment.beq_iff] at h h' ⊢
    exact ⟨h.1.trans h'.1, h.2.1.trans h'.2.1, h.2.2.trans h'.2.2⟩

namespace Value

/-- Equal values are numbers or moments of one type that are equal, or the same. -/
inductive Equal : Value → Value → Prop
  | float {x y : FloatingPoint .binary32} (h : (x == y) = true) : Equal (float x) (float y)
  | double {x y : FloatingPoint .binary64} (h : (x == y) = true) : Equal (double x) (double y)
  | decimal {x y : ScaledDecimal} (h : (x == y) = true) : Equal (decimal x) (decimal y)
  | moment {a b : Moment} (h : (a == b) = true) : Equal (moment a) (moment b)
  | refl (v : Value) : Equal v v

theorem beq_iff {v w : Value} : (v == w) = true ↔ Equal v w := by
  constructor
  · intro h
    cases v with
    | float x => cases w <;> first | exact .float h | cases of_decide_eq_true h
    | double x => cases w <;> first | exact .double h | cases of_decide_eq_true h
    | decimal x => cases w <;> first | exact .decimal h | cases of_decide_eq_true h
    | moment a => cases w <;> first | exact .moment h | cases of_decide_eq_true h
    | _ =>
      cases of_decide_eq_true h
      exact .refl _
  · rintro (h | h | h | h | _)
    · exact h
    · exact h
    · exact h
    · exact h
    · cases v with
      | float x => exact (BEq.rfl : (x == x) = true)
      | double x => exact (BEq.rfl : (x == x) = true)
      | decimal x => exact (BEq.rfl : (x == x) = true)
      | moment a => exact (BEq.rfl : (a == a) = true)
      | _ => exact decide_eq_true rfl

instance : EquivBEq Value where
  rfl := beq_iff.mpr (.refl _)
  symm h := by
    rw [beq_iff] at h ⊢
    cases h with
    | float h => exact .float (BEq.symm h)
    | double h => exact .double (BEq.symm h)
    | decimal h => exact .decimal (BEq.symm h)
    | moment h => exact .moment (BEq.symm h)
    | refl => exact .refl _
  trans h h' := by
    rw [beq_iff] at h h' ⊢
    cases h with
    | refl => exact h'
    | float h => cases h' with
      | float h' => exact .float (BEq.trans h h')
      | refl => exact .float h
    | double h => cases h' with
      | double h' => exact .double (BEq.trans h h')
      | refl => exact .double h
    | decimal h => cases h' with
      | decimal h' => exact .decimal (BEq.trans h h')
      | refl => exact .decimal h
    | moment h => cases h' with
      | moment h' => exact .moment (BEq.trans h h')
      | refl => exact .moment h

/-- Values are the same up to case if they are texts of one type with the same folded text, or
equal. -/
inductive Agree : Value → Value → Prop
  | string {a b : String} (h : Text.foldCase a = Text.foldCase b) : Agree (string a) (string b)
  | uri {a b : String} (h : Text.foldCase a = Text.foldCase b) : Agree (uri a) (uri b)
  | char {c d : Char} (h : Text.lowerChar c = Text.lowerChar d) : Agree (char c) (char d)
  | equal {v w : Value} (h : (v == w) = true) : Agree v w

theorem sameIgnoringCase_iff {v w : Value} : v.sameIgnoringCase w = true ↔ Agree v w := by
  constructor
  · intro h
    cases v with
    | string a => cases w <;> first | exact .equal h | exact .string (eq_of_beq h)
    | uri a => cases w <;> first | exact .equal h | exact .uri (eq_of_beq h)
    | char c => cases w <;> first | exact .equal h | exact .char (eq_of_beq h)
    | _ => exact .equal h
  · intro h
    cases h with
    | string h => exact beq_iff_eq.mpr h
    | uri h => exact beq_iff_eq.mpr h
    | char h => exact beq_iff_eq.mpr h
    | equal h =>
      cases beq_iff.mp h with
      | refl => cases v <;> exact BEq.rfl
      | _ => exact h

theorem sameIgnoringCase_symm {v w : Value} (h : v.sameIgnoringCase w = true) :
    w.sameIgnoringCase v = true := by
  rw [sameIgnoringCase_iff] at h ⊢
  cases h with
  | string h => exact .string h.symm
  | uri h => exact .uri h.symm
  | char h => exact .char h.symm
  | equal h => exact .equal (BEq.symm h)

theorem sameIgnoringCase_trans {u v w : Value} (h : u.sameIgnoringCase v = true)
    (h' : v.sameIgnoringCase w = true) : u.sameIgnoringCase w = true := by
  rw [sameIgnoringCase_iff] at h h' ⊢
  cases h' with
  | equal h' =>
    cases beq_iff.mp h' with
    | refl => exact h
    | _ => cases h with | equal h => exact .equal (BEq.trans h h')
  | string h' =>
    cases h with
    | string h => exact .string (h.trans h')
    | equal h => cases beq_iff.mp h with | refl => exact .string h'
  | uri h' =>
    cases h with
    | uri h => exact .uri (h.trans h')
    | equal h => cases beq_iff.mp h with | refl => exact .uri h'
  | char h' =>
    cases h with
    | char h => exact .char (h.trans h')
    | equal h => cases beq_iff.mp h with | refl => exact .char h'

theorem sameIgnoringCase_congr {v w : Value} (h : v.sameIgnoringCase w = true) (u : Value) :
    v.sameIgnoringCase u = w.sameIgnoringCase u :=
  Bool.eq_iff_iff.mpr
    ⟨sameIgnoringCase_trans (sameIgnoringCase_symm h), sameIgnoringCase_trans h⟩

end Value
end ResourceQuery

namespace ResourceQuery.Query

variable {a b : Query}

/-- What holds of a query if it holds of the nodes below holds of every query. -/
theorem nodes_induction {motive : Query → Prop}
    (h : ∀ query, (∀ node ∈ query.nodes, motive node) → motive query) (query : Query) :
    motive query := by
  induction hsize : sizeOf query using Nat.strongRecOn generalizing query with
  | ind size ih =>
    apply h
    intro node hnode
    have hsmaller : sizeOf node < size := by
      subst hsize
      cases query <;> simp only [nodes, List.not_mem_nil] at hnode
      all_goals
        have := List.sizeOf_lt_of_mem hnode
        simp
        omega
    exact ih _ hsmaller node rfl

theorem forall₂_flatMap {α β γ δ : Type} {R : α → β → Prop} {S : γ → δ → Prop} {f : α → List γ}
    {g : β → List δ} {as : List α} {bs : List β} (h : List.Forall₂ R as bs)
    (hfg : ∀ a ∈ as, ∀ b, R a b → List.Forall₂ S (f a) (g b)) :
    List.Forall₂ S (as.flatMap f) (bs.flatMap g) := by
  induction h with
  | nil => exact .nil
  | cons hab _ ih =>
    rw [List.flatMap_cons, List.flatMap_cons]
    have hrest := ih fun a ha b ↦ hfg a (List.mem_cons_of_mem _ ha) b
    exact List.rel_append (hfg _ (by simp) _ hab) hrest

theorem beq_of_forall₂ {α : Type} [BEq α] {as bs : List α}
    (h : List.Forall₂ (fun a b ↦ (a == b) = true) as bs) : (as == bs) = true := by
  induction h with
  | nil => rfl
  | cons hab _ ih => rw [List.cons_beq_cons, hab, ih, Bool.and_self]

/-- Queries that are equal one by one. -/
abbrev Alike : List Query → List Query → Prop :=
  List.Forall₂ fun a b ↦ (a == b) = true

theorem sameAll_iff {as bs : List Query} : sameAll as bs = true ↔ Alike as bs := by
  induction as generalizing bs with
  | nil => cases bs <;> simp [sameAll]
  | cons a as ih =>
    cases bs with
    | nil => simp [sameAll]
    | cons b bs =>
      rw [sameAll, Bool.and_eq_true, ih]
      exact (List.forall₂_cons (R := fun a b : Query ↦ (a == b) = true)).symm

theorem sameValues_iff {vs ws : List Value} :
    sameValues vs ws = true ↔
      List.Forall₂ (fun v w : Value ↦ v.sameIgnoringCase w = true) vs ws := by
  induction vs generalizing ws with
  | nil => cases ws <;> simp [sameValues]
  | cons v vs ih =>
    cases ws with
    | nil => simp [sameValues]
    | cons w ws => rw [sameValues, Bool.and_eq_true, ih, List.forall₂_cons]

/-! ### The nodes of equal queries -/

theorem operation_eq_of_same (h : (a == b) = true) : a.operation = b.operation := by
  replace h : same a b = true := h
  unfold same at h
  split at h <;> simp_all [operation]

theorem alike_nodes (h : (a == b) = true) : Alike a.nodes b.nodes := by
  replace h : same a b = true := h
  unfold same at h
  split at h <;> simp_all [nodes, sameAll_iff]

theorem target?_of_same (h : (a == b) = true) :
    Option.Rel (fun p q ↦ (p == q) = true) a.target? b.target? := by
  replace h : same a b = true := h
  unfold same at h
  split at h
  case h_12 p q =>
    cases p <;> cases q <;> first | exact .none | exact .some h | cases h
  case h_14 o p o' q =>
    rw [Bool.and_eq_true] at h
    exact .some h.2
  all_goals first | exact .none | cases h

theorem isBareCount_eq (query : Query) :
    query.isBareCount = (query.operation == .clause .count && query.target?.isNone) := by
  cases query with
  | count property => cases property <;> rfl
  | _ => rfl

theorem isBareCount_eq_of_same (h : (a == b) = true) : a.isBareCount = b.isBareCount := by
  have htarget : a.target?.isNone = b.target?.isNone := by
    have hrel := target?_of_same h
    generalize a.target? = p, b.target? = q at hrel
    cases hrel <;> rfl
  rw [isBareCount_eq, isBareCount_eq, operation_eq_of_same h, htarget]

theorem outer_eq_cons (query : Query) :
    query.outer = query ::
      match query.operation with
      | .clause (.group _) => query.nodes.flatMap outer
      | _ => [] := by
  cases query <;> simp [outer, operation, nodes, outerAll_eq_flatMap]

theorem spineAll_eq_flatMap (queries : List Query) : spineAll queries = queries.flatMap spine := by
  induction queries with
  | nil => rfl
  | cons query rest ih => simp [spineAll, ih]

theorem spine_group_and (terms : List Query) : (group .and terms).spine = terms.flatMap spine := by
  rw [spine, spineAll_eq_flatMap]

theorem spine_eq (query : Query) :
    query.spine =
      match query.operation with
      | .clause (.group .and) => query.nodes.flatMap spine
      | _ => [query] := by
  cases query with
  | group joiner terms => cases joiner <;> simp [spine, operation, nodes, spineAll_eq_flatMap]
  | _ => rfl

theorem alike_preorder (h : (a == b) = true) : Alike a.preorder b.preorder := by
  induction a using nodes_induction generalizing b with
  | h a ih =>
    rw [preorder_eq_cons, preorder_eq_cons]
    exact .cons h (forall₂_flatMap (alike_nodes h) fun node hnode _ hsame ↦ ih node hnode hsame)

theorem alike_outer (h : (a == b) = true) : Alike a.outer b.outer := by
  induction a using nodes_induction generalizing b with
  | h a ih =>
    rw [outer_eq_cons a, outer_eq_cons b, operation_eq_of_same h]
    refine .cons h ?_
    split
    · exact forall₂_flatMap (alike_nodes h) fun node hnode _ hsame ↦ ih node hnode hsame
    · exact .nil

theorem alike_spine (h : (a == b) = true) : Alike a.spine b.spine := by
  induction a using nodes_induction generalizing b with
  | h a ih =>
    rw [spine_eq a, spine_eq b, operation_eq_of_same h]
    split
    · exact forall₂_flatMap (alike_nodes h) fun node hnode _ hsame ↦ ih node hnode hsame
    · exact .cons h .nil

theorem Alike.countP_eq {as bs : List Query} (h : Alike as bs) {P : Query → Bool}
    (hP : ∀ a b : Query, (a == b) = true → P a = P b) : as.countP P = bs.countP P := by
  induction h with
  | nil => rfl
  | cons hab _ ih => rw [List.countP_cons, List.countP_cons, hP _ _ hab, ih]

theorem Alike.filterMap_target? {as bs : List Query} (h : Alike as bs) :
    List.Forall₂ (fun p q ↦ (p == q) = true) (as.filterMap target?) (bs.filterMap target?) :=
  List.rel_filterMap (fun _ _ hab ↦ target?_of_same hab) h

end ResourceQuery.Query
