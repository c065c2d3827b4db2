import ResourceQuery.Proofs.DistinctTexts
import ResourceQuery.Proofs.ReadValues
import ResourceQuery.Query.Json

/-!
# Values as JSON

Documents are equal whatever the order of the members in their objects, and the two zeros of a
floating-point number are equal. Values whose documents are equal are of one type and equal: the
type is named, and among the values of one type the content tells them apart.
-/

namespace ResourceQuery

/-! ### Equal documents -/

namespace Json

/-- The texts of the floating-point zeros. -/
def zeros : List String := ["0.0", "-0.0"]

/-- The texts are those of equal numbers. A number without a point is a whole number, which is not
equal to one with a point. -/
def sameNumber (s t : String) : Bool :=
  s == t || (zeros.contains s && zeros.contains t)

mutual

def same : Json → Json → Bool
  | null, null => true
  | bool a, bool b => a == b
  | number s, number t => sameNumber s t
  | string s, string t => s == t
  | array items, array others => sameItems items others
  | object members, object others => members.length == others.length && within members others
  | _, _ => false

def sameItems : List Json → List Json → Bool
  | [], [] => true
  | item :: rest, other :: others => same item other && sameItems rest others
  | _, _ => false

/-- Every member has an equal one of its name. -/
def within : List (String × Json) → List (String × Json) → Bool
  | [], _ => true
  | (name, item) :: rest, others => (others.lookup name).any (same item) && within rest others

end

instance : BEq Json where
  beq := same

variable {s t : String} {α β : Type}

theorem string_beq_iff : (string s == string t) = true ↔ s = t := by
  change (s == t) = true ↔ _
  exact beq_iff_eq

theorem array_map_beq_iff {f : α → Json} {g : β → Json} {as : List α} {bs : List β} :
    (array (as.map f) == array (bs.map g)) = true ↔
      List.Forall₂ (fun a b ↦ (f a == g b) = true) as bs := by
  change sameItems (as.map f) (bs.map g) = true ↔ _
  induction as generalizing bs with
  | nil => cases bs <;> simp [sameItems]
  | cons a as ih =>
    cases bs with
    | nil => simp [sameItems]
    | cons b bs =>
      rw [List.map_cons, List.map_cons, sameItems, Bool.and_eq_true, ih]
      exact (List.forall₂_cons (R := fun a b ↦ (f a == g b) = true)).symm

theorem number_beq_iff : (number s == number t) = true ↔ s = t ∨ s ∈ zeros ∧ t ∈ zeros := by
  change sameNumber s t = true ↔ _
  simp [sameNumber]

/-- Whole numbers are told apart by their texts. -/
theorem eq_of_number_beq (hpoint : '.' ∉ s.toList) (h : (number s == number t) = true) : s = t := by
  refine (number_beq_iff.mp h).resolve_right fun hzeros ↦ hpoint ?_
  have hall : ∀ text ∈ zeros, '.' ∈ text.toList := by decide
  exact hall s hzeros.1

/-- Equal objects have as many members, -/
theorem length_eq_of_object_beq {members others : List (String × Json)}
    (h : (object members == object others) = true) : members.length = others.length :=
  eq_of_beq (Bool.and_eq_true_iff.mp h).1

theorem beq_of_within {members others : List (String × Json)} {name : String} {item other : Json}
    (h : within members others = true) (hitem : members.lookup name = some item)
    (hother : others.lookup name = some other) : (item == other) = true := by
  induction members with
  | nil => cases hitem
  | cons member rest ih =>
    obtain ⟨found, held⟩ := member
    rw [within, Bool.and_eq_true] at h
    rw [List.lookup_cons] at hitem
    split at hitem
    · next heq =>
      obtain rfl := eq_of_beq heq
      obtain rfl := Option.some.inj hitem
      rw [hother] at h
      exact h.1
    · exact ih h.2 hitem

/-- and those of one name are equal. -/
theorem member_beq {members others : List (String × Json)} (name : String) {item other : Json}
    (h : (object members == object others) = true) (hitem : members.lookup name = some item)
    (hother : others.lookup name = some other) : (item == other) = true :=
  beq_of_within (Bool.and_eq_true_iff.mp h).2 hitem hother

end Json

/-- There is no point in a whole number. -/
theorem Text.not_mem_decimalInt (n : Int) : '.' ∉ decimalInt n := by
  have hdigits := not_mem_decimal (c := '.') (by decide) n.natAbs
  unfold decimalInt
  split
  · exact List.not_mem_cons_of_ne_of_not_mem (by decide) hdigits
  · exact hdigits

/-! ### Floating-point numbers -/

namespace FloatingPoint

open Json

variable {x y : FloatingPoint .binary64}

/-- The zero of a sign. -/
def zero (negative : Bool) : FloatingPoint .binary64 :=
  ⟨negative, 0, FloatFormat.binary64.lowest, by decide⟩

theorem zeros_eq : zeros = [false, true].map fun negative ↦
    String.ofList (zero negative).scientific := by
  cbv

theorem isZero_of_mem_zeros (h : String.ofList x.scientific ∈ zeros) : x.isZero = true := by
  rw [zeros_eq] at h
  obtain ⟨negative, -, htext⟩ := List.mem_map.mp h
  rw [← scientific_injective (String.ofList_injective htext)]
  rfl

theorem beq_of_json (h : (json (some x) == json (some y)) = true) : (x == y) = true := by
  rw [beq_iff]
  obtain htext | ⟨hx, hy⟩ := number_beq_iff.mp h
  · exact .inr (scientific_injective (String.ofList_injective htext))
  · exact .inl ⟨isZero_of_mem_zeros hx, isZero_of_mem_zeros hy⟩

theorem isZero_of_magnitude_eq_zero {format : FloatFormat} {x : FloatingPoint format}
    (h : x.magnitude = 0) : x.isZero = true := by
  rw [magnitude, mul_eq_zero] at h
  have hsignificand := h.resolve_right (zpow_ne_zero _ (by decide))
  exact beq_iff_eq.mpr (Nat.cast_eq_zero.mp hsignificand)

theorem beq_of_json_widen {x y : FloatingPoint .binary32}
    (h : (json x.widen == json y.widen) = true) : (x == y) = true := by
  obtain ⟨wide, hwide, -, hmagnitude⟩ := exists_widen x
  obtain ⟨wide', hwide', -, hmagnitude'⟩ := exists_widen y
  rw [hwide, hwide'] at h
  obtain ⟨hzero, hzero'⟩ | heq := (beq_iff _ _).mp (beq_of_json h)
  · have hx : x.magnitude = 0 := by rw [← hmagnitude, magnitude_of_isZero (eq_of_beq hzero)]
    have hy : y.magnitude = 0 := by rw [← hmagnitude', magnitude_of_isZero (eq_of_beq hzero')]
    exact (beq_iff _ _).mpr
      (.inl ⟨isZero_of_magnitude_eq_zero hx, isZero_of_magnitude_eq_zero hy⟩)
  · exact (beq_iff _ _).mpr (.inr (widen_inj (by rw [hwide, hwide', heq])))

end FloatingPoint

/-! ### Values of one type -/

namespace Value

/-- Two values of one type. -/
inductive OfOneType : Value → Value → Prop
  | null : OfOneType null null
  | bool (a b : Bool) : OfOneType (bool a) (bool b)
  | char (c d : Char) : OfOneType (char c) (char d)
  | string (a b : String) : OfOneType (string a) (string b)
  | integer {m n : SizedInteger} (h : m.type = n.type) : OfOneType (integer m) (integer n)
  | float (x y : FloatingPoint .binary32) : OfOneType (float x) (float y)
  | double (x y : FloatingPoint .binary64) : OfOneType (double x) (double y)
  | decimal (x y : ScaledDecimal) : OfOneType (decimal x) (decimal y)
  | moment (a b : Moment) : OfOneType (moment a) (moment b)
  | span (a b : TimeSpan) : OfOneType (span a) (span b)
  | guid (a b : Guid) : OfOneType (guid a) (guid b)
  | binary (a b : List UInt8) : OfOneType (binary a) (binary b)
  | uri (a b : String) : OfOneType (uri a) (uri b)

theorem integerTypeName_injective : Function.Injective IntegerType.name := by
  intro a b h
  cases a <;> cases b <;> simp_all [IntegerType.name]

theorem integerTypeName_mem (type : IntegerType) : type.name ∈
    ["int8", "int16", "int32", "int64", "uint8", "uint16", "uint32", "uint64"] := by
  cases type <;> decide

theorem ofOneType_of_typeName {v w : Value} (h : v.typeName = w.typeName) : OfOneType v w := by
  cases v with
  | integer m =>
    have hmem := integerTypeName_mem m.type
    rw [show m.type.name = w.typeName from h] at hmem
    cases w with
    | integer n => exact .integer (integerTypeName_injective h)
    | _ => simp [typeName] at hmem
  | _ =>
    cases w with
    | integer n =>
      have hmem := integerTypeName_mem n.type
      rw [show n.type.name = _ from h.symm] at hmem
      simp [typeName] at hmem
    | _ => first | constructor | simp [typeName] at h

/-- Only moments of UTC have a mark in front. -/
theorem anchor_eq_utc_iff (m : Moment) :
    m.anchor = .utc ↔ ∃ rest, (moment m).printChars = 'u' :: rest := by
  rw [printChars]
  cases m.anchor with
  | utc => exact iff_of_true rfl ⟨_, rfl⟩
  | «local» =>
    refine iff_of_false (by simp) ?_
    rintro ⟨rest, htext⟩
    exact Moment.print_ne_cons (by decide) (by decide) m rest htext

theorem moment_eq_of_printChars {localOffset : UtcOffset} {a b : Moment}
    (ha : a.IsShown localOffset) (hb : b.IsShown localOffset)
    (h : (moment a).printChars = (moment b).printChars) : a = b := by
  have hanchor : a.anchor = b.anchor := by
    have hutc : a.anchor = .utc ↔ b.anchor = .utc := by
      rw [anchor_eq_utc_iff, anchor_eq_utc_iff, h]
    cases hfirst : a.anchor <;> cases hsecond : b.anchor <;> simp_all
  have hoffset : a.offset = b.offset := by rw [ha.offset_eq, hb.offset_eq, hanchor]
  rw [printChars, printChars, hanchor] at h
  exact Moment.eq_of_print hanchor hoffset ha.nanos_lt hb.nanos_lt (List.append_cancel_left h)

theorem beq_of_content {localOffset : UtcOffset} {v w : Value} (hv : v.IsShown localOffset)
    (hw : w.IsShown localOffset) (htype : OfOneType v w)
    (h : (v.content == w.content) = true) : (v == w) = true := by
  have hprint {a b : Value} (h : (Json.string a.print == Json.string b.print) = true) :
      a.printChars = b.printChars := String.ofList_injective (Json.string_beq_iff.mp h)
  cases htype with
  | null => rfl
  | bool a b =>
    obtain rfl := eq_of_beq (show (a == b) = true from h)
    exact BEq.rfl
  | char c d =>
    have htext := Json.string_beq_iff.mp h
    obtain rfl : c = d := by simpa [← String.toList_inj] using htext
    exact BEq.rfl
  | string a b | uri a b =>
    obtain rfl := Json.string_beq_iff.mp h
    exact BEq.rfl
  | @integer m n htype =>
    have htext := Json.eq_of_number_beq (by simpa using Text.not_mem_decimalInt _) h
    have hvalue := Text.decimalInt_injective (String.ofList_injective htext)
    cases m
    cases n
    obtain rfl := htype
    obtain rfl := hvalue
    exact BEq.rfl
  | float x y => exact FloatingPoint.beq_of_json_widen h
  | double x y => exact FloatingPoint.beq_of_json h
  | decimal x y =>
    rw [ScaledDecimal.print_injective (List.append_cancel_right (hprint h))]
    exact BEq.rfl
  | moment a b =>
    rw [moment_eq_of_printChars (hv a rfl) (hw b rfl) (hprint h)]
    exact BEq.rfl
  | span a b =>
    rw [TimeSpan.print_injective (hprint h)]
    exact BEq.rfl
  | guid a b =>
    rw [Guid.print_injective (String.ofList_injective (Json.string_beq_iff.mp h))]
    exact BEq.rfl
  | binary a b =>
    rw [Base64.encode_injective (List.append_cancel_left (hprint h))]
    exact BEq.rfl

/-- Values whose documents are equal are of one type and equal. -/
theorem beq_of_json {localOffset : UtcOffset} {v w : Value} (hv : v.IsShown localOffset)
    (hw : w.IsShown localOffset) (h : (v.json == w.json) = true) :
    v.typeName = w.typeName ∧ (v == w) = true := by
  have htype := Json.string_beq_iff.mp (Json.member_beq "type" h rfl rfl)
  have hcontent : (v.content == w.content) = true := Json.member_beq "value" h rfl rfl
  exact ⟨htype, beq_of_content hv hw (ofOneType_of_typeName htype) hcontent⟩

end Value

end ResourceQuery
