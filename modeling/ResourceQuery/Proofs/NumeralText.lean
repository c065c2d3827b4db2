import ResourceQuery.Proofs.MomentText
import ResourceQuery.Proofs.Widening

/-!
# Numbers and their texts

A printed number is told from every other one of its type by its text. Integers and decimals give
their digits away, and a decimal its scale too. The layouts of a floating-point number are read as
the rational number of its shortest decimal, which has a single magnitude.
-/

namespace ResourceQuery

namespace Text

variable {inClass : Char → Bool} {a b s t : List Char}

/-! ### Fields of a text -/

theorem bars_cons {c : Char} (h : inClass c = false) (rest : List Char) :
    Bars inClass (c :: rest) :=
  h

/-- A sign in front of a text without one is seen from the text. -/
theorem sign_append_inj {p q : Prop} [Decidable p] [Decidable q] (hs : s.head? ≠ some '-')
    (ht : t.head? ≠ some '-')
    (h : (if p then ['-'] else []) ++ s = (if q then ['-'] else []) ++ t) :
    (p ↔ q) ∧ s = t := by
  by_cases hp : p <;> by_cases hq : q <;> simp only [hp, hq, if_true, if_false] at h
  · exact ⟨iff_of_true hp hq, (List.cons.inj h).2⟩
  · exact absurd (by rw [← List.nil_append t, ← h]; rfl) ht
  · exact absurd (by rw [← List.nil_append s, h]; rfl) hs
  · exact ⟨iff_of_false hp hq, h⟩

theorem head?_ne_minus (h : ∀ c ∈ s, isDigit c = true) (rest : List Char) (hne : s ≠ []) :
    (s ++ rest).head? ≠ some '-' := by
  obtain ⟨c, body, rfl⟩ := List.exists_cons_of_ne_nil hne
  rintro ⟨⟩
  exact absurd (h '-' List.mem_cons_self) (by decide)

theorem decimal_injective : Function.Injective decimal := by
  intro m n h
  rw [← ofDigits_decimal m, h, ofDigits_decimal]

theorem decimalPadded_injective (width : Nat) : Function.Injective (decimalPadded width) := by
  intro m n h
  rw [← ofDigits_decimalPadded width m, h, ofDigits_decimalPadded]

theorem eq_of_natAbs {m n : Int} (habs : m.natAbs = n.natAbs) (hsign : m < 0 ↔ n < 0) : m = n := by
  omega

theorem decimalInt_injective : Function.Injective decimalInt := by
  intro m n h
  have hform (n : Int) : decimalInt n = (if n < 0 then ['-'] else []) ++ decimal n.natAbs := by
    unfold decimalInt
    split <;> rfl
  have hhead (n : Int) : (decimal n.natAbs).head? ≠ some '-' := by
    rw [← List.append_nil (decimal n.natAbs)]
    exact head?_ne_minus (isDigit_of_mem_decimal _) [] (decimal_ne_nil _)
  rw [hform, hform] at h
  obtain ⟨hsign, hdigits⟩ := sign_append_inj (hhead m) (hhead n) h
  exact eq_of_natAbs (decimal_injective hdigits) hsign

/-! ### Places after the point -/

theorem length_decimalPadded_ge (width n : Nat) : width ≤ (decimalPadded width n).length := by
  rw [decimalPadded, padStart, List.length_append, List.length_replicate]
  omega

/-- The digits on both sides of the point. -/
theorem exists_decimalPlaces {places : Nat} (hplaces : 0 < places) (n : Nat) :
    ∃ whole fraction, decimalPlaces places n = whole ++ '.' :: fraction ∧
      whole ++ fraction = decimalPadded (places + 1) n ∧ fraction.length = places := by
  have hlength := length_decimalPadded_ge (places + 1) n
  refine ⟨_, _, if_neg hplaces.ne', List.take_append_drop _ _, ?_⟩
  rw [List.length_drop]
  omega

theorem isDigit_of_decimalPlaces {places n : Nat} {whole fraction : List Char}
    (h : whole ++ fraction = decimalPadded (places + 1) n) : ∀ c ∈ whole, isDigit c = true :=
  fun c hc ↦ isDigit_of_mem_decimalPadded (places + 1) n c (h ▸ List.mem_append_left fraction hc)

theorem point_not_mem_decimalPlaces {n : Nat} : '.' ∉ decimalPlaces 0 n := by
  intro hmem
  have hdigit := isDigit_of_mem_decimalPadded 1 n '.' hmem
  cases hdigit

theorem head?_decimalPlaces (places n : Nat) : (decimalPlaces places n).head? ≠ some '-' := by
  obtain rfl | hplaces := Nat.eq_zero_or_pos places
  · rw [← List.append_nil (decimalPlaces 0 n)]
    exact head?_ne_minus (isDigit_of_mem_decimalPadded 1 n) [] (decimalPadded_ne_nil 1 n)
  · obtain ⟨whole, fraction, htext, hdigits, hlength⟩ := exists_decimalPlaces hplaces n
    have hne : whole ≠ [] := by
      rintro rfl
      have hle := length_decimalPadded_ge (places + 1) n
      rw [← hdigits, List.nil_append, hlength] at hle
      omega
    rw [htext]
    exact head?_ne_minus (isDigit_of_decimalPlaces hdigits) _ hne

theorem decimalPlaces_inj {places other m n : Nat}
    (h : decimalPlaces places m = decimalPlaces other n) : places = other ∧ m = n := by
  have hpoint (k n : Nat) (hk : 0 < k) : '.' ∈ decimalPlaces k n := by
    obtain ⟨whole, fraction, htext, -, -⟩ := exists_decimalPlaces hk n
    rw [htext]
    exact List.mem_append_right whole List.mem_cons_self
  obtain rfl | hplaces := Nat.eq_zero_or_pos places
  · obtain rfl | hother := Nat.eq_zero_or_pos other
    · exact ⟨rfl, decimalPadded_injective 1 h⟩
    · exact absurd (h ▸ hpoint other n hother) point_not_mem_decimalPlaces
  · obtain rfl | hother := Nat.eq_zero_or_pos other
    · exact absurd (h ▸ hpoint places m hplaces) point_not_mem_decimalPlaces
    · obtain ⟨whole, fraction, htext, hdigits, hlength⟩ := exists_decimalPlaces hplaces m
      obtain ⟨whole', fraction', htext', hdigits', hlength'⟩ := exists_decimalPlaces hother n
      rw [htext, htext'] at h
      obtain ⟨rfl, hfraction⟩ := append_inj_of_bars (isDigit_of_decimalPlaces hdigits)
        (isDigit_of_decimalPlaces hdigits') (bars_cons rfl _) (bars_cons rfl _) h
      obtain ⟨-, rfl⟩ := List.cons.inj hfraction
      obtain rfl : places = other := hlength.symm.trans hlength'
      exact ⟨rfl, decimalPadded_injective _ (hdigits.symm.trans hdigits')⟩

end Text

theorem ScaledDecimal.print_injective : Function.Injective ScaledDecimal.print := by
  intro x y h
  obtain ⟨hsign, hplaces⟩ := Text.sign_append_inj (Text.head?_decimalPlaces _ _)
    (Text.head?_decimalPlaces _ _) h
  obtain ⟨hscale, habs⟩ := Text.decimalPlaces_inj hplaces
  cases x
  cases y
  obtain rfl := Text.eq_of_natAbs habs hsign
  obtain rfl := hscale
  rfl

/-! ### Numerals with an exponent -/

namespace Text

variable {a s : List Char}

/-- The number of digits with or without a point. -/
def fixedValue (text : List Char) : ℚ :=
  let whole := text.takeWhile (· != '.')
  let fraction := text.drop (whole.length + 1)
  ofDigits (whole ++ fraction) * 10 ^ (-(fraction.length : ℤ))

/-- The number of a sign and digits, both of which may be missing. -/
def exponentValue : List Char → ℤ
  | '-' :: digits => -ofDigits digits
  | '+' :: digits => ofDigits digits
  | digits => ofDigits digits

/-- The number that a numeral without a sign stands for, with or without an exponent. -/
def numeralValue (text : List Char) : ℚ :=
  let front := text.takeWhile (· != 'e')
  fixedValue front * 10 ^ exponentValue (text.drop (front.length + 1))

theorem takeWhile_ne_eq_self {c : Char} (h : c ∉ a) : a.takeWhile (· != c) = a :=
  List.takeWhile_eq_self_iff.mpr fun d hd ↦ by simpa using ne_of_mem_of_not_mem hd h

theorem takeWhile_ne_append {c : Char} (h : c ∉ a) (rest : List Char) :
    (a ++ c :: rest).takeWhile (· != c) = a := by
  rw [takeWhile_append_of_bars a (bars_cons (by simp) rest), takeWhile_ne_eq_self h]

theorem drop_length_succ (c : Char) : (a ++ c :: s).drop (a.length + 1) = s := by
  rw [← List.drop_drop, List.drop_left, List.drop_one, List.tail_cons]

theorem fixedValue_point (h : '.' ∉ a) (fraction : List Char) :
    fixedValue (a ++ '.' :: fraction) =
      ofDigits (a ++ fraction) * 10 ^ (-(fraction.length : ℤ)) := by
  rw [fixedValue, takeWhile_ne_append h, drop_length_succ]

theorem fixedValue_whole (h : '.' ∉ a) : fixedValue a = ofDigits a := by
  rw [fixedValue, takeWhile_ne_eq_self h, List.drop_eq_nil_of_le (Nat.le_succ _)]
  simp

theorem numeralValue_exponent (h : 'e' ∉ a) (exponent : List Char) :
    numeralValue (a ++ 'e' :: exponent) = fixedValue a * 10 ^ exponentValue exponent := by
  rw [numeralValue, takeWhile_ne_append h, drop_length_succ]

theorem numeralValue_plain (h : 'e' ∉ a) : numeralValue a = fixedValue a := by
  rw [numeralValue, takeWhile_ne_eq_self h, List.drop_eq_nil_of_le (Nat.le_succ _)]
  simp [exponentValue, ofDigits]

/-- No digits hold the character. -/
theorem not_mem_of_isDigit {c : Char} (hc : isDigit c = false) (h : ∀ d ∈ a, isDigit d = true) :
    c ∉ a := fun hmem ↦ by
  rw [h c hmem] at hc
  cases hc

theorem not_mem_decimal {c : Char} (hc : isDigit c = false) (n : Nat) : c ∉ decimal n :=
  not_mem_of_isDigit hc (isDigit_of_mem_decimal n)

/-- A number of digits shifted behind the point. -/
theorem numeralValue_decimalPlaces {places : Nat} (hplaces : 0 < places) (n : Nat) :
    numeralValue (decimalPlaces places n) = n * 10 ^ (-(places : ℤ)) := by
  obtain ⟨whole, fraction, htext, hdigits, hlength⟩ := exists_decimalPlaces hplaces n
  have hwhole := isDigit_of_decimalPlaces hdigits
  have hfraction : ∀ c ∈ fraction, isDigit c = true := fun c hc ↦
    isDigit_of_mem_decimalPadded (places + 1) n c (hdigits ▸ List.mem_append_right whole hc)
  have hletter : isDigit 'e' = false := by decide
  have hplain : 'e' ∉ whole ++ '.' :: fraction := by
    simp [not_mem_of_isDigit hletter hwhole, not_mem_of_isDigit hletter hfraction]
  rw [htext, numeralValue_plain hplain, fixedValue_point (not_mem_of_isDigit rfl hwhole), hdigits,
    ofDigits_decimalPadded, hlength]

/-- A whole number with a zero behind the point. -/
theorem numeralValue_whole (n : Nat) : numeralValue (decimal n ++ ['.', '0']) = n := by
  have hletter : isDigit 'e' = false := by decide
  have hplain : 'e' ∉ decimal n ++ ['.', '0'] := by simp [not_mem_decimal hletter n]
  rw [numeralValue_plain hplain, fixedValue_point (not_mem_decimal rfl n),
    ofDigits_append_singleton, ofDigits_decimal]
  have hzero : digitValue '0' = 0 := rfl
  rw [hzero, add_zero, List.length_singleton, Nat.cast_mul, Nat.cast_one, zpow_neg_one,
    mul_comm, ← mul_assoc]
  norm_num

/-- The digits of a number, with a point behind the first of them if there are more. -/
def pointed (digits : List Char) : List Char :=
  digits.take 1 ++ if digits.length = 1 then [] else '.' :: digits.drop 1

theorem not_mem_pointed {digits : List Char} (h : ∀ c ∈ digits, isDigit c = true) :
    'e' ∉ pointed digits := by
  have hletter : isDigit 'e' = false := by decide
  have hlead := not_mem_of_isDigit hletter fun c hc ↦ h c (List.mem_of_mem_take (i := 1) hc)
  have hrest := not_mem_of_isDigit hletter fun c hc ↦ h c (List.mem_of_mem_drop (i := 1) hc)
  unfold pointed
  split
  · simpa using hlead
  · simp only [List.mem_append, List.mem_cons, not_or]
    exact ⟨hlead, by decide, hrest⟩

theorem fixedValue_pointed {digits : List Char} (h : ∀ c ∈ digits, isDigit c = true)
    (hne : digits ≠ []) :
    fixedValue (pointed digits) = ofDigits digits * 10 ^ (1 - (digits.length : ℤ)) := by
  have hlead : '.' ∉ digits.take 1 :=
    not_mem_of_isDigit rfl fun c hc ↦ h c (List.mem_of_mem_take hc)
  have hpos := List.length_pos_of_ne_nil hne
  unfold pointed
  split
  · next hone =>
    rw [List.append_nil, fixedValue_whole hlead, List.take_of_length_le hone.le, hone]
    simp
  · rw [fixedValue_point hlead, List.take_append_drop, List.length_drop, Nat.cast_sub hpos,
      Nat.cast_one, neg_sub]

end Text

/-! ### Floating-point numbers -/

namespace FloatingPoint

variable {format : FloatFormat}

/-- How the digits of a decimal are laid out. -/
def layOut (digits : Nat) (exponent : Int) : List Char :=
  let text := Text.decimal digits
  let leading := exponent + text.length - 1
  if -5 ≤ leading && leading ≤ 15 then
    if 0 ≤ exponent then Text.decimal (digits * tenTo exponent.toNat) ++ ['.', '0']
    else Text.decimalPlaces (-exponent).toNat digits
  else
    text.take 1 ++ (if text.length = 1 then [] else '.' :: text.drop 1) ++
      (if leading < 0 then ['e', '-'] else ['e', '+']) ++ Text.decimal leading.natAbs

theorem scientific_eq (x : FloatingPoint format) :
    x.scientific = x.sign ++ layOut (x.shortest .even).1 (x.shortest .even).2 := rfl

theorem exponentValue_signed (n : Int) :
    Text.exponentValue ((if n < 0 then ['-'] else ['+']) ++ Text.decimal n.natAbs) = n := by
  split
  · change -(Text.ofDigits (Text.decimal n.natAbs) : Int) = n
    rw [Text.ofDigits_decimal]
    omega
  · change (Text.ofDigits (Text.decimal n.natAbs) : Int) = n
    rw [Text.ofDigits_decimal]
    omega

/-- The layout stands for the decimal. -/
theorem numeralValue_layOut (digits : Nat) (exponent : Int) :
    Text.numeralValue (layOut digits exponent) = digits * 10 ^ exponent := by
  unfold layOut
  dsimp only
  split
  · split
    · next hexponent =>
      obtain ⟨n, rfl⟩ := Int.eq_ofNat_of_zero_le hexponent
      rw [Text.numeralValue_whole]
      simp
    · next hexponent =>
      obtain ⟨n, rfl⟩ := Int.exists_eq_neg_ofNat (not_le.mp hexponent).le
      rw [neg_neg, Int.toNat_natCast, Text.numeralValue_decimalPlaces (by omega)]
  · have hdigits := Text.isDigit_of_mem_decimal digits
    have hpointed : 'e' ∉ Text.pointed (Text.decimal digits) := Text.not_mem_pointed hdigits
    generalize hleading : exponent + ((Text.decimal digits).length : ℤ) - 1 = leading at *
    have hmark : (if leading < 0 then ['e', '-'] else ['e', '+']) ++ Text.decimal leading.natAbs =
        'e' :: ((if leading < 0 then ['-'] else ['+']) ++ Text.decimal leading.natAbs) := by
      split <;> rfl
    rw [List.append_assoc, hmark]
    change Text.numeralValue (Text.pointed _ ++ _) = _
    rw [Text.numeralValue_exponent hpointed, exponentValue_signed,
      Text.fixedValue_pointed hdigits (Text.decimal_ne_nil digits), Text.ofDigits_decimal,
      mul_assoc, ← zpow_add₀ (by decide)]
    congr 2
    omega

theorem head?_layOut (digits : Nat) (exponent : Int) :
    (layOut digits exponent).head? ≠ some '-' := by
  unfold layOut
  dsimp only
  split
  · split
    · exact Text.head?_ne_minus (Text.isDigit_of_mem_decimal _) _ (Text.decimal_ne_nil _)
    · exact Text.head?_decimalPlaces _ _
  · rw [List.append_assoc, List.append_assoc]
    refine Text.head?_ne_minus
      (fun c hc ↦ Text.isDigit_of_mem_decimal digits c (List.mem_of_mem_take hc)) _ ?_
    simp [Text.decimal_ne_nil]

/-- The text of a `binary64` number is its own, the sign of a zero included. -/
theorem scientific_injective :
    Function.Injective (scientific : FloatingPoint .binary64 → List Char) := by
  intro x y h
  rw [scientific_eq, scientific_eq] at h
  obtain ⟨hnegative, hlayout⟩ := Text.sign_append_inj (head?_layOut _ _) (head?_layOut _ _) h
  have hvalue := congrArg Text.numeralValue hlayout
  rw [numeralValue_layOut, numeralValue_layOut] at hvalue
  obtain ⟨hsignificand, hexponent⟩ := eq_of_shortest hvalue
  cases x
  cases y
  obtain rfl := Bool.eq_iff_iff.mpr hnegative
  obtain rfl := hsignificand
  obtain rfl := hexponent
  rfl

/-- Widened numbers are the same number only if the numbers are. -/
theorem widen_inj {x y : FloatingPoint .binary32} (h : x.widen = y.widen) : x = y := by
  obtain ⟨wide, hwide, hnegative, hmagnitude⟩ := exists_widen x
  obtain ⟨wide', hwide', hnegative', hmagnitude'⟩ := exists_widen y
  rw [hwide, hwide'] at h
  obtain rfl := Option.some.inj h
  have hcovers : x.Covers y.magnitude := by
    rw [← hmagnitude', hmagnitude]
    exact x.covers_magnitude
  obtain ⟨hsignificand, hexponent⟩ := hcovers.eq (by decide) y.covers_magnitude
  cases x
  cases y
  obtain rfl := hnegative.symm.trans hnegative'
  obtain rfl := hsignificand
  obtain rfl := hexponent
  rfl

end FloatingPoint

end ResourceQuery
