import ResourceQuery.Proofs.ShortestDecimal
import ResourceQuery.Query.Json

/-!
# Exact rounding

A fraction that is a number of the format is rounded to that number. Every `binary32` number is a
`binary64` number, so widening is exact, and it tells numbers apart.
-/

namespace ResourceQuery.FloatingPoint

variable {format : FloatFormat} {num den significand : ℕ} {exponent : ℤ}

theorem cast_twoTo (n : ℕ) : ((twoTo n : ℕ) : ℚ) = 2 ^ n := by simp

/-! ### Fractions that the format holds -/

/-- The fraction is the number `significand * 2 ^ exponent`. -/
structure IsFraction (num den significand : ℕ) (exponent : ℤ) : Prop where
  den_pos : 0 < den
  eq : (num : ℚ) = significand * 2 ^ exponent * den

theorem IsFraction.scaled (h : IsFraction num den significand exponent) (guess : ℤ) :
    IsFraction (FloatingPoint.scaled num den guess).1 (FloatingPoint.scaled num den guess).2
      significand (exponent - guess) := by
  have hsub : (2 : ℚ) ^ exponent = 2 ^ (exponent - guess) * 2 ^ guess := by
    rw [← zpow_add₀ (by decide), sub_add_cancel]
  unfold FloatingPoint.scaled
  split
  · next hguess =>
    obtain ⟨n, rfl⟩ := Int.eq_ofNat_of_zero_le hguess
    refine ⟨Nat.mul_pos h.den_pos (Nat.pow_pos (by decide)), ?_⟩
    rw [h.eq, hsub, zpow_natCast, Int.toNat_natCast, Nat.cast_mul, cast_twoTo]
    ring
  · next hguess =>
    obtain ⟨n, rfl⟩ := Int.exists_eq_neg_ofNat (not_le.mp hguess).le
    refine ⟨h.den_pos, ?_⟩
    rw [Nat.cast_mul, h.eq, hsub, zpow_neg, zpow_natCast, neg_neg, Int.toNat_natCast, cast_twoTo]
    field_simp

theorem IsFraction.eq_mul (h : IsFraction num den significand 0) : num = significand * den := by
  have heq := h.eq
  rw [zpow_zero, mul_one] at heq
  exact_mod_cast heq

theorem IsFraction.rounded (h : IsFraction num den significand 0) :
    roundHalfEven num den = significand := by
  rw [h.eq_mul, roundHalfEven, Nat.mul_div_cancel _ h.den_pos, Nat.mul_mod_left]
  simp [h.den_pos.ne]

theorem zpow_log2_le {n : ℕ} (h : 0 < n) : (2 : ℚ) ^ (n.log2 : ℤ) ≤ n := by
  rw [zpow_natCast]
  exact_mod_cast Nat.log2_self_le h.ne'

theorem lt_zpow_log2 (n : ℕ) : (n : ℚ) < 2 ^ (n.log2 + 1 : ℤ) := by
  have hlt : n < 2 ^ (n.log2 + 1) := Nat.lt_log2_self
  rw [← Nat.cast_succ, zpow_natCast]
  exact_mod_cast hlt

/-- How many bits the whole part has is known up to one from the bits of both parts. -/
theorem IsFraction.log2_bounds (h : IsFraction num den significand exponent)
    (hsignificand : 0 < significand) :
    significand.log2 + exponent ≤ (num.log2 : ℤ) - den.log2 ∧
      (num.log2 : ℤ) - den.log2 ≤ significand.log2 + exponent + 1 := by
  have hden := h.den_pos
  have hnum : 0 < num := by
    rw [← Nat.cast_pos (α := ℚ), h.eq]
    positivity
  have hlow : (2 : ℚ) ^ (significand.log2 + exponent + den.log2 : ℤ) < 2 ^ (num.log2 + 1 : ℤ) :=
    calc (2 : ℚ) ^ (significand.log2 + exponent + den.log2 : ℤ)
        = 2 ^ (significand.log2 : ℤ) * 2 ^ exponent * 2 ^ (den.log2 : ℤ) := by
          rw [zpow_add₀ (by decide), zpow_add₀ (by decide)]
      _ ≤ significand * 2 ^ exponent * den := by
        gcongr
        · exact zpow_log2_le hsignificand
        · exact zpow_log2_le hden
      _ = num := h.eq.symm
      _ < 2 ^ (num.log2 + 1 : ℤ) := lt_zpow_log2 num
  have hhigh : (2 : ℚ) ^ (num.log2 : ℤ) <
      2 ^ (significand.log2 + 1 + exponent + (den.log2 + 1) : ℤ) :=
    calc (2 : ℚ) ^ (num.log2 : ℤ) ≤ num := zpow_log2_le hnum
      _ = significand * 2 ^ exponent * den := h.eq
      _ < 2 ^ (significand.log2 + 1 : ℤ) * 2 ^ exponent * 2 ^ (den.log2 + 1 : ℤ) := by
        gcongr
        · exact lt_zpow_log2 significand
        · exact lt_zpow_log2 den
      _ = 2 ^ (significand.log2 + 1 + exponent + (den.log2 + 1) : ℤ) := by
        rw [← zpow_add₀ (by decide), ← zpow_add₀ (by decide)]
  rw [zpow_lt_zpow_iff_right₀ (by norm_num)] at hlow hhigh
  omega

/-- The exponent of a number of the format is found. -/
theorem IsFraction.exponentFor_eq (h : IsFraction num den significand exponent)
    (hsignificand : 0 < significand) (hcanonical : format.Canonical significand exponent) :
    exponentFor format num den = exponent := by
  obtain ⟨hfits, hlowest, -, hfull⟩ := hcanonical
  obtain ⟨hlow, hhigh⟩ := h.log2_bounds hsignificand
  have hbits : significand.log2 < format.precision := (Nat.log2_lt hsignificand.ne').mpr hfits
  have hfor (guess : ℤ)
      (hguess : max format.lowest ((num.log2 : ℤ) - den.log2 - format.precision) = guess) :
      exponentFor format num den =
        if (FloatingPoint.scaled num den guess).1 <
          (FloatingPoint.scaled num den guess).2 * twoTo format.precision
        then guess else guess + 1 := by
    subst hguess
    rfl
  -- The guess is right, or one too low for a significand that fills the format.
  have hguess : max format.lowest ((num.log2 : ℤ) - den.log2 - format.precision) = exponent ∨
      max format.lowest ((num.log2 : ℤ) - den.log2 - format.precision) = exponent - 1 ∧
        twoTo (format.precision - 1) ≤ significand := by
    obtain hfull | hfull := hfull
    · have hlog : format.precision - 1 ≤ significand.log2 :=
        (Nat.le_log2 hsignificand.ne').mpr hfull
      omega
    · omega
  obtain hguess | ⟨hguess, hfull⟩ := hguess
  · have hscaled := h.scaled exponent
    rw [sub_self] at hscaled
    rw [hfor exponent hguess, hscaled.eq_mul, Nat.mul_comm]
    exact if_pos (Nat.mul_lt_mul_of_pos_left hfits hscaled.den_pos)
  · have hscaled := h.scaled (exponent - 1)
    have htop : (FloatingPoint.scaled num den (exponent - 1)).1 =
        significand * 2 * (FloatingPoint.scaled num den (exponent - 1)).2 := by
      have heq := hscaled.eq
      rw [sub_sub_cancel, zpow_one] at heq
      exact_mod_cast heq
    have hdouble : twoTo format.precision ≤ significand * 2 := by
      obtain ⟨n, hn⟩ := Nat.exists_eq_succ_of_ne_zero (Nat.ne_zero_of_lt hbits)
      rw [hn, Nat.succ_sub_one] at hfull
      rw [hn, twoTo_succ]
      omega
    rw [hfor (exponent - 1) hguess, htop, Nat.mul_comm, if_neg, sub_add_cancel]
    exact not_lt.mpr (Nat.mul_le_mul_left _ hdouble)

/-- A number of the format is nearest to itself. -/
theorem IsFraction.nearest_eq (h : IsFraction num den significand exponent)
    (hsignificand : 0 < significand) (hcanonical : format.Canonical significand exponent) :
    nearest format num den = (significand, exponent) := by
  have hscaled := h.scaled exponent
  rw [sub_self] at hscaled
  have hnum : num ≠ 0 := by
    rintro rfl
    have hzero := h.eq
    have hden : (den : ℚ) ≠ 0 := by exact_mod_cast h.den_pos.ne'
    rw [Nat.cast_zero, eq_comm, mul_eq_zero, or_iff_left hden, mul_eq_zero] at hzero
    exact hzero.elim (by exact_mod_cast hsignificand.ne') (zpow_ne_zero exponent (by decide))
  rw [nearest, if_neg hnum]
  dsimp only
  rw [h.exponentFor_eq hsignificand hcanonical]
  change (if roundHalfEven _ _ = _ then _ else (roundHalfEven _ _, _)) = _
  rw [hscaled.rounded, if_neg hcanonical.1.ne]

/-! ### Widened numbers -/

/-- The significand of a `binary32` number, shifted until it fills `binary64`. -/
theorem canonical_widened {significand : ℕ} {exponent : ℤ} (hpositive : 0 < significand)
    (h : FloatFormat.binary32.Canonical significand exponent) :
    FloatFormat.binary64.Canonical (significand * twoTo (52 - significand.log2))
      (exponent + significand.log2 - 52) := by
  obtain ⟨hfits, hlowest, hhighest, -⟩ := h
  have hbits : significand.log2 < 24 := (Nat.log2_lt hpositive.ne').mpr hfits
  change -149 ≤ exponent at hlowest
  change exponent ≤ 104 at hhighest
  have hlow : twoTo significand.log2 ≤ significand := Nat.log2_self_le hpositive.ne'
  have hhigh : significand < twoTo (significand.log2 + 1) := Nat.lt_log2_self
  have hpow (n : ℕ) (hn : n ≤ 52) : twoTo n * twoTo (52 - n) = twoTo 52 := by
    calc twoTo n * twoTo (52 - n) = 2 ^ (n + (52 - n)) := (pow_add 2 n (52 - n)).symm
      _ = 2 ^ 52 := by rw [Nat.add_sub_cancel' hn]
  have hpow' := hpow significand.log2 (by omega)
  refine ⟨?_, ?_, ?_, .inl ?_⟩
  · calc significand * twoTo (52 - significand.log2)
        < twoTo (significand.log2 + 1) * twoTo (52 - significand.log2) :=
          Nat.mul_lt_mul_of_pos_right hhigh (Nat.pow_pos (by decide))
      _ = twoTo 53 := by rw [twoTo_succ, Nat.mul_right_comm, hpow', ← twoTo_succ]
  · change -1074 ≤ _
    omega
  · change _ ≤ (971 : ℤ)
    omega
  · calc twoTo 52 = twoTo significand.log2 * twoTo (52 - significand.log2) := hpow'.symm
      _ ≤ significand * twoTo (52 - significand.log2) := Nat.mul_le_mul_right _ hlow

theorem magnitude_of_isZero {x : FloatingPoint format} (h : x.significand = 0) :
    x.magnitude = 0 := by
  rw [magnitude, h, Nat.cast_zero, zero_mul]

/-- Widening never fails and keeps the number. -/
theorem exists_widen (x : FloatingPoint .binary32) :
    ∃ y : FloatingPoint .binary64, x.widen = some y ∧ y.negative = x.negative ∧
      y.magnitude = x.magnitude := by
  obtain hzero | hpositive := Nat.eq_zero_or_pos x.significand
  · have hcanonical : FloatFormat.binary64.Canonical 0 FloatFormat.binary64.lowest := by decide
    refine ⟨⟨x.negative, 0, _, hcanonical⟩, ?_, rfl, ?_⟩
    · rw [widen, ofRatio?, hzero, Nat.zero_mul]
      exact dif_pos hcanonical
    · rw [magnitude_of_isZero rfl, magnitude_of_isZero hzero]
  · have hcanonical := canonical_widened hpositive x.canonical
    have hbits : x.significand.log2 < 24 := (Nat.log2_lt hpositive.ne').mpr x.canonical.1
    have hmagnitude : (x.significand * twoTo (52 - x.significand.log2) : ℕ) *
        (2 : ℚ) ^ (x.exponent + x.significand.log2 - 52) = x.magnitude := by
      rw [Nat.cast_mul, cast_twoTo, ← zpow_natCast, mul_assoc, ← zpow_add₀ (by decide), magnitude]
      congr 2
      omega
    have hfraction : IsFraction (x.significand * twoTo x.exponent.toNat)
        (twoTo (-x.exponent).toNat) (x.significand * twoTo (52 - x.significand.log2))
        (x.exponent + x.significand.log2 - 52) := by
      refine ⟨Nat.pow_pos (by decide), ?_⟩
      rw [hmagnitude, magnitude, Nat.cast_mul, cast_twoTo, cast_twoTo, mul_assoc,
        zpow_toNat 2 (by decide)]
    refine ⟨⟨x.negative, _, _, hcanonical⟩, ?_, rfl, hmagnitude⟩
    have hshifted : 0 < x.significand * twoTo (52 - x.significand.log2) :=
      Nat.mul_pos hpositive (Nat.pow_pos (by decide))
    rw [widen, ofRatio?, hfraction.nearest_eq hshifted hcanonical]
    exact dif_pos hcanonical

end ResourceQuery.FloatingPoint
