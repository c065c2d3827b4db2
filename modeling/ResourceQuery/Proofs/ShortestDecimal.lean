import Mathlib
import ResourceQuery.Number.Shortest

/-!
# What a shortest decimal stands for

The numbers that round to a floating-point number form an interval, and the intervals of two
magnitudes share no number: where they touch, at most one of them is closed. The search for the
shortest decimal of a `binary64` number always ends on a point of its interval, so a decimal tells
apart any two magnitudes of which it is the shortest.
-/

namespace ResourceQuery.FloatingPoint

variable {format : FloatFormat} {x y : FloatingPoint format} {v : ℚ}

/-- The number without its sign. -/
def magnitude (x : FloatingPoint format) : ℚ :=
  x.significand * 2 ^ x.exponent

/-- A quarter of the last bit, in which the ends of the interval are counted. -/
def quarter (x : FloatingPoint format) : ℚ :=
  2 ^ (x.exponent - 2)

theorem quarter_pos (x : FloatingPoint format) : 0 < x.quarter :=
  zpow_pos (by decide) _

/-- The number rounds to the magnitude: it lies in the interval, or on an end that belongs to it. -/
structure Covers (x : FloatingPoint format) (v : ℚ) : Prop where
  low_le : x.interval.low * x.quarter ≤ v
  le_high : v ≤ x.interval.high * x.quarter
  inside (h : x.interval.closed = false) :
    x.interval.low * x.quarter < v ∧ v < x.interval.high * x.quarter

/-! ### Intervals apart -/

/-- The interval of one number lies below that of another one, and they share no end. -/
structure Below (x y : FloatingPoint format) : Prop where
  le : x.interval.high * x.quarter ≤ y.interval.low * y.quarter
  open_or_lt : x.interval.closed = false ∨ y.interval.closed = false ∨
    x.interval.high * x.quarter < y.interval.low * y.quarter

theorem Below.not_covers (h : Below x y) (hx : x.Covers v) : ¬y.Covers v := by
  intro hy
  obtain hopen | hopen | hlt := h.open_or_lt
  · exact absurd (h.le.trans hy.low_le) (not_le.mpr (hx.inside hopen).2)
  · exact absurd (hx.le_high.trans h.le) (not_le.mpr (hy.inside hopen).1)
  · exact absurd (hx.le_high.trans_lt hlt) (not_lt.mpr hy.low_le)

theorem le_low (x : FloatingPoint format) : 4 * x.significand ≤ x.interval.low + 2 := by
  unfold interval
  dsimp only
  split <;> omega

theorem below_of_significand (hexponent : x.exponent = y.exponent)
    (h : x.significand < y.significand) : Below x y := by
  have hquarter : x.quarter = y.quarter := by rw [quarter, quarter, hexponent]
  have hlow := le_low y
  have hle : x.interval.high ≤ y.interval.low := by
    change 4 * x.significand + 2 ≤ _
    omega
  refine ⟨?_, ?_⟩
  · rw [hquarter]
    gcongr
    exact y.quarter_pos.le
  · by_cases hnext : y.significand = x.significand + 1
    · have hopen : x.significand % 2 = 1 ∨ y.significand % 2 = 1 := by omega
      obtain hopen | hopen := hopen
      · exact .inl (by simp [interval, hopen])
      · exact .inr (.inl (by simp [interval, hopen]))
    · refine .inr (.inr ?_)
      have hlt : x.interval.high < y.interval.low := by
        change 4 * x.significand + 2 < _
        omega
      rw [hquarter]
      gcongr
      exact y.quarter_pos

/-- The significand of a number that is not of the lowest exponent fills the format. -/
theorem le_low_of_lowest_lt (hprecision : 0 < format.precision)
    (h : format.lowest < y.exponent) : twoTo (format.precision + 1) ≤ y.interval.low + 1 := by
  obtain ⟨-, -, -, hfull | hlowest⟩ := y.canonical
  · have hdouble : twoTo (format.precision + 1) = 4 * twoTo (format.precision - 1) := by
      obtain ⟨n, hn⟩ := Nat.exists_eq_succ_of_ne_zero hprecision.ne'
      rw [hn, Nat.succ_sub_one, twoTo_succ, twoTo_succ]
      omega
    unfold interval
    dsimp only
    split
    · next => omega
    · next hdense =>
      have hne : y.significand ≠ twoTo (format.precision - 1) := by simpa [h] using hdense
      omega
  · omega

theorem below_of_exponent (hprecision : 0 < format.precision) (h : x.exponent < y.exponent) :
    Below x y := by
  have hlow := le_low_of_lowest_lt hprecision (x.canonical.2.1.trans_lt h)
  have hfits := x.canonical.1
  have hdouble := twoTo_succ format.precision
  have hquarter : 2 * x.quarter ≤ y.quarter := by
    have hstep : (2 : ℚ) * 2 ^ (x.exponent - 2) = 2 ^ (x.exponent - 2 + 1) := by
      rw [zpow_add_one₀ (by decide), mul_comm]
    rw [quarter, quarter, hstep]
    exact zpow_le_zpow_right₀ (by decide) (by omega)
  have hlift : (2 * y.interval.low : ℕ) * x.quarter ≤ y.interval.low * y.quarter := by
    rw [Nat.cast_mul, mul_comm ((2 : ℕ) : ℚ), mul_assoc]
    exact mul_le_mul_of_nonneg_left (by exact_mod_cast hquarter) (Nat.cast_nonneg _)
  have hhigh : x.interval.high ≤ 2 * y.interval.low := by
    change 4 * x.significand + 2 ≤ _
    omega
  have hcast {a b : ℕ} (hab : a ≤ b) : a * x.quarter ≤ b * x.quarter :=
    mul_le_mul_of_nonneg_right (by exact_mod_cast hab) x.quarter_pos.le
  refine ⟨(hcast hhigh).trans hlift, ?_⟩
  by_cases hlast : x.significand = twoTo format.precision - 1
  · have hodd : x.significand % 2 = 1 := by
      obtain ⟨n, hn⟩ := Nat.exists_eq_succ_of_ne_zero hprecision.ne'
      rw [hn, twoTo_succ] at hlast hfits
      omega
    exact .inl (by simp [interval, hodd])
  · refine .inr (.inr (lt_of_lt_of_le ?_ hlift))
    have hlt : x.interval.high < 2 * y.interval.low := by
      change 4 * x.significand + 2 < _
      omega
    exact mul_lt_mul_of_pos_right (by exact_mod_cast hlt) x.quarter_pos

/-- No number rounds to two magnitudes. -/
theorem Covers.eq (hprecision : 0 < format.precision) (hx : x.Covers v) (hy : y.Covers v) :
    x.significand = y.significand ∧ x.exponent = y.exponent := by
  obtain hlt | hexponent | hlt := lt_trichotomy x.exponent y.exponent
  · exact absurd hy ((below_of_exponent hprecision hlt).not_covers hx)
  · obtain hlt | hsignificand | hlt := lt_trichotomy x.significand y.significand
    · exact absurd hy ((below_of_significand hexponent hlt).not_covers hx)
    · exact ⟨hsignificand, hexponent⟩
    · exact absurd hx ((below_of_significand hexponent.symm hlt).not_covers hy)
  · exact absurd hx ((below_of_exponent hprecision hlt).not_covers hy)

theorem covers_magnitude (x : FloatingPoint format) : x.Covers x.magnitude := by
  have hcentre : x.magnitude = (4 * x.significand : ℕ) * x.quarter := by
    have hquarter : (2 : ℚ) ^ x.exponent = 4 * 2 ^ (x.exponent - 2) := by
      rw [zpow_sub₀ (by decide)]
      norm_num
      ring
    rw [magnitude, quarter, hquarter]
    push_cast
    ring
  have hhigh : (4 * x.significand : ℕ) * x.quarter < x.interval.high * x.quarter :=
    mul_lt_mul_of_pos_right (by simp [interval]) x.quarter_pos
  have hlow : x.interval.low ≤ 4 * x.significand := by
    change 4 * x.significand - _ ≤ _
    omega
  rw [hcentre]
  refine ⟨mul_le_mul_of_nonneg_right (by exact_mod_cast hlow) x.quarter_pos.le, hhigh.le,
    fun hopen ↦ ⟨mul_lt_mul_of_pos_right ?_ x.quarter_pos, hhigh⟩⟩
  have hodd : x.significand % 2 = 1 := by simpa [interval] using hopen
  have hlt : x.interval.low < 4 * x.significand := by
    change 4 * x.significand - _ < _
    split <;> omega
  exact_mod_cast hlt

/-! ### Points of a grid -/

/-- A power as the fraction in which it is computed. -/
theorem zpow_toNat (b : ℚ) (hb : b ≠ 0) (z : ℤ) : b ^ z * b ^ (-z).toNat = b ^ z.toNat := by
  rw [← zpow_natCast, ← zpow_natCast, ← zpow_add₀ hb]
  congr 1
  omega

/-- Both parts of the fraction are scaled alike: by the numerator a quarter is counted, and by the
denominator a step of the grid. -/
theorem exists_scale (x : FloatingPoint format) (k : ℤ) :
    ∃ scale : ℚ, 0 < scale ∧ ((gridRatio x.exponent k).1 : ℚ) = x.quarter * scale ∧
      ((gridRatio x.exponent k).2 : ℚ) = 10 ^ k * scale := by
  have hten : (10 : ℚ) ^ k ≠ 0 := zpow_ne_zero k (by decide)
  refine ⟨2 ^ (-(x.exponent - 2)).toNat * 10 ^ (-k).toNat, by positivity, ?_, ?_⟩
  · rw [quarter, ← mul_assoc, zpow_toNat 2 (by decide)]
    simp [gridRatio]
  · rw [mul_left_comm, zpow_toNat 10 (by decide), neg_sub]
    simp [gridRatio]

/-- A point of the grid that the test on whole numbers accepts rounds to the number. -/
theorem covers_of_holds {k : ℤ} {point : ℕ}
    (h : x.interval.holds (gridRatio x.exponent k).1 (gridRatio x.exponent k).2 point = true) :
    x.Covers (point * 10 ^ k) := by
  obtain ⟨scale, hscale, hnum, hden⟩ := exists_scale x k
  have hle (count : ℕ) :
      count * (gridRatio x.exponent k).1 ≤ point * (gridRatio x.exponent k).2 ↔
        count * x.quarter ≤ point * 10 ^ k := by
    rw [← Nat.cast_le (α := ℚ), Nat.cast_mul, Nat.cast_mul, hnum, hden, ← mul_assoc, ← mul_assoc,
      mul_le_mul_iff_left₀ hscale]
  have hge (count : ℕ) :
      point * (gridRatio x.exponent k).2 ≤ count * (gridRatio x.exponent k).1 ↔
        point * 10 ^ k ≤ count * x.quarter := by
    rw [← Nat.cast_le (α := ℚ), Nat.cast_mul, Nat.cast_mul, hnum, hden, ← mul_assoc, ← mul_assoc,
      mul_le_mul_iff_left₀ hscale]
  unfold Interval.holds at h
  split at h
  · next hclosed =>
    rw [Bool.and_eq_true, decide_eq_true_eq, decide_eq_true_eq, hle, hge] at h
    exact ⟨h.1, h.2, fun hopen ↦ by rw [hclosed] at hopen; cases hopen⟩
  · rw [Bool.and_eq_true, decide_eq_true_eq, decide_eq_true_eq, ← not_le, ← not_le, hle, hge,
      not_le, not_le] at h
    exact ⟨h.1.le, h.2.le, fun _ ↦ h⟩

theorem covers_of_gridPoint? {tie : Tie} {k : ℤ} {point : ℕ}
    (h : gridPoint? tie x k = some point) : x.Covers (point * 10 ^ k) := by
  apply covers_of_holds
  unfold gridPoint? at h
  dsimp only at h
  split at h
  · next hlower hupper =>
    obtain rfl := Option.some.inj h
    split
    · exact hupper
    · exact hlower
  · next hlower _ =>
    obtain rfl := Option.some.inj h
    exact hlower
  · next hupper =>
    obtain rfl := Option.some.inj h
    exact hupper
  · cases h

/-- The lower neighbour of the number lies in the interval if the grid is no coarser than a quarter
of the last bit. -/
theorem holds_of_le (x : FloatingPoint format) {num den : ℕ} (hfine : den ≤ num) (hden : 0 < den)
    (hpositive : 0 < x.significand) :
    x.interval.holds num den (x.interval.centre * num / den) = true := by
  have hle : x.interval.centre * num / den * den ≤ x.interval.centre * num :=
    Nat.div_mul_le_self _ _
  have hlt : x.interval.centre * num < (x.interval.centre * num / den + 1) * den :=
    (Nat.div_lt_iff_lt_mul hden).mp (Nat.lt_succ_self _)
  have hlow : x.interval.low + 1 ≤ x.interval.centre := by
    change 4 * x.significand - _ + 1 ≤ 4 * x.significand
    split <;> omega
  have hbelow : (x.interval.low + 1) * num ≤ x.interval.centre * num :=
    Nat.mul_le_mul_right num hlow
  have habove : x.interval.centre * num < x.interval.high * num :=
    Nat.mul_lt_mul_of_pos_right (by simp [interval]) (hden.trans_le hfine)
  rw [Nat.add_mul, Nat.one_mul] at hlt hbelow
  have hinside : x.interval.low * num < x.interval.centre * num / den * den := by omega
  unfold Interval.holds
  split
  · simp [hinside.le, (hle.trans_lt habove).le]
  · simp [hinside, hle.trans_lt habove]

/-- Such a grid has a point that is written for the number. -/
theorem isSome_gridPoint? (tie : Tie) {k : ℤ} (h : (10 : ℚ) ^ k ≤ x.quarter)
    (hpositive : 0 < x.significand) : (gridPoint? tie x k).isSome = true := by
  obtain ⟨scale, hscale, hnum, hden⟩ := exists_scale x k
  have hfine : (gridRatio x.exponent k).2 ≤ (gridRatio x.exponent k).1 := by
    rw [← Nat.cast_le (α := ℚ), hnum, hden]
    exact mul_le_mul_of_nonneg_right h hscale.le
  have hpos : 0 < (gridRatio x.exponent k).2 := by
    rw [← Nat.cast_pos (α := ℚ), hden]
    positivity
  have hlower := holds_of_le x hfine hpos hpositive
  unfold gridPoint?
  dsimp only
  rw [hlower]
  split
  · rfl
  · rfl
  · rfl
  · next hnone _ => cases hnone

/-! ### The search -/

/-- A search that meets a grid with a point ends on a point. -/
theorem covers_searchGrids {tie : Tie} {steps : ℕ} {k : ℤ} {n : ℕ} (hn : n < steps)
    (h : (gridPoint? tie x (k - n)).isSome = true) :
    x.Covers ((searchGrids tie x steps k).1 * 10 ^ (searchGrids tie x steps k).2) := by
  induction steps generalizing k n with
  | zero => omega
  | succ steps ih =>
    unfold searchGrids
    split
    · next point hpoint => exact covers_of_gridPoint? hpoint
    · next hnone =>
      cases n with
      | zero => simp [hnone] at h
      | succ n =>
        refine ih (n := n) (by omega) ?_
        rwa [Nat.cast_succ, add_comm, ← sub_sub] at h

/-- On the last grid of the search the steps are finer than a quarter of the last bit: it has three
bits to the digit where the exponent is low, and less than ten bits to three digits where it is
high. -/
theorem zpow_le_quarter (x : FloatingPoint .binary64) {k : ℤ}
    (hk : 10 * k ≤ 3 * (53 + x.exponent) - 580) : (10 : ℚ) ^ k ≤ x.quarter := by
  have hlowest : -1074 ≤ x.exponent := x.canonical.2.1
  have hhighest : x.exponent ≤ 971 := x.canonical.2.2.1
  obtain hnegative | hpositive := le_or_gt k 0
  · obtain ⟨n, rfl⟩ := Int.exists_eq_neg_ofNat hnegative
    calc (10 : ℚ) ^ (-(n : ℤ)) = ((10 : ℚ) ^ n)⁻¹ := by rw [zpow_neg, zpow_natCast]
      _ ≤ ((8 : ℚ) ^ n)⁻¹ := by
        gcongr
        norm_num
      _ = 2 ^ (-(3 * n : ℤ)) := by
        rw [zpow_neg, zpow_mul, zpow_natCast]
        norm_num
      _ ≤ x.quarter := zpow_le_zpow_right₀ (by norm_num) (by omega)
  · obtain ⟨n, rfl⟩ := Int.eq_ofNat_of_zero_le hpositive.le
    refine le_of_pow_le_pow_left₀ (three_ne_zero) x.quarter_pos.le ?_
    calc ((10 : ℚ) ^ (n : ℤ)) ^ 3 = 1000 ^ n := by
          rw [zpow_natCast, ← pow_mul, mul_comm, pow_mul]
          norm_num
      _ ≤ 1024 ^ n := by
        gcongr
        norm_num
      _ = 2 ^ (10 * n : ℤ) := by
        rw [zpow_mul, zpow_natCast]
        norm_num
      _ ≤ 2 ^ ((x.exponent - 2) * 3) := zpow_le_zpow_right₀ (by norm_num) (by omega)
      _ = x.quarter ^ 3 := by
        rw [quarter, zpow_mul]
        norm_cast

/-- The number rounds to the shortest decimal's number. -/
theorem covers_shortest (tie : Tie) (x : FloatingPoint .binary64) :
    x.Covers ((x.shortest tie).1 * 10 ^ (x.shortest tie).2) := by
  unfold shortest
  cases hzero : x.isZero with
  | true =>
    have hsignificand : x.significand = 0 := by simpa [isZero] using hzero
    have hmagnitude : x.magnitude = 0 := by simp [magnitude, hsignificand]
    have hcovers := x.covers_magnitude
    rw [hmagnitude] at hcovers
    simpa using hcovers
  | false =>
    have hpositive : 0 < x.significand := Nat.pos_of_ne_zero (by simpa [isZero] using hzero)
    have hfits : x.significand.log2 < 53 := Nat.log2_lt hpositive.ne' |>.mpr x.canonical.1
    have hsteps : 60 < FloatFormat.binary64.precision + 8 := by decide
    rw [if_neg (by decide)]
    refine covers_searchGrids hsteps (isSome_gridPoint? tie (zpow_le_quarter x ?_) hpositive)
    push_cast
    omega

/-- A decimal is the shortest one of a single magnitude. -/
theorem eq_of_shortest {tie : Tie} {x y : FloatingPoint .binary64}
    (h : ((x.shortest tie).1 : ℚ) * 10 ^ (x.shortest tie).2 =
      (y.shortest tie).1 * 10 ^ (y.shortest tie).2) :
    x.significand = y.significand ∧ x.exponent = y.exponent :=
  (covers_shortest tie x).eq (by decide) (h ▸ covers_shortest tie y)

end ResourceQuery.FloatingPoint
