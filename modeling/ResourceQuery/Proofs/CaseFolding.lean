import Mathlib
import ResourceQuery.Proofs.Encoding
import ResourceQuery.Proofs.TokenText
import ResourceQuery.Text.Case

/-!
# Characters without case

The lower-case form of a text has as many of each sign and digit of ASCII as the text itself: these
are kept, and no other character becomes one of them. Hexadecimal digits are kept up to their case,
so there is a percent code in the one text just if there is one in the other. The same goes for the
segments of properties that are equal up to case.
-/

namespace ResourceQuery.Text

open CaseTable

/-- A sign or a digit of ASCII. -/
def IsCaseless (c : Char) : Prop :=
  c ≠ '\x00' ∧ c.toNat < 0x80 ∧ isLetter c = false

instance : DecidablePred IsCaseless := fun _ ↦ inferInstanceAs (Decidable (_ ∧ _ ∧ _))

variable {c d : Char} {text : List Char}

/-! ### Lower-case forms of characters -/

theorem toNat_ofNat (code : Nat) : Char.ofNat code = '\x00' ∨ (Char.ofNat code).toNat = code := by
  unfold Char.ofNat
  split
  · exact .inr rfl
  · exact .inl rfl

/-- The table leads into ASCII only from there, and from the sign for kelvins. -/
theorem lowerRanges_above : ∀ range ∈ lowerRanges,
    range.last < 0x80 ∨ (0x80 : Int) ≤ range.first + range.shift ∨
      range.first = range.last ∧ range.first + range.shift = 'k'.toNat := by
  have hall : lowerRanges.all (fun range ↦ decide (range.last < 0x80 ∨
      (0x80 : Int) ≤ range.first + range.shift ∨
        range.first = range.last ∧ range.first + range.shift = 'k'.toNat)) = true := by
    decide +kernel
  intro range hmem
  exact of_decide_eq_true (Array.all_eq_true'.mp hall range hmem)

/-- The code that the table leads to is one of a letter or lies above ASCII. -/
theorem shifted_above {range : LowerRange} (hrange : range ∈ lowerRanges) {code : Nat}
    (hcode : range.contains code = true) (habove : 0x80 ≤ code) :
    0x80 ≤ (code + range.shift).toNat ∨ (code + range.shift).toNat = 'k'.toNat := by
  simp only [LowerRange.contains, Bool.and_eq_true, decide_eq_true_eq] at hcode
  obtain ⟨⟨hfirst, hlast⟩, -⟩ := hcode
  obtain hbelow | hshift | ⟨hone, hshift⟩ := lowerRanges_above range hrange <;> omega

/-- Above ASCII the lower-case form is made of letters that are no digits, or lies above ASCII too.
-/
theorem lowerChar_above (hc : 0x80 ≤ c.toNat) :
    lowerChar c ≠ [] ∧
      ∀ d ∈ lowerChar c, 0x80 ≤ d.toNat ∨ d ∈ ['i', 'k', '\x00'] := by
  rw [lowerChar, if_neg (by omega)]
  split
  · have hdot : 0x80 ≤ '\u0307'.toNat := Nat.le_of_ble_eq_true rfl
    exact ⟨by simp, List.forall_mem_cons.mpr
      ⟨.inr (by simp), List.forall_mem_singleton.mpr (.inl hdot)⟩⟩
  split
  · next range hrange =>
    refine ⟨by simp, List.forall_mem_singleton.mpr ?_⟩
    have hcontains := Array.find?_some hrange
    have hmem := Array.mem_of_find?_eq_some hrange
    have hcode := shifted_above hmem hcontains hc
    generalize (c.toNat + range.shift).toNat = code at hcode
    obtain hzero | hvalid := toNat_ofNat code
    · exact .inr (by simp [hzero])
    · obtain habove | rfl := hcode
      · exact .inl (by omega)
      · exact .inr (by simp)
  · exact ⟨by simp, List.forall_mem_singleton.mpr (.inl hc)⟩

theorem count_lowerChar (hc : IsCaseless c) (d : Char) : (lowerChar d).count c = [d].count c := by
  obtain ⟨hzero, hascii, hletter⟩ := hc
  by_cases hd : d.toNat < 0x80
  · rw [lowerChar, if_pos hd]
    obtain hsame | hd := toLower_eq_or_isLetter d
    · rw [hsame]
    · have hne (e : Char) (he : isLetter e = true) : (e == c) = false := by
        rw [beq_eq_false_iff_ne]
        rintro rfl
        rw [he] at hletter
        cases hletter
      rw [List.count_singleton, List.count_singleton, hne d hd,
        hne d.toLower (by rw [isLetter_toLower, hd])]
  · have hnot : c ∉ lowerChar d := by
      intro hmem
      obtain habove | hother := (lowerChar_above (by omega)).2 c hmem
      · omega
      · simp only [List.mem_cons, List.not_mem_nil, or_false] at hother
        obtain rfl | rfl | rfl := hother
        · cases hletter
        · cases hletter
        · exact hzero rfl
    have hne : d ≠ c := by
      rintro rfl
      exact hd hascii
    rw [List.count_eq_zero.mpr hnot, List.count_singleton, beq_eq_false_iff_ne.mpr hne]
    rfl

/-- The first character of a lower-case form is a hexadecimal digit just if the character is one,
and then it is all of the form. -/
theorem lowerChar_eq_cons (c : Char) :
    ∃ first rest, lowerChar c = first :: rest ∧ isHexDigit first = isHexDigit c ∧
      (isHexDigit c = true → rest = []) := by
  by_cases hc : c.toNat < 0x80
  · rw [lowerChar, if_pos hc]
    exact ⟨c.toLower, [], rfl, isHexDigit_toLower c, fun _ ↦ rfl⟩
  · obtain ⟨hne, hall⟩ := lowerChar_above (Nat.le_of_not_lt hc)
    obtain ⟨first, rest, hform⟩ := List.exists_cons_of_ne_nil hne
    have hself : isHexDigit c = false := by
      rw [← Bool.not_eq_true, isHexDigit_iff]
      omega
    have hfirst : isHexDigit first = false := by
      obtain habove | hother := hall first (by simp [hform])
      · rw [← Bool.not_eq_true, isHexDigit_iff]
        omega
      · simp only [List.mem_cons, List.not_mem_nil, or_false] at hother
        obtain rfl | rfl | rfl := hother <;> rfl
    exact ⟨first, rest, hform, hfirst.trans hself.symm, fun h ↦ by simp [hself] at h⟩

/-! ### Lower-case forms of texts -/

/-- The lower-case form of a character between others. -/
def lowerBetween (before : List Char) (c : Char) (after : List Char) : List Char :=
  if c == 'Σ' then [lowerSigma before after] else lowerChar c

theorem lowerAfter_cons (before rest : List Char) (c : Char) :
    lowerAfter before (c :: rest) = lowerBetween before c rest ++ lowerAfter (c :: before) rest :=
  rfl

theorem lowerSigma_mem (before after : List Char) : lowerSigma before after ∈ ['ς', 'σ'] := by
  unfold lowerSigma
  split <;> simp

theorem count_lowerBetween (hc : IsCaseless c) (before : List Char) (d : Char)
    (after : List Char) : (lowerBetween before d after).count c = [d].count c := by
  unfold lowerBetween
  split
  · next hsigma =>
    have habove : ∀ e ∈ ['Σ', 'ς', 'σ'], ¬IsCaseless e := forall_mem_of_all (by decide)
    have hne {e : Char} (he : e ∈ ['Σ', 'ς', 'σ']) : (e == c) = false := by
      rw [beq_eq_false_iff_ne]
      rintro rfl
      exact habove e he hc
    obtain rfl := eq_of_beq hsigma
    rw [List.count_singleton, List.count_singleton, hne List.mem_cons_self,
      hne (List.mem_cons_of_mem _ (lowerSigma_mem before after))]
  · exact count_lowerChar hc d

theorem lowerBetween_eq_cons (before : List Char) (c : Char) (after : List Char) :
    ∃ first rest, lowerBetween before c after = first :: rest ∧
      isHexDigit first = isHexDigit c ∧ (isHexDigit c = true → rest = []) := by
  unfold lowerBetween
  split
  · next hsigma =>
    have hother : ∀ e ∈ ['ς', 'σ'], isHexDigit e = false := forall_mem_of_all (by decide)
    obtain rfl := eq_of_beq hsigma
    exact ⟨_, [], rfl, hother _ (lowerSigma_mem before after), fun _ ↦ rfl⟩
  · exact lowerChar_eq_cons c

theorem count_lowerAfter (hc : IsCaseless c) (before text : List Char) :
    (lowerAfter before text).count c = text.count c := by
  induction text generalizing before with
  | nil => rfl
  | cons d rest ih =>
    rw [lowerAfter_cons, List.count_append, ih, count_lowerBetween hc, ← List.count_append,
      List.singleton_append]

theorem count_lower (hc : IsCaseless c) (text : List Char) :
    (lower text).count c = text.count c :=
  count_lowerAfter hc [] text

/-- Two hexadecimal digits come first. -/
def BeginsCode (text : List Char) : Prop :=
  ∃ high low behind, text = high :: low :: behind ∧ isHexDigit high = true ∧
    isHexDigit low = true

theorem BeginsCode.append (h : BeginsCode text) (behind : List Char) :
    BeginsCode (text ++ behind) := by
  obtain ⟨high, low, rest, rfl, hhex⟩ := h
  exact ⟨high, low, rest ++ behind, rfl, hhex⟩

theorem beginsCode_cons_iff :
    BeginsCode (c :: text) ↔ isHexDigit c = true ∧ text.head?.any isHexDigit = true := by
  constructor
  · rintro ⟨high, low, behind, htext, hhigh, hlow⟩
    obtain ⟨rfl, rfl⟩ := List.cons.inj htext
    exact ⟨hhigh, hlow⟩
  · rintro ⟨hhigh, hlow⟩
    cases text with
    | nil => cases hlow
    | cons low behind => exact ⟨c, low, behind, rfl, hhigh, hlow⟩

theorem beginsCode_lowerAfter (before text : List Char) :
    BeginsCode (lowerAfter before text) ↔ BeginsCode text := by
  cases text with
  | nil => rfl
  | cons c rest =>
    obtain ⟨first, tail, hform, hfirst, htail⟩ := lowerBetween_eq_cons before c rest
    have hsecond : (lowerAfter (c :: before) rest).head?.any isHexDigit =
        rest.head?.any isHexDigit := by
      cases rest with
      | nil => rfl
      | cons d rest =>
        obtain ⟨second, tail, hform, hsecond, -⟩ := lowerBetween_eq_cons (c :: before) d rest
        rw [lowerAfter_cons, hform]
        exact hsecond
    rw [lowerAfter_cons, hform, List.cons_append, beginsCode_cons_iff, beginsCode_cons_iff, hfirst]
    refine and_congr_right fun hc ↦ ?_
    rw [htail hc, List.nil_append, hsecond]

theorem hasCode_cons_iff_beginsCode : Percent.HasCode (c :: text) ↔
    c = '%' ∧ BeginsCode text ∨ Percent.HasCode text := by
  rw [Percent.hasCode_cons_iff]
  refine or_congr_left ⟨?_, ?_⟩
  · rintro ⟨high, low, behind, htext, hhex⟩
    obtain ⟨rfl, rfl⟩ := List.cons.inj htext
    exact ⟨rfl, high, low, behind, rfl, hhex⟩
  · rintro ⟨rfl, high, low, behind, rfl, hhex⟩
    exact ⟨high, low, behind, rfl, hhex⟩

theorem hasCode_lowerAfter (before text : List Char) :
    Percent.HasCode (lowerAfter before text) ↔ Percent.HasCode text := by
  induction text generalizing before with
  | nil => rfl
  | cons c rest ih =>
    rw [lowerAfter_cons]
    by_cases hpercent : c = '%'
    · subst hpercent
      have hform : lowerBetween before '%' rest = ['%'] := rfl
      rw [hform, List.singleton_append, hasCode_cons_iff_beginsCode, hasCode_cons_iff_beginsCode,
        ih, beginsCode_lowerAfter]
    · have hnot : '%' ∉ lowerBetween before c rest := by
        rw [← List.count_eq_zero, count_lowerBetween (by decide), List.count_eq_zero]
        simpa using Ne.symm hpercent
      rw [Percent.hasCode_append_of_not_mem hnot, ih, hasCode_cons_iff_beginsCode,
        or_iff_right fun h ↦ hpercent h.1]

theorem hasCode_lower (text : List Char) : Percent.HasCode (lower text) ↔ Percent.HasCode text :=
  hasCode_lowerAfter [] text

end ResourceQuery.Text

namespace ResourceQuery

open Text

/-! ### Properties -/

/-- Splitting a text takes nothing but the separators away. -/
theorem sum_count_splitOn {separator c : Char} (hc : c ≠ separator) (text : List Char) :
    ((text.splitOn separator).map (List.count c)).sum = text.count c := by
  induction text with
  | nil => rfl
  | cons d rest ih =>
    rw [List.splitOn_cons_eq_if_modifyHead]
    split
    · next hd =>
      have hdc : (d == c) = false := by
        rw [beq_iff_eq.mp hd]
        exact beq_eq_false_iff_ne.mpr hc.symm
      simp [List.count_cons, hdc, ih]
    · cases hsplit : rest.splitOn separator with
      | nil => exact absurd hsplit (List.splitOn_ne_nil _ _)
      | cons first others =>
        rw [hsplit] at ih
        rw [List.count_cons, ← ih, List.modifyHead_cons, List.map_cons, List.map_cons,
          List.sum_cons, List.sum_cons, List.count_cons]
        omega

namespace Property

variable {p q : Property} {c : Char}

/-- How often the character stands in the segments. -/
def occurrences (c : Char) (property : Property) : Nat :=
  (property.segments.map fun segment ↦ segment.toList.count c).sum

/-- Properties that are equal up to case have as many of each sign and digit. -/
theorem occurrences_eq_of_beq (hc : IsCaseless c) (h : (p == q) = true) :
    p.occurrences c = q.occurrences c := by
  have hfold (property : Property) : property.occurrences c =
      ((property.segments.map foldCase).map fun segment ↦ segment.toList.count c).sum := by
    simp [occurrences, foldCase, Function.comp_def, count_lower hc]
  rw [hfold, hfold, (beq_iff p q).mp h]

theorem occurrences_ofPath (hc : c ≠ '.') (path : String) :
    (ofPath path).occurrences c = path.toList.count c := by
  rw [← sum_count_splitOn hc, occurrences, ofPath, List.map_map]
  induction path.toList.splitOn '.' with
  | nil => rfl
  | cons piece pieces ih =>
    cases piece with
    | nil => simpa using ih
    | cons d piece => simpa using ih

end Property

end ResourceQuery
