import ResourceQuery.Proofs.NumeralText
import ResourceQuery.Proofs.TextLiterals

/-!
# Literals and their texts

Spans, moments, GUIDs and binary data are told apart by their texts. The fields of a text are taken
off one by one: a field of digits ends at the first character that is no digit. The zone of a moment
only says in which offset it is shown, and to the minute; two moments have to be shown in the same
offset for their texts to tell them apart.
-/

namespace ResourceQuery

open Text

variable {s t : List Char} {m n : Nat}

/-! ### Fields of digits -/

theorem decimal_append_inj (hs : Bars isDigit s) (ht : Bars isDigit t)
    (h : decimal m ++ s = decimal n ++ t) : m = n ∧ s = t := by
  obtain ⟨hdigits, hrest⟩ :=
    append_inj_of_bars (isDigit_of_mem_decimal m) (isDigit_of_mem_decimal n) hs ht h
  exact ⟨decimal_injective hdigits, hrest⟩

theorem decimalPadded_append_inj {width : Nat} (hs : Bars isDigit s) (ht : Bars isDigit t)
    (h : decimalPadded width m ++ s = decimalPadded width n ++ t) : m = n ∧ s = t := by
  obtain ⟨hdigits, hrest⟩ := append_inj_of_bars (isDigit_of_mem_decimalPadded width m)
    (isDigit_of_mem_decimalPadded width n) hs ht h
  exact ⟨decimalPadded_injective width hdigits, hrest⟩

/-- Numbers of a fixed width, each with the sign in front. -/
theorem cons_decimalPadded_append_inj {c : Char} {width : Nat} (hs : Bars isDigit s)
    (ht : Bars isDigit t)
    (h : c :: (decimalPadded width m ++ s) = c :: (decimalPadded width n ++ t)) :
    m = n ∧ s = t :=
  decimalPadded_append_inj hs ht (List.cons.inj h).2

/-! ### Time spans -/

namespace TimeSpan

/-- A text begins with as many zeros as it is longer than without them. -/
theorem takeWhile_zeros (text : List Char) : text.takeWhile (· == '0') =
    List.replicate (text.length - (text.dropWhile (· == '0')).length) '0' := by
  have hsplit := congrArg List.length
    (List.takeWhile_append_dropWhile (p := (· == '0')) (l := text))
  rw [List.length_append] at hsplit
  rw [List.eq_replicate_iff]
  refine ⟨by omega, fun c hc ↦ ?_⟩
  exact eq_of_beq (List.mem_takeWhile_imp (p := (· == '0')) hc)

/-- What is left of a text without the zeros at its end, with those zeros behind it. -/
theorem trimmed_append_zeros (text : List Char) :
    (text.reverse.dropWhile (· == '0')).reverse ++
      List.replicate (text.length - (text.reverse.dropWhile (· == '0')).length) '0' = text := by
  have hzeros := takeWhile_zeros text.reverse
  have hsplit := List.takeWhile_append_dropWhile (p := (· == '0')) (l := text.reverse)
  rw [hzeros, List.length_reverse] at hsplit
  rw [← List.reverse_replicate, ← List.reverse_append, hsplit, List.reverse_reverse]

/-- What is printed for less than a second is a point with digits for just as many nanoseconds. -/
theorem exists_isFraction (h : n < 10 ^ 9) :
    ∃ digits, printFraction n = afterPoint digits ∧ IsFraction n digits := by
  obtain rfl | hpositive := Nat.eq_zero_or_pos n
  · exact ⟨[], rfl, List.forall_mem_nil _, Nat.zero_le 9, rfl⟩
  have hlength : (decimalPadded 9 n).length = 9 := length_decimalPadded (by decide) h
  have hpadded := trimmed_append_zeros (decimalPadded 9 n)
  have hprint : printFraction n =
      '.' :: ((decimalPadded 9 n).reverse.dropWhile (· == '0')).reverse := if_neg hpositive.ne'
  rw [hlength, ← List.length_reverse] at hpadded
  generalize ((decimalPadded 9 n).reverse.dropWhile (· == '0')).reverse = kept at hpadded hprint
  have hvalue : ofDigits (kept ++ List.replicate (9 - kept.length) '0') = n := by
    rw [hpadded, ofDigits_decimalPadded]
  have hdigits : ∀ c ∈ kept, isDigit c = true := by
    intro c hc
    exact isDigit_of_mem_decimalPadded 9 n c (hpadded ▸ List.mem_append_left _ hc)
  have hshort : kept.length ≤ 9 := by
    have hsum := congrArg List.length hpadded
    rw [List.length_append, hlength] at hsum
    omega
  refine ⟨kept, ?_, hdigits, hshort, ?_⟩
  · cases kept with
    | nil => exact absurd hvalue hpositive.ne
    | cons digit kept => exact hprint
  · rw [← hvalue]
    exact (ofDigits_append_zeros kept _).symm

theorem bars_printFraction (nanos : Nat) : Bars isDigit (printFraction nanos) := by
  unfold printFraction
  split
  · rfl
  · exact bars_cons rfl _

theorem printFraction_inj (hm : m < 10 ^ 9) (hn : n < 10 ^ 9)
    (h : printFraction m = printFraction n) : m = n := by
  obtain ⟨digits, hprint, hfraction⟩ := exists_isFraction hm
  obtain ⟨others, hprint', hfraction'⟩ := exists_isFraction hn
  exact hfraction.eq_of_afterPoint hfraction' (hprint.symm.trans (h.trans hprint'))

theorem print_injective : Function.Injective print := by
  intro a b h
  unfold print at h
  dsimp only at h
  simp only [List.append_assoc, List.cons_append] at h
  have hhead (n : Nat) (rest : List Char) : (decimal n ++ rest).head? ≠ some '-' :=
    head?_ne_minus (isDigit_of_mem_decimal n) rest (decimal_ne_nil n)
  obtain ⟨hsign, h⟩ := sign_append_inj (hhead _ _) (hhead _ _) h
  obtain ⟨hhours, h⟩ := decimal_append_inj (bars_cons rfl _) (bars_cons rfl _) h
  obtain ⟨hminutes, h⟩ := cons_decimalPadded_append_inj (bars_cons rfl _) (bars_cons rfl _) h
  obtain ⟨hseconds, h⟩ := cons_decimalPadded_append_inj (bars_printFraction _)
    (bars_printFraction _) h
  have hnanos := printFraction_inj (Nat.mod_lt _ (by decide)) (Nat.mod_lt _ (by decide)) h
  have habs : a.nanoseconds.natAbs = b.nanoseconds.natAbs := by
    simp only [nanosPerSecond] at hhours hminutes hseconds hnanos
    omega
  exact congrArg mk (eq_of_natAbs habs hsign)

end TimeSpan

/-! ### Moments -/

theorem CivilDay.ofNumber_injective : Function.Injective CivilDay.ofNumber := by
  intro m n h
  obtain ⟨date, hdate, hnumber⟩ := exists_date m
  obtain ⟨other, hother, hnumber'⟩ := exists_date n
  rw [h] at hdate
  rw [← hnumber, Option.some.inj (hdate.symm.trans hother), hnumber']

namespace Moment

/-- A year is written with its digits alone or behind its sign. -/
theorem printYear_cases (year : Int) : printYear year = decimalPadded 4 year.natAbs ∧ 0 ≤ year ∨
    printYear year = (if year < 0 then '-' else '+') :: decimalPadded 4 year.natAbs := by
  unfold printYear
  split
  · next hplain => exact .inl ⟨rfl, by simp at hplain; omega⟩
  · exact .inr rfl

theorem printYear_append_inj {m n : Int} (hs : Bars isDigit s) (ht : Bars isDigit t)
    (h : printYear m ++ s = printYear n ++ t) : m = n ∧ s = t := by
  have hdigit {year other : Int} {s t : List Char} (hpositive : 0 ≤ year)
      (h : decimalPadded 4 year.natAbs ++ s = (if other < 0 then '-' else '+') :: t) : False := by
    obtain ⟨c, body, htext⟩ := List.exists_cons_of_ne_nil (decimalPadded_ne_nil 4 year.natAbs)
    have hc := isDigit_of_mem_decimalPadded 4 year.natAbs c (htext ▸ List.mem_cons_self)
    rw [htext] at h
    rw [(List.cons.inj h).1] at hc
    split at hc <;> cases hc
  obtain ⟨hm, hpositive⟩ | hm := printYear_cases m <;>
    obtain ⟨hn, hpositive'⟩ | hn := printYear_cases n <;> rw [hm, hn] at h
  · obtain ⟨habs, hrest⟩ := decimalPadded_append_inj hs ht h
    exact ⟨by omega, hrest⟩
  · exact (hdigit hpositive h).elim
  · exact (hdigit hpositive' h.symm).elim
  · obtain ⟨hsign, htail⟩ := List.cons.inj h
    obtain ⟨habs, hrest⟩ := decimalPadded_append_inj hs ht htail
    refine ⟨eq_of_natAbs habs ?_, hrest⟩
    split at hsign <;> split at hsign <;> first | omega | cases hsign

theorem printDay_append_inj {a b : CivilDay} (hyear : a.year = b.year) (hs : Bars isDigit s)
    (ht : Bars isDigit t) (h : printDay a ++ s = printDay b ++ t) : a = b ∧ s = t := by
  unfold printDay at h
  simp only [List.append_assoc, List.cons_append] at h
  obtain ⟨hmonth, h⟩ := cons_decimalPadded_append_inj (bars_cons rfl _) (bars_cons rfl _) h
  obtain ⟨hday, hrest⟩ := cons_decimalPadded_append_inj hs ht h
  cases a
  cases b
  obtain rfl := hyear
  obtain rfl := hmonth
  obtain rfl := hday
  exact ⟨rfl, hrest⟩

theorem printFraction_inj (hm : m < 10 ^ 9) (hn : n < 10 ^ 9)
    (h : printFraction m = printFraction n) : m = n := by
  obtain ⟨digits, hprint, hfraction⟩ := exists_isFraction hm
  obtain ⟨others, hprint', hfraction'⟩ := exists_isFraction hn
  exact hfraction.eq_of_afterPoint hfraction' (hprint.symm.trans (h.trans hprint'))

theorem bars_printFraction (nanos : Nat) : Bars isDigit (printFraction nanos) := by
  unfold printFraction
  split_ifs
  · rfl
  · exact bars_cons rfl _
  · exact bars_cons rfl _
  · exact bars_cons rfl _

theorem printClock_inj {second other : Nat} (hm : m < 10 ^ 9) (hn : n < 10 ^ 9)
    (h : printClock second m = printClock other n) : second = other ∧ m = n := by
  unfold printClock at h
  obtain ⟨hhours, h⟩ := decimalPadded_append_inj (bars_cons rfl _) (bars_cons rfl _) h
  obtain ⟨hminutes, h⟩ := cons_decimalPadded_append_inj (bars_cons rfl _) (bars_cons rfl _) h
  obtain ⟨hseconds, h⟩ := cons_decimalPadded_append_inj (bars_printFraction m)
    (bars_printFraction n) h
  exact ⟨by omega, printFraction_inj hm hn h⟩

/-- A moment begins with a sign or a digit. -/
theorem print_ne_cons {c : Char} (hdigit : isDigit c = false) (hsign : c ∉ ['-', '+'])
    (moment : Moment) (rest : List Char) : moment.print ≠ c :: rest := by
  intro h
  rw [print_eq] at h
  obtain ⟨hyear, -⟩ | hyear := printYear_cases _ <;> rw [hyear] at h
  · obtain ⟨d, body, htext⟩ := List.exists_cons_of_ne_nil (decimalPadded_ne_nil 4 _)
    rw [htext] at h
    have hd := isDigit_of_mem_decimalPadded 4 _ d (htext ▸ List.mem_cons_self)
    rw [(List.cons.inj h).1, hdigit] at hd
    cases hd
  · rw [← (List.cons.inj h).1] at hsign
    split at hsign <;> simp at hsign

/-- Moments that are shown in one offset are told apart by their texts. -/
theorem eq_of_print {a b : Moment} (hanchor : a.anchor = b.anchor) (hoffset : a.offset = b.offset)
    (ha : a.nanos < 10 ^ 9) (hb : b.nanos < 10 ^ 9) (h : a.print = b.print) : a = b := by
  have hzone : a.printZone = b.printZone := by rw [printZone, printZone, hanchor, hoffset]
  have hday (day : CivilDay) (rest : List Char) : Bars isDigit (printDay day ++ rest) :=
    bars_cons rfl _
  rw [print_eq, print_eq, hzone] at h
  obtain ⟨hyear, h⟩ := printYear_append_inj (hday _ _) (hday _ _) h
  obtain ⟨hcivil, h⟩ := printDay_append_inj hyear (bars_cons rfl _) (bars_cons rfl _) h
  obtain ⟨hsecond, hnanos⟩ := printClock_inj ha hb (List.append_cancel_right (List.cons.inj h).2)
  have hnumber := CivilDay.ofNumber_injective hcivil
  have hseconds : a.seconds = b.seconds := by
    unfold secondOfDay at hsecond
    rw [hoffset] at hnumber hsecond
    omega
  cases a
  cases b
  obtain rfl := hanchor
  obtain rfl := hoffset
  obtain rfl := hseconds
  obtain rfl := hnanos
  rfl

end Moment

/-! ### GUIDs and binary data -/

namespace Guid

/-- As many digits as the groups hold are seen between the hyphens. -/
theorem hyphenate_inj {widths : List Nat} {a b : List Char} (ha : a.length = widths.sum)
    (hb : b.length = widths.sum) (h : hyphenate widths a = hyphenate widths b) : a = b := by
  induction widths generalizing a b with
  | nil => rw [List.length_eq_zero_iff.mp ha, List.length_eq_zero_iff.mp hb]
  | cons width rest ih =>
    rw [List.sum_cons] at ha hb
    cases rest with
    | nil =>
      rw [hyphenate, hyphenate, List.take_of_length_le (by simp [ha]),
        List.take_of_length_le (by simp [hb])] at h
      exact h
    | cons next widths =>
      change a.take width ++ '-' :: hyphenate (next :: widths) (a.drop width) =
        b.take width ++ '-' :: hyphenate (next :: widths) (b.drop width) at h
      have hlength : (a.take width).length = (b.take width).length := by
        rw [List.length_take, List.length_take, ha, hb]
      obtain ⟨htake, hrest⟩ := List.append_inj h hlength
      have hdrop := ih (by rw [List.length_drop, ha, Nat.add_sub_cancel_left])
        (by rw [List.length_drop, hb, Nat.add_sub_cancel_left]) (List.cons.inj hrest).2
      rw [← List.take_append_drop width a, htake, hdrop, List.take_append_drop]

theorem print_injective : Function.Injective print := by
  intro a b h
  have hdigits := hyphenate_inj (length_hexadecimal 32 _) (length_hexadecimal 32 _) h
  have hbits := congrArg Text.ofHexDigits hdigits
  have hlt (guid : Guid) : guid.bits.toNat < 16 ^ 32 := guid.bits.isLt
  rw [ofHexDigits_hexadecimal, ofHexDigits_hexadecimal, Nat.mod_eq_of_lt (hlt a),
    Nat.mod_eq_of_lt (hlt b)] at hbits
  exact congrArg mk (BitVec.eq_of_toNat_eq hbits)

end Guid

namespace Base64

theorem symbolValue?_symbol {n : Nat} (h : n < 64) : symbolValue? (symbol n).toNat = some n :=
  (by decide : ∀ n < 64, symbolValue? (symbol n).toNat = some n) n h

theorem symbol_inj {m n : Nat} (hm : m < 64) (hn : n < 64) (h : symbol m = symbol n) : m = n := by
  have hvalue := symbolValue?_symbol hm
  rw [h, symbolValue?_symbol hn] at hvalue
  exact (Option.some.inj hvalue).symm

theorem symbol_ne_pad {n : Nat} (h : n < 64) : symbol n ≠ '=' := by
  intro heq
  have hvalue := symbolValue?_symbol h
  rw [heq] at hvalue
  cases hvalue

/-- The parts of bytes that a symbol is made of. -/
theorem toNat_inj_of_symbols {a b : UInt8} {m n : Nat} (hm : m < 16) (hn : n < 16)
    (hhigh : symbol (a.toNat / 4) = symbol (b.toNat / 4))
    (hlow : symbol (a.toNat % 4 * 16 + m) = symbol (b.toNat % 4 * 16 + n)) : a = b ∧ m = n := by
  have ha := a.toNat_lt
  have hb := b.toNat_lt
  have hhigh := symbol_inj (by omega) (by omega) hhigh
  have hlow := symbol_inj (by omega) (by omega) hlow
  exact ⟨UInt8.toNat_inj.mp (by omega), by omega⟩

theorem encode_injective : Function.Injective encode := by
  intro bytes
  have hlt (byte : UInt8) : byte.toNat < 256 := byte.toNat_lt
  -- groups of one, two and three bytes differ in the pads, which are no symbols
  induction bytes using encode.induct with
  | case1 =>
    intro others h
    obtain _ | ⟨a', _ | ⟨b', _ | ⟨c', rest'⟩⟩⟩ := others
    · rfl
    all_goals cases h
  | case2 a =>
    intro others h
    obtain _ | ⟨a', _ | ⟨b', _ | ⟨c', rest'⟩⟩⟩ := others
    · cases h
    · simp only [encode, List.cons.injEq] at h
      rw [(toNat_inj_of_symbols (m := 0) (n := 0) (by decide) (by decide) h.1 h.2.1).1]
    · simp only [encode, List.cons.injEq] at h
      exact absurd h.2.2.1.symm (symbol_ne_pad (by omega))
    · simp only [encode, List.cons.injEq] at h
      have hc := hlt c'
      exact absurd h.2.2.1.symm (symbol_ne_pad (by omega))
  | case3 a b =>
    intro others h
    have hb := hlt b
    obtain _ | ⟨a', _ | ⟨b', _ | ⟨c', rest'⟩⟩⟩ := others
    · cases h
    · simp only [encode, List.cons.injEq] at h
      exact absurd h.2.2.1 (symbol_ne_pad (by omega))
    · simp only [encode, List.cons.injEq] at h
      have hb' := hlt b'
      obtain ⟨rfl, hhigh⟩ := toNat_inj_of_symbols (by omega) (by omega) h.1 h.2.1
      have hlow := symbol_inj (by omega) (by omega) h.2.2.1
      rw [UInt8.toNat_inj.mp (show b.toNat = b'.toNat by omega)]
    · simp only [encode, List.cons.injEq] at h
      exact absurd h.2.2.2.1.symm (symbol_ne_pad (by omega))
  | case4 a b c rest ih =>
    intro others h
    have hb := hlt b
    have hc := hlt c
    obtain _ | ⟨a', _ | ⟨b', _ | ⟨c', rest'⟩⟩⟩ := others
    · cases h
    · simp only [encode, List.cons.injEq] at h
      exact absurd h.2.2.1 (symbol_ne_pad (by omega))
    · simp only [encode, List.cons.injEq] at h
      exact absurd h.2.2.2.1 (symbol_ne_pad (by omega))
    · simp only [encode, List.cons.injEq] at h
      have hb' := hlt b'
      have hc' := hlt c'
      obtain ⟨rfl, hhigh⟩ := toNat_inj_of_symbols (by omega) (by omega) h.1 h.2.1
      have hmiddle := symbol_inj (by omega) (by omega) h.2.2.1
      have hlow := symbol_inj (by omega) (by omega) h.2.2.2.1
      rw [UInt8.toNat_inj.mp (show b.toNat = b'.toNat by omega),
        UInt8.toNat_inj.mp (show c.toNat = c'.toNat by omega), ih h.2.2.2.2]

end Base64

end ResourceQuery
