import ResourceQuery.Literal.Numeral
import ResourceQuery.Proofs.Spelling

/-!
# The written form of numerals

What a numeral is read from can be written down from what has been read, up to the case of the mark
of its exponent. A numeral that is read has a digit, an exponent with digits if it has any, and a
suffix that may be written, and there is a boundary behind it.
-/

namespace ResourceQuery

open Run

namespace Text

/-- A point and the digits behind it, or nothing. -/
def afterPoint : List Char → List Char
  | [] => []
  | digits => '.' :: digits

@[simp]
theorem afterPoint_eq_nil_iff {digits : List Char} : afterPoint digits = [] ↔ digits = [] := by
  cases digits <;> simp [afterPoint]

theorem afterPoint_injective : Function.Injective afterPoint := by
  intro a b h
  cases a with
  | nil =>
    cases b with
    | nil => rfl
    | cons digit rest => cases h
  | cons digit rest =>
    cases b with
    | nil => cases h
    | cons other more => exact (List.cons.inj h).2

end Text

namespace Numeral

open Scan Text

variable {cursor last : Cursor} {numeral : Numeral}

/-- A sign, digits, a point with digits and an exponent, as they may be written. -/
structure HasForm (numeral : Numeral) : Prop where
  isSign_sign : ∀ c ∈ numeral.sign, isSign c = true
  isDigit_whole : ∀ c ∈ numeral.whole, isDigit c = true
  isDigit_fraction : ∀ c ∈ numeral.fraction, isDigit c = true
  has_digit : numeral.whole ≠ [] ∨ numeral.fraction ≠ []
  isSign_exponent : ∀ exponent ∈ numeral.exponent, ∀ c ∈ exponent.sign, isSign c = true
  isDigit_exponent : ∀ exponent ∈ numeral.exponent, ∀ c ∈ exponent.digits, isDigit c = true
  exponent_ne_nil : ∀ exponent ∈ numeral.exponent, exponent.digits ≠ []

/-- The letters are a suffix that may be written. -/
structure IsSuffixText (letters : List Char) : Prop where
  isSuffixLetter : ∀ c ∈ letters, isSuffixLetter c = true
  length_le : letters.length ≤ 2
  isSuffix : isSuffix letters = true

/-- An exponent behind its mark, or nothing. -/
def exponentText (mark : Char) : Option Exponent → List Char
  | none => []
  | some exponent => mark :: (exponent.sign.toList ++ exponent.digits)

/-- What is written in front of the suffix. -/
def text (mark : Char) (numeral : Numeral) : List Char :=
  numeral.sign.toList ++
    (numeral.whole ++ (afterPoint numeral.fraction ++ exponentText mark numeral.exponent))

theorem HasForm.text_ne_nil (h : numeral.HasForm) (mark : Char) : numeral.text mark ≠ [] := by
  intro hnil
  simp only [text, List.append_eq_nil_iff, afterPoint_eq_nil_iff] at hnil
  exact h.has_digit.elim (· hnil.2.1) (· hnil.2.2.1)

/-! ### What is read -/

/-- A point comes next, and a digit behind it. -/
def pointAhead (cursor : Cursor) : Bool :=
  cursor.peek.any (· == '.') && (cursor.peekAt 1).any isDigit

/-- The mark of an exponent comes next, and a digit or a sign behind it. -/
def markAhead (cursor : Cursor) : Bool :=
  cursor.peek.any isExponentMark && (cursor.peekAt 1).any fun c ↦ isDigit c || isSign c

theorem cases_of_scanFraction {found : List Char} (h : scanFraction cursor = .ok found last) :
    (pointAhead cursor = true ∧ found ≠ [] ∧
      readWhile isDigit (cursor.passOver 1) = .ok found last) ∨
      pointAhead cursor = false ∧ found = [] ∧ last = cursor := by
  have hscan : scanFraction cursor =
      if pointAhead cursor then readWhile isDigit (cursor.passOver 1) else .ok [] cursor := by
    change (if pointAhead cursor = true then _ else _ : Scan (List Char)) cursor = _
    split <;> rfl
  rw [hscan] at h
  cases hahead : pointAhead cursor with
  | true =>
    rw [if_pos hahead] at h
    have hdigit : (cursor.passOver 1).peek.any isDigit = true := by
      rw [← (Bool.and_eq_true_iff.mp hahead).2, Cursor.peekAt, Cursor.peek, Cursor.passOver,
        List.head?_drop]
    exact .inl ⟨rfl, ne_nil_of_readWhile h hdigit, h⟩
  | false =>
    rw [hahead] at h
    cases h
    exact .inr ⟨rfl, rfl, rfl⟩

theorem cases_of_scanExponent {found : Option Exponent}
    (h : scanExponent cursor = .ok found last) :
    (markAhead cursor = true ∧ ∃ exponent middle, found = some exponent ∧
      readIf isSign (cursor.passOver 1) = .ok exponent.sign middle ∧
      readWhile isDigit middle = .ok exponent.digits last) ∨
      markAhead cursor = false ∧ found = none ∧ last = cursor := by
  have hscan : scanExponent cursor =
      if markAhead cursor then (do
        let sign ← readIf isSign
        let digits ← readWhile isDigit
        return some ⟨sign, digits⟩ : Scan (Option Exponent)) (cursor.passOver 1)
      else .ok none cursor := by
    change (if markAhead cursor = true then _ else _ : Scan (Option Exponent)) cursor = _
    split <;> rfl
  rw [hscan] at h
  cases hahead : markAhead cursor with
  | true =>
    rw [if_pos hahead] at h
    obtain ⟨sign, middle, hsign, h⟩ := bind_eq_ok.mp h
    obtain ⟨digits, _, hdigits, h⟩ := bind_eq_ok.mp h
    obtain ⟨rfl, rfl⟩ := pure_eq_ok.mp h
    exact .inl ⟨rfl, ⟨sign, digits⟩, middle, rfl, hsign, hdigits⟩
  | false =>
    rw [hahead] at h
    cases h
    exact .inr ⟨rfl, rfl, rfl⟩

theorem spells_scanFraction :
    Spells cursor scanFraction fun fraction run ↦
      run = afterPoint fraction ∧ ∀ c ∈ fraction, isDigit c = true := by
  intro fraction last hok
  obtain ⟨hahead, hne, hread⟩ | ⟨-, rfl, rfl⟩ := cases_of_scanFraction hok
  · obtain ⟨point, hpeek, hpoint⟩ :=
      (Option.any_eq_true _ _).mp (Bool.and_eq_true_iff.mp hahead).1
    obtain ⟨tail, htail⟩ := List.head?_eq_some_iff.mp hpeek
    obtain rfl := eq_of_beq hpoint
    obtain ⟨_, hrun, rfl, hclass⟩ := spells_readWhile isDigit fraction last hread
    refine ⟨_, (Cursor.between_passOver cursor 1).append hrun, ?_, hclass⟩
    obtain ⟨digit, others, rfl⟩ := List.exists_cons_of_ne_nil hne
    rw [htail]
    rfl
  · exact ⟨[], .refl last, rfl, List.forall_mem_nil _⟩

theorem spells_scanExponent :
    Spells cursor scanExponent fun exponent run ↦ ∃ mark, isExponentMark mark = true ∧
      run = exponentText mark exponent ∧
      (∀ e ∈ exponent, ∀ c ∈ e.sign, isSign c = true) ∧
      ∀ e ∈ exponent, ∀ c ∈ e.digits, isDigit c = true := by
  intro found last hok
  obtain ⟨hahead, exponent, middle, rfl, hsign, hdigits⟩ | ⟨-, rfl, rfl⟩ :=
    cases_of_scanExponent hok
  · obtain ⟨mark, hpeek, hmark⟩ := (Option.any_eq_true _ _).mp (Bool.and_eq_true_iff.mp hahead).1
    obtain ⟨tail, htail⟩ := List.head?_eq_some_iff.mp hpeek
    obtain ⟨_, hsignRun, rfl, hsign⟩ := spells_readIf isSign _ _ hsign
    obtain ⟨_, hdigitsRun, rfl, hdigits⟩ := spells_readWhile isDigit _ _ hdigits
    refine ⟨_, (Cursor.between_passOver cursor 1).append (hsignRun.append hdigitsRun), mark,
      hmark, ?_, ?_, ?_⟩
    · rw [htail]
      rfl
    · rintro _ ⟨⟩
      exact hsign
    · rintro _ ⟨⟩
      exact hdigits
  · exact ⟨[], .refl last, 'e', rfl, rfl, nofun, nofun⟩

/-- A numeral is read from its written form alone. -/
theorem spells_scan? :
    Spells cursor scan? fun found run ↦ ∀ numeral ∈ found, numeral.HasForm ∧
      IsSuffixText numeral.suffix ∧
      ∃ mark, isExponentMark mark = true ∧ run = numeral.text mark ++ numeral.suffix := by
  refine (spells_readIf isSign).bind fun sign _ signRun hsign ↦ ?_
  refine (spells_readWhile isDigit).bind fun whole _ wholeRun hwhole ↦ ?_
  refine spells_scanFraction.bind fun fraction _ fractionRun hfraction ↦ ?_
  refine spells_ite (fun _ ↦ spells_pure nofun) fun hempty ↦ ?_
  refine spells_scanExponent.bind fun exponent _ exponentRun hexponent ↦ ?_
  refine spells_ite (fun _ ↦ spells_pure nofun) fun hcomplete ↦ ?_
  refine (spells_readAtMost 2 isSuffixLetter).bind fun suffix _ suffixRun hsuffix ↦ ?_
  refine spells_look rfl (spells_ite (fun hend ↦ spells_pure ?_) fun _ ↦ spells_pure nofun)
  rintro _ ⟨⟩
  obtain ⟨rfl, hsign⟩ := hsign
  obtain ⟨rfl, hwhole⟩ := hwhole
  obtain ⟨rfl, hfraction⟩ := hfraction
  obtain ⟨mark, hmark, rfl, hexponentSign, hexponentDigits⟩ := hexponent
  obtain ⟨rfl, hletters, hlength⟩ := hsuffix
  have hdigit : wholeRun ≠ [] ∨ fraction ≠ [] := by
    simpa [← not_and_or] using hempty
  have hdigits : ∀ e ∈ exponent, e.digits ≠ [] := fun e he hnil ↦
    hcomplete ((Option.any_eq_true _ _).mpr ⟨e, he, List.isEmpty_iff.mpr hnil⟩)
  refine ⟨⟨hsign, hwhole, hfraction, hdigit, hexponentSign, hexponentDigits, hdigits⟩,
    ⟨hletters, hlength, (Bool.and_eq_true_iff.mp hend).1⟩, mark, hmark, ?_⟩
  simp only [text, List.append_assoc, List.append_nil]

theorem atBoundary_of_scan? (h : scan? cursor = .ok (some numeral) last) :
    last.atBoundary = true := by
  obtain ⟨_, _, -, h⟩ := bind_eq_ok.mp h
  obtain ⟨_, _, -, h⟩ := bind_eq_ok.mp h
  obtain ⟨_, _, -, h⟩ := bind_eq_ok.mp h
  split at h
  · cases h
  obtain ⟨_, _, -, h⟩ := bind_eq_ok.mp h
  split at h
  · cases h
  obtain ⟨_, _, -, h⟩ := bind_eq_ok.mp h
  obtain ⟨boundary, _, hboundary, h⟩ := bind_eq_ok.mp h
  obtain ⟨rfl, rfl⟩ := EStateM.Result.ok.inj hboundary
  split at h
  · next hend =>
    cases h
    exact (Bool.and_eq_true_iff.mp hend).2
  · cases h

/-- There may be no numeral, but there is never a fault. -/
theorem succeeds_scan? : Succeeds scan? := by
  have hreadWhile : Succeeds (readWhile isDigit) := fun _ ↦ ⟨_, _, rfl⟩
  have hreadIf : Succeeds (readIf isSign) := fun _ ↦ ⟨_, _, rfl⟩
  have hskip : Succeeds (skip 1) := fun _ ↦ ⟨_, _, rfl⟩
  have hreadAtMost : Succeeds (readAtMost 2 isSuffixLetter) := fun _ ↦ ⟨_, _, rfl⟩
  have hboundary : Succeeds Scan.atBoundary := fun _ ↦ ⟨_, _, rfl⟩
  have hfraction : Succeeds scanFraction :=
    (succeeds_nextIs _).bind fun _ ↦ (succeeds_secondIs _).bind fun _ ↦
      .ite (hskip.bind fun _ ↦ hreadWhile) (succeeds_pure _)
  have hexponent : Succeeds scanExponent :=
    (succeeds_nextIs _).bind fun _ ↦ (succeeds_secondIs _).bind fun _ ↦
      .ite (hskip.bind fun _ ↦ hreadIf.bind fun _ ↦ hreadWhile.bind fun _ ↦ succeeds_pure _)
        (succeeds_pure _)
  refine hreadIf.bind fun _ ↦ hreadWhile.bind fun _ ↦ hfraction.bind fun _ ↦ ?_
  refine .ite (succeeds_pure _) (hexponent.bind fun _ ↦ .ite (succeeds_pure _) ?_)
  exact hreadAtMost.bind fun _ ↦ hboundary.bind fun _ ↦ .ite (succeeds_pure _) (succeeds_pure _)

end Numeral

end ResourceQuery
