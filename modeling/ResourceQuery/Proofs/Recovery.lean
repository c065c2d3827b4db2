import ResourceQuery.Proofs.TokenText

/-!
# Scanners that recover what was printed

A scanner recovers what a text was printed for if it reads the whole text, finds that, and stops
right behind it. The pieces of a text are recovered one after the other, each in front of what comes
behind it; a run of characters of a class needs to know that it ends there, a run of a fixed length
does not.
-/

namespace ResourceQuery

open Run

namespace Scan

variable {α β : Type} {scanner : Scan α} {next : α → Scan β} {text more rest : List Char} {a : α}
  {b : β} {c : Char} {inClass : Char → Bool}

/-- In front of `rest` the scanner reads the whole text, and finds what it was printed for. -/
def Recovers (scanner : Scan α) (text : List Char) (a : α) (rest : List Char) : Prop :=
  ∀ passed, scanner ⟨passed, text ++ rest⟩ = .ok a ⟨text.reverse ++ passed, rest⟩

theorem Recovers.bind (h : Recovers scanner text a (more ++ rest))
    (hnext : Recovers (next a) more b rest) :
    Recovers (scanner >>= next) (text ++ more) b rest := by
  intro passed
  rw [List.append_assoc, bind_ok (h passed), hnext, List.reverse_append, List.append_assoc]

theorem Recovers.bind_cons (h : Recovers scanner [c] a (more ++ rest))
    (hnext : Recovers (next a) more b rest) : Recovers (scanner >>= next) (c :: more) b rest :=
  Recovers.bind h hnext

theorem recovers_pure : Recovers (pure a) [] a rest := fun _ ↦ rfl

theorem Recovers.map (h : Recovers scanner text a rest) {f : α → β} :
    Recovers (do return f (← scanner)) text (f a) rest :=
  fun passed ↦ map_ok (h passed)

/-- The place where a scanner begins makes no difference to what it finds. -/
theorem recovers_position {next : Nat → Scan β} (h : ∀ mark, Recovers (next mark) text b rest) :
    Recovers (position >>= next) text b rest :=
  fun passed ↦ h passed.length passed

theorem recovers_look
    (hlook : ∀ passed, scanner ⟨passed, text ++ rest⟩ = .ok a ⟨passed, text ++ rest⟩)
    (h : Recovers (next a) text b rest) : Recovers (scanner >>= next) text b rest := by
  intro passed
  rw [bind_ok (hlook passed), h]

theorem recovers_skip (text : List Char) : Recovers (skip text.length) text () rest :=
  fun passed ↦ congrArg (EStateM.Result.ok ()) (Cursor.passOver_append passed text rest)

/-- A run of the class is read up to a character that is not of it. -/
theorem recovers_readWhile (h : ∀ c ∈ text, inClass c = true) (hrest : Bars inClass rest) :
    Recovers (readWhile inClass) text text rest := by
  intro passed
  change EStateM.Result.ok _ _ = _
  rw [takeWhile_run h hrest, Cursor.passOver_append]

/-- A run that is as long as it may be is read whatever follows. -/
theorem recovers_readAtMost (h : ∀ c ∈ text, inClass c = true) :
    Recovers (readAtMost text.length inClass) text text rest := by
  intro passed
  have hrun : ((text ++ rest).take text.length).takeWhile inClass = text := by
    rw [List.take_left, List.takeWhile_eq_self_iff]
    exact h
  change EStateM.Result.ok _ _ = _
  rw [hrun, Cursor.passOver_append]

/-- A shorter run is read up to a character that is not of the class. -/
theorem recovers_readAtMost_of_bars {limit : Nat} (hlength : text.length ≤ limit)
    (h : ∀ c ∈ text, inClass c = true) (hrest : Bars inClass rest) :
    Recovers (readAtMost limit inClass) text text rest := by
  intro passed
  change EStateM.Result.ok _ _ = _
  rw [takeWhile_take_run hlength h hrest, Cursor.passOver_append]

theorem recovers_readIf (h : inClass c = true) : Recovers (readIf inClass) [c] (some c) rest :=
  fun _ ↦ readIf_eq_ok (by simp [Cursor.readIf, Cursor.peek, Cursor.read, Cursor.passOver, h])

/-- A character that may be missing is read if it is there. -/
theorem recovers_readIf_option {found : Option Char} (h : ∀ c ∈ found, inClass c = true)
    (hrest : found = none → Bars inClass rest) :
    Recovers (readIf inClass) found.toList found rest := by
  cases found with
  | some c => exact recovers_readIf (h c rfl)
  | none => exact fun _ ↦ readIf_eq_ok (if_neg (Bool.eq_false_iff.mp (hrest rfl)))

theorem recovers_accept : Recovers (accept c) [c] true rest :=
  (recovers_readIf (by simp)).map (f := Option.isSome)

end Scan

namespace Lexeme

variable {localOffset : UtcOffset} {type : LiteralType}

/-- Behind the name of a type and a colon a literal of that type is read. -/
theorem scanWord_typed (word : List Char) (hword : ∀ c ∈ word, isWordChar c = true)
    (hhex : (word.takeWhile Text.isHexDigit).length ≠ 8)
    (hscheme : Literal.isWebScheme word = false) (htype : LiteralType.ofWord? word = some type)
    (passed text : List Char) :
    scanWord localOffset ⟨passed, word ++ ':' :: text⟩ =
      (do return literal (← Literal.scanTyped localOffset passed.length type) : Scan Lexeme)
        ⟨':' :: (word.reverse ++ passed), text⟩ := by
  let behind : Cursor := ⟨word.reverse ++ passed, ':' :: text⟩
  have hguid : Guid.ahead ⟨passed, word ++ ':' :: text⟩ = false := by
    have hbars : Bars Text.isHexDigit (':' :: text) := rfl
    simp [Guid.ahead, Cursor.countAhead, takeWhile_append_of_bars _ hbars, hhex]
  have hends : Bars isWordChar (':' :: text) := rfl
  have hread : Scan.readWhile isWordChar ⟨passed, word ++ ':' :: text⟩ = .ok word behind :=
    Scan.recovers_readWhile hword hends passed
  have hvalue : Literal.scanAfterWord localOffset passed.length word behind =
      Literal.scanTyped localOffset passed.length type ⟨':' :: (word.reverse ++ passed), text⟩ := by
    rw [Literal.scanAfterWord, hscheme, htype]
    rfl
  rw [scanWord_of_colon hguid hread rfl]
  exact bind_congr hvalue

end Lexeme

end ResourceQuery
