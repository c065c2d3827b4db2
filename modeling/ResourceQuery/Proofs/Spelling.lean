import Mathlib.Data.List.TakeWhile
import ResourceQuery.Proofs.Locality

/-!
# The text that a scanner passes

What a scanner finds belongs together with the text that it passes. `Spells` says so of a scanner at
a cursor, step by step: the texts of a sequence of steps stand one behind the other, and a step that
only looks ahead passes nothing.
-/

namespace ResourceQuery

open Run

namespace Cursor

variable {cursor middle next : Cursor} {run more : List Char}

/-- The text that has been passed on the way from one cursor to another. -/
structure Between (run : List Char) (cursor next : Cursor) : Prop where
  passed : next.passed = run.reverse ++ cursor.passed
  ahead : cursor.ahead = run ++ next.ahead

theorem Between.refl (cursor : Cursor) : Between [] cursor cursor := ⟨rfl, rfl⟩

theorem Between.append (h : Between run cursor middle) (h' : Between more middle next) :
    Between (run ++ more) cursor next where
  passed := by rw [h'.passed, h.passed, List.reverse_append, List.append_assoc]
  ahead := by rw [h.ahead, h'.ahead, List.append_assoc]

/-- Between two cursors there is one text only. -/
theorem Between.unique (h : Between run cursor next) (h' : Between more cursor next) :
    run = more :=
  List.append_cancel_right (h.ahead.symm.trans h'.ahead)

theorem between_passOver (cursor : Cursor) (count : Nat) :
    Between (cursor.ahead.take count) cursor (cursor.passOver count) :=
  ⟨rfl, (List.take_append_drop count cursor.ahead).symm⟩

theorem passOver_append (passed run rest : List Char) :
    (⟨passed, run ++ rest⟩ : Cursor).passOver run.length = ⟨run.reverse ++ passed, rest⟩ := by
  simp [passOver]

/-- A run at the front of what is ahead is passed as a whole. -/
theorem between_prefix (h : run <+: cursor.ahead) :
    Between run cursor (cursor.passOver run.length) := by
  have htake : cursor.ahead.take run.length = run := (List.prefix_iff_eq_take.mp h).symm
  have hbetween := between_passOver cursor run.length
  rwa [htake] at hbetween

theorem Between.textFrom_eq (h : Between run cursor next) :
    next.textFrom cursor.position = run := by
  have hposition : next.position - cursor.position = run.reverse.length := by
    simp [position, h.passed]
  rw [textFrom, hposition, h.passed, List.take_left, List.reverse_reverse]

theorem textFrom_zero (cursor : Cursor) : cursor.textFrom 0 = cursor.passed.reverse := by
  rw [textFrom, position, Nat.sub_zero, List.take_length]

theorem ahead_readWhile (inClass : Char → Bool) (cursor : Cursor) :
    (cursor.readWhile inClass).2.ahead = cursor.ahead.dropWhile inClass := by
  have hsplit := List.takeWhile_append_dropWhile (p := inClass) (l := cursor.ahead)
  calc cursor.ahead.drop (cursor.ahead.takeWhile inClass).length
    _ = (cursor.ahead.takeWhile inClass ++ cursor.ahead.dropWhile inClass).drop
          (cursor.ahead.takeWhile inClass).length := by rw [hsplit]
    _ = cursor.ahead.dropWhile inClass := List.drop_left

end Cursor

namespace Scan

open Cursor

variable {α β : Type} {cursor last : Cursor} {scanner : Scan α} {form : α → List Char → Prop}
  {whole : β → List Char → Prop} {next : α → Scan β}

/-- What the scanner finds and the text that it passes have this form. -/
def Spells (cursor : Cursor) (scanner : Scan α) (form : α → List Char → Prop) : Prop :=
  ∀ a last, scanner cursor = .ok a last → ∃ run, Between run cursor last ∧ form a run

theorem Spells.bind (h : Spells cursor scanner form)
    (hnext : ∀ a middle run, form a run →
      Spells middle (next a) fun b more ↦ whole b (run ++ more)) :
    Spells cursor (scanner >>= next) whole := by
  intro b last hok
  obtain ⟨a, middle, ha, hb⟩ := bind_eq_ok.mp hok
  obtain ⟨run, hrun, hform⟩ := h a middle ha
  obtain ⟨more, hmore, hwhole⟩ := hnext a middle run hform b last hb
  exact ⟨run ++ more, hrun.append hmore, hwhole⟩

theorem Spells.mono {weaker : α → List Char → Prop} (h : Spells cursor scanner form)
    (hform : ∀ a run, form a run → weaker a run) : Spells cursor scanner weaker := by
  intro a last hok
  obtain ⟨run, hrun, ha⟩ := h a last hok
  exact ⟨run, hrun, hform a run ha⟩

theorem spells_pure {a : α} (h : form a []) : Spells cursor (pure a) form := by
  intro b last hok
  obtain ⟨rfl, rfl⟩ := pure_eq_ok.mp hok
  exact ⟨[], .refl cursor, h⟩

theorem spells_failFrom (mark : Nat) (fault : String → LexicalFault) :
    Spells cursor (failFrom mark fault : Scan α) form :=
  fun _ _ h ↦ nomatch h

theorem spells_ite {p : Prop} [Decidable p] {yes no : Scan α} (hyes : p → Spells cursor yes form)
    (hno : ¬p → Spells cursor no form) : Spells cursor (if p then yes else no) form := by
  split
  · next h => exact hyes h
  · next h => exact hno h

/-- A step that only looks ahead passes nothing. -/
theorem spells_look {a : α} {next : α → Scan β} (hlook : scanner cursor = .ok a cursor)
    (h : Spells cursor (next a) whole) : Spells cursor (scanner >>= next) whole := by
  intro b last hok
  rw [bind_ok hlook] at hok
  exact h b last hok

/-- Nothing comes behind a fault. -/
theorem spells_failFrom_bind {mark : Nat} {fault : String → LexicalFault} {next : α → Scan β} :
    Spells cursor (failFrom mark fault >>= next) whole :=
  fun _ _ h ↦ nomatch h

theorem spells_skip (count : Nat) :
    Spells cursor (skip count) fun _ run ↦ run = cursor.ahead.take count := by
  intro a last hok
  cases hok
  exact ⟨_, between_passOver cursor count, rfl⟩

theorem spells_readWhile (inClass : Char → Bool) :
    Spells cursor (readWhile inClass) fun found run ↦ run = found ∧ ∀ c ∈ found, inClass c := by
  intro found last hok
  cases hok
  exact ⟨_, between_prefix (List.takeWhile_prefix _), rfl, fun c hc ↦ List.mem_takeWhile_imp hc⟩

theorem spells_readAtMost (limit : Nat) (inClass : Char → Bool) :
    Spells cursor (readAtMost limit inClass) fun found run ↦
      run = found ∧ (∀ c ∈ found, inClass c) ∧ found.length ≤ limit := by
  intro found last hok
  cases hok
  have htaken : _ <+: cursor.ahead.take limit := List.takeWhile_prefix inClass
  exact ⟨_, between_prefix (htaken.trans (List.take_prefix limit _)), rfl,
    fun c hc ↦ List.mem_takeWhile_imp hc, htaken.length_le.trans (List.length_take_le limit _)⟩

/-- The next character is read if it is in the class, and nothing otherwise. -/
theorem cases_of_readIf {inClass : Char → Bool} {found : Option Char}
    (h : readIf inClass cursor = .ok found last) :
    (∃ c, found = some c ∧ cursor.peek = some c ∧ inClass c = true ∧ last = cursor.passOver 1) ∨
      found = none ∧ cursor.peek.any inClass = false ∧ last = cursor := by
  by_cases hclass : cursor.peek.any inClass = true
  · obtain ⟨c, hc, hin⟩ := (Option.any_eq_true _ _).mp hclass
    have hread : readIf inClass cursor = .ok (some c) (cursor.passOver 1) :=
      readIf_eq_ok (by rw [Cursor.readIf, if_pos hclass, Cursor.read, hc])
    rw [hread] at h
    cases h
    exact .inl ⟨c, rfl, hc, hin, rfl⟩
  · have hread : readIf inClass cursor = .ok none cursor :=
      readIf_eq_ok (by rw [Cursor.readIf, if_neg hclass])
    rw [hread] at h
    cases h
    exact .inr ⟨rfl, Bool.eq_false_iff.mpr hclass, rfl⟩

/-- The class is read from its first character on, or there is none. -/
theorem cases_of_readWhile {inClass : Char → Bool} {found : List Char}
    (h : readWhile inClass cursor = .ok found last) :
    (∃ c others, found = c :: others ∧ cursor.peek = some c ∧ inClass c = true ∧
      readWhile inClass (cursor.passOver 1) = .ok others last) ∨
      found = [] ∧ cursor.peek.any inClass = false ∧ last = cursor := by
  obtain ⟨hfound, hlast⟩ : (cursor.readWhile inClass).1 = found ∧
      (cursor.readWhile inClass).2 = last := EStateM.Result.ok.inj h
  obtain ⟨passed, _ | ⟨c, ahead⟩⟩ := cursor
  · exact .inr ⟨hfound.symm, rfl, hlast.symm⟩
  cases hc : inClass c with
  | true =>
    refine .inl ⟨c, ahead.takeWhile inClass, ?_, rfl, hc, ?_⟩
    · simpa [Cursor.readWhile, hc] using hfound.symm
    · change EStateM.Result.ok (ahead.takeWhile inClass) _ = _
      rw [← hlast]
      simp [Cursor.readWhile, passOver, hc]
  | false =>
    refine .inr ⟨?_, hc, ?_⟩
    · simpa [Cursor.readWhile, hc] using hfound.symm
    · simpa [Cursor.readWhile, passOver, hc] using hlast.symm

theorem cases_of_readAtMost {limit : Nat} {inClass : Char → Bool} {found : List Char}
    (h : readAtMost (limit + 1) inClass cursor = .ok found last) :
    (∃ c others, found = c :: others ∧ cursor.peek = some c ∧ inClass c = true ∧
      readAtMost limit inClass (cursor.passOver 1) = .ok others last) ∨
      found = [] ∧ cursor.peek.any inClass = false ∧ last = cursor := by
  obtain ⟨hfound, hlast⟩ : (cursor.readAtMost (limit + 1) inClass).1 = found ∧
      (cursor.readAtMost (limit + 1) inClass).2 = last := EStateM.Result.ok.inj h
  obtain ⟨passed, _ | ⟨c, ahead⟩⟩ := cursor
  · exact .inr ⟨hfound.symm, rfl, hlast.symm⟩
  cases hc : inClass c with
  | true =>
    refine .inl ⟨c, (ahead.take limit).takeWhile inClass, ?_, rfl, hc, ?_⟩
    · simpa [Cursor.readAtMost, hc] using hfound.symm
    · change EStateM.Result.ok ((ahead.take limit).takeWhile inClass) _ = _
      rw [← hlast]
      simp [Cursor.readAtMost, passOver, hc]
  | false =>
    refine .inr ⟨?_, hc, ?_⟩
    · simpa [Cursor.readAtMost, hc] using hfound.symm
    · simpa [Cursor.readAtMost, passOver, hc] using hlast.symm

theorem ne_nil_of_readWhile {inClass : Char → Bool} {found : List Char}
    (h : readWhile inClass cursor = .ok found last) (hpeek : cursor.peek.any inClass = true) :
    found ≠ [] := by
  obtain ⟨c, others, rfl, -⟩ | ⟨-, hnone, -⟩ := cases_of_readWhile h
  · exact List.cons_ne_nil c others
  · rw [hnone] at hpeek
    cases hpeek

/-- Behind what has been read nothing of the class comes next. -/
theorem peek_of_readWhile {inClass : Char → Bool} {found : List Char}
    (h : readWhile inClass cursor = .ok found last) : last.peek.any inClass = false := by
  induction found generalizing cursor with
  | nil =>
    obtain ⟨c, others, hfound, -⟩ | ⟨-, hpeek, rfl⟩ := cases_of_readWhile h
    · cases hfound
    · exact hpeek
  | cons c others ih =>
    obtain ⟨_, _, hfound, -, -, hread⟩ | ⟨hfound, -⟩ := cases_of_readWhile h
    · obtain ⟨rfl, rfl⟩ := List.cons.inj hfound
      exact ih hread
    · cases hfound

theorem spells_readIf (inClass : Char → Bool) :
    Spells cursor (readIf inClass) fun found run ↦ run = found.toList ∧ ∀ c ∈ found, inClass c := by
  intro found last hok
  obtain ⟨c, rfl, hpeek, hclass, rfl⟩ | ⟨rfl, -, rfl⟩ := cases_of_readIf hok
  · obtain ⟨tail, htail⟩ := List.head?_eq_some_iff.mp hpeek
    refine ⟨[c], between_prefix ⟨tail, htail.symm⟩, rfl, ?_⟩
    rintro _ ⟨⟩
    exact hclass
  · exact ⟨[], .refl last, rfl, nofun⟩

theorem spells_accept (c : Char) :
    Spells cursor (accept c) fun found run ↦ run = if found then [c] else [] := by
  refine (spells_readIf (· == c)).bind fun found _ run hfound ↦ spells_pure ?_
  obtain ⟨rfl, hclass⟩ := hfound
  cases found with
  | none => rfl
  | some d =>
    obtain rfl : d = c := eq_of_beq (hclass d rfl)
    rfl

/-! ### Scanners without faults -/

/-- The scanner finds something at every cursor. -/
def Succeeds (scanner : Scan α) : Prop :=
  ∀ cursor, ∃ a last, scanner cursor = .ok a last

theorem Succeeds.bind (h : Succeeds scanner) (hnext : ∀ a, Succeeds (next a)) :
    Succeeds (scanner >>= next) := by
  intro cursor
  obtain ⟨a, middle, ha⟩ := h cursor
  rw [bind_ok ha]
  exact hnext a middle

theorem succeeds_pure (a : α) : Succeeds (pure a) := fun cursor ↦ ⟨a, cursor, rfl⟩

theorem Succeeds.ite {p : Prop} [Decidable p] {yes no : Scan α} (hyes : Succeeds yes)
    (hno : Succeeds no) : Succeeds (if p then yes else no) := by
  split
  · exact hyes
  · exact hno

theorem succeeds_nextIs (inClass : Char → Bool) : Succeeds (nextIs inClass) :=
  fun _ ↦ ⟨_, _, rfl⟩

theorem succeeds_secondIs (inClass : Char → Bool) : Succeeds (secondIs inClass) :=
  fun _ ↦ ⟨_, _, rfl⟩

end Scan

end ResourceQuery
