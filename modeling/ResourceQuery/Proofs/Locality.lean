import Mathlib.Data.List.TakeWhile
import ResourceQuery.Literal.Scan
import ResourceQuery.Proofs.Run

/-!
# Scanning is local

A scanner that succeeds on a text does the same wherever that text stands in a longer one, as long
as what follows begins with a character that no literal goes on with. `Agrees` says so of two
runs, one on the text alone and one within the longer text; marks of the two runs differ by what
stands before. Where the longer text can make up for nothing, a quote that is missing above all, the
first run also succeeds if the second one does; `strict` says that this is the case.
-/

namespace ResourceQuery

/-- The characters that may follow a word. -/
def stoppers : List Char := [')', ',', '&', '|', '=', '!', '<', '>']

/-- What follows a text is a character that may follow a word, or nothing. -/
def FollowsWord (rest : List Char) : Prop :=
  ∀ c ∈ rest.head?, c ∈ stoppers

/-- The characters that may follow a value. -/
def closers : List Char := [')', ',', '&', '|']

/-- What follows a text is a character that may follow a value, or nothing. -/
def FollowsValue (rest : List Char) : Prop :=
  ∀ c ∈ rest.head?, c ∈ closers

/-- There is no quote in the text. -/
def NoQuotes (text : List Char) : Prop :=
  '"' ∉ text ∧ '\'' ∉ text

/-- No quote of the text can be closed by what follows. -/
def KeepsQuotes (text rest : List Char) : Prop :=
  ∀ quote ∈ ['"', '\''], quote ∈ text → quote ∉ rest

theorem NoQuotes.not_mem {text : List Char} (h : NoQuotes text) {quote : Char}
    (hquote : quote ∈ ['"', '\'']) : quote ∉ text := by
  simp only [List.mem_cons, List.not_mem_nil, or_false] at hquote
  obtain rfl | rfl := hquote
  · exact h.1
  · exact h.2

theorem keepsQuotes_of_rest {text rest : List Char} (h : NoQuotes rest) : KeepsQuotes text rest :=
  fun _ hquote _ ↦ h.not_mem hquote

theorem keepsQuotes_of_text {text rest : List Char} (h : NoQuotes text) : KeepsQuotes text rest :=
  fun _ hquote hmem ↦ absurd hmem (h.not_mem hquote)

/-- What is checked of each item in a list holds of all of them. -/
theorem forall_mem_of_all {α : Type} {items : List α} {P : α → Prop} [DecidablePred P]
    (h : (items.all fun a ↦ decide (P a)) = true) : ∀ a ∈ items, P a :=
  fun a ha ↦ of_decide_eq_true (List.all_eq_true.mp h a ha)

theorem FollowsValue.stops {rest : List Char} (h : FollowsValue rest) : FollowsWord rest := by
  have hclosers : ∀ c ∈ closers, c ∈ stoppers := forall_mem_of_all (by decide)
  exact fun c hc ↦ hclosers c (h c hc)

/-- No character of the class begins the text. -/
def Bars (inClass : Char → Bool) (rest : List Char) : Prop :=
  rest.head?.any inClass = false

theorem bars_of_head {chars rest : List Char} (h : ∀ c ∈ rest.head?, c ∈ chars)
    {inClass : Char → Bool} (hclass : chars.any inClass = false) : Bars inClass rest := by
  cases hhead : rest.head? with
  | none => simp [Bars, hhead]
  | some c => simpa [Bars, hhead] using List.any_eq_false.mp hclass c (h c hhead)

/-- A character of a smaller class does not begin the text either. -/
theorem Bars.mono {inClass other : Char → Bool} {rest : List Char} (h : Bars inClass rest)
    (hclass : ∀ c, other c = true → inClass c = true) : Bars other rest := by
  cases rest with
  | nil => rfl
  | cons c rest => exact Bool.eq_false_iff.mpr fun hc ↦ Bool.eq_false_iff.mp h (hclass c hc)

/-- At a boundary no word goes on. -/
theorem Cursor.atBoundary_iff {cursor : Cursor} :
    cursor.atBoundary = true ↔ Bars isWordChar cursor.ahead := by
  obtain ⟨passed, _ | ⟨c, rest⟩⟩ := cursor
  · exact iff_of_true rfl rfl
  · change isTerminator c = true ↔ (!isTerminator c) = false
    rw [Bool.not_eq_false']

theorem FollowsWord.bars {rest : List Char} (h : FollowsWord rest) {inClass : Char → Bool}
    (hclass : stoppers.any inClass = false) : Bars inClass rest := bars_of_head h hclass

theorem FollowsValue.bars {rest : List Char} (h : FollowsValue rest) {inClass : Char → Bool}
    (hclass : closers.any inClass = false) : Bars inClass rest := bars_of_head h hclass

theorem takeWhile_append_of_bars {inClass : Char → Bool} (text : List Char) {rest : List Char}
    (h : Bars inClass rest) : (text ++ rest).takeWhile inClass = text.takeWhile inClass := by
  induction text with
  | nil =>
    cases rest with
    | nil => rfl
    | cons c rest =>
      have hc : inClass c = false := by simpa [Bars] using h
      simp [hc]
  | cons c text ih => simp [List.takeWhile_cons, ih]

theorem takeWhile_take_append_of_bars {inClass : Char → Bool} (limit : Nat) (text : List Char)
    {rest : List Char} (h : Bars inClass rest) :
    ((text ++ rest).take limit).takeWhile inClass = (text.take limit).takeWhile inClass := by
  rw [List.take_append]
  apply takeWhile_append_of_bars
  cases hcount : limit - text.length with
  | zero => rfl
  | succ count =>
    cases rest with
    | nil => rfl
    | cons c rest => exact h

section Run

variable {inClass : Char → Bool} {run run' rest rest' : List Char}

/-- A run of characters of a class ends where what follows begins with none. -/
theorem takeWhile_run (hrun : ∀ c ∈ run, inClass c = true) (hrest : Bars inClass rest) :
    (run ++ rest).takeWhile inClass = run := by
  rw [takeWhile_append_of_bars _ hrest, List.takeWhile_eq_self_iff]
  exact hrun

theorem takeWhile_take_run {limit : Nat} (hlength : run.length ≤ limit)
    (hrun : ∀ c ∈ run, inClass c = true) (hrest : Bars inClass rest) :
    ((run ++ rest).take limit).takeWhile inClass = run := by
  rw [takeWhile_take_append_of_bars limit run hrest, List.take_of_length_le hlength,
    List.takeWhile_eq_self_iff]
  exact hrun

/-- Texts that begin with a run of a class are equal just if the runs and the rests are. -/
theorem append_inj_of_bars (hrun : ∀ c ∈ run, inClass c = true)
    (hrun' : ∀ c ∈ run', inClass c = true) (hrest : Bars inClass rest)
    (hrest' : Bars inClass rest') (h : run ++ rest = run' ++ rest') :
    run = run' ∧ rest = rest' := by
  have hsame := congrArg (List.takeWhile inClass) h
  rw [takeWhile_run hrun hrest, takeWhile_run hrun' hrest'] at hsame
  subst hsame
  exact ⟨rfl, List.append_cancel_left h⟩

theorem Cursor.countAhead_run {passed : List Char} (hrun : ∀ c ∈ run, inClass c = true)
    (hrest : Bars inClass rest) :
    (⟨passed, run ++ rest⟩ : Cursor).countAhead inClass = run.length :=
  congrArg List.length (takeWhile_run hrun hrest)

end Run

/-- A character behind the text is not in a class that what follows does not begin with. -/
theorem any_getElem?_append {inClass : Char → Bool} {text rest : List Char} {place : Nat}
    (hplace : place ≤ text.length) (h : Bars inClass rest) :
    (text ++ rest)[place]?.any inClass = text[place]?.any inClass := by
  rcases Nat.lt_or_eq_of_le hplace with hlt | rfl
  · rw [List.getElem?_append_left hlt]
  · rw [List.getElem?_append_right (Nat.le_refl _), Nat.sub_self, ← List.head?_eq_getElem?, h]
    simp

theorem any_head?_append {inClass : Char → Bool} {text rest : List Char} (h : Bars inClass rest) :
    (text ++ rest).head?.any inClass = text.head?.any inClass := by
  cases text with
  | nil => exact h
  | cons c text => rfl

theorem length_takeWhile_le (inClass : Char → Bool) (text : List Char) :
    (text.takeWhile inClass).length ≤ text.length :=
  (List.takeWhile_prefix inClass).length_le

theorem length_takeWhile_take_le (inClass : Char → Bool) (limit : Nat) (text : List Char) :
    ((text.take limit).takeWhile inClass).length ≤ text.length :=
  Nat.le_trans (length_takeWhile_le inClass _) (List.length_take_le' limit text)

namespace Cursor

/-- The same place, in a text with more before it and behind it. -/
def embed (before rest : List Char) (cursor : Cursor) : Cursor :=
  ⟨cursor.passed ++ before, cursor.ahead ++ rest⟩

variable {before rest : List Char}

theorem position_embed (cursor : Cursor) :
    (cursor.embed before rest).position = cursor.position + before.length := by
  simp [embed, position]

theorem passOver_embed {cursor : Cursor} {count : Nat} (h : count ≤ cursor.ahead.length) :
    (cursor.embed before rest).passOver count = (cursor.passOver count).embed before rest := by
  simp [embed, passOver, List.take_append_of_le_length h, List.drop_append_of_le_length h]

theorem countAhead_embed {inClass : Char → Bool} (h : Bars inClass rest) (cursor : Cursor) :
    (cursor.embed before rest).countAhead inClass = cursor.countAhead inClass := by
  rw [countAhead, embed, takeWhile_append_of_bars _ h, countAhead]

theorem countAhead_le (inClass : Char → Bool) (cursor : Cursor) :
    cursor.countAhead inClass ≤ cursor.ahead.length :=
  length_takeWhile_le inClass cursor.ahead

theorem any_peek_embed {inClass : Char → Bool} (h : Bars inClass rest) (cursor : Cursor) :
    (cursor.embed before rest).peek.any inClass = cursor.peek.any inClass :=
  any_head?_append h

theorem one_le_of_any_peek {inClass : Char → Bool} {cursor : Cursor}
    (h : cursor.peek.any inClass = true) : 1 ≤ cursor.ahead.length := by
  obtain ⟨passed, _ | ⟨c, ahead⟩⟩ := cursor
  · cases h
  · simp

theorem any_peekAt_embed {inClass : Char → Bool} (h : Bars inClass rest) {cursor : Cursor}
    {place : Nat} (hplace : place ≤ cursor.ahead.length) :
    ((cursor.embed before rest).peekAt place).any inClass = (cursor.peekAt place).any inClass :=
  any_getElem?_append hplace h

theorem any_beq (found : Option Char) (c : Char) :
    found.any (· == c) = (found == some c) := by
  cases found <;> rfl

theorem peekAt_beq_embed {c : Char} (h : Bars (· == c) rest) {cursor : Cursor} {place : Nat}
    (hplace : place ≤ cursor.ahead.length) :
    ((cursor.embed before rest).peekAt place == some c) = (cursor.peekAt place == some c) := by
  rw [← any_beq, ← any_beq, any_peekAt_embed h hplace]

theorem position_le (cursor : Cursor) : cursor.position ≤ cursor.source.length := by
  simp [position, source]

theorem textFrom_embed (cursor : Cursor) (mark : Nat) :
    (cursor.embed before rest).textFrom (mark + before.length) = cursor.textFrom mark := by
  have hcount : cursor.position + before.length - (mark + before.length) =
      cursor.position - mark := by omega
  have hlength : cursor.position - mark ≤ cursor.passed.length := Nat.sub_le _ _
  rw [textFrom, position_embed, hcount, embed, textFrom, List.take_append_of_le_length hlength]

theorem source_embed (cursor : Cursor) :
    (cursor.embed before rest).source = before.reverse ++ cursor.source ++ rest := by
  simp [embed, source]

theorem moveTo_embed {cursor : Cursor} {mark : Nat} (h : mark ≤ cursor.source.length) :
    (cursor.embed before rest).moveTo (mark + before.length) =
      (cursor.moveTo mark).embed before rest := by
  have htake : (before.reverse ++ cursor.source ++ rest).take (mark + before.length) =
      before.reverse ++ cursor.source.take mark := by
    rw [List.append_assoc, List.take_append, List.length_reverse, Nat.add_sub_cancel,
      List.take_append_of_le_length h, List.take_of_length_le (by simp)]
  have hdrop : (before.reverse ++ cursor.source ++ rest).drop (mark + before.length) =
      cursor.source.drop mark ++ rest := by
    rw [List.append_assoc, List.drop_append, List.length_reverse, Nat.add_sub_cancel,
      List.drop_append_of_le_length h, List.drop_of_length_le (by simp), List.nil_append]
  rw [moveTo, source_embed, start, passOver, htake, hdrop]
  simp [moveTo, start, passOver, embed]

/-- Back at a position of its text, a cursor stands where another one stands there. -/
theorem moveTo_eq {cursor other : Cursor} (h : other.source = cursor.source) :
    other.moveTo cursor.position = cursor := by
  rw [moveTo, h]
  simp [start, passOver, source, position]

end Cursor

namespace Scan

open Run

variable {α β : Type} {strict : Prop} {before rest : List Char} {cursor : Cursor}
  {scanner other : Scan α}

/-- Whatever has been tried, back at an earlier place reading goes on from there. -/
theorem moveTo_bind {middle : Cursor} {next : Unit → Scan β} (h : middle.source = cursor.source) :
    (Scan.moveTo cursor.position >>= next) middle = next () cursor :=
  bind_ok (congrArg (EStateM.Result.ok ()) (Cursor.moveTo_eq h))

/-- Where the first scanner succeeds on a text, the other one does the same in the longer text. If
nothing in the longer text makes up for what is missing, the other one succeeds nowhere else. -/
structure Agrees (strict : Prop) (before rest : List Char) (cursor : Cursor)
    (scanner other : Scan α) : Prop where
  embed (a : α) (next : Cursor) (h : scanner cursor = .ok a next) :
    next.source = cursor.source ∧ other (cursor.embed before rest) = .ok a (next.embed before rest)
  alone (hstrict : strict) (a : α) (next : Cursor)
    (h : other (cursor.embed before rest) = .ok a next) : ∃ a next, scanner cursor = .ok a next

/-- In a strict case, what the other scanner does is what the first one does. -/
theorem Agrees.of_embed (h : Agrees strict before rest cursor scanner other) (hstrict : strict)
    {a : α} {next : Cursor} (hother : other (cursor.embed before rest) = .ok a next) :
    ∃ inner, scanner cursor = .ok a inner ∧ inner.source = cursor.source ∧
      next = inner.embed before rest := by
  obtain ⟨b, inner, hscanner⟩ := h.alone hstrict a next hother
  obtain ⟨hsource, hembed⟩ := h.embed b inner hscanner
  rw [hother] at hembed
  cases hembed
  exact ⟨inner, hscanner, hsource, rfl⟩

theorem Agrees.bind {next others : α → Scan β}
    (h : Agrees strict before rest cursor scanner other)
    (hnext : ∀ a middle, scanner cursor = .ok a middle → middle.source = cursor.source →
      Agrees strict before rest middle (next a) (others a)) :
    Agrees strict before rest cursor (scanner >>= next) (other >>= others) where
  embed b last hok := by
    obtain ⟨a, middle, ha, hb⟩ := bind_eq_ok.mp hok
    obtain ⟨hmiddle, hother⟩ := h.embed a middle ha
    obtain ⟨hlast, hothers⟩ := (hnext a middle ha hmiddle).embed b last hb
    exact ⟨hlast.trans hmiddle, by rw [bind_ok hother, hothers]⟩
  alone hstrict b last hok := by
    obtain ⟨a, stood, ha, hb⟩ := bind_eq_ok.mp hok
    obtain ⟨middle, hscanner, hmiddle, rfl⟩ := h.of_embed hstrict ha
    obtain ⟨b, last, hlast⟩ := (hnext a middle hscanner hmiddle).alone hstrict b last hb
    exact ⟨b, last, by rw [bind_ok hscanner, hlast]⟩

/-- Only what the runs do from these places matters. -/
theorem Agrees.congr {scanner' other' : Scan α} (h : Agrees strict before rest cursor scanner other)
    (hscanner : scanner' cursor = scanner cursor)
    (hother : other' (cursor.embed before rest) = other (cursor.embed before rest)) :
    Agrees strict before rest cursor scanner' other' where
  embed a next hok := by
    rw [hother]
    exact h.embed a next (hscanner ▸ hok)
  alone hstrict a next hok := by
    rw [hscanner]
    exact h.alone hstrict a next (hother ▸ hok)

/-- A step that always succeeds agrees if it does the same in both places. -/
theorem agrees_of_eq {a : α} {next : Cursor} (h : scanner cursor = .ok a next)
    (hsource : next.source = cursor.source)
    (hother : other (cursor.embed before rest) = .ok a (next.embed before rest)) :
    Agrees strict before rest cursor scanner other where
  embed b last hok := by
    rw [h] at hok
    cases hok
    exact ⟨hsource, hother⟩
  alone _ _ _ _ := ⟨a, next, h⟩

/-- Two steps that fail. -/
theorem agrees_of_error {fault otherFault : LexicalFault} {next otherNext : Cursor}
    (h : scanner cursor = .error fault next)
    (hother : other (cursor.embed before rest) = .error otherFault otherNext) :
    Agrees strict before rest cursor scanner other where
  embed a next hok := by
    rw [h] at hok
    cases hok
  alone _ a next hok := by
    rw [hother] at hok
    cases hok

theorem agrees_pure (a : α) : Agrees strict before rest cursor (pure a) (pure a) :=
  agrees_of_eq rfl rfl rfl

theorem Agrees.map {f : α → β} (h : Agrees strict before rest cursor scanner other) :
    Agrees strict before rest cursor (f <$> scanner) (f <$> other) :=
  h.bind fun a _ _ _ ↦ agrees_pure (f a)

theorem agrees_throw (fault otherFault : LexicalFault) :
    Agrees strict before rest cursor (throw fault : Scan α) (throw otherFault) :=
  agrees_of_error rfl rfl

theorem agrees_failFrom (mark otherMark : Nat) (fault otherFault : String → LexicalFault) :
    Agrees strict before rest cursor (failFrom mark fault : Scan α)
      (failFrom otherMark otherFault) :=
  agrees_of_error rfl rfl

theorem agrees_failFrom_bind {mark otherMark : Nat} {fault otherFault : String → LexicalFault}
    {next others : α → Scan β} :
    Agrees strict before rest cursor (failFrom mark fault >>= next)
      (failFrom otherMark otherFault >>= others) :=
  agrees_of_error rfl rfl

theorem agrees_ite {p : Prop} [Decidable p] {yes no otherYes otherNo : Scan α}
    (hyes : p → Agrees strict before rest cursor yes otherYes)
    (hno : ¬p → Agrees strict before rest cursor no otherNo) :
    Agrees strict before rest cursor (if p then yes else no)
      (if p then otherYes else otherNo) := by
  split
  · next h => exact hyes h
  · next h => exact hno h

/-- A check that only fails when it does not hold. -/
theorem agrees_unless {p : Prop} [Decidable p] {mark otherMark : Nat}
    {fault otherFault : String → LexicalFault} {next others : Unit → Scan β}
    (h : p → Agrees strict before rest cursor (next ()) (others ())) :
    Agrees strict before rest cursor (if p then next () else failFrom mark fault >>= next)
      (if p then others () else failFrom otherMark otherFault >>= others) :=
  agrees_ite h fun _ ↦ agrees_failFrom_bind

theorem agrees_when {p : Prop} [Decidable p] {mark otherMark : Nat}
    {fault otherFault : String → LexicalFault} {next others : Unit → Scan β}
    (h : ¬p → Agrees strict before rest cursor (next ()) (others ())) :
    Agrees strict before rest cursor (if p then failFrom mark fault >>= next else next ())
      (if p then failFrom otherMark otherFault >>= others else others ()) :=
  agrees_ite (fun _ ↦ agrees_failFrom_bind) h

theorem agrees_get {next others : Cursor → Scan β}
    (h : Agrees strict before rest cursor (next cursor) (others (cursor.embed before rest))) :
    Agrees strict before rest cursor (get >>= next) (get >>= others) :=
  h.congr rfl rfl

theorem agrees_peek {next others : Option Char → Scan β}
    (h : Agrees strict before rest cursor (next cursor.peek)
      (others (cursor.embed before rest).peek)) :
    Agrees strict before rest cursor (peek >>= next) (peek >>= others) :=
  h.congr rfl rfl

theorem agrees_position {next others : Nat → Scan β}
    (h : Agrees strict before rest cursor (next cursor.position)
      (others (cursor.position + before.length))) :
    Agrees strict before rest cursor (position >>= next) (position >>= others) := by
  have hplace : (cursor.embed before rest).position = cursor.position + before.length :=
    Cursor.position_embed cursor
  rw [← hplace] at h
  exact h.congr rfl rfl

theorem agrees_skip {count : Nat} (h : count ≤ cursor.ahead.length) :
    Agrees strict before rest cursor (skip count) (skip count) := by
  refine agrees_of_eq rfl (Cursor.source_passOver cursor count) ?_
  change EStateM.Result.ok () ((cursor.embed before rest).passOver count) = _
  rw [Cursor.passOver_embed h]

theorem agrees_moveTo {mark : Nat} (h : mark ≤ cursor.source.length) :
    Agrees strict before rest cursor (moveTo mark) (moveTo (mark + before.length)) := by
  refine agrees_of_eq rfl (Cursor.source_moveTo mark cursor) ?_
  change EStateM.Result.ok () ((cursor.embed before rest).moveTo _) = _
  rw [Cursor.moveTo_embed h]

theorem agrees_modifyGet {f : Cursor → α × Cursor} (hsource : (f cursor).2.source = cursor.source)
    (h : f (cursor.embed before rest) = ((f cursor).1, (f cursor).2.embed before rest)) :
    Agrees strict before rest cursor (modifyGet f : Scan α) (modifyGet f) := by
  refine agrees_of_eq rfl hsource ?_
  change EStateM.Result.ok (f (cursor.embed before rest)).1 (f (cursor.embed before rest)).2 = _
  rw [h]

theorem agrees_readWhile {inClass : Char → Bool} (h : Bars inClass rest) :
    Agrees strict before rest cursor (readWhile inClass) (readWhile inClass) := by
  have hread : (cursor.embed before rest).readWhile inClass =
      ((cursor.readWhile inClass).1, (cursor.readWhile inClass).2.embed before rest) := by
    rw [Cursor.readWhile, Cursor.readWhile, Cursor.embed, takeWhile_append_of_bars _ h]
    exact congrArg _ (Cursor.passOver_embed (length_takeWhile_le inClass cursor.ahead))
  exact agrees_modifyGet (Cursor.source_passOver _ _) hread

theorem agrees_readAtMost {inClass : Char → Bool} (limit : Nat) (h : Bars inClass rest) :
    Agrees strict before rest cursor (readAtMost limit inClass) (readAtMost limit inClass) := by
  have hread : (cursor.embed before rest).readAtMost limit inClass =
      ((cursor.readAtMost limit inClass).1,
        (cursor.readAtMost limit inClass).2.embed before rest) := by
    rw [Cursor.readAtMost, Cursor.readAtMost, Cursor.embed, takeWhile_take_append_of_bars _ _ h]
    exact congrArg _ (Cursor.passOver_embed (length_takeWhile_take_le inClass limit cursor.ahead))
  exact agrees_modifyGet (Cursor.source_passOver _ _) hread

theorem agrees_readIf {inClass : Char → Bool} (h : Bars inClass rest) :
    Agrees strict before rest cursor (readIf inClass) (readIf inClass) := by
  have hread : (cursor.embed before rest).readIf inClass =
      ((cursor.readIf inClass).1, (cursor.readIf inClass).2.embed before rest) := by
    rw [Cursor.readIf, Cursor.readIf, Cursor.any_peek_embed h]
    split
    · next hpeek =>
      obtain ⟨passed, ahead⟩ := cursor
      cases ahead with
      | nil => cases hpeek
      | cons c ahead => rfl
    · rfl
  refine agrees_modifyGet ?_ hread
  rw [Cursor.readIf]
  split
  · exact Cursor.source_passOver _ _
  · rfl

theorem class_of_readIf {inClass : Char → Bool} {c : Char} {next : Cursor}
    (h : readIf inClass cursor = .ok (some c) next) : inClass c = true := by
  have hread : (cursor.readIf inClass).1 = some c := (EStateM.Result.ok.inj h).1
  rw [Cursor.readIf] at hread
  split at hread
  · next hpeek =>
    have hc : cursor.peek = some c := hread
    simpa [hc] using hpeek
  · cases hread

theorem agrees_accept {c : Char} (h : Bars (· == c) rest) :
    Agrees strict before rest cursor (accept c) (accept c) :=
  (agrees_readIf h).bind fun _ _ _ _ ↦ agrees_pure _

/-- A character that is not there leaves the cursor where it was. -/
theorem eq_of_accept_eq_false {c : Char} {next : Cursor}
    (h : accept c cursor = .ok false next) : next = cursor := by
  obtain ⟨found, middle, hread, hfound⟩ := bind_eq_ok.mp h
  obtain ⟨hnone, rfl⟩ := pure_eq_ok.mp hfound
  have hresult : (cursor.readIf (· == c)).1 = found := (EStateM.Result.ok.inj hread).1
  have hcursor : (cursor.readIf (· == c)).2 = middle := (EStateM.Result.ok.inj hread).2
  rw [Cursor.readIf] at hresult hcursor
  by_cases hpeek : cursor.peek.any (· == c) = true
  · rw [if_pos hpeek] at hresult
    cases hfirst : cursor.peek with
    | none => simp [hfirst] at hpeek
    | some first => simp [← hresult, Cursor.read, hfirst] at hnone
  · rw [if_neg hpeek] at hcursor
    exact hcursor.symm

theorem readIf_eq_ok {inClass : Char → Bool} {found : Option Char} {next : Cursor}
    (h : cursor.readIf inClass = (found, next)) : readIf inClass cursor = .ok found next := by
  change EStateM.Result.ok (cursor.readIf inClass).1 (cursor.readIf inClass).2 = _
  rw [h]

theorem accept_eq_false {c : Char} (h : cursor.peek ≠ some c) :
    accept c cursor = .ok false cursor := by
  have hpeek : cursor.peek.any (· == c) = false := by
    rw [Cursor.any_beq]
    exact beq_eq_false_iff_ne.mpr h
  have hread : cursor.readIf (· == c) = (none, cursor) := by
    rw [Cursor.readIf, hpeek]
    rfl
  rw [accept, bind_ok (readIf_eq_ok hread)]
  rfl

theorem agrees_nextIs {inClass : Char → Bool} (h : Bars inClass rest) :
    Agrees strict before rest cursor (nextIs inClass) (nextIs inClass) := by
  refine agrees_of_eq rfl rfl ?_
  change EStateM.Result.ok ((cursor.embed before rest).peek.any inClass) _ = _
  rw [Cursor.any_peek_embed h]

theorem agrees_atBoundary (h : FollowsWord rest) :
    Agrees strict before rest cursor atBoundary atBoundary := by
  refine agrees_of_eq rfl rfl ?_
  have hboundary : (cursor.embed before rest).atBoundary = cursor.atBoundary := by
    obtain ⟨passed, ahead⟩ := cursor
    cases ahead with
    | nil =>
      cases hhead : rest.head? with
      | none => simp [Cursor.embed, Cursor.atBoundary, Cursor.peek, hhead]
      | some c =>
        have hc : isTerminator c = true :=
          (forall_mem_of_all (by decide) : ∀ c ∈ stoppers, isTerminator c = true) c (h c hhead)
        simp [Cursor.embed, Cursor.atBoundary, Cursor.peek, hhead, hc]
    | cons c ahead => rfl
  change EStateM.Result.ok (cursor.embed before rest).atBoundary _ = _
  rw [hboundary]

/-- A check of the next two characters; the second does not matter when there is no first one. -/
theorem agrees_nextTwo {first second : Char → Bool} {next others : Bool → Scan β}
    (hfirst : Bars first rest) (hsecond : Bars second rest)
    (h : ∀ both, (both = true → 2 ≤ cursor.ahead.length) →
      Agrees strict before rest cursor (next both) (others both)) :
    Agrees strict before rest cursor
      (nextIs first >>= fun x ↦ secondIs second >>= fun y ↦ next (x && y))
      (nextIs first >>= fun x ↦ secondIs second >>= fun y ↦ others (x && y)) := by
  have hboth : ((cursor.embed before rest).peek.any first &&
      ((cursor.embed before rest).peekAt 1).any second) =
        (cursor.peek.any first && (cursor.peekAt 1).any second) := by
    rw [Cursor.any_peek_embed hfirst]
    obtain ⟨passed, ahead⟩ := cursor
    cases ahead with
    | nil => rfl
    | cons c ahead => rw [Cursor.any_peekAt_embed hsecond (by simp)]
  have hlength : (cursor.peek.any first && (cursor.peekAt 1).any second) = true →
      2 ≤ cursor.ahead.length := by
    obtain ⟨passed, _ | ⟨c, _ | ⟨d, ahead⟩⟩⟩ := cursor <;> simp [Cursor.peek, Cursor.peekAt]
  refine (h _ hlength).congr rfl ?_
  change others ((cursor.embed before rest).peek.any first &&
    ((cursor.embed before rest).peekAt 1).any second) (cursor.embed before rest) = _
  rw [hboth]

theorem agrees_ifNextTwo {first second : Char → Bool} {yes no otherYes otherNo : Scan β}
    (hfirst : Bars first rest) (hsecond : Bars second rest)
    (hyes : 2 ≤ cursor.ahead.length → Agrees strict before rest cursor yes otherYes)
    (hno : Agrees strict before rest cursor no otherNo) :
    Agrees strict before rest cursor
      (nextIs first >>= fun x ↦ secondIs second >>= fun y ↦ if (x && y) = true then yes else no)
      (nextIs first >>= fun x ↦ secondIs second >>= fun y ↦
        if (x && y) = true then otherYes else otherNo) :=
  agrees_nextTwo hfirst hsecond fun _ hlength ↦ agrees_ite (fun h ↦ hyes (hlength h)) fun _ ↦ hno

end Scan

end ResourceQuery
