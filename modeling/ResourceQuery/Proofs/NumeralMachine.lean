import ResourceQuery.Proofs.NumeralLanguage

/-!
# The machine of numerals

A numeral can also be read by a machine, one character after the other: it looks at the next
character and at the one behind it, and moves on as long as what it has read may be the beginning of
a numeral. Every step of the scanner leads the machine from one of its phases to another, over the
same text, so that both stop at the same place and with the same outcome.
-/

namespace ResourceQuery

open Run

namespace Numeral

open Text Scan

/-- The part of a numeral that has been read last. -/
inductive Phase where
  | start | sign | whole | fraction | exponentMark | exponentSign | exponent | suffix
  deriving DecidableEq, Repr

/-- More of the text, with what stands in it. -/
def Written.extend (written : Written) (more : List Char) : Written :=
  { written with text := written.text ++ more, isReal := written.isReal || more.any isRealMark }

/-- One more letter of the suffix. -/
def Written.withLetter (written : Written) (c : Char) : Written :=
  { written with suffix := written.suffix ++ [c] }

namespace Phase

/-- The phase with the first digit, or with a point in front of it. -/
def leading? (cursor : Cursor) : Option Phase :=
  if cursor.peek.any isDigit then some whole
  else if pointAhead cursor then some fraction
  else none

/-- The phase with the mark of an exponent. -/
def marked? (cursor : Cursor) : Option Phase :=
  if markAhead cursor then some exponentMark else none

/-- The phase with the next character, if that is not a part of the suffix. -/
def next? (cursor : Cursor) : Phase → Option Phase
  | start => if cursor.peek.any isSign then some sign else leading? cursor
  | sign => leading? cursor
  | whole => (leading? cursor).or (marked? cursor)
  | fraction => if cursor.peek.any isDigit then some fraction else marked? cursor
  | exponentMark =>
    if cursor.peek.any isSign then some exponentSign
    else if cursor.peek.any isDigit then some exponent
    else none
  | exponentSign | exponent => if cursor.peek.any isDigit then some exponent else none
  | suffix => none

/-- What has been read is a numeral without a suffix. -/
def isNumber : Phase → Bool
  | whole | fraction | exponent => true
  | _ => false

/-- What has been read is a numeral if the suffix may be written. -/
def mayEnd (phase : Phase) : Bool :=
  phase.isNumber || phase == suffix

/-- What is found if nothing more is read. -/
def found? (phase : Phase) (written : Written) : Option Written :=
  if phase.isNumber || (phase == suffix && isSuffix written.suffix) then some written else none

/-- The next character is taken as a part of the suffix. -/
def takesLetter (phase : Phase) (written : Written) (c : Char) : Bool :=
  phase.mayEnd && isSuffixLetter c && written.suffix.length < 2

/-- Reads on until nothing can be read any more; what has been read is a numeral if the phase may be
the last one and no word goes on. -/
def run (phase : Phase) (written : Written) (passed : List Char) :
    List Char → Option Written × Cursor
  | [] => (phase.found? written, ⟨passed, []⟩)
  | c :: rest =>
    match phase.next? ⟨passed, c :: rest⟩ with
    | some phase => phase.run (written.extend [c]) (c :: passed) rest
    | none =>
      if phase.takesLetter written c then
        let longer := written.withLetter c
        if !isSuffix longer.suffix && longer.suffix.length == 2 then (none, ⟨c :: passed, rest⟩)
        else suffix.run longer (c :: passed) rest
      else (if isTerminator c then phase.found? written else none, ⟨passed, c :: rest⟩)

end Phase

/-- The outcome of the machine at the cursor, and where it stops. -/
def machine (cursor : Cursor) : Option Written × Cursor :=
  Phase.start.run ⟨[], [], false⟩ cursor.passed cursor.ahead

variable {cursor middle next last : Cursor} {p q r : Phase} {written : Written}
  {inClass : Char → Bool} {c : Char}

/-! ### From phase to phase -/

@[simp]
theorem Written.extend_nil (written : Written) : written.extend [] = written := by
  simp [extend]

theorem Written.extend_append (written : Written) (text more : List Char) :
    written.extend (text ++ more) = (written.extend text).extend more := by
  simp [extend, Bool.or_assoc]

/-- The machine comes from one phase to another by passing what is between the cursors. -/
def Leads (p : Phase) (cursor : Cursor) (q : Phase) (next : Cursor) : Prop :=
  ∃ text, Cursor.Between text cursor next ∧ ∀ written : Written,
    p.run written cursor.passed cursor.ahead = q.run (written.extend text) next.passed next.ahead

theorem Leads.refl (p : Phase) (cursor : Cursor) : Leads p cursor p cursor :=
  ⟨[], .refl cursor, fun written ↦ by rw [Written.extend_nil]⟩

theorem Leads.trans (h : Leads p cursor q middle) (h' : Leads q middle r next) :
    Leads p cursor r next := by
  obtain ⟨text, hbetween, hrun⟩ := h
  obtain ⟨more, hbetween', hrun'⟩ := h'
  refine ⟨text ++ more, hbetween.append hbetween', fun written ↦ ?_⟩
  rw [hrun, hrun', Written.extend_append]

theorem leads_next (hpeek : cursor.peek = some c) (h : p.next? cursor = some q) :
    Leads p cursor q (cursor.passOver 1) := by
  obtain ⟨passed, ahead⟩ := cursor
  obtain ⟨rest, rfl⟩ := List.head?_eq_some_iff.mp hpeek
  refine ⟨[c], Cursor.between_passOver ⟨passed, c :: rest⟩ 1, fun written ↦ ?_⟩
  rw [Phase.run, h]
  rfl

/-- The class leads from the first phase to the second and goes on there. -/
theorem leads_readWhile {found : List Char} (h : readWhile inClass cursor = .ok found next)
    (hp : cursor.peek.any inClass = true → p.next? cursor = some q)
    (hq : ∀ cursor : Cursor, cursor.peek.any inClass = true → q.next? cursor = some q) :
    Leads p cursor (if found.isEmpty then p else q) next := by
  induction found generalizing cursor p with
  | nil =>
    obtain ⟨_, _, hfound, -⟩ | ⟨-, -, rfl⟩ := cases_of_readWhile h
    · cases hfound
    · exact .refl p next
  | cons c others ih =>
    obtain ⟨_, _, hfound, hpeek, hclass, hread⟩ | ⟨hfound, -⟩ := cases_of_readWhile h
    · obtain ⟨rfl, rfl⟩ := List.cons.inj hfound
      have hothers := ih hread (hq _)
      rw [ite_self] at hothers
      exact (leads_next hpeek (hp (by rwa [hpeek]))).trans hothers
    · cases hfound

/-- A phase in which a sign may come next goes on as behind a sign if there is none. -/
theorem leads_sign {found : Option Char} (h : readIf isSign cursor = .ok found next)
    (hp : ∀ cursor, p.next? cursor = if cursor.peek.any isSign then some q else q.next? cursor) :
    ∃ r, Leads p cursor r next ∧ (r = p ∨ r = q) ∧ r.next? next = q.next? next := by
  obtain ⟨c, rfl, hpeek, hclass, rfl⟩ | ⟨rfl, hpeek, rfl⟩ := cases_of_readIf h
  · refine ⟨q, leads_next hpeek ?_, .inr rfl, rfl⟩
    rw [hp, hpeek, Option.any_some, if_pos hclass]
  · refine ⟨p, .refl p next, .inl rfl, ?_⟩
    rw [hp, hpeek]
    rfl

/-- A point leads to a fraction, at the end of which there may be an exponent. -/
theorem leads_scanFraction {found : List Char} {other : Option Phase}
    (h : scanFraction cursor = .ok found next)
    (hp : p.next? cursor = if pointAhead cursor then some .fraction else other) :
    found ≠ [] ∧ Leads p cursor .fraction next ∧
      Phase.fraction.next? next = Phase.marked? next ∨
      found = [] ∧ next = cursor ∧ p.next? next = other := by
  obtain ⟨hahead, hne, hread⟩ | ⟨hahead, rfl, rfl⟩ := cases_of_scanFraction h
  · obtain ⟨c, hpeek, -⟩ := (Option.any_eq_true _ _).mp (Bool.and_eq_true_iff.mp hahead).1
    have hdigits : Leads .fraction (cursor.passOver 1)
        (if found.isEmpty then .fraction else .fraction) next :=
      leads_readWhile hread (if_pos ·) fun _ ↦ (if_pos ·)
    rw [ite_self] at hdigits
    refine .inl ⟨hne, (leads_next hpeek (by rw [hp, if_pos hahead])).trans hdigits, ?_⟩
    rw [Phase.next?, peek_of_readWhile hread]
    rfl
  · rw [hahead] at hp
    exact .inr ⟨rfl, rfl, hp⟩

/-- A sign, digits and a fraction lead to a phase of numerals, if there is some digit. -/
theorem leads_mantissa {start sign whole : Cursor} {first : Option Char}
    {digits fraction : List Char} (hsign : readIf isSign start = .ok first sign)
    (hwhole : readWhile isDigit sign = .ok digits whole)
    (hfraction : scanFraction whole = .ok fraction next) :
    ∃ p, Leads .start start p next ∧
      if digits.isEmpty && fraction.isEmpty then (p = .start ∨ p = .sign) ∧ p.next? next = none
      else (p = .whole ∨ p = .fraction) ∧ p.next? next = Phase.marked? next := by
  obtain ⟨p, hlead, hp, hnext⟩ := leads_sign (p := .start) (q := .sign) hsign fun _ ↦ rfl
  have hdigits : Leads p sign (if digits.isEmpty then p else .whole) whole :=
    leads_readWhile hwhole (fun hdigit ↦ by rw [hnext, Phase.next?, Phase.leading?, if_pos hdigit])
      fun _ hdigit ↦ by
      rw [Phase.next?, Phase.leading?, if_pos hdigit]
      rfl
  have hdigit := peek_of_readWhile hwhole
  have hleading : Phase.leading? whole = if pointAhead whole then some .fraction else none := by
    rw [Phase.leading?, hdigit]
    rfl
  obtain ⟨c, others, rfl, -⟩ | ⟨rfl, -, rfl⟩ := cases_of_readWhile hwhole
  · have hwhole : Phase.whole.next? whole =
        if pointAhead whole then some .fraction else Phase.marked? whole := by
      rw [Phase.next?, hleading]
      split <;> rfl
    obtain ⟨hne, hlead', hnext'⟩ | ⟨rfl, rfl, hnext'⟩ := leads_scanFraction hfraction hwhole
    · exact ⟨.fraction, (hlead.trans hdigits).trans hlead', .inr rfl, hnext'⟩
    · exact ⟨.whole, hlead.trans hdigits, .inl rfl, hnext'⟩
  · obtain ⟨hne, hlead', hnext'⟩ | ⟨rfl, rfl, hnext'⟩ :=
      leads_scanFraction hfraction (hnext.trans hleading)
    · refine ⟨.fraction, hlead.trans hlead', ?_⟩
      rw [List.isEmpty_eq_false_iff.mpr hne]
      exact ⟨.inr rfl, hnext'⟩
    · exact ⟨p, hlead, hp, hnext'⟩

/-- An exponent leads to a phase of numerals, if it has digits. -/
theorem leads_scanExponent {found : Option Exponent} (h : scanExponent cursor = .ok found next)
    (hp : p = .whole ∨ p = .fraction) (hnext : p.next? cursor = Phase.marked? cursor) :
    ∃ q, Leads p cursor q next ∧ q.next? next = none ∧
      q.mayEnd = !found.any (·.digits.isEmpty) := by
  obtain ⟨hahead, exponent, middle, rfl, hsign, hread⟩ | ⟨hahead, rfl, rfl⟩ :=
    cases_of_scanExponent h
  · obtain ⟨c, hpeek, -⟩ := (Option.any_eq_true _ _).mp (Bool.and_eq_true_iff.mp hahead).1
    have hmark : Leads p cursor .exponentMark (cursor.passOver 1) :=
      leads_next hpeek (by rw [hnext, Phase.marked?, if_pos hahead])
    obtain ⟨q, hsigned, hq, hdigit⟩ :=
      leads_sign (p := .exponentMark) (q := .exponentSign) hsign fun _ ↦ rfl
    have hdigits : Leads q middle (if exponent.digits.isEmpty then q else .exponent) next :=
      leads_readWhile hread (fun hpeek ↦ by rw [hdigit, Phase.next?, if_pos hpeek])
        fun _ ↦ (if_pos ·)
    refine ⟨_, hmark.trans (hsigned.trans hdigits), ?_⟩
    obtain ⟨c, others, hcons, -⟩ | ⟨hnil, hpeek, rfl⟩ := cases_of_readWhile hread
    · rw [Option.any_some, hcons, List.isEmpty_cons, if_neg Bool.false_ne_true, Phase.next?,
        peek_of_readWhile hread]
      exact ⟨rfl, rfl⟩
    · rw [Option.any_some, hnil, List.isEmpty_nil, if_pos rfl, hdigit, Phase.next?, hpeek]
      obtain rfl | rfl := hq
      · exact ⟨rfl, rfl⟩
      · exact ⟨rfl, rfl⟩
  · refine ⟨p, .refl p next, ?_, ?_⟩
    · rw [hnext, Phase.marked?, hahead]
      rfl
    · obtain rfl | rfl := hp
      · rfl
      · rfl

/-! ### Where the machine stops -/

/-- The machine stops in front of a character that is no part of a numeral. -/
theorem run_stop (hnext : p.next? cursor = none)
    (hletter : ∀ c ∈ cursor.peek, p.takesLetter written c = false) :
    p.run written cursor.passed cursor.ahead =
      (if cursor.atBoundary then p.found? written else none, cursor) := by
  obtain ⟨passed, _ | ⟨c, rest⟩⟩ := cursor
  · rfl
  · rw [Phase.run, hnext]
    simp only [hletter c rfl]
    rfl

/-- In a phase that may not be the last nothing is found. -/
theorem run_eq_none (hnext : p.next? cursor = none) (hmay : p.mayEnd = false) :
    p.run written cursor.passed cursor.ahead = (none, cursor) := by
  obtain ⟨hnumber, hsuffix⟩ := Bool.or_eq_false_iff.mp hmay
  rw [run_stop hnext fun c _ ↦ by rw [Phase.takesLetter, hmay]; rfl, Phase.found?, hnumber, hsuffix]
  exact congrArg (·, cursor) (ite_self none)

/-- In a phase that may be the last, what has been read is found if no word goes on. -/
theorem run_eq_written (hnext : p.next? cursor = none) (hmay : p.mayEnd = true)
    (hsuffix : isSuffix written.suffix = true)
    (hletter : ∀ c ∈ cursor.peek, p.takesLetter written c = false) :
    p.run written cursor.passed cursor.ahead =
      (if cursor.atBoundary then some written else none, cursor) := by
  have hfound : p.found? written = some written := by
    rw [Phase.found?, hsuffix, Bool.and_true]
    exact if_pos hmay
  rw [run_stop hnext hletter, hfound]

/-- Letters are taken as long as the suffix has fewer than two of them. -/
theorem run_letters {limit : Nat} {letters : List Char}
    (hread : readAtMost limit isSuffixLetter cursor = .ok letters next)
    (hnext : p.next? cursor = none) (hmay : p.mayEnd = true)
    (hsuffix : isSuffix written.suffix = true) (hlimit : written.suffix.length + limit = 2) :
    p.run written cursor.passed cursor.ahead =
      (if isSuffix (written.suffix ++ letters) && next.atBoundary then
        some { written with suffix := written.suffix ++ letters } else none, next) := by
  -- by the letters that may still come, which with those taken are two
  induction limit generalizing cursor p written letters with
  | zero =>
    obtain ⟨rfl, rfl⟩ : [] = letters ∧ cursor = next := EStateM.Result.ok.inj hread
    have hfull : written.suffix.length = 2 := hlimit
    have hletter : ∀ c ∈ cursor.peek, p.takesLetter written c = false := fun c _ ↦ by
      rw [Phase.takesLetter, hfull]
      exact Bool.and_false _
    rw [run_eq_written hnext hmay hsuffix hletter, List.append_nil, hsuffix]
    rfl
  | succ limit ih =>
    obtain ⟨c, others, rfl, hpeek, hclass, hread⟩ | ⟨rfl, hpeek, rfl⟩ := cases_of_readAtMost hread
    · obtain ⟨passed, ahead⟩ := cursor
      obtain ⟨rest, rfl⟩ := List.head?_eq_some_iff.mp hpeek
      have htakes : p.takesLetter written c = true := by
        rw [Phase.takesLetter, hmay, hclass]
        exact decide_eq_true (by omega)
      rw [Phase.run, hnext]
      simp only [htakes, if_true]
      have hlength : (written.withLetter c).suffix.length = written.suffix.length + 1 :=
        List.length_append
      have hletters : written.suffix ++ c :: others = (written.withLetter c).suffix ++ others :=
        List.append_cons _ _ _
      cases hmore : isSuffix (written.withLetter c).suffix with
      | true =>
        have hrun := ih (p := .suffix) hread rfl rfl hmore (by omega)
        rw [hletters, Bool.not_true, Bool.false_and, if_neg Bool.false_ne_true]
        exact hrun
      | false =>
        -- one letter alone is a suffix, so there are two
        have hfull : (written.withLetter c).suffix.length = 2 := by
          have hlong := (Bool.or_eq_false_iff.mp hmore).1
          rw [decide_eq_false_iff_not] at hlong
          omega
        obtain rfl : limit = 0 := by omega
        obtain ⟨rfl, rfl⟩ : [] = others ∧ _ = next := EStateM.Result.ok.inj hread
        rw [hletters, List.append_nil, hmore, hfull]
        rfl
    · have hletter : ∀ c ∈ next.peek, p.takesLetter written c = false := by
        intro c hc
        rw [Option.mem_def.mp hc] at hpeek
        rw [Phase.takesLetter, show isSuffixLetter c = false from hpeek, Bool.and_false]
        rfl
      rw [run_eq_written hnext hmay hsuffix hletter, List.append_nil, hsuffix]
      rfl

/-! ### The machine and the scanner -/

/-- The machine finds what the scanner finds, and stops where it stops. -/
theorem machine_eq {found : Option Numeral} (h : scan? cursor = .ok found last) :
    ∃ text, (∀ numeral ∈ found, Cursor.Between (text ++ numeral.suffix) cursor last) ∧
      machine cursor =
        (found.map fun numeral ↦ ⟨text, numeral.suffix, text.any isRealMark⟩, last) := by
  obtain ⟨sign, _, hsign, h⟩ := bind_eq_ok.mp h
  obtain ⟨whole, _, hwhole, h⟩ := bind_eq_ok.mp h
  obtain ⟨fraction, _, hfraction, h⟩ := bind_eq_ok.mp h
  obtain ⟨p, hmantissa, hphase⟩ := leads_mantissa hsign hwhole hfraction
  split at h
  · next hempty =>
    obtain ⟨rfl, rfl⟩ := pure_eq_ok.mp h
    rw [if_pos hempty] at hphase
    obtain ⟨hp, hnext⟩ := hphase
    have hmay : p.mayEnd = false := by
      obtain rfl | rfl := hp
      · rfl
      · rfl
    obtain ⟨text, -, hrun⟩ := hmantissa
    exact ⟨text, nofun, (hrun _).trans (run_eq_none hnext hmay)⟩
  · next hempty =>
    rw [if_neg hempty] at hphase
    obtain ⟨exponent, _, hexponent, h⟩ := bind_eq_ok.mp h
    obtain ⟨q, hlead, hnext, hmay⟩ := leads_scanExponent hexponent hphase.1 hphase.2
    obtain ⟨text, hbetween, hrun⟩ := hmantissa.trans hlead
    split at h
    · next hincomplete =>
      obtain ⟨rfl, rfl⟩ := pure_eq_ok.mp h
      rw [hincomplete] at hmay
      exact ⟨text, nofun, (hrun _).trans (run_eq_none hnext hmay)⟩
    · next hcomplete =>
      rw [Bool.not_eq_true] at hcomplete
      rw [hcomplete] at hmay
      obtain ⟨suffix, next, hsuffix, h⟩ := bind_eq_ok.mp h
      obtain ⟨boundary, _, hboundary, h⟩ := bind_eq_ok.mp h
      obtain ⟨rfl, rfl⟩ := EStateM.Result.ok.inj hboundary
      have hmachine : machine cursor = (if isSuffix suffix && next.atBoundary then
          some ⟨text, suffix, text.any isRealMark⟩ else none, next) :=
        (hrun ⟨[], [], false⟩).trans
          (run_letters hsuffix hnext hmay (show isSuffix [] = true from rfl) rfl)
      obtain ⟨_, hletters, rfl, -⟩ := spells_readAtMost 2 isSuffixLetter _ _ hsuffix
      split at h
      · next hend =>
        obtain ⟨rfl, rfl⟩ := pure_eq_ok.mp h
        rw [if_pos hend] at hmachine
        refine ⟨text, ?_, hmachine⟩
        rintro _ ⟨⟩
        exact hbetween.append hletters
      · next hend =>
        obtain ⟨rfl, rfl⟩ := pure_eq_ok.mp h
        rw [if_neg hend] at hmachine
        exact ⟨text, nofun, hmachine⟩

/-- What the machine finds is what the scanner finds, by its characters. -/
theorem scanWritten_eq (cursor : Cursor) :
    scanWritten cursor = .ok (machine cursor).1 (machine cursor).2 := by
  obtain ⟨found, last, hscan⟩ := succeeds_scan? cursor
  obtain ⟨text, hbetween, hmachine⟩ := machine_eq hscan
  rw [hmachine]
  cases found with
  | none => exact scanWritten_eq_none hscan
  | some numeral =>
    have hrun := hbetween numeral rfl
    have hreal : numeral.isReal = text.any isRealMark := by
      obtain ⟨run, hrun', hfound⟩ := spells_scan? _ _ hscan
      obtain ⟨hform, -, mark, hmark, rfl⟩ := hfound numeral rfl
      rw [List.append_cancel_right (hrun.unique hrun')]
      exact hform.isReal_eq hmark
    rw [scanWritten_eq_some hscan hrun, hreal]
    rfl

/-- The machine has the same outcome as the scanner at every cursor. It finds just the words of the
two expressions that stand one behind the other with a boundary behind them: it stops at their end,
and takes them for real if there is a point or the mark of an exponent in the first one. -/
theorem machine_recognises (cursor : Cursor) :
    scanWritten cursor = .ok (machine cursor).1 (machine cursor).2 ∧
    ∀ written last, machine cursor = (some written, last) ↔
      written.text ∈ mantissas.matches' ∧ written.suffix ∈ suffixes.matches' ∧
        written.isReal = written.text.any isRealMark ∧
        Cursor.Between (written.text ++ written.suffix) cursor last ∧ last.atBoundary = true := by
  refine ⟨scanWritten_eq cursor, fun written last ↦ ?_⟩
  rw [← scanWritten_eq_some_iff, scanWritten_eq, EStateM.Result.ok.injEq]
  exact Prod.ext_iff

/-- The second letter is read before it turns out that the two are no suffix. -/
example : machine (Cursor.start "-.5e3uu".toList) = (none, ⟨"uu3e5.-".toList, []⟩) := by decide

end Numeral

end ResourceQuery
