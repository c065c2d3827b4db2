import Mathlib.Data.List.Basic
import Mathlib.Data.List.TakeWhile
import ResourceQuery.Proofs.Recognition

/-!
# Reading pieces of a text

`Reads` says that a piece of text is cut into tokens of some form wherever it stands in front of
something that may follow it. Pieces that read can be put side by side, so the tokens of a long
text follow from those of its smallest pieces: symbols, names of functions, words and literals.
Where a token stands is not part of its form.
-/

namespace ResourceQuery

/-- The lexeme is a sign that has been split off a word. -/
def Lexeme.isSplitSign : Lexeme → Bool
  | splitSign _ => true
  | plain _ | literal _ => false

theorem Lexeme.isSplitSign_eq_false {lexeme : Lexeme}
    (h : lexeme.symbol = .property ∨ lexeme.symbol = .literal) : lexeme.isSplitSign = false := by
  cases lexeme with
  | plain symbol => rfl
  | literal value => rfl
  | splitSign order => simp [symbol] at h

/-! ### Names of functions -/

namespace Lexeme

open Run

/-- The character begins a word and nothing else. -/
def beginsWord (c : Char) : Bool :=
  !Text.isBlank c && !Text.isDigit c &&
    !(symbols ++ ['/', '"', '\'', ':', '.', '+', '-']).contains c

theorem not_blank_of_beginsWord {c : Char} (h : beginsWord c = true) : Text.isBlank c = false := by
  simp only [beginsWord, Bool.and_eq_true, Bool.not_eq_true'] at h
  exact h.1.1

theorem scan_eq_scanWord {c : Char} (h : beginsWord c = true) (localOffset : UtcOffset)
    (last : Option Symbol) : scan localOffset last c = scanWord localOffset := by
  simp only [beginsWord, Bool.and_eq_true, Bool.not_eq_true'] at h
  obtain ⟨⟨-, hdigit⟩, hothers⟩ := h
  have hne {other : Char} (hmem : other ∈ symbols ++ ['/', '"', '\'', ':', '.', '+', '-']) :
      (c == other) = false := by
    rw [beq_eq_false_iff_ne]
    rintro rfl
    simp [hmem] at hothers
  have hc : c ∉ symbols := by
    intro hc
    simpa using hne (List.mem_append_left _ hc)
  have hslash : c ≠ '/' := beq_eq_false_iff_ne.mp (hne (by decide))
  have hdigits (second : Option Char) : beginsDigits c second = false := by
    rw [beginsDigits, hdigit, hne (by decide), isSign, hne (by decide), hne (by decide)]
    rfl
  have horder : orderOfSign? c = none := by
    unfold orderOfSign?
    split
    · exact absurd (hne (by decide) : ('+' == '+') = false) (by decide)
    · exact absurd (hne (by decide) : ('-' == '-') = false) (by decide)
    · rfl
  rw [scan_eq_scanItem hc hslash]
  funext cursor
  rw [scanItem, bind_ok (get_eq cursor), hne (by decide), hne (by decide), hdigits, horder,
    hne (by decide)]
  rfl

/-- A word is read up to a symbol, and what it is depends on whether that opens a parenthesis. -/
theorem scanWord_word {word passed behind : List Char} {sign : Char} {localOffset : UtcOffset}
    (hword : ∀ c ∈ word, isWordChar c = true) (hhex : (word.takeWhile Text.isHexDigit).length ≠ 8)
    (hsign : sign ∈ symbols) :
    scanWord localOffset ⟨passed, word ++ sign :: behind⟩ =
      .ok (if sign = '(' then
          match keyword? word with
          | some keyword => .plain (.function keyword)
          | none => ofWord word
        else ofWord word)
        ⟨word.reverse ++ passed, sign :: behind⟩ := by
  have hclasses : ∀ sign ∈ symbols, isWordChar sign = false ∧ Text.isHexDigit sign = false ∧
      (sign == ':') = false ∧ Text.isBlank sign = false := forall_mem_of_all (by decide)
  obtain ⟨hends, hother, hcolon, hblank⟩ := hclasses sign hsign
  have hguid : Guid.ahead ⟨passed, word ++ sign :: behind⟩ = false := by
    have hbars : Bars Text.isHexDigit (sign :: behind) := hother
    simp [Guid.ahead, Cursor.countAhead, takeWhile_append_of_bars _ hbars, hhex]
  have hread : Scan.readWhile isWordChar ⟨passed, word ++ sign :: behind⟩ =
      .ok word ⟨word.reverse ++ passed, sign :: behind⟩ := by
    have hbars : Bars isWordChar (sign :: behind) := hends
    have hrun : (word ++ sign :: behind).takeWhile isWordChar = word := takeWhile_run hword hbars
    change EStateM.Result.ok _ _ = _
    simp [Cursor.passOver, hrun]
  have hparen : parenFollows ⟨word.reverse ++ passed, sign :: behind⟩ = (sign == '(') := by
    simp [parenFollows, hblank]
  rw [scanWord_of_no_colon hguid hread hcolon, hparen]
  by_cases hopen : sign = '('
  · subst hopen
    rfl
  · rw [beq_eq_false_iff_ne.mpr hopen, if_neg (by decide), if_neg hopen]

theorem isName_name (keyword : Keyword) :
    (∀ c ∈ keyword.name.toList, isWordChar c = true) ∧
      keyword.name.toList.head?.any beginsWord = true ∧
      (keyword.name.toList.takeWhile Text.isHexDigit).length ≠ 8 ∧
      keyword? keyword.name.toList = some keyword := by
  have hmem : keyword ∈ Keyword.all := keyword.mem_all
  rw [← List.all_eq_true]
  revert keyword
  decide

/-! ### Comparison signs -/

/-- After a look ahead, an equals sign is read by itself. -/
theorem moveTo_equals (passed rest : List Char) (count : Nat) :
    (do
      Scan.moveTo (⟨'=' :: passed, rest⟩ : Cursor).position
      return plain (.comparison .eq) : Scan Lexeme)
        ((⟨'=' :: passed, rest⟩ : Cursor).passOver count) =
      .ok (.plain (.comparison .eq)) ⟨'=' :: passed, rest⟩ := by
  have hmove := Cursor.moveTo_eq (Cursor.source_passOver ⟨'=' :: passed, rest⟩ count)
  change EStateM.Result.ok _ (Cursor.moveTo _ _) = _
  rw [hmove]

/-- An equals sign is one by itself unless a word behind it stands in front of another one. -/
theorem scan_equals {passed rest : List Char}
    (h : ∀ word behind, rest = word ++ '=' :: behind → (∀ c ∈ word, Text.isLetter c = true) →
      wordComparison? word = none)
    (localOffset : UtcOffset) (last : Option Symbol) :
    scan localOffset last '=' ⟨passed, '=' :: rest⟩ =
      .ok (.plain (.comparison .eq)) ⟨'=' :: passed, rest⟩ := by
  have hprefix : (rest.take 2).takeWhile Text.isLetter <+: rest :=
    (List.takeWhile_prefix _).trans (List.take_prefix 2 rest)
  obtain ⟨behind, hbehind⟩ := hprefix
  have hskip : Scan.skip 1 ⟨passed, '=' :: rest⟩ = .ok () ⟨'=' :: passed, rest⟩ := rfl
  have hmark : Scan.position ⟨'=' :: passed, rest⟩ =
      .ok (⟨'=' :: passed, rest⟩ : Cursor).position ⟨'=' :: passed, rest⟩ := rfl
  have hread : Scan.readAtMost 2 Text.isLetter ⟨'=' :: passed, rest⟩ =
      .ok ((rest.take 2).takeWhile Text.isLetter) ((⟨'=' :: passed, rest⟩ : Cursor).passOver
        ((rest.take 2).takeWhile Text.isLetter).length) := rfl
  change scanEquals ⟨passed, '=' :: rest⟩ = _
  rw [scanEquals, bind_ok hskip, bind_ok hmark, bind_ok hread]
  have hletters : ∀ c ∈ (rest.take 2).takeWhile Text.isLetter, Text.isLetter c = true :=
    fun c hc ↦ List.mem_takeWhile_imp hc
  generalize (rest.take 2).takeWhile Text.isLetter = word at hbehind hletters
  cases hop : wordComparison? word with
  | none => exact moveTo_equals passed rest _
  | some op =>
    have hpeek : ((⟨'=' :: passed, rest⟩ : Cursor).passOver word.length).peek ≠ some '=' := by
      intro hpeek
      have hhead : behind.head? = some '=' := by
        simpa [Cursor.peek, Cursor.passOver, ← hbehind] using hpeek
      obtain ⟨tail, rfl⟩ := List.head?_eq_some_iff.mp hhead
      rw [h word tail hbehind.symm hletters] at hop
      cases hop
    dsimp only
    rw [bind_ok (Scan.accept_eq_false hpeek), if_neg (by decide)]
    exact moveTo_equals passed rest _

theorem isLetter_iff (c : Char) : Text.isLetter c = true ↔
    (97 ≤ c.toNat ∧ c.toNat ≤ 122) ∨ (65 ≤ c.toNat ∧ c.toNat ≤ 90) := by
  simp [Text.isLetter, Char.le_def, UInt32.le_iff_toNat_le]

theorem isDigit_iff (c : Char) : Text.isDigit c = true ↔ 48 ≤ c.toNat ∧ c.toNat ≤ 57 := by
  simp [Text.isDigit, Char.le_def, UInt32.le_iff_toNat_le]

theorem not_blank_of_isLetter {c : Char} (h : Text.isLetter c = true) :
    Text.isBlank c = false := by
  have hrange := (isLetter_iff c).mp h
  simp only [Text.isBlank, Bool.or_eq_false_iff, Bool.and_eq_false_iff, beq_eq_false_iff_ne,
    decide_eq_false_iff_not]
  omega

theorem not_mem_of_isLetter {c : Char} {others : List Char} (h : Text.isLetter c = true)
    (hothers : others.any Text.isLetter = false) : others.contains c = false := by
  rw [List.contains_eq_mem, decide_eq_false_iff_not]
  intro hmem
  exact List.any_eq_false.mp hothers c hmem h

theorem beginsWord_of_isLetter {c : Char} (h : Text.isLetter c = true) : beginsWord c = true := by
  have hrange := (isLetter_iff c).mp h
  have hdigit : Text.isDigit c = false := by
    rw [Bool.eq_false_iff, Ne, isDigit_iff]
    omega
  rw [beginsWord, not_blank_of_isLetter h, hdigit, not_mem_of_isLetter h (by decide)]
  rfl

theorem isWordChar_of_isLetter {c : Char} (h : Text.isLetter c = true) : isWordChar c = true := by
  rw [isWordChar, isTerminator, not_blank_of_isLetter h, not_mem_of_isLetter h (by decide)]
  rfl

theorem lower_of_wordComparison? {word : List Char} {op : Comparison}
    (h : wordComparison? word = some op) : Text.lowerAscii word = op.name.toList := by
  have hname := List.find?_some h
  simpa using (eq_of_beq hname).symm

theorem length_of_wordComparison? {word : List Char} {op : Comparison}
    (h : wordComparison? word = some op) : word.length = 2 := by
  have hlength : (Text.lowerAscii word).length = 2 := by
    rw [lower_of_wordComparison? h]
    cases op <;> rfl
  simpa [Text.lowerAscii] using hlength

/-- The name of a comparison in front of an equals sign is a property by itself. -/
theorem scanWord_comparison {word passed behind : List Char} {op : Comparison}
    {localOffset : UtcOffset} (hword : ∀ c ∈ word, Text.isLetter c = true)
    (hop : wordComparison? word = some op) :
    scanWord localOffset ⟨passed, word ++ '=' :: behind⟩ =
      .ok (.plain .property) ⟨word.reverse ++ passed, '=' :: behind⟩ := by
  have hhex : (word.takeWhile Text.isHexDigit).length ≠ 8 := by
    have hle := length_takeWhile_le Text.isHexDigit word
    have hlength := length_of_wordComparison? hop
    omega
  have hproperty : ofWord word = .plain .property := by
    rw [ofWord, lower_of_wordComparison? hop]
    cases op <;> rfl
  rw [scanWord_word (fun c hc ↦ isWordChar_of_isLetter (hword c hc)) hhex (by decide),
    if_neg (by decide), hproperty]

end Lexeme

namespace Lexer

variable {lexer rest : Lexer} {token : Token} {tokens : List Token}

/-- Reading on from a lexer yields these tokens, the last of which is the end of the text. -/
inductive Yields : Lexer → List Token → Prop
  | stop {lexer rest : Lexer} {token : Token} (hnext : lexer.next = (.ok token, rest))
      (hstop : token.symbol = .stop) : Yields lexer [token]
  | more {lexer rest : Lexer} {token : Token} {tokens : List Token}
      (hnext : lexer.next = (.ok token, rest)) (hsymbol : token.symbol ≠ .stop)
      (hrest : Yields rest tokens) : Yields lexer (token :: tokens)

theorem Yields.next_eq (h : Yields lexer (token :: tokens)) :
    ∃ rest, lexer.next = (.ok token, rest) := by
  cases h with
  | stop hnext => exact ⟨_, hnext⟩
  | more hnext => exact ⟨_, hnext⟩

theorem Yields.tail {other : Token} (h : Yields lexer (token :: tokens))
    (hother : other ∈ tokens) :
    ∃ rest, lexer.next = (.ok token, rest) ∧ token.symbol ≠ .stop ∧ Yields rest tokens := by
  cases h with
  | stop hnext => simp at hother
  | more hnext hsymbol hrest => exact ⟨_, hnext, hsymbol, hrest⟩

theorem Yields.drain_eq {limit : Nat} (h : Yields lexer tokens)
    (hlimit : tokens.length ≤ limit + 1) : drain limit lexer = .ok tokens := by
  induction h generalizing limit with
  | stop hnext hstop =>
    unfold drain
    rw [hnext]
    cases limit with
    | zero => rfl
    | succ limit => exact if_pos hstop
  | more hnext hsymbol hrest ih =>
    unfold drain
    rw [hnext]
    cases limit with
    | zero =>
      cases hrest <;> simp at hlimit
    | succ limit =>
      change (if _ then _ else (drain limit _ >>= fun more ↦ pure (_ :: more))) = _
      rw [if_neg hsymbol, ih (by simpa using hlimit)]
      rfl

theorem next_of_drain {limit : Nat} (h : drain limit lexer = .ok (token :: tokens)) :
    ∃ rest, lexer.next = (.ok token, rest) ∧
      (tokens ≠ [] → ∃ limit, drain limit rest = .ok tokens) := by
  unfold drain at h
  rcases hnext : lexer.next with ⟨result, rest⟩
  rw [hnext] at h
  cases result with
  | error error => cases h
  | ok first =>
    refine ⟨rest, ?_⟩
    cases limit with
    | zero =>
      cases h
      exact ⟨rfl, fun hmore ↦ absurd rfl hmore⟩
    | succ limit =>
      replace h : (if first.symbol = .stop then .ok [first]
        else drain limit rest >>= fun more ↦ pure (first :: more)) =
          Except.ok (ε := QueryError) (token :: tokens) := h
      split at h
      · cases h
        exact ⟨rfl, fun hmore ↦ absurd rfl hmore⟩
      · cases hdrain : drain limit rest with
        | error error =>
          rw [hdrain] at h
          cases h
        | ok more =>
          rw [hdrain] at h
          cases h
          exact ⟨rfl, fun _ ↦ ⟨limit, hdrain⟩⟩

/-! ### One token -/

/-- Where the next token begins, if there is one. -/
def afterBlanks (lexer : Lexer) : Cursor :=
  (lexer.cursor.readWhile Text.isBlank).2

/-- What can be read next: the end, where there is nothing but blanks, or a lexeme. -/
inductive IsNext (lexer : Lexer) : Token → Lexer → Prop
  | stop {passed : List Char} (hplace : lexer.afterBlanks = ⟨passed, []⟩) :
      IsNext lexer (.stop passed.length)
        ⟨⟨passed, []⟩, lexer.localOffset, some .stop, lexer.afterSplitSign⟩
  | lexeme {passed ahead : List Char} {c : Char} {lexeme : Lexeme} {cursor : Cursor}
      (hplace : lexer.afterBlanks = ⟨passed, c :: ahead⟩)
      (hscan : lexer.scanLexeme c ⟨passed, c :: ahead⟩ = .ok lexeme cursor) :
      IsNext lexer (lexeme.token (String.ofList (cursor.textFrom passed.length)) passed.length)
        ⟨cursor, lexer.localOffset, some lexeme.symbol, lexeme.isSplitSign⟩

theorem isNext_of_next {token : Token} {rest : Lexer} (h : lexer.next = (.ok token, rest)) :
    IsNext lexer token rest := by
  unfold next at h
  dsimp only at h
  generalize hplace : (lexer.cursor.readWhile Text.isBlank).2 = cursor at h
  obtain ⟨passed, _ | ⟨c, ahead⟩⟩ := cursor
  · cases h
    exact .stop hplace
  · dsimp only [Cursor.peek, List.head?_cons] at h
    split at h
    · next lexeme cursor hscan => cases lexeme <;> cases h <;> exact .lexeme hplace hscan
    · cases h

section Next

variable {passed ahead blanks : List Char} {localOffset : UtcOffset} {last : Option Symbol}
  {split : Bool} {c : Char} {lexeme : Lexeme} {cursor : Cursor}

theorem readWhile_append {inClass : Char → Bool} {run : List Char}
    (h : ∀ c ∈ run, inClass c = true) :
    ((⟨passed, run ++ ahead⟩ : Cursor).readWhile inClass).2 =
      ((⟨run.reverse ++ passed, ahead⟩ : Cursor).readWhile inClass).2 := by
  rw [Cursor.readWhile, Cursor.readWhile, List.takeWhile_append_of_pos h]
  simp [Cursor.passOver, List.take_append, List.drop_append, List.take_of_length_le]

theorem next_skipBlanks (h : ∀ b ∈ blanks, Text.isBlank b = true) :
    next ⟨⟨passed, blanks ++ ahead⟩, localOffset, last, split⟩ =
      next ⟨⟨blanks.reverse ++ passed, ahead⟩, localOffset, last, split⟩ := by
  unfold next
  dsimp only
  rw [readWhile_append h]
  rfl

theorem Yields.of_next_eq {other : Lexer} (h : Yields lexer tokens)
    (hnext : other.next = lexer.next) : Yields other tokens := by
  cases h with
  | stop hstopped hstop => exact .stop (hnext.trans hstopped) hstop
  | more hmore hsymbol hrest => exact .more (hnext.trans hmore) hsymbol hrest

theorem Yields.skipBlanks (hblanks : ∀ b ∈ blanks, Text.isBlank b = true)
    (h : Yields ⟨⟨blanks.reverse ++ passed, ahead⟩, localOffset, last, split⟩ tokens) :
    Yields ⟨⟨passed, blanks ++ ahead⟩, localOffset, last, split⟩ tokens :=
  h.of_next_eq (next_skipBlanks hblanks)

/-- A character that is no blank begins a lexeme. -/
theorem next_cons (hblank : Text.isBlank c = false) :
    next ⟨⟨passed, c :: ahead⟩, localOffset, last, split⟩ =
      match scanLexeme ⟨⟨passed, c :: ahead⟩, localOffset, last, split⟩ c ⟨passed, c :: ahead⟩ with
      | .ok lexeme cursor =>
        (.ok (lexeme.token (String.ofList (cursor.textFrom passed.length)) passed.length),
          ⟨cursor, localOffset, some lexeme.symbol, lexeme.isSplitSign⟩)
      | .error fault cursor =>
        (.error (.lexical passed.length fault), ⟨cursor, localOffset, last, false⟩) := by
  have hskip : ((⟨passed, c :: ahead⟩ : Cursor).readWhile Text.isBlank).2 =
      ⟨passed, c :: ahead⟩ := by
    simp [Cursor.readWhile, Cursor.passOver, hblank]
  unfold next
  dsimp only
  rw [hskip]
  dsimp only [Cursor.peek, List.head?_cons]
  cases scanLexeme ⟨⟨passed, c :: ahead⟩, localOffset, last, split⟩ c ⟨passed, c :: ahead⟩ with
  | error fault cursor => rfl
  | ok lexeme cursor => cases lexeme <;> rfl

theorem next_of_scanLexeme (hblank : Text.isBlank c = false)
    (h : scanLexeme ⟨⟨passed, c :: ahead⟩, localOffset, last, split⟩ c ⟨passed, c :: ahead⟩ =
      .ok lexeme cursor) :
    next ⟨⟨passed, c :: ahead⟩, localOffset, last, split⟩ =
      (.ok (lexeme.token (String.ofList (cursor.textFrom passed.length)) passed.length),
        ⟨cursor, localOffset, some lexeme.symbol, lexeme.isSplitSign⟩) := by
  rw [next_cons hblank, h]

theorem next_of_scan (hblank : Text.isBlank c = false)
    (h : Lexeme.scan localOffset last c ⟨passed, c :: ahead⟩ = .ok lexeme cursor) :
    next ⟨⟨passed, c :: ahead⟩, localOffset, last, false⟩ =
      (.ok (lexeme.token (String.ofList (cursor.textFrom passed.length)) passed.length),
        ⟨cursor, localOffset, some lexeme.symbol, lexeme.isSplitSign⟩) :=
  next_of_scanLexeme hblank h

/-- The text of a token is what its lexeme has been read from. -/
theorem next_of_scan_text {body rest : List Char} (hblank : Text.isBlank c = false)
    (h : Lexeme.scan localOffset last c ⟨passed, c :: (body ++ rest)⟩ =
      .ok lexeme ⟨(c :: body).reverse ++ passed, rest⟩) :
    next ⟨⟨passed, c :: body ++ rest⟩, localOffset, last, false⟩ =
      (.ok (lexeme.token (String.ofList (c :: body)) passed.length),
        ⟨⟨(c :: body).reverse ++ passed, rest⟩, localOffset, some lexeme.symbol,
          lexeme.isSplitSign⟩) := by
  have htext : (⟨(c :: body).reverse ++ passed, rest⟩ : Cursor).textFrom passed.length =
      c :: body := by
    have hlength : ((c :: body).reverse ++ passed).length - passed.length =
        (c :: body).reverse.length := by
      rw [List.length_append, Nat.add_sub_cancel]
    rw [Cursor.textFrom, Cursor.position, hlength, List.take_left, List.reverse_reverse]
  rw [List.cons_append, next_of_scan hblank h, htext]

/-- A token is read behind some blanks; where there is nothing but blanks, it is the end. -/
theorem next_eq_ok {rest : Lexer}
    (h : next ⟨⟨passed, ahead⟩, localOffset, last, split⟩ = (.ok token, rest)) :
    (∀ b ∈ ahead, Text.isBlank b = true) ∧ token.symbol = .stop ∨
      ∃ blanks c body lexeme cursor, ahead = blanks ++ c :: body ∧
        (∀ b ∈ blanks, Text.isBlank b = true) ∧ Text.isBlank c = false ∧
        scanLexeme ⟨⟨passed, ahead⟩, localOffset, last, split⟩ c
          ⟨blanks.reverse ++ passed, c :: body⟩ = .ok lexeme cursor ∧
        token = lexeme.token (String.ofList (cursor.textFrom (blanks.reverse ++ passed).length))
          (blanks.reverse ++ passed).length ∧
        rest = ⟨cursor, localOffset, some lexeme.symbol, lexeme.isSplitSign⟩ := by
  have hblanks : ∀ b ∈ ahead.takeWhile Text.isBlank, Text.isBlank b = true := fun b hb ↦
    List.mem_takeWhile_imp hb
  have hsplit : ahead.takeWhile Text.isBlank ++ ahead.dropWhile Text.isBlank = ahead :=
    List.takeWhile_append_dropWhile
  cases hahead : ahead.dropWhile Text.isBlank with
  | nil =>
    rw [← hsplit, hahead, next_skipBlanks hblanks] at h
    cases h
    exact .inl ⟨List.dropWhile_eq_nil_iff.mp hahead, rfl⟩
  | cons c body =>
    have hblank : Text.isBlank c = false := by
      have hhead := List.head?_dropWhile_not Text.isBlank ahead
      simpa [hahead] using hhead
    rw [← hsplit, hahead, next_skipBlanks hblanks, next_cons hblank] at h
    split at h
    · next lexeme cursor hscan =>
      cases h
      exact .inr ⟨_, c, body, lexeme, cursor, by rw [← hahead, hsplit], hblanks, hblank, hscan,
        rfl, rfl⟩
    · cases h

end Next

/-! ### Pieces -/

/-- Wherever the text stands in front of something that may follow it, it is cut into tokens of
this form, and reading goes on behind it. -/
def Reads (localOffset : UtcOffset) (follows : List Char → Prop) (form : List Token → Prop)
    (text : List Char) : Prop :=
  ∀ passed rest last, follows rest → ∃ tokens last', form tokens ∧ tokens.length ≤ text.length ∧
    ∀ more, Yields ⟨⟨text.reverse ++ passed, rest⟩, localOffset, last', false⟩ more →
      Yields ⟨⟨passed, text ++ rest⟩, localOffset, last, false⟩ (tokens ++ more)

section Reads

variable {localOffset : UtcOffset} {follows firstFollows : List Char → Prop}
  {form firstForm secondForm : List Token → Prop} {text first second : List Char}

theorem Reads.mono {weaker : List Token → Prop} (h : Reads localOffset follows form text)
    (hform : ∀ tokens, form tokens → weaker tokens) : Reads localOffset follows weaker text := by
  intro passed rest last hrest
  obtain ⟨tokens, last', htokens, hread⟩ := h passed rest last hrest
  exact ⟨tokens, last', hform tokens htokens, hread⟩

theorem Reads.narrow {narrower : List Char → Prop} (h : Reads localOffset follows form text)
    (hfollows : ∀ rest, narrower rest → follows rest) : Reads localOffset narrower form text :=
  fun passed rest last hrest ↦ h passed rest last (hfollows rest hrest)

theorem reads_nil (h : form []) : Reads localOffset follows form [] :=
  fun _ _ last _ ↦ ⟨[], last, h, Nat.le_refl _, fun _ hmore ↦ hmore⟩

theorem Reads.append (hfirst : Reads localOffset firstFollows firstForm first)
    (hsecond : Reads localOffset follows secondForm second)
    (hfollows : ∀ rest, follows rest → firstFollows (second ++ rest))
    (hform : ∀ a b, firstForm a → secondForm b → form (a ++ b)) :
    Reads localOffset follows form (first ++ second) := by
  intro passed rest last hrest
  obtain ⟨a, middle, ha, halength, hayields⟩ :=
    hfirst passed (second ++ rest) last (hfollows rest hrest)
  obtain ⟨b, last', hb, hblength, hbyields⟩ :=
    hsecond (first.reverse ++ passed) rest middle hrest
  refine ⟨a ++ b, last', hform a b ha hb, ?_, fun more hmore ↦ ?_⟩
  · rw [List.length_append, List.length_append]
    exact Nat.add_le_add halength hblength
  · rw [List.append_assoc, List.append_assoc]
    refine hayields _ (hbyields more ?_)
    rwa [List.reverse_append, List.append_assoc] at hmore

/-- A text is a single lexeme with blanks around it: `c` begins the lexeme, and the cursor stands
behind it. -/
structure IsLone (localOffset : UtcOffset) (text blanks : List Char) (c : Char) (body : List Char)
    (lexeme : Lexeme) (cursor : Cursor) : Prop where
  text_eq : text = blanks ++ c :: body
  blanks_before : ∀ b ∈ blanks, Text.isBlank b = true
  not_blank : Text.isBlank c = false
  scan_eq : Lexeme.scan localOffset none c ⟨blanks.reverse, c :: body⟩ = .ok lexeme cursor
  blanks_behind : ∀ b ∈ cursor.ahead, Text.isBlank b = true

theorem isLone_of_scan {token stop : Token} (h : scan text localOffset = .ok ⟨[token, stop]⟩)
    (hstop : stop.symbol = .stop) (hsymbol : token.symbol = .property ∨ token.symbol = .literal) :
    ∃ blanks c body lexeme cursor, IsLone localOffset text blanks c body lexeme cursor ∧
      token = lexeme.token (String.ofList (cursor.textFrom blanks.length)) blanks.length := by
  have hdrain : drain text.length (start text localOffset) = .ok [token, stop] := by
    unfold scan at h
    cases hdrain : drain text.length (start text localOffset) with
    | error error =>
      rw [hdrain] at h
      cases h
    | ok tokens =>
      rw [hdrain] at h
      cases h
      rfl
  obtain ⟨middle, hnext, hmore⟩ := next_of_drain hdrain
  obtain ⟨limit, hdrain⟩ := hmore (by simp)
  obtain ⟨rest, hnextStop, -⟩ := next_of_drain hdrain
  obtain ⟨-, hend⟩ | ⟨blanks, c, body, lexeme, cursor, htext, hblanks, hblank, hscan, htoken,
    hmiddle⟩ := next_eq_ok hnext
  · simp [hend] at hsymbol
  have hlength : (blanks.reverse ++ []).length = blanks.length := by simp
  rw [hlength] at htoken
  have halone : Lexeme.scan localOffset none c ⟨blanks.reverse ++ [], c :: body⟩ =
      .ok lexeme cursor := hscan
  rw [List.append_nil] at halone
  refine ⟨blanks, c, body, lexeme, cursor, ⟨htext, hblanks, hblank, halone, ?_⟩, htoken⟩
  have hwhole : lexeme.isSplitSign = false := by
    rw [htoken] at hsymbol
    exact Lexeme.isSplitSign_eq_false hsymbol
  rw [hmiddle, hwhole] at hnextStop
  obtain ⟨hbehind, -⟩ | ⟨_, c, _, other, cursor, -, -, -, hother, hstopToken, -⟩ :=
    next_eq_ok hnextStop
  · exact hbehind
  · have hscan : Lexeme.scan localOffset _ c _ = .ok other cursor := hother
    rw [hstopToken] at hstop
    exact absurd hstop (Lexeme.symbol_ne_stop hscan)

section IsLone

variable {blanks body : List Char} {c : Char} {lexeme : Lexeme} {cursor : Cursor}

theorem IsLone.not_symbol (h : IsLone localOffset text blanks c body lexeme cursor)
    (hsymbol : lexeme.symbol = .property ∨ lexeme.symbol = .literal) : c ∉ Lexeme.symbols := by
  intro hc
  have hother := (Lexeme.symbol_of_mem_symbols hc h.scan_eq).1
  rcases hsymbol with hsymbol | hsymbol <;> simp [hsymbol] at hother

/-- A word or a literal that stands alone is recognised in a longer text. -/
theorem IsLone.scan_embed (h : IsLone localOffset text blanks c body lexeme cursor)
    (hsymbol : lexeme.symbol = .property ∨ lexeme.symbol = .literal) (hslash : c ≠ '/')
    (passed : List Char) {rest : List Char} (hword : FollowsWord rest)
    (hvalue : lexeme.symbol = .literal → FollowsValue rest) (last : Option Symbol) :
    cursor.source = text ∧
      Lexeme.scan localOffset last c ⟨blanks.reverse ++ passed, c :: (body ++ rest)⟩ =
        .ok lexeme (cursor.embed passed rest) := by
  obtain ⟨hsource, hscan⟩ := Lexeme.scan_embed passed hword (h.not_symbol hsymbol) hslash
    (by simp) h.scan_eq hvalue last
  refine ⟨?_, hscan⟩
  rw [hsource, h.text_eq]
  simp [Cursor.source]

/-- Behind a lexeme that stands alone there are blanks, and reading goes on behind these. -/
theorem IsLone.yields (h : IsLone localOffset text blanks c body lexeme cursor)
    (hsource : cursor.source = text) {passed rest : List Char} {last : Option Symbol}
    {tokens : List Token}
    (htokens : Yields ⟨⟨text.reverse ++ passed, rest⟩, localOffset, last, false⟩ tokens) :
    Yields ⟨cursor.embed passed rest, localOffset, last, false⟩ tokens := by
  have htext : text.reverse ++ passed = cursor.ahead.reverse ++ (cursor.passed ++ passed) := by
    rw [← hsource]
    simp [Cursor.source]
  rw [htext] at htokens
  exact Yields.skipBlanks h.blanks_behind htokens

/-- A word or a literal that stands alone is read as the same one wherever its text stands. -/
theorem reads_of_isLone (h : IsLone localOffset text blanks c body lexeme cursor)
    (hsymbol : lexeme.symbol = .property ∨ lexeme.symbol = .literal) (hslash : c ≠ '/')
    (hfollows : ∀ rest, follows rest →
      FollowsWord rest ∧ (lexeme.symbol = .literal → FollowsValue rest)) :
    Reads localOffset follows
      (fun tokens ↦ ∃ position,
        tokens = [lexeme.token (String.ofList (cursor.textFrom blanks.length)) position]) text := by
  intro passed rest last hrest
  obtain ⟨hword, hvalue⟩ := hfollows rest hrest
  obtain ⟨hsource, hscan⟩ := h.scan_embed hsymbol hslash passed hword hvalue last
  have hplace : (blanks.reverse ++ passed).length = blanks.length + passed.length := by simp
  have hnext := next_of_scan h.not_blank hscan
  rw [Lexeme.isSplitSign_eq_false hsymbol, hplace, Cursor.textFrom_embed] at hnext
  refine ⟨_, some lexeme.symbol, ⟨blanks.length + passed.length, rfl⟩, ?_, fun more hmore ↦ ?_⟩
  · simp [h.text_eq]
    omega
  rw [h.text_eq, List.append_assoc]
  refine Yields.skipBlanks h.blanks_before (.more hnext ?_ (h.yields hsource hmore))
  rcases hsymbol with hsymbol | hsymbol <;> simp [Lexeme.token, hsymbol]

end IsLone

/-- One token with this symbol. -/
def IsToken (symbol : Symbol) (tokens : List Token) : Prop :=
  ∃ token, tokens = [token] ∧ token.symbol = symbol

/-- The text is recognised as the lexeme wherever something that may follow it stands behind. -/
def Denotes (localOffset : UtcOffset) (follows : List Char → Prop) (text : List Char)
    (lexeme : Lexeme) : Prop :=
  ∃ c body, text = c :: body ∧ Text.isBlank c = false ∧ ∀ passed rest last, follows rest →
    Lexeme.scan localOffset last c ⟨passed, c :: (body ++ rest)⟩ =
      .ok lexeme ⟨(c :: body).reverse ++ passed, rest⟩

theorem Denotes.next_eq {lexeme : Lexeme} (h : Denotes localOffset follows text lexeme)
    (passed : List Char) {rest : List Char} (hrest : follows rest) (last : Option Symbol) :
    next ⟨⟨passed, text ++ rest⟩, localOffset, last, false⟩ =
      (.ok (lexeme.token (String.ofList text) passed.length),
        ⟨⟨text.reverse ++ passed, rest⟩, localOffset, some lexeme.symbol, lexeme.isSplitSign⟩) := by
  obtain ⟨c, body, rfl, hblank, hscan⟩ := h
  exact next_of_scan_text hblank (hscan passed rest last hrest)

theorem Denotes.narrow {lexeme : Lexeme} {narrower : List Char → Prop}
    (h : Denotes localOffset follows text lexeme)
    (hfollows : ∀ rest, narrower rest → follows rest) :
    Denotes localOffset narrower text lexeme := by
  obtain ⟨c, body, htext, hblank, hscan⟩ := h
  exact ⟨c, body, htext, hblank, fun passed rest last hrest ↦
    hscan passed rest last (hfollows rest hrest)⟩

theorem Denotes.symbol_ne_stop {lexeme : Lexeme} {rest : List Char}
    (h : Denotes localOffset follows text lexeme) (hrest : follows rest) :
    lexeme.symbol ≠ .stop := by
  obtain ⟨c, body, rfl, -, hscan⟩ := h
  exact Lexeme.symbol_ne_stop (hscan [] rest none hrest)

/-- A lexeme that is recognised by itself is a token. -/
theorem reads_lexeme {lexeme : Lexeme} (h : Denotes localOffset follows text lexeme)
    (hwhole : lexeme.isSplitSign = false) :
    Reads localOffset follows (IsToken lexeme.symbol) text := by
  intro passed rest last hrest
  have hnext := h.next_eq passed hrest last
  rw [hwhole] at hnext
  have hform (text : String) (position : Nat) :
      IsToken lexeme.symbol [lexeme.token text position] := ⟨_, rfl, rfl⟩
  have hlength : [lexeme.token (String.ofList text) passed.length].length ≤ text.length := by
    obtain ⟨c, body, rfl, -⟩ := h
    simp
  exact ⟨_, _, hform _ _, hlength, fun more hmore ↦ .more hnext (h.symbol_ne_stop hrest) hmore⟩

theorem denotes_single {c : Char} {symbol : Symbol} (h : Lexeme.single? c = some symbol)
    (hblank : Text.isBlank c = false) :
    Denotes localOffset follows [c] (.plain symbol) := by
  refine ⟨c, [], rfl, hblank, fun passed rest last _ ↦ ?_⟩
  rw [Lexeme.scan, Run.bind_ok (Lexeme.get_eq _), h]
  rfl

theorem reads_single {c : Char} {symbol : Symbol} (h : Lexeme.single? c = some symbol)
    (hblank : Text.isBlank c = false) :
    Reads localOffset follows (IsToken symbol) [c] :=
  reads_lexeme (denotes_single h hblank) rfl

/-- Two pieces with a symbol of one character between them. -/
theorem Reads.around {sign : Char} {symbol : Symbol}
    (hfirst : Reads localOffset firstFollows firstForm first)
    (hsign : Lexeme.single? sign = some symbol) (hblank : Text.isBlank sign = false)
    (hsecond : Reads localOffset follows secondForm second)
    (hfollows : ∀ rest, firstFollows (sign :: rest))
    (hform : ∀ a token b, firstForm a → token.symbol = symbol → secondForm b →
      form (a ++ token :: b)) :
    Reads localOffset follows form (first ++ sign :: second) := by
  have hsign : Reads localOffset (fun _ ↦ True) (IsToken symbol) [sign] :=
    reads_single hsign hblank
  have hbehind : Reads localOffset follows
      (fun tokens ↦ ∃ token b, tokens = token :: b ∧ token.symbol = symbol ∧ secondForm b)
      ([sign] ++ second) := by
    apply hsign.append hsecond (fun _ _ ↦ trivial)
    rintro _ b ⟨token, rfl, htoken⟩ hb
    exact ⟨token, b, rfl, htoken, hb⟩
  apply hfirst.append hbehind (fun rest _ ↦ hfollows (second ++ rest))
  rintro a _ ha ⟨token, b, rfl, htoken, hb⟩
  exact hform a token b ha htoken hb

/-- The name of a function in front of its arguments. -/
theorem denotes_name (localOffset : UtcOffset) (keyword : Keyword) :
    Denotes localOffset (fun rest ↦ rest.head? = some '(') keyword.name.toList
      (.plain (.function keyword)) := by
  obtain ⟨hall, hfirst, hhex, hkeyword⟩ := Lexeme.isName_name keyword
  cases hname : keyword.name.toList with
  | nil => simp [hname] at hfirst
  | cons c body =>
    rw [hname] at hall hfirst hhex hkeyword
    have hbegins : Lexeme.beginsWord c = true := by simpa using hfirst
    refine ⟨c, body, rfl, Lexeme.not_blank_of_beginsWord hbegins, ?_⟩
    intro passed rest last hrest
    obtain ⟨rest, rfl⟩ := List.head?_eq_some_iff.mp hrest
    rw [Lexeme.scan_eq_scanWord hbegins, ← List.cons_append,
      Lexeme.scanWord_word hall hhex (by decide), if_pos rfl, hkeyword]

theorem reads_name (keyword : Keyword) :
    Reads localOffset (fun rest ↦ rest.head? = some '(') (IsToken (.function keyword))
      keyword.name.toList :=
  reads_lexeme (denotes_name localOffset keyword) rfl

/-- What a comparison sign may stand in front of: nothing that would make it another one. -/
def EndsComparison (rest : List Char) : Prop :=
  rest.head? ≠ some '=' ∧ ∀ word behind, rest = word ++ '=' :: behind →
    (∀ c ∈ word, Text.isLetter c = true) → Lexeme.wordComparison? word = none

theorem denotes_sign (localOffset : UtcOffset) (op : Comparison) :
    Denotes localOffset EndsComparison op.sign.toList (.plain (.comparison op)) := by
  have hsecond {c : Char} {passed rest : List Char} (h : EndsComparison rest) :
      ((⟨passed, c :: rest⟩ : Cursor).peekAt 1 == some '=') = false := by
    rw [beq_eq_false_iff_ne]
    simpa [Cursor.peekAt, List.head?_eq_getElem?] using h.1
  cases op with
  | eq =>
    refine ⟨'=', [], rfl, rfl, fun passed rest last hrest ↦ ?_⟩
    exact Lexeme.scan_equals hrest.2 localOffset last
  | ne => exact ⟨'!', ['='], rfl, rfl, fun _ _ _ _ ↦ rfl⟩
  | lt =>
    refine ⟨'<', [], rfl, rfl, fun passed rest last hrest ↦ ?_⟩
    have hop : Lexeme.comparison? '<' ((⟨passed, '<' :: rest⟩ : Cursor).peekAt 1) =
        some (.lt, 1) := by
      rw [Lexeme.comparison?, hsecond hrest]
      rfl
    exact Lexeme.scan_of_comparison? (by decide) hop
  | le => exact ⟨'<', ['='], rfl, rfl, fun _ _ _ _ ↦ rfl⟩
  | gt =>
    refine ⟨'>', [], rfl, rfl, fun passed rest last hrest ↦ ?_⟩
    have hop : Lexeme.comparison? '>' ((⟨passed, '>' :: rest⟩ : Cursor).peekAt 1) =
        some (.gt, 1) := by
      rw [Lexeme.comparison?, hsecond hrest]
      rfl
    exact Lexeme.scan_of_comparison? (by decide) hop
  | ge => exact ⟨'>', ['='], rfl, rfl, fun _ _ _ _ ↦ rfl⟩

theorem reads_comparison (op : Comparison) :
    Reads localOffset EndsComparison (IsToken (.comparison op)) op.sign.toList :=
  reads_lexeme (denotes_sign localOffset op) rfl

/-- The name of a comparison between two equals signs is its sign whatever stands behind. -/
theorem denotes_named (localOffset : UtcOffset) (op : Comparison) :
    Denotes localOffset (fun _ ↦ True) ('=' :: (op.name.toList ++ ['=']))
      (.plain (.comparison op)) := by
  refine ⟨'=', op.name.toList ++ ['='], rfl, rfl, fun passed rest last _ ↦ ?_⟩
  cases op <;> rfl

section Literal

variable {blanks body rest : List Char} {c : Char} {value : Value} {cursor : Cursor}

theorem IsLone.head?_ne_equals
    (h : IsLone localOffset text blanks c body (.literal value) cursor) :
    (text ++ rest).head? ≠ some '=' := by
  have hc : c ∉ Lexeme.symbols := fun hc ↦
    (Lexeme.symbol_of_mem_symbols hc h.scan_eq).1 (by simp [Lexeme.symbol])
  rw [h.text_eq]
  intro hhead
  cases blanks with
  | nil =>
    obtain rfl : c = '=' := by simpa using hhead
    exact hc (by decide)
  | cons b blanks =>
    obtain rfl : b = '=' := by simpa using hhead
    exact absurd (h.blanks_before '=' (by simp)) (by decide)

/-- A literal does not begin with the word of a comparison in front of an equals sign. -/
theorem IsLone.wordComparison?_eq_none
    (h : IsLone localOffset text blanks c body (.literal value) cursor)
    (hrest : FollowsValue rest) {word behind : List Char}
    (htext : text ++ rest = word ++ '=' :: behind)
    (hletters : ∀ c ∈ word, Text.isLetter c = true) : Lexeme.wordComparison? word = none := by
  rw [h.text_eq] at htext
  cases hop : Lexeme.wordComparison? word with
  | none => rfl
  | some op =>
    exfalso
    obtain ⟨first, second, rfl⟩ := List.length_eq_two.mp (Lexeme.length_of_wordComparison? hop)
    have hfirst : Text.isLetter first = true := hletters first (by simp)
    have hsecond : Text.isLetter second = true := hletters second (by simp)
    cases blanks with
    | cons b blanks =>
      obtain rfl : b = first := by simpa using congrArg List.head? htext
      have hblank := h.blanks_before b (by simp)
      rw [Lexeme.not_blank_of_isLetter hfirst] at hblank
      cases hblank
    | nil =>
      obtain ⟨rfl, hbody⟩ : c = first ∧ body ++ rest = second :: '=' :: behind := by
        simpa using htext
      -- The equals sign cannot stand behind the literal, and within it there is a comparison.
      match body, hbody with
      | [], hbody =>
        have hcloser : second ∈ closers := hrest second (by simp_all)
        have hletter : ∀ c ∈ closers, Text.isLetter c = false := forall_mem_of_all (by decide)
        rw [hletter second hcloser] at hsecond
        cases hsecond
      | [_], hbody =>
        have hcloser : '=' ∈ closers := hrest '=' (by simp_all)
        exact absurd hcloser (by decide)
      | b :: d :: body, hbody =>
        obtain ⟨rfl, rfl, -⟩ : b = second ∧ d = '=' ∧ body ++ rest = behind := by
          simpa using hbody
        have hscan := h.scan_eq
        rw [Lexeme.scan_eq_scanWord (Lexeme.beginsWord_of_isLetter hfirst)] at hscan
        have hword : Lexeme.scanWord localOffset ⟨[], [c, b] ++ '=' :: body⟩ = _ :=
          Lexeme.scanWord_comparison hletters hop
        cases hscan.symm.trans hword

/-- A literal may stand behind a comparison sign. -/
theorem endsComparison_of_isLone
    (h : IsLone localOffset text blanks c body (.literal value) cursor)
    (hrest : FollowsValue rest) : EndsComparison (text ++ rest) :=
  ⟨h.head?_ne_equals, fun _ _ htext hletters ↦ h.wordComparison?_eq_none hrest htext hletters⟩

end Literal

/-- The tokens of a whole text that reads, and the end. -/
theorem Reads.scan_eq (h : Reads localOffset follows form text) (hend : follows []) :
    ∃ tokens stop, form tokens ∧ stop.symbol = .stop ∧
      scan text localOffset = .ok ⟨tokens ++ [stop]⟩ := by
  obtain ⟨tokens, last, htokens, hlength, hread⟩ := h [] [] none hend
  have hnext : next ⟨⟨text.reverse ++ [], []⟩, localOffset, last, false⟩ =
      (.ok (.stop (text.reverse ++ []).length), _) := rfl
  have hstop : (Token.stop (text.reverse ++ []).length).symbol = .stop := rfl
  have hyields := hread _ (.stop hnext hstop)
  rw [List.append_nil] at hyields
  have hdrain : drain text.length (start text localOffset) = .ok (tokens ++ [_]) :=
    hyields.drain_eq (by simpa using hlength)
  refine ⟨tokens, _, htokens, hstop, ?_⟩
  rw [scan, hdrain]
  rfl

end Reads

end Lexer

end ResourceQuery
