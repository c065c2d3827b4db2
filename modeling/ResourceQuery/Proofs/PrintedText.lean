import ResourceQuery.Proofs.Grammar
import ResourceQuery.Proofs.Numerals
import ResourceQuery.Query.Printer

/-!
# Reading printed pieces

The pieces that a printed query is made of, and how they are read: counts, lists with a sign between
their items, and functions with arguments in parentheses.
-/

namespace ResourceQuery

open Run Lexer Query

/-! ### Counts -/

namespace Text

theorem isDigit_of_mem_decimal (n : Nat) : ∀ c ∈ decimal n, isDigit c = true := by
  induction n using Nat.strongRecOn with
  | ind n ih =>
    have hlast (n : Nat) (h : n < 10) : isDigit n.digitChar = true := by
      match n, h with
      | 0, _ | 1, _ | 2, _ | 3, _ | 4, _ | 5, _ | 6, _ | 7, _ | 8, _ | 9, _ => decide
      | n + 10, h => omega
    intro c hc
    unfold decimal at hc
    split at hc
    · next h =>
      obtain rfl := List.mem_singleton.mp hc
      exact hlast n h
    · next h =>
      obtain hc | hc := List.mem_append.mp hc
      · exact ih (n / 10) (by omega) c hc
      · obtain rfl := List.mem_singleton.mp hc
        exact hlast _ (Nat.mod_lt n (by omega))

theorem decimal_ne_nil (n : Nat) : decimal n ≠ [] := by
  unfold decimal
  split <;> simp

end Text

section Count

/-- Some type holds a number that the widest one holds, and it keeps its value. -/
theorem firstFitting?_of_contains {n : Int} {types : List IntegerType} {type : IntegerType}
    (hmem : type ∈ types) (hn : type.Contains n) :
    ∃ value, Number.firstFitting? types n = some value ∧ value.integer? = some n := by
  have hsome : (types.findSome? (·.ofInt? n)).isSome = true := by
    rw [List.findSome?_isSome_iff]
    exact ⟨type, hmem, by simp [IntegerType.ofInt?, hn]⟩
  obtain ⟨number, hnumber⟩ := Option.isSome_iff_exists.mp hsome
  obtain ⟨other, -, hother⟩ := List.exists_of_findSome?_eq_some hnumber
  refine ⟨.integer number, by rw [Number.firstFitting?, hnumber]; rfl, ?_⟩
  unfold IntegerType.ofInt? at hother
  split at hother
  · cases hother
    rfl
  · cases hother

theorem integer?_eq_ok {numeral : Numeral} (hlow : -(twoTo 127 : Int) ≤ numeral.integer)
    (hhigh : numeral.integer < twoTo 127) :
    Number.integer? numeral = .ok numeral.integer := if_pos ⟨hlow, hhigh⟩

/-- A bare integer that fits the widest type keeps its value. -/
theorem ofNumeral_digits {digits : List Char} (hlimit : Text.ofDigits digits < twoTo 64) :
    ∃ value, Number.ofNumeral ⟨none, digits, [], none, []⟩ = .ok value ∧
      value.integer? = some (Text.ofDigits digits : Int) := by
  have hlow : (0 : Int) ≤ Text.ofDigits digits := Int.natCast_nonneg _
  have hhigh : (Text.ofDigits digits : Int) < twoTo 64 := Int.ofNat_lt.mpr hlimit
  have hcontains : IntegerType.uint64.Contains (Text.ofDigits digits : Int) :=
    ⟨hlow, Int.le_sub_one_of_lt hhigh⟩
  have hmem : IntegerType.uint64 ∈ [IntegerType.int32, .int64, .uint64] := by decide
  obtain ⟨value, hfirst, hvalue⟩ := firstFitting?_of_contains hmem hcontains
  have hinteger : Number.integer? ⟨none, digits, [], none, []⟩ =
      .ok (Text.ofDigits digits : Int) := by
    have hwide : (twoTo 64 : Int) < twoTo 127 := by decide
    have hnegative : -(twoTo 127 : Int) ≤ 0 := by decide
    exact integer?_eq_ok (Int.le_trans hnegative hlow) (Int.lt_trans hhigh hwide)
  refine ⟨value, ?_, hvalue⟩
  change Number.asInteger [.int32, .int64, .uint64] "any integer type"
    ⟨none, digits, [], none, []⟩ = _
  rw [Number.asInteger, hinteger]
  simp only [bind, Except.bind, hfirst]
  rfl

theorem isLone_printNumber (localOffset : UtcOffset) (n : UInt64) :
    ∃ c body cursor value,
      IsLone localOffset (printNumber n).toList [] c body (.literal value) cursor ∧
        value.integer? = some (n.toNat : Int) := by
  have hdigits := Text.isDigit_of_mem_decimal n.toNat
  have hlimit : Text.ofDigits (Text.decimal n.toNat) < twoTo 64 := by
    rw [Text.ofDigits_decimal]
    exact n.toNat_lt
  obtain ⟨value, hvalue, hinteger⟩ := ofNumeral_digits hlimit
  rw [Text.ofDigits_decimal] at hinteger
  have hplain : (⟨none, Text.decimal n.toNat, [], none, []⟩ : Numeral).IsPlain :=
    ⟨nofun, Text.decimal_ne_nil _, hdigits, List.forall_mem_nil _, rfl, List.forall_mem_nil _,
      Nat.zero_le _, rfl⟩
  have hchars : (⟨none, Text.decimal n.toNat, [], none, []⟩ : Numeral).chars =
      Text.decimal n.toNat := List.append_nil _
  obtain ⟨c, body, htext, hblank, hscan⟩ := hplain.scan_eq localOffset
  rw [hplain.scanDigits_eq, hvalue] at hscan
  rw [printNumber, String.toList_ofList, ← hchars]
  exact ⟨c, body, _, value, ⟨htext, List.forall_mem_nil _, hblank, hscan, List.forall_mem_nil _⟩,
    hinteger⟩

end Count

/-! ### Words and literals -/

namespace Property

/-- The path of the property is a word by itself, and one that names an equal property. -/
def IsStable (localOffset : UtcOffset) (property : Property) : Prop :=
  ∃ word stop, Lexer.scan property.path.toList localOffset = .ok ⟨[word, stop]⟩ ∧
    word.symbol = .property ∧ stop.symbol = .stop ∧ (ofPath word.text == property) = true

end Property

namespace Value

/-- What is printed for the value is a literal by itself, and one of an equal value. -/
def IsStable (localOffset : UtcOffset) (value : Value) : Prop :=
  ∃ literal stop read, Lexer.scan value.print.toList localOffset = .ok ⟨[literal, stop]⟩ ∧
    literal.symbol = .literal ∧ literal.value = some read ∧ stop.symbol = .stop ∧
      read.sameIgnoringCase value = true

theorem eq_uri_of_sameIgnoringCase {text : String} {value : Value}
    (h : (uri text).sameIgnoringCase value = true) : ∃ other, value = uri other := by
  cases value with
  | uri other => exact ⟨other, rfl⟩
  | _ => simp [sameIgnoringCase, BEq.beq] at h

end Value

/-- The tokens are a phrase whose meaning has the property. -/
def Means {α : Type} (phrase : Grammar.Phrase α) (P : α → Prop) (tokens : List Token) : Prop :=
  ∃ a, phrase tokens a ∧ P a

section Printed

open Grammar

variable {localOffset : UtcOffset}

theorem subject_word {word : Token} (hword : word.symbol = .property) :
    Subject [word] (.ofPath word.text) := by
  have hpath : Path ([word] ++ []) (concat [.ofPath word.text]) :=
    .intro (.intro hword) .nil
  have hconcat : concat [.ofPath word.text] = .ofPath word.text := by simp [concat]
  rw [hconcat] at hpath
  exact .path hpath

/-- A text that is a word by itself is one that nothing else begins like. -/
theorem isLone_word {text : List Char} {word stop : Token}
    (hscan : Lexer.scan text localOffset = .ok ⟨[word, stop]⟩) (hword : word.symbol = .property)
    (hstop : stop.symbol = .stop) :
    ∃ blanks c body cursor,
      IsLone localOffset text blanks c body (.plain .property) cursor ∧ c ≠ '/' ∧
        String.ofList (cursor.textFrom blanks.length) = word.text := by
  obtain ⟨blanks, c, body, lexeme, cursor, hlone, rfl⟩ := isLone_of_scan hscan hstop (.inl hword)
  cases lexeme with
  | literal value => cases hword
  | splitSign order => cases hword
  | plain symbol =>
    obtain rfl : symbol = .property := hword
    refine ⟨blanks, c, body, cursor, hlone, ?_, rfl⟩
    rintro rfl
    obtain ⟨text, htext⟩ := Lexeme.eq_uri_of_scan_slash hlone.scan_eq
    cases htext

/-- A word by itself names its property wherever a word may stand. -/
theorem reads_word {text : List Char} {word stop : Token}
    (hscan : Lexer.scan text localOffset = .ok ⟨[word, stop]⟩) (hword : word.symbol = .property)
    (hstop : stop.symbol = .stop) :
    Reads localOffset FollowsWord (Means Subject fun read ↦ read = .ofPath word.text) text := by
  obtain ⟨blanks, c, body, cursor, hlone, hslash, htext⟩ := isLone_word hscan hword hstop
  apply (reads_of_isLone hlone (.inl rfl) hslash fun _ hrest ↦ ⟨hrest, nofun⟩).mono
  rintro _ ⟨position, rfl⟩
  exact ⟨_, subject_word rfl, congrArg Property.ofPath htext⟩

theorem reads_path {property : Property} (h : property.IsStable localOffset) :
    Reads localOffset FollowsWord (Means Subject fun read ↦ (read == property) = true)
      property.path.toList := by
  obtain ⟨word, stop, hscan, hword, hstop, hsame⟩ := h
  apply (reads_word hscan hword hstop).mono
  rintro tokens ⟨_, hread, rfl⟩
  exact ⟨_, hread, hsame⟩

/-- A literal that nothing else begins like is read wherever a value may stand. -/
theorem Lexer.IsLone.reads_literal {text blanks body : List Char} {c : Char} {value : Value}
    {cursor : Cursor} (h : IsLone localOffset text blanks c body (.literal value) cursor)
    (hslash : c ≠ '/') : Reads localOffset FollowsValue (fun tokens ↦ ∃ position,
      tokens = [(Lexeme.literal value).token (String.ofList (cursor.textFrom blanks.length))
        position]) text :=
  reads_of_isLone h (.inr rfl) hslash fun _ hrest ↦ ⟨hrest.stops, fun _ ↦ hrest⟩

/-- The text of a stable value is a literal. -/
theorem isLone_print {value : Value} (h : value.IsStable localOffset) :
    ∃ blanks c body read cursor,
      IsLone localOffset value.print.toList blanks c body (.literal read) cursor ∧ c ≠ '/' ∧
        read.sameIgnoringCase value = true := by
  obtain ⟨literal, stop, read, hscan, hliteral, hvalue, hstop, hsame⟩ := h
  obtain ⟨blanks, c, body, lexeme, cursor, hlone, rfl⟩ :=
    isLone_of_scan hscan hstop (.inr hliteral)
  cases lexeme with
  | plain symbol => cases hvalue
  | splitSign order => cases hvalue
  | literal other =>
    obtain rfl : other = read := Option.some.inj hvalue
    refine ⟨blanks, c, body, other, cursor, hlone, ?_, hsame⟩
    rintro rfl
    -- only a reference begins with a slash, and a printed reference does not
    obtain ⟨text, htext⟩ := Lexeme.eq_uri_of_scan_slash hlone.scan_eq
    cases htext
    obtain ⟨other, rfl⟩ := Value.eq_uri_of_sameIgnoringCase hsame
    have hprint : ∃ behind, (Value.uri other).print.toList = 'u' :: behind := by
      rw [Value.print, String.toList_ofList]
      exact ⟨_, rfl⟩
    obtain ⟨behind, hprint⟩ := hprint
    rw [hlone.text_eq] at hprint
    cases blanks with
    | nil => cases hprint
    | cons b blanks =>
      obtain rfl : b = 'u' := (List.cons.inj hprint).1
      exact absurd (hlone.blanks_before 'u' (by simp)) (by decide)

theorem reads_value {value : Value} (h : value.IsStable localOffset) :
    Reads localOffset FollowsValue
      (Means Operand fun read ↦ read.sameIgnoringCase value = true) value.print.toList := by
  obtain ⟨blanks, c, body, read, cursor, hlone, hslash, hsame⟩ := isLone_print h
  apply (hlone.reads_literal hslash).mono
  rintro _ ⟨position, rfl⟩
  exact ⟨read, .literal rfl rfl, hsame⟩

/-- The text of a stable value may stand behind a comparison sign. -/
theorem endsComparison_print {value : Value} (h : value.IsStable localOffset) {rest : List Char}
    (hrest : FollowsValue rest) : EndsComparison (value.print.toList ++ rest) := by
  obtain ⟨blanks, c, body, read, cursor, hlone, -⟩ := isLone_print h
  exact endsComparison_of_isLone hlone hrest

theorem reads_count (count : UInt64) :
    Reads localOffset FollowsValue (Means Count fun read ↦ read = count)
      (printNumber count).toList := by
  obtain ⟨c, body, cursor, value, hlone, hinteger⟩ := isLone_printNumber localOffset count
  have hslash : c ≠ '/' := by
    rintro rfl
    obtain ⟨text, htext⟩ := Lexeme.eq_uri_of_scan_slash hlone.scan_eq
    cases htext
    cases hinteger
  apply (hlone.reads_literal hslash).mono
  rintro _ ⟨position, rfl⟩
  have hhigh : (count.toNat : Int) < twoTo 64 := Int.ofNat_lt.mpr count.toNat_lt
  exact ⟨_, .intro rfl rfl hinteger (Int.natCast_nonneg _) hhigh, by simp⟩

theorem printSortKey_cases (style : Style) (key : SortKey) :
    key.order = .ascending ∧ (printSortKey style key).toList = key.property.path.toList ∨
      (printSortKey style key).toList = key.order.sign :: key.property.path.toList := by
  obtain ⟨order, property⟩ := key
  cases order <;> cases style <;> simp [printSortKey]

/-- What is printed for the key is read as an equal key wherever a key may stand. The sign of a key
may be what makes a word of its path. -/
def SortKey.IsLegible (style : Style) (localOffset : UtcOffset)
    (key : SortKey) : Prop :=
  Reads localOffset FollowsWord (Means Key fun read ↦ (read == key) = true)
    (printSortKey style key).toList

theorem isLegible_key (style : Style) {key : SortKey} (h : key.property.IsStable localOffset) :
    key.IsLegible style localOffset := by
  rw [SortKey.IsLegible]
  obtain ⟨order, property⟩ := key
  obtain ⟨hascending, htext⟩ | htext := printSortKey_cases style ⟨order, property⟩
  · rw [htext]
    apply (reads_path h).mono
    rintro tokens ⟨read, hread, hsame⟩
    refine ⟨⟨.ascending, read⟩, .plain hread, ?_⟩
    obtain rfl : order = .ascending := hascending
    exact hsame
  · obtain ⟨word, stop, hscan, hword, hstop, hsame⟩ := h
    obtain ⟨blanks, c, body, cursor, hlone, hslash, hread⟩ := isLone_word hscan hword hstop
    rw [htext]
    apply (reads_signed hlone hslash order).mono
    rintro tokens ⟨sign, behind, rfl, hsign, hbehind, hbehindText⟩
    refine ⟨⟨order, .ofPath behind.text⟩, .signed hsign (subject_word hbehind), ?_⟩
    change (order == order && Property.ofPath behind.text == property) = true
    rw [hbehindText, hread, hsame, beq_self_eq_true]
    rfl

/-! ### Lists and functions -/

theorem followsValue_cons {sign : Char} (h : sign ∈ closers) (rest : List Char) :
    FollowsValue (sign :: rest) := by
  rintro _ ⟨⟩
  exact h

theorem separated_single {α : Type} {separator : Symbol} {phrase : Phrase α} {tokens : List Token}
    {a : α} (h : phrase tokens a) : Separated separator phrase tokens [a] :=
  ⟨[tokens], .single tokens, .cons h .nil⟩

theorem separated_cons {α : Type} {separator : Symbol} {phrase : Phrase α}
    {first tokens : List Token} {sign : Token} {a : α} {items : List α} (ha : phrase first a)
    (hsign : sign.symbol = separator) (h : Separated separator phrase tokens items) :
    Separated separator phrase (first ++ sign :: tokens) (a :: items) := by
  obtain ⟨pieces, hpieces, hall⟩ := h
  exact ⟨first :: pieces, .cons hsign hpieces, .cons ha hall⟩

theorem toList_intercalate_cons (sign : Char) (text next : String) (texts : List String) :
    (sign.toString.intercalate (text :: next :: texts)).toList =
      text.toList ++ sign :: (sign.toString.intercalate (next :: texts)).toList := by
  rw [String.intercalate_cons_cons]
  simp

/-- Items with a sign between them. -/
theorem reads_separated {α β : Type} {separator : Symbol} {sign : Char}
    (hsign : Lexeme.single? sign = some separator) (hcloser : sign ∈ closers)
    {phrase : Phrase β} {R : β → α → Prop} {texts : List String} {items : List α}
    (hne : items ≠ [])
    (h : List.Forall₂ (fun text a ↦
      Reads localOffset FollowsValue (Means phrase fun b ↦ R b a) text.toList) texts items) :
    Reads localOffset FollowsValue
      (Means (Separated separator phrase) fun bs ↦ List.Forall₂ R bs items)
      (sign.toString.intercalate texts).toList := by
  have hblank : Text.isBlank sign = false :=
    (forall_mem_of_all (by decide) : ∀ c ∈ closers, Text.isBlank c = false) sign hcloser
  induction h with
  | nil => exact absurd rfl hne
  | @cons text a texts items ha hrest ih =>
    cases hrest with
    | nil =>
      rw [String.intercalate_singleton]
      apply ha.mono
      rintro tokens ⟨b, hb, hba⟩
      exact ⟨[b], separated_single hb, .cons hba .nil⟩
    | @cons next c texts items hc hmore =>
      rw [toList_intercalate_cons]
      apply ha.around hsign hblank (ih (by simp)) (followsValue_cons hcloser)
      rintro first token tokens ⟨b, hb, hba⟩ htoken ⟨bs, hbs, hall⟩
      exact ⟨b :: bs, separated_cons hb htoken hbs, .cons hba hall⟩

theorem toList_printCall (name : String) (arguments : List String) :
    (printCall name arguments).toList =
      name.toList ++ '(' :: ((commas arguments).toList ++ ')' :: []) := by
  simp [printCall]

/-- A function with its arguments in parentheses. -/
theorem reads_call {α : Type} {keyword : Keyword} {phrase : Phrase α} {P : α → Prop}
    {arguments : List String} {follows : List Char → Prop}
    (h : Reads localOffset FollowsValue (Means phrase P) (commas arguments).toList) :
    Reads localOffset follows (Means (Call phrase keyword) P)
      (printCall keyword.name arguments).toList := by
  have hopen : Lexeme.single? '(' = some .openParen := rfl
  have hclose : Lexeme.single? ')' = some .closeParen := rfl
  have hinner : Reads localOffset follows
      (fun tokens ↦ ∃ inner closing a, tokens = inner ++ [closing] ∧ phrase inner a ∧ P a ∧
        closing.symbol = .closeParen) ((commas arguments).toList ++ ')' :: []) := by
    refine h.append (reads_single hclose (by decide))
      (fun rest _ ↦ followsValue_cons (by decide) rest) ?_
    rintro inner _ ⟨a, ha, hP⟩ ⟨closing, rfl, hclosing⟩
    exact ⟨inner, closing, a, rfl, ha, hP, hclosing⟩
  rw [toList_printCall]
  apply (reads_name keyword).around hopen (by decide) hinner (fun _ ↦ rfl)
  rintro _ opening _ ⟨name, rfl, hname⟩ hopening ⟨inner, closing, a, rfl, ha, hP, hclosing⟩
  exact ⟨a, .intro hname hopening ha hclosing, hP⟩

end Printed

end ResourceQuery
