import ResourceQuery.Proofs.CaseFolding
import ResourceQuery.Proofs.Congruence
import ResourceQuery.Proofs.FilledText

/-!
# Names, sort keys and values that fill their text

What a phrase in the text of a name, of a sort key or of a value says about that piece: the name and
the key are legible, and so is a value that the phrase means up to case. A sign in front of a path
could only be part of it if it did not change the property, and it always does.
-/

namespace ResourceQuery

open Lexer Grammar Query

variable {localOffset : UtcOffset}

/-! ### Names -/

theorem Property.IsClean.isPathChar {property : Property} (h : property.IsClean) :
    ∀ c ∈ property.path.toList, Lexeme.isPathChar c = true := by
  intro c hc
  obtain rfl | hsegment := h.path_chars hc
  · decide
  · rw [isSegmentChar, Bool.and_eq_true] at hsegment
    exact hsegment.2

theorem isStable_of_isBareName {property : Property} (h : property.IsClean)
    (hname : IsBareName property.path.toList) : property.IsStable localOffset := by
  obtain ⟨word, stop, hscan, hword, hstop, hsame⟩ := Property.readsBack_of_isBareName h hname
  exact ⟨word, stop, hscan, hword, hstop, by rw [hsame]; exact BEq.rfl⟩

theorem fills_property {property : Property} (h : property.IsClean) :
    Fills localOffset FollowsWord (fun _ ↦ true) Subject
      (fun _ ↦ property.IsStable localOffset) property.path.toList := by
  intro passed rest last tokens token more read hrest _ hyields hsubject
  obtain ⟨-, hname, -, hbehind⟩ :=
    Yields.fills_subject hrest h.isPathChar (isReady_unsplit _ _ _) hyields hsubject
  exact ⟨isStable_of_isBareName h (hname rfl), hbehind⟩

/-! ### Sort keys -/

/-- A sign in front of a path makes another property of it. -/
theorem ofPath_ne_of_cons {property : Property} (h : property.IsClean) {c : Char} {body : List Char}
    (hc : Text.IsCaseless c) (hpoint : c ≠ '.') (htext : property.path.toList = c :: body) :
    (Property.ofPath (String.ofList body) == property) = false := by
  rw [← Bool.not_eq_true]
  intro hsame
  have hcount := Property.occurrences_eq_of_beq hc hsame
  rw [← Property.ofPath_path h, Property.occurrences_ofPath hpoint,
    Property.occurrences_ofPath hpoint, htext, String.toList_ofList, List.count_cons_self] at hcount
  omega

/-- A sign that is split off a word makes a key of the two. -/
theorem reads_splitSign {order : SortOrder} {body : List Char}
    (hscan : Lexeme.scan localOffset none order.sign (.start (order.sign :: body)) =
      .ok (.splitSign order) ⟨[order.sign], body⟩)
    (hword : ∀ c ∈ body, isWordChar c = true) :
    Reads localOffset FollowsWord (IsSignedWord order (String.ofList body))
      (order.sign :: body) := by
  have hnumber : body.head?.any Lexeme.beginsNumber = true :=
    Lexeme.beginsNumber_of_splitSign hscan
  obtain ⟨c, tail, rfl⟩ : ∃ c tail, body = c :: tail := by
    cases body with
    | nil => cases hnumber
    | cons c tail => exact ⟨c, tail, rfl⟩
  have hblank : Text.isBlank c = false := Lexeme.not_blank_of_beginsNumber hnumber
  intro passed rest last hrest
  obtain ⟨hc, hslash⟩ : order.sign ∉ Lexeme.symbols ∧ order.sign ≠ '/' := by
    cases order <;> decide
  have hplace : 1 ≤ (Cursor.start (order.sign :: c :: tail)).ahead.length := by
    simp [Cursor.start]
  obtain ⟨-, hembed⟩ :=
    Lexeme.scan_embed passed hrest hc hslash hplace hscan (fun h ↦ by cases h) last
  have hsign : next ⟨⟨passed, order.sign :: (c :: tail ++ rest)⟩, localOffset, last, false⟩ = _ :=
    next_of_scan (isBlank_sign order) hembed
  have hread := Scan.recovers_readWhile hword (hrest.bars (by decide)) (order.sign :: passed)
  have hnext : next ⟨⟨order.sign :: passed, c :: (tail ++ rest)⟩, localOffset,
      some (.direction order), true⟩ = _ := next_afterSplitSign hblank hread
  have hbetween : Cursor.Between (c :: tail) ⟨order.sign :: passed, c :: tail ++ rest⟩
      ⟨(c :: tail).reverse ++ order.sign :: passed, rest⟩ := ⟨rfl, rfl⟩
  have htext : (order.sign :: c :: tail).reverse ++ passed =
      (c :: tail).reverse ++ order.sign :: passed := by simp
  rw [htext]
  exact ⟨_, some .property,
    ⟨_, _, rfl, rfl, rfl, congrArg String.ofList hbetween.textFrom_eq⟩, by simp,
    fun more hmore ↦ .more hsign (fun h ↦ by cases h) (.more hnext (fun h ↦ by cases h) hmore)⟩

theorem isPathChar_printSortKey (style : Style) {key : SortKey} (h : key.property.IsClean) :
    ∀ c ∈ (printSortKey style key).toList, Lexeme.isPathChar c = true := by
  have hsign : Lexeme.isPathChar key.order.sign = true := by cases key.order <;> decide
  obtain ⟨-, htext⟩ | htext := printSortKey_cases style key <;> rw [htext]
  · exact h.isPathChar
  · exact List.forall_mem_cons.mpr ⟨hsign, h.isPathChar⟩

/-- If a sign and the name behind it make an equal key of the text of a key, the key is legible. -/
theorem isLegible_of_signed {style : Style} {key : SortKey} {order : SortOrder} {lexeme : Lexeme}
    {last : Option Symbol} {passed body rest : List Char} {cursor : Cursor}
    (h : key.property.IsClean) (htext : (printSortKey style key).toList = order.sign :: body)
    (hrest : FollowsWord rest)
    (hscan : Lexeme.scan localOffset last order.sign ⟨passed, order.sign :: (body ++ rest)⟩ =
      .ok lexeme cursor)
    (hsign : lexeme.symbol = .direction order) (hwords : ∀ c ∈ body, isWordChar c = true)
    (hname : lexeme.isSplitSign = false → IsBareName body)
    (hsame : (SortKey.mk order (.ofPath (String.ofList body)) == key) = true) :
    key.IsLegible style localOffset := by
  obtain ⟨-, hproperty⟩ := SortKey.beq_iff.mp hsame
  obtain ⟨-, hkey⟩ | hkey := printSortKey_cases style key
  · -- without a sign in front of it, the name in the tree is longer than the one that was read
    rw [htext] at hkey
    rw [ofPath_ne_of_cons h (by cases order <;> decide) (by cases order <;> decide)
      hkey.symm] at hproperty
    cases hproperty
  rw [htext] at hkey
  obtain ⟨-, rfl⟩ := List.cons.inj hkey
  cases lexeme with
  | literal value => cases hsign
  | plain symbol => exact isLegible_key style (isStable_of_isBareName h (hname rfl))
  | splitSign other =>
    obtain rfl : other = order := by
      cases hsign
      rfl
    obtain ⟨hc, hslash⟩ : other.sign ∉ Lexeme.symbols ∧ other.sign ≠ '/' := by
      cases other <;> decide
    have hitem : Lexeme.IsName (.splitSign other) := Lexeme.isName_of_symbol nofun
    obtain ⟨inner, hlone, -⟩ := Lexeme.exists_lone_name hrest hc hslash hitem hscan
    obtain ⟨-, rfl⟩ := Lexeme.eq_sign_of_scan hlone rfl
    rw [SortKey.IsLegible, htext]
    apply (reads_splitSign hlone hwords).mono
    rintro tokens ⟨first, word, rfl, hfirst, hword, htext⟩
    exact ⟨⟨other, .ofPath word.text⟩, .signed hfirst (subject_word hword), by rwa [htext]⟩

theorem fills_sortKey (style : Style) {key : SortKey} (h : key.property.IsClean) :
    Fills localOffset FollowsWord (fun _ ↦ true) Key
      (fun read ↦ (read == key) = true → key.IsLegible style localOffset)
      (printSortKey style key).toList := by
  intro passed rest last tokens token more read hrest _ hyields hkey
  have hpath := isPathChar_printSortKey style h
  cases hkey with
  | plain hsubject =>
    obtain ⟨-, hname, -, hbehind⟩ :=
      Yields.fills_subject hrest hpath (isReady_unsplit _ _ _) hyields hsubject
    have hname := hname rfl
    refine ⟨fun _ ↦ ?_, hbehind⟩
    -- a key that is printed with its sign does not begin with the name of a property
    obtain ⟨-, htext⟩ | htext := printSortKey_cases style key <;> rw [htext] at hname
    · exact isLegible_key style (isStable_of_isBareName h hname)
    · have hunsigned := hname.unsigned key.order.sign rfl
      have hsigned : isSign key.order.sign = true := by cases key.order <;> rfl
      rw [hsigned] at hunsigned
      cases hunsigned
  | @signed sign order tokens property hsign hsubject =>
    cases htext : (printSortKey style key).toList with
    | nil =>
      rw [htext] at hyields
      have hends := hyields.endsWord hrest
      rw [hsign] at hends
      cases hends
    | cons c body =>
      rw [htext] at hyields hpath
      simp only [List.cons_append] at hyields
      obtain ⟨-, -, hblank⟩ := Lexeme.not_mem_symbols_of_isPathChar (hpath c List.mem_cons_self)
      obtain ⟨lexeme, cursor, hscan, rfl, hbody⟩ := hyields.uncons hblank
      obtain ⟨rfl, rfl⟩ := Lexeme.eq_sign_of_scan hscan hsign
      have hready := isReady_next (isReady_unsplit ⟨passed, order.sign :: (body ++ rest)⟩
        localOffset last)
      rw [next_of_scanLexeme hblank hscan] at hready
      obtain ⟨hwords, hname, rfl, hbehind⟩ := Yields.fills_subject hrest
        (List.forall_mem_cons.mp hpath).2 hready hbody hsubject
      exact ⟨isLegible_of_signed h htext hrest hscan hsign hwords hname, by simpa using hbehind⟩

/-! ### Values -/

theorem Value.IsQuoted.isStable {value : Value} (h : value.IsQuoted) :
    value.IsStable localOffset := by
  have hend : FollowsValue [] := nofun
  obtain ⟨c, body, hslash, hlone⟩ := h.isLone localOffset
  obtain ⟨_, stop, ⟨position, rfl⟩, hstop, hscan⟩ := (hlone.reads_literal hslash).scan_eq hend
  exact ⟨_, stop, value, hscan, rfl, rfl, hstop, sameIgnoringCase_refl value⟩

/-- Whoever means a text means something that is printed between quotes. -/
theorem Value.isQuoted_of_string {value : Value} {text : String}
    (h : (Value.string text).sameIgnoringCase value = true) : value.IsQuoted := by
  cases value with
  | string other => exact .string other
  | _ => simp [sameIgnoringCase, BEq.beq] at h

theorem isValueChar_of_isUnquoted {text : List Char} (h : Value.IsUnquoted text) :
    ∀ c ∈ text, isValueChar c = true := by
  intro c hc
  have hno {other : Char} (hother : Text.isPlain other = false ∧ other ∉ Base64.signs) :
      c ≠ other := by
    rintro rfl
    exact h.not_mem hother hc
  have hsingle : Lexeme.single? c = none := by
    unfold Lexeme.single?
    split
    · exact absurd rfl (hno (by decide))
    · exact absurd rfl (hno (by decide))
    · exact absurd rfl (hno (by decide))
    · exact absurd rfl (hno (by decide))
    · exact absurd rfl (hno (by decide))
    · rfl
  have hdouble : c ≠ '"' := hno (by decide)
  have hquote : c ≠ '\'' := hno (by decide)
  simp [isValueChar, hsingle, h.not_blank c hc, hdouble, hquote]

/-- A text that is read as a literal all by itself is stable. -/
theorem Value.isStable_of_scan {value read : Value} {c : Char} {body : List Char} {cursor : Cursor}
    (htext : value.print.toList = c :: body) (hblank : Text.isBlank c = false) (hslash : c ≠ '/')
    (hscan : Lexeme.scan localOffset none c (.start (c :: body)) = .ok (.literal read) cursor)
    (hend : cursor.ahead = []) (hsame : read.sameIgnoringCase value = true) :
    value.IsStable localOffset := by
  have hlone : IsLone localOffset (c :: body) [] c body (.literal read) cursor :=
    ⟨rfl, nofun, hblank, hscan, by simp [hend]⟩
  have hfollows : FollowsValue [] := nofun
  obtain ⟨_, stop, ⟨position, rfl⟩, hstop, hscan⟩ := (hlone.reads_literal hslash).scan_eq hfollows
  rw [← htext] at hscan
  exact ⟨_, stop, read, hscan, rfl, rfl, hstop, hsame⟩

theorem fills_value (value : Value) :
    Fills localOffset FollowsValue Symbol.endsValue Operand
      (fun read ↦ read.sameIgnoringCase value = true → value.IsStable localOffset)
      value.print.toList := by
  intro passed rest last tokens token more read hrest htoken hyields hoperand
  by_cases hquoted : value.IsQuoted
  · refine ⟨fun _ ↦ hquoted.isStable, ?_⟩
    obtain ⟨c, body, htext, -, hblank, -, hscan⟩ := hquoted.scan_print localOffset
    have hdenotes : Denotes localOffset (fun _ ↦ True) value.print.toList (.literal value) :=
      ⟨c, body, htext, hblank, fun passed rest last _ ↦ hscan passed rest last⟩
    cases hoperand with
    | literal => exact ⟨_, (hdenotes.uncons rfl trivial hyields).2⟩
    | bare hwords =>
      obtain ⟨_, _, _, _, rfl, -, ⟨hword⟩, -⟩ := hwords.uncons
      have hsymbol := (hdenotes.uncons rfl trivial hyields).1
      rw [hword] at hsymbol
      cases hsymbol
    | signed hsign =>
      have hsymbol := (hdenotes.uncons rfl trivial hyields).1
      rw [hsign] at hsymbol
      cases hsymbol
  · have hunquoted : Value.IsUnquoted value.print.toList := by
      rw [Value.print, String.toList_ofList]
      exact value.isUnquoted_or_isQuoted.resolve_right hquoted
    have hchars := isValueChar_of_isUnquoted hunquoted
    refine ⟨fun hsame ↦ ?_, hyields.fills_value hrest hchars (isReady_unsplit _ _ _)
      hoperand.isValueSymbol htoken⟩
    cases hoperand with
    | bare => exact absurd (Value.isQuoted_of_string hsame) hquoted
    | signed => exact absurd (Value.isQuoted_of_string hsame) hquoted
    | @literal literal _ hsymbol hvalue =>
      cases htext : value.print.toList with
      | nil =>
        rw [htext] at hyields
        have hends := hyields.endsValue hrest
        rw [hsymbol] at hends
        cases hends
      | cons c body =>
        rw [htext] at hyields hchars hunquoted
        simp only [List.cons_append] at hyields
        have hplain : Text.isPlain c = true := hunquoted.front c (by simp)
        have hc : c ∉ Lexeme.symbols := Text.not_mem_of_isPlain hplain (by decide)
        have hslash : c ∉ ['/'] := Text.not_mem_of_isPlain hplain (by decide)
        rw [List.mem_singleton] at hslash
        have hblank := Text.not_blank_of_isPlain hplain
        obtain ⟨lexeme, cursor, hscan, rfl, hbehind⟩ := hyields.uncons hblank
        obtain ⟨inner, hlone, hsource, rfl⟩ := Lexeme.exists_lone_value hrest hc hslash
          (noQuotes_of_isValueChar hchars) hscan
        obtain rfl : lexeme = .literal read := by
          cases lexeme with
          | literal other => exact congrArg Lexeme.literal (Option.some.inj hvalue)
          | plain symbol => cases hvalue
          | splitSign order => cases hvalue
        have hahead : ∀ d ∈ inner.ahead, Lexeme.single? d = none ∧ Text.isBlank d = false :=
          fun d hd ↦ single?_of_isValueChar (hchars d (hsource ▸ List.mem_append_right _ hd))
        have hend : inner.ahead = [] := hbehind.eq_nil_of_endsValue hahead htoken
        exact Value.isStable_of_scan htext hblank hslash hlone hend hsame

theorem isValueChar_printNumber (n : UInt64) :
    ∀ c ∈ (printNumber n).toList, isValueChar c = true := by
  rw [printNumber, String.toList_ofList]
  exact isValueChar_of_isUnquoted (Value.isUnquoted_of_isPlain (Text.isPlain_decimal n.toNat))

theorem Grammar.Count.isValueSymbol {tokens : List Token} {n : UInt64} (h : Count tokens n) :
    ∀ token ∈ tokens, IsValueSymbol token.symbol := by
  obtain ⟨hsymbol, -, -, -, -⟩ := h
  exact List.forall_mem_singleton.mpr (isValueSymbol_of_eq (by simp) hsymbol)

theorem fills_count (n : UInt64) :
    Fills localOffset FollowsValue Symbol.endsValue Count (fun _ ↦ True)
      (printNumber n).toList :=
  fun _ _ _ _ _ _ _ hrest htoken hyields hcount ↦
    ⟨trivial, hyields.fills_value hrest (isValueChar_printNumber n) (isReady_unsplit _ _ _)
      hcount.isValueSymbol htoken⟩

/-! ### Comparisons -/

/-- A value is no name of a comparison in front of an equals sign. -/
theorem endsComparison_value (value : Value) {rest : List Char} (hrest : FollowsValue rest) :
    EndsComparison (value.print.toList ++ rest) := by
  by_cases hquoted : value.IsQuoted
  · obtain ⟨c, body, -, hlone⟩ := hquoted.isLone .utc
    exact endsComparison_of_isLone hlone hrest
  have hunquoted : Value.IsUnquoted value.print.toList := by
    rw [Value.print, String.toList_ofList]
    exact value.isUnquoted_or_isQuoted.resolve_right hquoted
  generalize value.print.toList = text at hunquoted ⊢
  have hend (behind : List Char) : rest ≠ '=' :: behind := by
    rintro rfl
    exact absurd (hrest '=' rfl) (by decide)
  constructor
  · cases text with
    | nil =>
      intro hhead
      obtain ⟨behind, hbehind⟩ := List.head?_eq_some_iff.mp hhead
      exact hend behind hbehind
    | cons c text =>
      rintro ⟨⟩
      exact absurd (hunquoted.front '=' (by simp)) (by decide)
  · intro word behind htext hletters
    rw [← Option.not_isSome_iff_eq_none, Option.isSome_iff_exists]
    rintro ⟨op, hop⟩
    obtain ⟨between, rfl, hbetween⟩ | ⟨between, rfl, hbetween⟩ :=
      List.append_eq_append_iff.mp htext
    · cases between with
      | nil => exact hend behind hbetween
      | cons c between =>
        have hclosers : ∀ c ∈ closers, Text.isLetter c = false := forall_mem_of_all (by decide)
        have hletter := hclosers c (hrest c (by simp [hbetween]))
        rw [hletters c (by simp)] at hletter
        cases hletter
    · cases between with
      | nil => exact hend behind hbetween.symm
      | cons c between =>
        -- the sign would be the third character of the value
        obtain ⟨rfl, -⟩ := List.cons.inj hbetween
        have hlength := Lexeme.length_of_wordComparison? hop
        have hmem : '=' ∈ (word ++ '=' :: between).take 3 := by
          rw [List.take_append, hlength]
          simp
        exact absurd (hunquoted.front '=' hmem) (by decide)

theorem fills_comparison (op : Comparison) {property : Property} (h : property.IsClean)
    (value : Value) :
    Fills localOffset FollowsValue Symbol.endsValue Term
      (fun read ↦ ∃ p v, read = compare op p v ∧ property.IsStable localOffset ∧
        (v.sameIgnoringCase value = true → value.IsStable localOffset))
      (property.path ++ op.sign ++ value.print).toList := by
  have htext : (property.path ++ op.sign ++ value.print).toList =
      property.path.toList ++ (op.sign.toList ++ value.print.toList) := by simp
  intro passed rest last tokens token more read hrest htoken hyields hterm
  rw [htext, List.append_assoc, List.append_assoc] at hyields
  have hfollows : FollowsWord (op.sign.toList ++ (value.print.toList ++ rest)) :=
    followsWord_sign op _
  have hopens : (Parse.headSymbol (tokens ++ token :: more)).opens = false := by
    cases htokens : tokens ++ token :: more with
    | nil => simp at htokens
    | cons head others =>
      rw [htokens] at hyields
      exact hyields.opens_eq_false hfollows h.isPathChar (isReady_unsplit _ _ _)
  obtain ⟨first, sign, second, other, property', read, rfl, rfl, hsubject, hsign, hoperand⟩ :=
    comparison_of_term hterm hopens
  rw [List.append_assoc, List.cons_append] at hyields
  obtain ⟨-, hname, rfl, _, hbehind⟩ :=
    hyields.fills_subject hfollows h.isPathChar (isReady_unsplit _ _ _) hsubject
  obtain ⟨hop, hbehind⟩ :=
    (denotes_sign localOffset op).uncons rfl (endsComparison_value value hrest) hbehind
  obtain rfl : other = op := Symbol.comparison.inj (hsign.symm.trans hop)
  obtain ⟨hvalue, hend⟩ := fills_value value _ _ _ _ _ _ _ hrest htoken hbehind hoperand
  refine ⟨⟨_, _, rfl, isStable_of_isBareName h (hname rfl), hvalue⟩, ?_⟩
  rw [htext]
  simpa using hend

end ResourceQuery
