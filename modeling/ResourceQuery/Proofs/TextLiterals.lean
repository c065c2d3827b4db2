import ResourceQuery.Proofs.BareNames
import ResourceQuery.Proofs.Preparation
import ResourceQuery.Proofs.Recovery
import ResourceQuery.Proofs.Tiling

/-!
# Texts between quotes

What the printer writes between quotes is read as the text it was written for, and reading stops
right behind the closing quote. An escape is read back as its character, whatever follows, since the
escape of a code has always four digits; so the text and what is behind it do not mix.
-/

namespace ResourceQuery

open Run Lexer

/-! ### Hexadecimal codes -/

namespace Text

theorem isHexDigit_digitChar {n : Nat} (h : n < 16) : isHexDigit n.digitChar = true :=
  (by decide : ∀ n < 16, isHexDigit n.digitChar = true) n h

theorem hexValue_digitChar {n : Nat} (h : n < 16) : hexValue n.digitChar = n :=
  (by decide : ∀ n < 16, hexValue n.digitChar = n) n h

theorem isHexDigit_of_mem_hexadecimal {width n : Nat} {c : Char} (h : c ∈ hexadecimal width n) :
    isHexDigit c = true := by
  induction width generalizing n with
  | zero => cases h
  | succ width ih =>
    obtain h | h := List.mem_append.mp h
    · exact ih h
    · obtain rfl := List.mem_singleton.mp h
      exact isHexDigit_digitChar (Nat.mod_lt n (by decide))

theorem ofHexDigits_append_singleton (digits : List Char) (c : Char) :
    ofHexDigits (digits ++ [c]) = 16 * ofHexDigits digits + hexValue c := by
  simp [ofHexDigits]

/-- So many of the last digits of a number say what it is up to a multiple. -/
theorem ofHexDigits_hexadecimal (width n : Nat) :
    ofHexDigits (hexadecimal width n) = n % 16 ^ width := by
  induction width generalizing n with
  | zero => simp [hexadecimal, ofHexDigits, Nat.mod_one]
  | succ width ih =>
    rw [hexadecimal, ofHexDigits_append_singleton, ih,
      hexValue_digitChar (Nat.mod_lt n (by decide)), Nat.pow_succ', Nat.mod_mul, Nat.add_comm]

end Text

/-! ### Escapes -/

namespace Quoted

variable {quote : Char}

/-- The four digits of a code are read as its character, whatever follows. -/
theorem decode_code {c : Char} (hc : c.toNat < 16 ^ 4) (rest : List Char) :
    decode quote ('\\' :: 'u' :: (Text.hexadecimal 4 c.toNat ++ rest)) =
      (decode quote rest).push c 6 := by
  have hdigits : ∀ d ∈ Text.hexadecimal 4 c.toNat, Text.isHexDigit d = true :=
    fun _ ↦ Text.isHexDigit_of_mem_hexadecimal
  have hcode : ofCode? (Text.hexadecimal 4 c.toNat) = some c := by
    have hvalid : c.toNat.isValidChar := c.valid
    rw [ofCode?, Text.ofHexDigits_hexadecimal, Nat.mod_eq_of_lt hc, if_pos hvalid,
      Char.ofNat_toNat]
  obtain ⟨x, y, z, w, hfour⟩ : ∃ x y z w, Text.hexadecimal 4 c.toNat = [x, y, z, w] :=
    ⟨_, _, _, _, rfl⟩
  rw [hfour] at hdigits hcode ⊢
  have hrun : [x, y, z, w].takeWhile Text.isHexDigit = [x, y, z, w] :=
    List.takeWhile_eq_self_iff.mpr hdigits
  simp only [List.cons_append, List.nil_append, decode, hrun]
  rw [if_pos (by rfl), hcode]

theorem decode_simpleEscape {e c : Char} (h : simpleEscape? e = some c) (rest : List Char) :
    decode quote ('\\' :: e :: rest) = (decode quote rest).push c 2 := by
  have he : e ≠ 'u' := by
    rintro rfl
    cases h
  rw [decode, h]
  exact he

/-- What is written for a character is read as that character, whatever follows. -/
theorem decode_escape (hquote : quote ∈ ['"', '\'']) (c : Char) (rest : List Char) :
    decode quote (escape quote c ++ rest) = (decode quote rest).push c (escape quote c).length := by
  have hself : simpleEscape? quote = some quote := by
    simp only [List.mem_cons, List.not_mem_nil, or_false] at hquote
    obtain rfl | rfl := hquote <;> rfl
  unfold escape
  split_ifs with hbackslash hpercent hnewline hreturn htab hbackspace hsame hcontrol
  · subst hbackslash
    exact decode_simpleEscape rfl rest
  · subst hpercent
    exact decode_code (by decide) rest
  · subst hnewline
    exact decode_simpleEscape rfl rest
  · subst hreturn
    exact decode_simpleEscape rfl rest
  · subst htab
    exact decode_simpleEscape rfl rest
  · subst hbackspace
    exact decode_simpleEscape rfl rest
  · subst hsame
    exact decode_simpleEscape hself rest
  · have hc : c.toNat < 16 ^ 4 := by
      simp only [Text.isControl, Bool.or_eq_true, Bool.and_eq_true, decide_eq_true_eq] at hcontrol
      omega
    exact decode_code hc rest
  · rw [List.singleton_append, decode_cons hbackslash, if_neg hsame]
    rfl

/-- A body is read up to the quote behind it. -/
theorem decode_flatMap_escape (hquote : quote ∈ ['"', '\'']) (text rest : List Char) :
    decode quote (text.flatMap (escape quote) ++ quote :: rest) =
      (.ok text, (text.flatMap (escape quote)).length + 1) := by
  induction text with
  | nil =>
    have hne : quote ≠ '\\' := by
      rintro rfl
      exact absurd hquote (by decide)
    rw [List.flatMap_nil, List.nil_append, decode_cons hne, if_pos rfl]
    rfl
  | cons c text ih =>
    rw [List.flatMap_cons, List.append_assoc, decode_escape hquote, ih]
    simp only [Outcome.push, Except.map, List.length_append, Prod.mk.injEq, true_and]
    omega

/-- A quoted text is read as the text, up to its closing quote. -/
theorem recovers_scan (hquote : quote ∈ ['"', '\'']) (text rest : List Char) :
    Scan.Recovers (scan quote) (encode quote text) text rest := by
  intro passed
  have hbody : (encode quote text ++ rest).drop 1 =
      text.flatMap (escape quote) ++ quote :: rest := by simp [encode]
  have hlength : (text.flatMap (escape quote)).length + 1 + 1 = (encode quote text).length := by
    simp [encode]
  have hposition : Scan.position ⟨passed, encode quote text ++ rest⟩ =
      .ok passed.length ⟨passed, encode quote text ++ rest⟩ := rfl
  rw [scan, bind_ok hposition, bind_ok (Lexeme.get_eq _)]
  dsimp only
  rw [hbody, decode_flatMap_escape hquote]
  dsimp only
  rw [hlength, bind_ok (Scan.recovers_skip _ passed)]
  rfl

theorem recovers_scanChar (c : Char) (rest : List Char) :
    Scan.Recovers scanChar (encode '\'' [c]) c rest := by
  intro passed
  have hposition : Scan.position ⟨passed, encode '\'' [c] ++ rest⟩ =
      .ok passed.length ⟨passed, encode '\'' [c] ++ rest⟩ := rfl
  rw [scanChar, bind_ok hposition, bind_ok (recovers_scan (by decide) [c] rest passed)]
  rfl

end Quoted

/-! ### Literals -/

namespace Value

variable {value : Value} {localOffset : UtcOffset}

/-- Behind the prefix of references a quoted text is read as one. -/
theorem recovers_scanWord_uri (localOffset : UtcOffset) (text rest : List Char) :
    Scan.Recovers (Lexeme.scanWord localOffset) (['u', 'r', 'i', ':'] ++ Quoted.encode '"' text)
      (.literal (.uri (String.ofList text))) rest := by
  have huri (mark : Nat) : Scan.Recovers (Literal.scanTyped localOffset mark .uri)
      (Quoted.encode '"' text) (.uri (String.ofList text)) rest := by
    have hbody : Scan.Recovers (Literal.scanTypedUri mark) (Quoted.encode '"' text)
        (String.ofList text) rest := by
      refine Scan.recovers_look (a := true) (fun _ ↦ rfl) ?_
      exact (Quoted.recovers_scan (by decide) text rest).map
    exact hbody.map
  intro passed
  let marked : List Char := ':' :: (['u', 'r', 'i'].reverse ++ passed)
  calc Lexeme.scanWord localOffset
        ⟨passed, ['u', 'r', 'i', ':'] ++ Quoted.encode '"' text ++ rest⟩
    _ = (do return Lexeme.literal (← Literal.scanTyped localOffset passed.length .uri) :
          Scan Lexeme) ⟨marked, Quoted.encode '"' text ++ rest⟩ :=
      Lexeme.scanWord_typed ['u', 'r', 'i'] (forall_mem_of_all (by decide)) (by decide) (by decide)
        (by decide) passed _
    _ = .ok (.literal (.uri (String.ofList text)))
          ⟨(Quoted.encode '"' text).reverse ++ marked, rest⟩ :=
      (huri passed.length).map _
    _ = .ok (.literal (.uri (String.ofList text)))
          ⟨(['u', 'r', 'i', ':'] ++ Quoted.encode '"' text).reverse ++ passed, rest⟩ := by
      simp [marked]

/-- What is printed for a text is recognised as the text, whatever stands around it. -/
theorem IsQuoted.scan_print (h : value.IsQuoted) (localOffset : UtcOffset) :
    ∃ c body, value.print.toList = c :: body ∧ c ≠ '/' ∧ Text.isBlank c = false ∧
      Lexeme.beginsNumber c = false ∧ ∀ passed rest last,
        Lexeme.scan localOffset last c ⟨passed, c :: (body ++ rest)⟩ =
          .ok (.literal value) ⟨(c :: body).reverse ++ passed, rest⟩ := by
  rw [print, String.toList_ofList]
  cases h with
  | string text =>
    refine ⟨'"', _, rfl, by decide, by decide, by decide, fun passed rest last ↦ ?_⟩
    have hscan : Quoted.scan '"' ⟨passed, Quoted.encode '"' text.toList ++ rest⟩ = _ :=
      Quoted.recovers_scan (by decide) text.toList rest passed
    rw [Lexeme.scan_eq_scanItem (by decide) (by decide), Lexeme.scanItem,
      bind_ok (Lexeme.get_eq _), if_pos (by decide)]
    refine (map_ok hscan).trans ?_
    rw [String.ofList_toList]
    rfl
  | uri text =>
    refine ⟨'u', ['r', 'i', ':'] ++ Quoted.encode '"' text.toList, rfl, by decide, by decide,
      by decide, fun passed rest last ↦ ?_⟩
    have hscan := recovers_scanWord_uri localOffset text.toList rest passed
    rw [String.ofList_toList] at hscan
    rw [Lexeme.scan_eq_scanWord (by decide)]
    exact hscan
  | char c =>
    refine ⟨'\'', _, rfl, by decide, by decide, by decide, fun passed rest last ↦ ?_⟩
    have hscan := Quoted.recovers_scanChar c rest passed
    rw [Lexeme.scan_eq_scanItem (by decide) (by decide), Lexeme.scanItem,
      bind_ok (Lexeme.get_eq _), if_neg (by decide), if_pos (by decide)]
    exact map_ok hscan

theorem IsQuoted.isLone (h : value.IsQuoted) (localOffset : UtcOffset) :
    ∃ c body, c ≠ '/' ∧ IsLone localOffset value.print.toList [] c body (.literal value)
      ⟨value.print.toList.reverse ++ [], []⟩ := by
  obtain ⟨c, body, htext, hslash, hblank, -, hscan⟩ := h.scan_print localOffset
  have halone := hscan [] [] none
  rw [List.append_nil] at halone
  rw [htext]
  exact ⟨c, body, hslash, rfl, by simp, hblank, halone, by simp⟩

theorem IsQuoted.reads (h : value.IsQuoted) :
    Reads localOffset FollowsValue (Means Grammar.Operand fun read ↦ read = value)
      value.print.toList := by
  obtain ⟨c, body, hslash, hlone⟩ := h.isLone localOffset
  apply (hlone.reads_literal hslash).mono
  rintro _ ⟨position, rfl⟩
  exact ⟨value, .literal rfl rfl, rfl⟩

/-- A sign is never split off in front of a printed text. -/
theorem IsQuoted.afterSplitSign_eq (h : value.IsQuoted) {lexer : Lexer} {passed rest : List Char}
    (hready : lexer.IsReady) (hcursor : lexer.cursor = ⟨passed, value.print.toList ++ rest⟩) :
    lexer.afterSplitSign = false := by
  obtain ⟨c, body, htext, -, -, hnumber, -⟩ := h.scan_print lexer.localOffset
  rw [← Bool.not_eq_true]
  intro hsplit
  have hbegins := hready hsplit
  rw [hcursor, htext, Cursor.peek, List.cons_append, List.head?_cons, Option.any_some,
    hnumber] at hbegins
  cases hbegins

/-- The next token is the printed literal, and reading goes on right behind its closing quote. -/
theorem IsQuoted.next_eq (h : value.IsQuoted) {lexer : Lexer} {passed rest : List Char}
    (hcursor : lexer.cursor = ⟨passed, value.print.toList ++ rest⟩)
    (hsplit : lexer.afterSplitSign = false) :
    lexer.next = (.ok ⟨.literal, some value, value.print, passed.length⟩,
      { lexer with
        cursor := ⟨value.print.toList.reverse ++ passed, rest⟩, last := some .literal }) := by
  obtain ⟨cursor, localOffset, last, split⟩ := lexer
  obtain rfl : cursor = _ := hcursor
  obtain rfl : split = false := hsplit
  obtain ⟨c, body, htext, -, hblank, -, hscan⟩ := h.scan_print localOffset
  have hplace : (⟨(c :: body).reverse ++ passed, rest⟩ : Cursor).textFrom passed.length =
      c :: body := by
    have hbetween : Cursor.Between (c :: body) ⟨passed, c :: body ++ rest⟩
        ⟨(c :: body).reverse ++ passed, rest⟩ := ⟨rfl, rfl⟩
    exact hbetween.textFrom_eq
  rw [htext, List.cons_append, next_of_scan hblank (hscan passed rest last), hplace, ← htext,
    String.ofList_toList]
  rfl

end Value

/-! ### Comparisons with texts -/

namespace Query

open Text.Percent

variable {options : ReadOptions} {property : Property} {value : Value}

theorem finish_compare (op : Comparison) :
    finish options (compare op property value) = .ok (compare op property value) := by
  cases hconsolidate : options.consolidate <;> simp [finish, hconsolidate] <;> rfl

/-- A text that is read as a subject and one that is read as a value make up a comparison. -/
theorem scan_compare_of_reads {path text : List Char} (op : Comparison)
    (hpath : Reads options.localOffset FollowsWord
      (Means Grammar.Subject fun read ↦ read = property) path)
    (hvalue : Reads options.localOffset FollowsValue
      (Means Grammar.Operand fun read ↦ read = value) text)
    (hends : ∀ rest, FollowsValue rest → EndsComparison (text ++ rest)) :
    scan options (path ++ (op.sign.toList ++ text)) = .ok (compare op property value) := by
  have hreads := reads_comparisonTerm op hpath hvalue hends
  have hend : FollowsValue [] := by simp [FollowsValue]
  obtain ⟨tokens, stop, ⟨_, hterm, _, _, rfl, rfl, rfl⟩, hstop, hqueue⟩ := hreads.scan_eq hend
  rw [scan, hqueue]
  change ofTokens options ⟨tokens ++ [stop]⟩ = _
  rw [ofTokens_eq_finish options (.clauses (.term hterm) hstop), finish_compare]

theorem scan_compare (op : Comparison) (hproperty : property.ReadsBack options.localOffset)
    (hvalue : value.IsQuoted) :
    scan options (property.path.toList ++ (op.sign.toList ++ value.print.toList)) =
      .ok (compare op property value) := by
  obtain ⟨word, stop, hscan, hword, hstop, rfl⟩ := hproperty
  refine scan_compare_of_reads op (reads_word hscan hword hstop) hvalue.reads fun rest hrest ↦ ?_
  obtain ⟨c, body, -, hlone⟩ := hvalue.isLone options.localOffset
  exact endsComparison_of_isLone hlone hrest

/-- A comparison with a printed text is read as it was, if its property reads back in front of the
sign. -/
theorem read_compare (options : ReadOptions) (hclean : property.IsClean)
    (hname : IsBareName property.path.toList) (hcode : ¬HasCode property.path.toList)
    (hintroduces : ¬property.Introduces .eq) (hvalue : value.IsQuoted) :
    read options (property.path ++ "=" ++ value.print) = .ok (compare .eq property value) := by
  have htext : (property.path ++ "=" ++ value.print).toList =
      property.path.toList ++ (Comparison.eq.sign.toList ++ value.print.toList) := by
    simp [Comparison.sign]
  have hprinted := toList_printWithin_compare true .eq property value
  have hprepared : prepare options (property.path ++ "=" ++ value.print).toList =
      .ok (property.path.toList ++ (Comparison.eq.sign.toList ++ value.print.toList)) := by
    have hequals : '=' ∉ property.path.toList := fun hmem ↦
      absurd (hclean.path_chars hmem) (by decide)
    have hblanks := noBlankEnds_printWithin_compare true .eq hclean value
    have hcodes : (compare .eq property value).AllProperties
        fun property ↦ ¬HasCode property.path.toList :=
      allProperties_of_properties_eq rfl rfl hcode
    have hnocode : ¬HasCode (printWithin .standard true (compare .eq property value)).toList :=
      (not_hasCode_printWithin_iff true).mpr hcodes
    rw [hprinted] at hblanks hnocode
    rw [htext, prepare_of_not_hasCode hnocode, strip_eq_self_iff.mpr ⟨hblanks, ?_⟩]
    rwa [isIntroduced_comparison hequals]
  rw [read, hprepared]
  exact scan_compare .eq (Property.readsBack_of_isBareName hclean hname) hvalue

/-- A word that begins like no number is a bare name unless it is a constant or a GUID. -/
theorem isBareName_of_not_beginsDigits {c : Char} {body : List Char}
    (hword : (c :: body).all isWordChar = true) (hsign : isSign c = false)
    (hdigits : Lexeme.beginsDigits c body.head? = false)
    (hguid : Guid.ahead (.start (c :: body)) = false)
    (hconstant : Text.lowerAscii (c :: body) ∉
      ["null".toList, "true".toList, "false".toList]) :
    IsBareName (c :: body) where
  ne_nil := List.cons_ne_nil c body
  word := List.all_eq_true.mp hword
  unsigned := by simpa using hsign
  noConstant := hconstant
  noLiteral := Lexeme.noLiteral_of_not_beginsDigits hsign hdigits hguid

/-- The one-letter property of the plainest comparison. -/
theorem read_compare_letter (options : ReadOptions) (hvalue : value.IsQuoted) :
    read options ("P=" ++ value.print) = .ok (compare .eq ⟨["P"]⟩ value) := by
  have hpath : (⟨["P"]⟩ : Property).path = "P" := by decide
  have hclean : (⟨["P"]⟩ : Property).IsClean := by
    intro segment hsegment
    obtain rfl := List.mem_singleton.mp hsegment
    exact ⟨by decide, forall_mem_of_all (by decide)⟩
  have hname : IsBareName "P".toList :=
    isBareName_of_not_beginsDigits (by decide) (by decide) rfl rfl (by decide)
  have hintroduces : ¬(⟨["P"]⟩ : Property).Introduces .eq := by
    rw [Property.Introduces, hpath]
    decide
  have hread := read_compare options hclean (hpath ▸ hname)
    (hpath ▸ not_hasCode_of_not_mem (by decide)) hintroduces hvalue
  rwa [hpath] at hread

/-- A printed text is read back as it was written, letter by letter. Wherever a lexer stands in
front of one, the next token is that text, and ends right behind its closing quote. -/
theorem read_print_quoted (options : ReadOptions) (h : value.IsQuoted) :
    read options ("P=" ++ value.print) = .ok (compare .eq ⟨["P"]⟩ value) ∧
      (∀ property : Property, property.IsClean → IsBareName property.path.toList →
        ¬HasCode property.path.toList → ¬property.Introduces .eq →
        read options (property.path ++ "=" ++ value.print) =
          .ok (compare .eq property value)) ∧
      ∀ text lexer passed rest, (Lexer.start text options.localOffset).Reaches lexer →
        lexer.cursor = ⟨passed, value.print.toList ++ rest⟩ →
        lexer.next = (.ok ⟨.literal, some value, value.print, passed.length⟩,
          { lexer with
            cursor := ⟨value.print.toList.reverse ++ passed, rest⟩, last := some .literal }) := by
  refine ⟨read_compare_letter options h, ?_, ?_⟩
  · intro property hclean hname hcode hintroduces
    exact read_compare options hclean hname hcode hintroduces h
  · intro text lexer passed rest hreaches hcursor
    have hready := isReady_of_reaches (isReady_start text options.localOffset) hreaches
    exact h.next_eq hcursor (h.afterSplitSign_eq hready hcursor)

/-- A bell in front of digits, quotes of both kinds, a percent code and a backslash, also where
another quote follows upon the literal. -/
theorem read_print_quoted_escapes :
    let value : Value := .string "\x0741\"'%41\\"
    value.print = "\"\\u000741\\\"'\\u002541\\\\\"" ∧
      read {} ("P=" ++ value.print) = .ok (compare .eq ⟨["P"]⟩ value) ∧
      read {} ("a.b=" ++ value.print) = .ok (compare .eq ⟨["a", "b"]⟩ value) ∧
      (Lexer.start (value.print.toList ++ ['"', '4']) .utc).next.1 =
        .ok ⟨.literal, some value, value.print, 0⟩ := by
  intro value
  have hquoted : value.IsQuoted := .string _
  have hpath : (⟨["a", "b"]⟩ : Property).path = "a.b" := by decide
  have hclean : (⟨["a", "b"]⟩ : Property).IsClean := by
    intro segment hsegment
    obtain rfl | rfl : segment = "a" ∨ segment = "b" := by simpa using hsegment
    · exact ⟨by decide, forall_mem_of_all (by decide)⟩
    · exact ⟨by decide, forall_mem_of_all (by decide)⟩
  have hname : IsBareName "a.b".toList :=
    isBareName_of_not_beginsDigits (by decide) (by decide) rfl rfl (by decide)
  have hintroduces : ¬(⟨["a", "b"]⟩ : Property).Introduces .eq := by
    rw [Property.Introduces, hpath]
    decide
  have hdotted := (read_print_quoted {} hquoted).2.1 ⟨["a", "b"]⟩ hclean (hpath ▸ hname)
    (hpath ▸ not_hasCode_of_not_mem (by decide)) hintroduces
  have hnext := (read_print_quoted {} hquoted).2.2
    (value.print.toList ++ ['"', '4']) _ [] ['"', '4'] .refl rfl
  refine ⟨by cbv, (read_print_quoted {} hquoted).1, ?_, congrArg Prod.fst hnext⟩
  rwa [hpath] at hdotted

end Query

end ResourceQuery
