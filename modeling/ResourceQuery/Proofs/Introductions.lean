import ResourceQuery.Proofs.DecodedQuery
import ResourceQuery.Proofs.FilledQuery

/-!
# Queries that would be introduced

A comparison at the front of a printed query may look like an introduction. Then it is taken off,
and with it a question mark, so that there is one less in the property, or else the property and its
sign. What is left begins with a value, and no query does.
-/

namespace ResourceQuery

open Lexer Grammar Query Text

variable {localOffset : UtcOffset} {passed text rest : List Char} {last : Option Symbol}
  {tokens more : List Token} {token : Token}

/-! ### Clauses that begin with a comparison -/

namespace Query

/-- The leading terms of equal queries are equal. -/
theorem leading_same {a b : Query} (h : (a == b) = true) : (a.leading == b.leading) = true := by
  cases same_iff.mp h with
  | @group joiner ts us hterms =>
    cases hterms with
    | nil => exact h
    | cons hfirst hrest =>
      cases hrest with
      | nil => exact h
      | cons => exact hfirst
  | _ => exact h

end Query

/-- Clauses that begin neither with a parenthesis nor with a function begin with a comparison. -/
theorem leading_of_clauses {query : Query} (h : Clauses tokens query)
    (hopens : (Parse.headSymbol (tokens ++ more)).opens = false) :
    ∃ first sign behind op property value, tokens ++ more = first ++ sign :: behind ∧
      query.leading = compare op property value ∧ Subject first property ∧
      sign.symbol = .comparison op := by
  cases h with
  | term hterm =>
    obtain ⟨first, sign, second, op, property, value, rfl, rfl, hsubject, hsign, -⟩ :=
      comparison_of_term hterm hopens
    exact ⟨first, sign, second ++ more, op, property, value, by simp, rfl, hsubject, hsign⟩
  | @joined _ joiner pieces queries hpieces hterms hmany =>
    obtain ⟨piece, behind, query, others, rfl, rfl, hterm, hcontinued⟩ :=
      Separated.uncons ⟨pieces, hpieces, hterms⟩
    rw [List.append_assoc] at hopens
    obtain ⟨first, sign, second, op, property, value, rfl, rfl, hsubject, hsign, -⟩ :=
      comparison_of_term hterm hopens
    refine ⟨first, sign, second ++ (behind ++ more), op, property, value, by simp, ?_, hsubject,
      hsign⟩
    cases others with
    | nil => simp at hmany
    | cons => rfl

/-! ### Values at the front -/

/-- No clauses begin with a literal. -/
theorem not_clauses_of_literal (hhead : Parse.headSymbol (tokens ++ more) = .literal)
    (query : Query) : ¬Clauses tokens query := by
  intro hclauses
  have hopens : (Parse.headSymbol (tokens ++ more)).opens = false := by
    rw [hhead]
    rfl
  obtain ⟨first, sign, behind, _, _, _, htokens, -, hsubject, -⟩ :=
    leading_of_clauses hclauses hopens
  rw [htokens] at hhead
  obtain h | h := Parse.head_subject hsubject (sign :: behind) <;> rw [hhead] at h <;> cases h

theorem Lexeme.isPathChar_of_isPlain {c : Char} (h : isPlain c = true) :
    isPathChar c = true := by
  have hsigns : ∀ c ∈ ['+', '-', '.', ':'], isPathChar c = true := forall_mem_of_all (by decide)
  rw [isPlain, Bool.or_eq_true, Bool.or_eq_true, List.contains_iff_mem] at h
  obtain (hletter | hdigit) | hsign := h
  · rw [isPathChar, Lexeme.isWordChar_of_isLetter hletter, Bool.true_or]
  · rw [isPathChar, isWordChar_of_isDigit hdigit, Bool.true_or]
  · exact hsigns c hsign

namespace Lexer

/-- Bytes are read as a literal, if at all. -/
theorem Yields.head_binary {bytes : List UInt8}
    (h : Yields ⟨⟨passed, (Value.binary bytes).print.toList ++ rest⟩, localOffset, last, false⟩
      (token :: more)) : token.symbol = .literal := by
  have htext : (Value.binary bytes).print.toList ++ rest =
      ['b', 'i', 'n'] ++ ':' :: (Base64.encode bytes ++ rest) := by
    rw [Value.print, String.toList_ofList]
    rfl
  rw [htext] at h
  obtain ⟨lexeme, cursor, hscan, rfl, -⟩ := h.uncons (by decide)
  have hlexeme : Lexeme.scan localOffset last 'b'
      ⟨passed, ['b', 'i', 'n'] ++ ':' :: (Base64.encode bytes ++ rest)⟩ = .ok lexeme cursor := hscan
  have htype : LiteralType.ofWord? ['b', 'i', 'n'] = some .binary := by decide
  rw [Lexeme.scan_eq_scanWord (by decide), Lexeme.scanWord_typed ['b', 'i', 'n']
    (forall_mem_of_all (by decide)) (by decide) (by decide) htype] at hlexeme
  obtain ⟨value, next, -, hpure⟩ := Run.bind_eq_ok.mp hlexeme
  cases hpure
  rfl

/-- A value is not at the front of clauses. -/
theorem Yields.not_clauses_of_value (value : Value) (hrest : FollowsValue rest)
    (h : Yields ⟨⟨passed, value.print.toList ++ rest⟩, localOffset, last, false⟩
      (tokens ++ token :: more)) (query : Query) : ¬Clauses tokens query := by
  intro hclauses
  obtain ⟨head, others, htokens⟩ : ∃ head others, tokens ++ token :: more = head :: others :=
    List.exists_cons_of_ne_nil (by simp)
  have hhead : Parse.headSymbol (tokens ++ token :: more) = head.symbol := by
    rw [htokens]
    rfl
  obtain hplain | ⟨bytes, rfl⟩ | hquoted := value.printChars_cases
  · have hpath : ∀ c ∈ value.print.toList, Lexeme.isPathChar c = true := by
      rw [Value.print, String.toList_ofList]
      exact fun c hc ↦ Lexeme.isPathChar_of_isPlain (hplain c hc)
    have hopens : (Parse.headSymbol (tokens ++ token :: more)).opens = false := by
      rw [hhead]
      rw [htokens] at h
      exact h.opens_eq_false hrest.stops hpath (isReady_unsplit _ _ _)
    obtain ⟨first, sign, behind, _, _, _, hcut, -, hsubject, hsign⟩ :=
      leading_of_clauses hclauses hopens
    -- the sign would have to be read behind the value
    rw [hcut] at h
    obtain ⟨-, -, -, _, hbehind⟩ :=
      h.fills_subject hrest.stops hpath (isReady_unsplit _ _ _) hsubject
    have hends := hbehind.endsValue hrest
    rw [hsign] at hends
    cases hends
  · rw [htokens] at h
    exact not_clauses_of_literal (hhead.trans h.head_binary) query hclauses
  · obtain ⟨c, body, htext, -, hblank, -, hscan⟩ := hquoted.scan_print localOffset
    have hdenotes : Denotes localOffset (fun _ ↦ True) value.print.toList (.literal value) :=
      ⟨c, body, htext, hblank, fun passed rest last _ ↦ hscan passed rest last⟩
    rw [htokens] at h
    exact not_clauses_of_literal (hhead.trans (hdenotes.uncons rfl trivial h).1) query hclauses

end Lexer

/-! ### What is taken off -/

namespace Query

variable {op : Comparison} {property : Property}

/-- The name is taken off together with the equals sign behind it. -/
theorem dropName_name {path : List Char} (h : lowerAscii path = "rql".toList) (text : List Char) :
    dropName (path ++ '=' :: text) = text := by
  match path with
  | [] | [_] | [_, _] | _ :: _ :: _ :: _ :: _ => simp [lowerAscii] at h
  | [a, b, c] =>
    have hlower : [a.toLower, b.toLower, c.toLower] = ['r', 'q', 'l'] := h
    have hname : lowerAscii (([a, b, c] ++ '=' :: text).take 4) = "rql=".toList :=
      congrArg (· ++ ['=']) hlower
    rw [dropName, if_pos hname]
    rfl

theorem dropName_comparison {path : List Char} (hpath : '=' ∉ path) (text : List Char) :
    dropName (path ++ (op.sign.toList ++ text)) = path ++ (op.sign.toList ++ text) ∨
      dropName (path ++ (op.sign.toList ++ text)) = text := by
  by_cases hname : lowerAscii ((path ++ (op.sign.toList ++ text)).take 4) = "rql=".toList
  · obtain ⟨rfl, hrql⟩ := (beginsName_comparison hpath text).mp hname
    exact .inr (dropName_name hrql text)
  · exact .inl (dropName_eq_self_iff.mpr hname)

/-- With a comparison that reads as an introduction a question mark is taken off, or all of the
comparison but its value. -/
theorem strip_comparison (hpath : '=' ∉ property.path.toList) (h : property.Introduces op)
    (hblanks : NoBlankEnds (property.path.toList ++ (op.sign.toList ++ text))) :
    strip (property.path.toList ++ (op.sign.toList ++ text)) = text ∨
      ∃ tail, property.path.toList = '?' :: tail ∧
        strip (property.path.toList ++ (op.sign.toList ++ text)) =
          tail ++ (op.sign.toList ++ text) := by
  rw [strip, trim_eq_self_iff.mpr hblanks]
  obtain hmark | ⟨rfl, hname⟩ := h
  · obtain ⟨tail, htail⟩ := List.head?_eq_some_iff.mp hmark
    rw [htail, List.mem_cons, not_or] at hpath
    rw [htail]
    obtain hsame | hvalue := dropName_comparison hpath.2 text
    · exact .inr ⟨tail, rfl, hsame⟩
    · exact .inl hvalue
  · have hmark : ¬(property.path.toList ++ (Comparison.eq.sign.toList ++ text)).head? =
        some '?' := by
      cases hpath : property.path.toList with
      | nil => simp [Comparison.sign]
      | cons c rest =>
        rintro ⟨⟩
        rw [hpath] at hname
        exact absurd (List.cons.inj hname).1 (by decide)
    rw [dropQuestionMark_eq_self_iff.mpr hmark]
    exact .inl (dropName_name hname text)

/-- A query whose printed text is stripped and then read as an equal one is not introduced. -/
theorem not_introduces_of_sentence {query again : Query} {value : Value}
    (hclean : query.AllProperties Property.IsClean)
    (hleading : query.leading = compare op property value)
    (hscan : Lexer.scan (strip (query.print .standard).toList) localOffset = .ok ⟨tokens⟩)
    (hsentence : Sentence tokens again) (hsame : (again == query) = true) :
    ¬property.Introduces op := by
  intro hintroduces
  have hproperty : property.IsClean := by
    have hproperties := (allProperties_iff.mp hclean.leading).1
    rw [hleading] at hproperties
    exact hproperties property (List.mem_singleton_self property)
  obtain ⟨behind, hbehind, htext⟩ := exists_print_eq_leading query
  have hfollows : FollowsValue behind := by
    intro c hc
    obtain rfl | rfl := hbehind c hc <;> decide
  have hblanks : NoBlankEnds (query.print .standard).toList := noBlankEnds_printWithin true hclean
  rw [hleading, toList_printWithin_compare, List.append_assoc, List.append_assoc] at htext
  rw [htext] at hscan hblanks
  have hyields := scan_eq_ok_iff.mp hscan
  cases hsentence with
  | empty =>
    cases same_iff.mp hsame
    cases hleading
  | @clauses tokens stop _ hclauses hstop =>
    obtain hstrip | ⟨tail, htail, hstrip⟩ :=
        strip_comparison hproperty.equals_not_mem_path hintroduces hblanks <;>
      rw [hstrip] at hyields
    · exact Yields.not_clauses_of_value value hfollows hyields again hclauses
    · have hchars := hproperty.isPathChar
      rw [htail] at hchars
      have hpath := (List.forall_mem_cons.mp hchars).2
      have hsign := followsWord_sign op (value.print.toList ++ behind)
      have hopens : (Parse.headSymbol (tokens ++ [stop])).opens = false := by
        obtain ⟨head, others, htokens⟩ : ∃ head others, tokens ++ [stop] = head :: others :=
          List.exists_cons_of_ne_nil (by simp)
        rw [htokens] at hyields ⊢
        exact Yields.opens_eq_false hsign hpath (isReady_unsplit _ _ _) hyields
      obtain ⟨first, sign, others, op', property', value', hcut, hagain, hsubject, -⟩ :=
        leading_of_clauses hclauses hopens
      rw [hcut] at hyields
      obtain ⟨-, -, rfl, -⟩ := Yields.fills_subject hsign hpath (isReady_unsplit _ _ _) hyields
        hsubject
      have hsameLeading := leading_same hsame
      rw [hagain, hleading] at hsameLeading
      cases same_iff.mp hsameLeading with
      | compare _ hsameProperty =>
        rw [ofPath_ne_of_cons hproperty (by decide) (by decide) htail] at hsameProperty
        cases hsameProperty

end Query

end ResourceQuery
