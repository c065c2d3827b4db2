import ResourceQuery.Proofs.Segments

/-!
# Bare names

A path is printed as it is, so it reads back just if it is a bare name: one word without a sign that
is neither a constant nor the beginning of a literal. The paths of a query that has been read need
not be bare names, because the points at the ends of a word are not kept.
-/

namespace ResourceQuery

open Run Lexer

/-- The text is a word that names a property wherever it stands alone. -/
structure IsBareName (text : List Char) : Prop where
  ne_nil : text ≠ []
  word : ∀ c ∈ text, isWordChar c = true
  unsigned : ∀ c ∈ text.head?, isSign c = false
  noConstant : Text.lowerAscii text ∉ ["null".toList, "true".toList, "false".toList]
  noLiteral : Lexeme.NoLiteral (.start text)

namespace Lexeme

variable {localOffset : UtcOffset} {c : Char} {passed body text : List Char} {next : Cursor}

theorem ofWord_eq_property_iff :
    ofWord text = .plain .property ↔
      Text.lowerAscii text ∉ ["null".toList, "true".toList, "false".toList] := by
  have heq (word : String) :
      Text.lowerAscii text = word.toList ↔ String.ofList (Text.lowerAscii text) = word :=
    ⟨fun h ↦ by rw [h, String.ofList_toList], fun h ↦ by rw [← h, String.toList_ofList]⟩
  simp only [List.mem_cons, List.not_mem_nil, or_false, heq, not_or]
  unfold ofWord
  split
  · next h => simp [h]
  · next h => simp [h]
  · next h => simp [h]
  · next hnull htrue hfalse => exact ⟨fun _ ↦ ⟨hnull, htrue, hfalse⟩, fun _ ↦ rfl⟩

theorem readWhile_word (hword : ∀ c ∈ text, isWordChar c = true) :
    (⟨passed, text⟩ : Cursor).readWhile isWordChar = (text, ⟨text.reverse ++ passed, []⟩) := by
  have hrun : text.takeWhile isWordChar = text := List.takeWhile_eq_self_iff.mpr hword
  simp [Cursor.readWhile, Cursor.passOver, hrun]

theorem scanWord_whole (hword : ∀ c ∈ text, isWordChar c = true)
    (hguid : Guid.ahead ⟨passed, text⟩ = false) :
    scanWord localOffset ⟨passed, text⟩ = .ok (ofWord text) ⟨text.reverse ++ passed, []⟩ := by
  have hread : Scan.readWhile isWordChar ⟨passed, text⟩ =
      .ok text ⟨text.reverse ++ passed, []⟩ := by
    have hread : Scan.readWhile isWordChar ⟨passed, text⟩ =
        .ok ((⟨passed, text⟩ : Cursor).readWhile isWordChar).1
          ((⟨passed, text⟩ : Cursor).readWhile isWordChar).2 := rfl
    rw [hread, readWhile_word hword]
  rw [scanWord_of_no_colon hguid hread rfl]
  rfl

/-- What begins like a number is no constant. -/
theorem lowerAscii_not_mem (hc : beginsNumber c = true) :
    Text.lowerAscii (c :: body) ∉ ["null".toList, "true".toList, "false".toList] := by
  have hhead : ∀ word ∈ ["null".toList, "true".toList, "false".toList],
      word.head?.all Text.isLetter = true := forall_mem_of_all (by decide)
  intro hmem
  have hlower : Text.isLetter c.toLower = true := hhead _ hmem
  have hletter : Text.isLetter c = true := Text.isLetter_toLower c ▸ hlower
  rw [beginsNumber, Bool.or_eq_true, beq_iff_eq, isDigit_iff] at hc
  obtain hdigit | rfl := hc
  · have hrange := (isLetter_iff c).mp hletter
    omega
  · exact absurd hletter (by decide)

theorem beginsNumber_of_beginsDigits {second : Option Char} (hsign : isSign c = false)
    (h : beginsDigits c second = true) : beginsNumber c = true := by
  rw [beginsDigits, hsign, Bool.false_and, Bool.or_false, Bool.or_eq_true] at h
  rw [beginsNumber, Bool.or_eq_true]
  exact h.imp_right fun hpoint ↦ (Bool.and_eq_true_iff.mp hpoint).1

theorem scan_sign_ne_property {last : Option Symbol} (hsign : isSign c = true) :
    scan localOffset last c ⟨passed, c :: body⟩ ≠ .ok (.plain .property) next := by
  obtain ⟨order, rfl⟩ := exists_sign_of_isSign hsign
  intro h
  rw [scan_sign] at h
  split at h
  · obtain ⟨-, horder, -⟩ := scanDigits_eq_property_iff.mp h
    cases order <;> cases horder
  · cases h

/-- A word is read as a name just if it is a bare name. -/
theorem scan_eq_property_iff (hword : ∀ d ∈ c :: body, isWordChar d = true) :
    scan localOffset none c (.start (c :: body)) =
        .ok (.plain .property) ⟨(c :: body).reverse ++ [], []⟩ ↔ IsBareName (c :: body) := by
  have hread : (⟨[], c :: body⟩ : Cursor).readWhile isWordChar =
      (c :: body, ⟨(c :: body).reverse ++ [], []⟩) := readWhile_word hword
  constructor
  · intro h
    have hsign : isSign c = false := by
      rw [← Bool.not_eq_true]
      exact fun hsign ↦ scan_sign_ne_property hsign h
    have hliteral := (scan_eq_property (hword c List.mem_cons_self) hsign h).1
    refine ⟨by simp, hword, by simpa using hsign, ?_, hliteral⟩
    rw [Cursor.start, scan_unsigned (hword c List.mem_cons_self) hsign] at h
    split at h
    · next hdigits => exact lowerAscii_not_mem (beginsNumber_of_beginsDigits hsign hdigits)
    · obtain ⟨-, hconstant, -⟩ := scanWord_eq_property h
      rw [hread] at hconstant
      exact ofWord_eq_property_iff.mp hconstant
  · rintro ⟨-, -, hsign, hconstant, hliteral⟩
    have hsign : isSign c = false := hsign c rfl
    rw [Cursor.start, scan_unsigned (hword c List.mem_cons_self) hsign]
    split
    · exact scanDigits_eq_property_iff.mpr
        ⟨hliteral, orderOfSign?_of_isSign hsign, by rw [hread]⟩
    · rw [scanWord_whole hword hliteral.guid, ofWord_eq_property_iff.mpr hconstant]

end Lexeme

/-! ### Paths that read back -/

namespace Property

variable {property : Property} {localOffset : UtcOffset}

/-- The path of the property is cut into a single word, which names exactly this property. -/
def ReadsBack (localOffset : UtcOffset) (property : Property) : Prop :=
  ∃ word stop, Lexer.scan property.path.toList localOffset = .ok ⟨[word, stop]⟩ ∧
    word.symbol = .property ∧ stop.symbol = .stop ∧ ofPath word.text = property

theorem isBareName_of_readsBack (h : property.IsClean) (hreads : property.ReadsBack localOffset) :
    IsBareName property.path.toList := by
  obtain ⟨word, stop, hscan, hword, hstop, -⟩ := hreads
  obtain ⟨blanks, c, body, lexeme, cursor, hlone, rfl⟩ := isLone_of_scan hscan hstop (.inl hword)
  have hnoblank {d : Char} (hd : d ∈ blanks ++ c :: body) : Text.isBlank d = false :=
    h.not_blank (hlone.text_eq ▸ hd)
  have hblanks : blanks = [] := by
    refine List.eq_nil_iff_forall_not_mem.mpr fun d hd ↦ ?_
    have hblank := hlone.blanks_before d hd
    rw [hnoblank (List.mem_append_left _ hd)] at hblank
    cases hblank
  subst hblanks
  have hlexeme : lexeme = .plain .property := by
    cases lexeme with
    | plain symbol => exact congrArg Lexeme.plain hword
    | literal value => cases hword
    | splitSign order => cases hword
  subst hlexeme
  have hcursor : cursor = ((⟨[], c :: body⟩ : Cursor).readWhile isWordChar).2 :=
    Lexeme.eq_readWhile_of_scan hlone.scan_eq
  -- only blanks may stand behind the word, and a clean path has none
  have hwords : ∀ d ∈ c :: body, isWordChar d = true := by
    have hahead : cursor.ahead = (c :: body).dropWhile isWordChar := by
      rw [hcursor, Cursor.ahead_readWhile]
    have hnothing : (c :: body).dropWhile isWordChar = [] := by
      refine List.eq_nil_iff_forall_not_mem.mpr fun d hd ↦ ?_
      have hblank := hlone.blanks_behind d (hahead ▸ hd)
      rw [hnoblank (List.dropWhile_sublist _ |>.mem hd)] at hblank
      cases hblank
    exact List.dropWhile_eq_nil_iff.mp hnothing
  rw [Lexeme.readWhile_word hwords] at hcursor
  rw [hlone.text_eq]
  exact (Lexeme.scan_eq_property_iff hwords).mp (hcursor ▸ hlone.scan_eq)

theorem readsBack_of_isBareName (h : property.IsClean) (hname : IsBareName property.path.toList) :
    property.ReadsBack localOffset := by
  cases htext : property.path.toList with
  | nil => exact absurd htext hname.ne_nil
  | cons c body =>
    rw [htext] at hname
    have hscan : Lexeme.scan localOffset none c (.start (c :: body)) =
        .ok (.plain .property) ⟨(c :: body).reverse ++ [], []⟩ :=
      (Lexeme.scan_eq_property_iff hname.word).mpr hname
    have hlone : IsLone localOffset (c :: body) [] c body (.plain .property)
        ⟨(c :: body).reverse ++ [], []⟩ :=
      ⟨rfl, nofun, h.not_blank (htext ▸ List.mem_cons_self), hscan, nofun⟩
    have hslash : c ≠ '/' := by
      rintro rfl
      exact absurd (hname.word '/' List.mem_cons_self) (by decide)
    have hreads := reads_of_isLone hlone (.inl rfl) hslash fun rest (hrest : FollowsWord rest) ↦
      ⟨hrest, nofun⟩
    obtain ⟨_, stop, ⟨position, rfl⟩, hstop, hread⟩ := hreads.scan_eq Lexeme.followsWord_nil
    have htoken : (⟨(c :: body).reverse ++ [], []⟩ : Cursor).textFrom 0 = c :: body := by
      rw [Cursor.textFrom_zero, List.append_nil, List.reverse_reverse]
    rw [List.length_nil, htoken, ← htext, String.ofList_toList] at hread
    exact ⟨_, stop, hread, rfl, hstop, ofPath_path h⟩

/-- A clean property reads back just if its path is a bare name. -/
theorem readsBack_iff_of_isClean (h : property.IsClean) :
    property.ReadsBack localOffset ↔ IsBareName property.path.toList :=
  ⟨isBareName_of_readsBack h, readsBack_of_isBareName h⟩

end Property

namespace Query

variable {options : ReadOptions} {query node : Query} {property : Property}

/-- A property of a query that has been read reads back just if its path is a bare name. -/
theorem readsBack_iff_of_read {text : String} (h : read options text = .ok query)
    (hnode : node ∈ query.preorder) (hproperty : property ∈ node.properties)
    (localOffset : UtcOffset) :
    property.ReadsBack localOffset ↔ IsBareName property.path.toList :=
  Property.readsBack_iff_of_isClean (allProperties_isClean_of_read h node hnode property hproperty)

/-- Without its point the word `.null` is a constant, and a path of two words stays a word. -/
theorem readsBack_iff_of_read_dotted :
    ∃ query, read {} ".null=null&a/b=null" = .ok query ∧
      (∃ node ∈ query.preorder, ⟨["null"]⟩ ∈ node.properties ∧
        ¬(⟨["null"]⟩ : Property).ReadsBack .utc) ∧
      ∃ node ∈ query.preorder, ⟨["a", "b"]⟩ ∈ node.properties ∧
        (⟨["a", "b"]⟩ : Property).ReadsBack .utc := by
  let constant : Query := compare .eq ⟨["null"]⟩ .null
  let pair : Query := compare .eq ⟨["a", "b"]⟩ .null
  have hread : read {} ".null=null&a/b=null" = .ok (group .and [constant, pair]) := by cbv
  have hconstant : constant ∈ (group .and [constant, pair]).preorder := by
    simp [preorder, preorderAll, constant]
  have hpair : pair ∈ (group .and [constant, pair]).preorder := by
    simp [preorder, preorderAll, pair]
  refine ⟨_, hread, ⟨constant, hconstant, List.mem_singleton_self _, ?_⟩,
    pair, hpair, List.mem_singleton_self _, ?_⟩
  · rw [readsBack_iff_of_read hread hconstant (List.mem_singleton_self _)]
    exact fun hname ↦ hname.noConstant (by decide)
  · rw [readsBack_iff_of_read hread hpair (List.mem_singleton_self _)]
    have hunsigned : ∀ c ∈ (⟨["a", "b"]⟩ : Property).path.toList.head?, isSign c = false := by
      rintro _ ⟨⟩
      decide
    have hword : ∀ c ∈ (⟨["a", "b"]⟩ : Property).path.toList, isWordChar c = true :=
      forall_mem_of_all (by decide)
    exact ⟨by decide, hword, hunsigned, by decide, rfl, rfl, rfl, rfl, _, rfl⟩

end Query

end ResourceQuery
