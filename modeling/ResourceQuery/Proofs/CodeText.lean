import Mathlib.Algebra.Order.Group.Nat
import ResourceQuery.Proofs.DistinctTexts
import ResourceQuery.Proofs.Numerals

/-!
# Codes that are read back

A GUID is printed as groups of digits with hyphens between them. Its text is scanned group by group
first, and is then cut at the hyphens to be parsed; both find the groups it was printed from.

In Base64 three bytes are four symbols. What is encoded falls into groups of three bytes and a last
group of one to three; the groups are decoded four symbols at a time, and the last one with regard
to what pads it.
-/

namespace ResourceQuery

open Run Text

namespace Text

/-- In UTF-8 a character of ASCII is one byte. -/
theorem Utf8.encode_of_ascii {text : List Char} (h : ∀ c ∈ text, c.toNat < 0x80) :
    (Utf8.encode text).map UInt8.toNat = text.map Char.toNat := by
  induction text with
  | nil => rfl
  | cons c rest ih =>
    obtain ⟨hc, hrest⟩ := List.forall_mem_cons.mp h
    have hbyte : String.utf8EncodeChar c = [UInt8.ofNat c.toNat] := by
      simp [String.utf8EncodeChar, Nat.lt_succ_iff.mp hc]
    rw [Utf8.encode_cons, hbyte, List.map_append, ih hrest]
    simp
    omega

theorem Utf8.size_of_ascii {text : List Char} (h : ∀ c ∈ text, c.toNat < 0x80) :
    Utf8.size text = text.length := by
  have hlength := congrArg List.length (Utf8.encode_of_ascii h)
  rwa [List.length_map, List.length_map] at hlength

theorem toNat_lt_of_isPlain {c : Char} (h : isPlain c = true) : c.toNat < 0x80 := by
  have hsigns : ∀ c ∈ ['+', '-', '.', ':'], c.toNat < 0x80 := forall_mem_of_all (by decide)
  rw [isPlain, Bool.or_eq_true, Bool.or_eq_true, List.contains_iff_mem, Lexeme.isLetter_iff,
    Lexeme.isDigit_iff] at h
  obtain (hletter | hdigit) | hsign := h
  · omega
  · omega
  · exact hsigns c hsign

end Text

/-! ### GUIDs -/

namespace Guid

open Scan

variable {first rest : List Char} {parts : List (List Char)}

/-- Digits are cut into a first group and others, each behind a hyphen. -/
theorem exists_groups (width : Nat) (widths : List Nat) {digits : List Char}
    (h : digits.length = (width :: widths).sum) : ∃ (first : List Char)
      (others : List (List Char)),
      hyphenate (width :: widths) digits = first ++ others.flatMap ('-' :: ·) ∧
        digits = first ++ others.flatten ∧ first.length = width ∧
        others.map List.length = widths := by
  induction widths generalizing width digits with
  | nil =>
    rw [List.sum_singleton] at h
    exact ⟨digits, [], by simp [hyphenate, ← h], by simp, h, rfl⟩
  | cons next widths ih =>
    rw [List.sum_cons] at h
    have hdrop : (digits.drop width).length = (next :: widths).sum := by
      rw [List.length_drop]
      omega
    obtain ⟨second, others, hhyphenate, hdigits, hsecond, hwidths⟩ := ih next hdrop
    refine ⟨digits.take width, second :: others, ?_, ?_, by rw [List.length_take]; omega, ?_⟩
    · change digits.take width ++ '-' :: hyphenate (next :: widths) (digits.drop width) = _
      rw [hhyphenate, List.flatMap_cons, List.cons_append]
    · rw [List.flatten_cons, ← hdigits, List.take_append_drop]
    · rw [List.map_cons, hsecond, hwidths]

theorem splitOn_groups (hfirst : '-' ∉ first) (h : ∀ part ∈ parts, '-' ∉ part) :
    groups (first ++ parts.flatMap ('-' :: ·)) = first :: parts := by
  have hjoin : first ++ parts.flatMap ('-' :: ·) = ['-'].intercalate (first :: parts) := by
    clear h hfirst
    induction parts generalizing first with
    | nil => simp
    | cons second parts ih =>
      rw [List.intercalate_cons_cons, ← ih]
      simp
  rw [groups, hjoin, List.splitOn_intercalate]
  · exact List.forall_mem_cons.mpr ⟨hfirst, h⟩
  · exact List.cons_ne_nil _ _

/-- The groups behind the first one are read with their hyphens. -/
theorem recovers_scanGroups {mark group : Nat} (hgroup : 1 < group)
    (h : ∀ part ∈ parts, ∀ c ∈ part, isHexDigit c = true) :
    Recovers (scanGroups mark group (parts.map List.length)) (parts.flatMap ('-' :: ·)) ()
      rest := by
  induction parts generalizing group with
  | nil => exact recovers_pure
  | cons part parts ih =>
    obtain ⟨hpart, hparts⟩ := List.forall_mem_cons.mp h
    have hdigits : Recovers (readAtMost part.length isHexDigit) part part
        (parts.flatMap ('-' :: ·) ++ rest) := recovers_readAtMost hpart
    rw [List.map_cons, List.flatMap_cons, scanGroups, if_pos hgroup]
    refine Recovers.bind_cons (a := true) recovers_accept ?_
    rw [if_pos rfl]
    refine Recovers.bind (a := part) hdigits ?_
    rw [if_neg (by simp)]
    exact ih (by omega) hparts

/-- A GUID is printed as its digits, eight of them in front and the others in groups. -/
structure IsCut (id : Guid) (first : List Char) (others : List (List Char)) : Prop where
  print_eq : id.print = first ++ others.flatMap ('-' :: ·)
  ofHexDigits_eq : ofHexDigits (first ++ others.flatten) = id
  length_first : first.length = 8
  length_others : others.map List.length = [4, 4, 4, 12]
  isHexDigit_first : ∀ c ∈ first, isHexDigit c = true
  isHexDigit_others : ∀ part ∈ others, ∀ c ∈ part, isHexDigit c = true

theorem exists_isCut (id : Guid) : ∃ first others, id.IsCut first others := by
  obtain ⟨first, others, hprint, hdigits, hfirst, hothers⟩ :=
    exists_groups 8 [4, 4, 4, 12] (length_hexadecimal 32 id.bits.toNat)
  have hhex : ∀ c ∈ first ++ others.flatten, isHexDigit c = true :=
    hdigits ▸ fun _ ↦ isHexDigit_of_mem_hexadecimal
  have hbits : id.bits.toNat < 16 ^ 32 := id.bits.isLt
  refine ⟨first, others, hprint, ?_, hfirst, hothers, fun c hc ↦ hhex c (by simp [hc]),
    fun part hpart c hc ↦ hhex c ?_⟩
  · rw [← hdigits, ofHexDigits, ofHexDigits_hexadecimal, Nat.mod_eq_of_lt hbits]
    simp
  · exact List.mem_append_right _ (List.mem_flatten_of_mem hpart hc)

theorem IsCut.length_print {id : Guid} (h : id.IsCut first parts) : id.print.length = 36 := by
  have hothers : parts.map (fun part ↦ ('-' :: part).length) = [5, 5, 5, 13] := by
    have hlengths : parts.map (fun part ↦ ('-' :: part).length) =
        (parts.map List.length).map (· + 1) := by
      simp
    rw [hlengths, h.length_others]
    rfl
  rw [h.print_eq, List.length_append, List.length_flatMap, h.length_first, hothers]
  rfl

theorem parse_print (id : Guid) : parse id.print = .ok id := by
  obtain ⟨first, others, hcut⟩ := id.exists_isCut
  have hhyphen {part : List Char} (hpart : ∀ c ∈ part, isHexDigit c = true) : '-' ∉ part :=
    fun hmem ↦ nomatch hpart _ hmem
  have hgroups : groups id.print = first :: others := by
    rw [hcut.print_eq]
    exact splitOn_groups (hhyphen hcut.isHexDigit_first)
      fun part hpart ↦ hhyphen (hcut.isHexDigit_others part hpart)
  have hascii : ∀ c ∈ id.print, c.toNat < 0x80 := fun c hc ↦
    toNat_lt_of_isPlain (isPlain_hyphenate groupWidths (isPlain_hexadecimal 32 id.bits.toNat) c hc)
  have hsimple : parseSimple? id.print = none := by
    rw [parseSimple?, hcut.length_print]
    rfl
  have hpart : hyphenatedPart? id.print = some id.print := by
    rw [hyphenatedPart?, Utf8.size_of_ascii hascii, hcut.length_print]
    rfl
  have hhyphenated : parseHyphenated? id.print = some id := by
    have hwidths : (first :: others).map List.length = groupWidths := by
      rw [List.map_cons, hcut.length_first, hcut.length_others]
      rfl
    have hall : (first :: others).all (·.all isHexDigit) = true := by
      simp only [List.all_cons, List.all_eq_true, Bool.and_eq_true]
      exact ⟨hcut.isHexDigit_first, hcut.isHexDigit_others⟩
    rw [parseHyphenated?, hgroups, hwidths, hall, List.flatten_cons, hcut.ofHexDigits_eq]
    rfl
  rw [parse, hsimple, hpart, Option.bind_some, hhyphenated]
  rfl

/-- A GUID is scanned up to the end of the text. -/
theorem recovers_scan (id : Guid) : Recovers scan id.print id [] := by
  obtain ⟨first, others, hcut⟩ := id.exists_isCut
  have hgroups (mark : Nat) : Recovers (scanGroups mark 1 groupWidths) id.print () [] := by
    have hfirst : Recovers (readAtMost 8 isHexDigit) first first
        (others.flatMap ('-' :: ·) ++ []) :=
      hcut.length_first ▸ recovers_readAtMost hcut.isHexDigit_first
    rw [hcut.print_eq, groupWidths, scanGroups, if_neg (by decide)]
    refine Recovers.bind (a := first) hfirst ?_
    rw [if_neg (by simp [hcut.length_first]), ← hcut.length_others]
    exact recovers_scanGroups (by decide) hcut.isHexDigit_others
  have htrim : trim id.print = id.print := by
    have hends := Value.noBlankEnds_print (.guid id)
    rw [Value.print, String.toList_ofList] at hends
    exact trim_eq_self_iff.mpr hends
  intro passed
  have hposition : position ⟨passed, id.print ++ []⟩ = .ok passed.length ⟨passed, id.print ++ []⟩ :=
    rfl
  have hboundary : atBoundary ⟨id.print.reverse ++ passed, []⟩ =
      .ok true ⟨id.print.reverse ++ passed, []⟩ := rfl
  have htext : (⟨id.print.reverse ++ passed, []⟩ : Cursor).textFrom passed.length = id.print := by
    simp [Cursor.textFrom, Cursor.position]
  rw [scan, bind_ok hposition, bind_ok (hgroups passed.length passed), bind_ok hboundary,
    if_pos rfl]
  change ofText (Cursor.textFrom _ _) _ = _
  rw [htext, ofText, htrim, parse_print]
  rfl

theorem ahead_print (id : Guid) (passed : List Char) : ahead ⟨passed, id.print⟩ = true := by
  obtain ⟨first, others, hcut⟩ := id.exists_isCut
  obtain ⟨second, more, rfl⟩ : ∃ second more, others = second :: more :=
    List.exists_cons_of_ne_nil fun hnil ↦ nomatch hnil ▸ hcut.length_others
  have hbars : Bars isHexDigit (('-' :: second) ++ more.flatMap ('-' :: ·)) := rfl
  have hrun : (first ++ (('-' :: second) ++ more.flatMap ('-' :: ·))).takeWhile isHexDigit =
      first :=
    takeWhile_run hcut.isHexDigit_first hbars
  rw [hcut.print_eq, List.flatMap_cons, ahead, Cursor.countAhead, hrun, Cursor.peekAt,
    List.getElem?_append_right hcut.length_first.le, hcut.length_first]
  rfl

/-- A run that begins with a digit and one that begins with a letter are tried as a GUID first. -/
theorem scansTo_print (id : Guid) (localOffset : UtcOffset) :
    Lexer.ScansTo localOffset id.print (.guid id) := by
  obtain ⟨first, others, hcut⟩ := id.exists_isCut
  obtain ⟨c, digits, rfl⟩ : ∃ c digits, first = c :: digits :=
    List.exists_cons_of_length_eq_add_one hcut.length_first
  have hread : (do return Lexeme.literal (.guid (← scan)) : Scan Lexeme) ⟨[], id.print⟩ =
      .ok (.literal (.guid id)) ⟨id.print.reverse ++ [], []⟩ := by
    have hread := (recovers_scan id).map (f := fun id ↦ Lexeme.literal (.guid id)) []
    rwa [List.append_nil] at hread
  have hahead := ahead_print id []
  rw [hcut.print_eq, List.cons_append] at hread hahead ⊢
  have hdigit : isDigit c = true ∨ isLetter c = true := by
    have hhex := (Text.isHexDigit_iff c).mp (hcut.isHexDigit_first c List.mem_cons_self)
    rw [Lexeme.isDigit_iff, Lexeme.isLetter_iff]
    omega
  obtain hdigit | hletter := hdigit
  · have htext : (none : Option Char).toList ++ ([c] ++ (digits ++ others.flatMap ('-' :: ·))) =
        c :: (digits ++ others.flatMap ('-' :: ·)) := rfl
    have hsign : ∀ d ∈ (none : Option Char), isSign d = true := nofun
    obtain ⟨hblank, hscan⟩ : isBlank c = false ∧ Lexeme.scan localOffset none c ⟨[], _⟩ =
        Lexeme.scanDigits localOffset ⟨[], _⟩ :=
      Lexeme.scan_eq_scanDigits hsign (by simp) (by simpa using hdigit) htext
    refine Lexer.scan_of_literal hblank ?_
    rw [hscan, Lexeme.scanDigits, bind_ok (Lexeme.get_eq _), if_pos hahead]
    exact hread
  · have hbegins := Lexeme.beginsWord_of_isLetter hletter
    refine Lexer.scan_of_literal (Lexeme.not_blank_of_beginsWord hbegins) ?_
    rw [Lexeme.scan_eq_scanWord hbegins, Lexeme.scanWord, bind_ok (Lexeme.get_eq _), if_pos hahead]
    exact hread

end Guid

/-! ### Base64 -/

namespace Base64

variable {bytes front last : List UInt8} {offset : Nat}

/-- The six-bit values of groups of three bytes. -/
def sextets : List UInt8 → List Nat
  | a :: b :: c :: rest =>
    a.toNat / 4 :: (a.toNat % 4 * 16 + b.toNat / 16) :: (b.toNat % 16 * 4 + c.toNat / 64) ::
      c.toNat % 64 :: sextets rest
  | _ => []

theorem sextets_lt (bytes : List UInt8) : ∀ n ∈ sextets bytes, n < 64 := by
  induction bytes using sextets.induct with
  | case1 a b c rest ih =>
    have ha := a.toNat_lt
    have hb := b.toNat_lt
    have hc := c.toNat_lt
    simp only [sextets, List.forall_mem_cons]
    exact ⟨by omega, by omega, by omega, by omega, ih⟩
  | case2 bytes hshort =>
    rw [sextets]
    · exact List.forall_mem_nil _
    · exact hshort

/-- Complete groups of three bytes have four values each, which are joined to the same bytes. -/
theorem sextets_groups (h : 3 ∣ bytes.length) : 3 * (sextets bytes).length = 4 * bytes.length ∧
    joinQuads (sextets bytes) = bytes ∧
    ∀ last, encode (bytes ++ last) = (sextets bytes).map symbol ++ encode last := by
  induction bytes using encode.induct with
  | case1 => exact ⟨rfl, rfl, fun _ ↦ rfl⟩
  | case2 a => exact absurd h (by simp)
  | case3 a b => exact absurd h (by simp)
  | case4 a b c rest ih =>
    have ha := a.toNat_lt
    have hb := b.toNat_lt
    have hc := c.toNat_lt
    obtain ⟨hlength, hjoin, hencode⟩ := ih ((Nat.dvd_add_left (Nat.dvd_refl 3)).mp h)
    have hfirst : a.toNat / 4 * 4 + (a.toNat % 4 * 16 + b.toNat / 16) / 16 = a.toNat := by omega
    have hsecond : (a.toNat % 4 * 16 + b.toNat / 16) % 16 * 16 +
        (b.toNat % 16 * 4 + c.toNat / 64) / 4 = b.toNat := by omega
    have hthird : (b.toNat % 16 * 4 + c.toNat / 64) % 4 * 64 + c.toNat % 64 = c.toNat := by omega
    refine ⟨?_, ?_, fun last ↦ ?_⟩
    · simp only [sextets, List.length_cons]
      omega
    · rw [sextets, joinQuads, hjoin, hfirst, hsecond, hthird, UInt8.ofNat_toNat, UInt8.ofNat_toNat,
        UInt8.ofNat_toNat]
    · change encode (a :: b :: c :: (rest ++ last)) = _
      rw [encode, hencode]
      rfl

theorem values_symbols {numbers : List Nat} (h : ∀ n ∈ numbers, n < 64) :
    values offset (numbers.map fun n ↦ (symbol n).toNat) = .ok numbers := by
  induction numbers generalizing offset with
  | nil => rfl
  | cons n rest ih =>
    obtain ⟨hn, hrest⟩ := List.forall_mem_cons.mp h
    rw [List.map_cons, values, symbolValue?_symbol hn]
    dsimp only
    rw [ih hrest]
    rfl

theorem symbol_toNat_ne_pad {n : Nat} (h : n < 64) : (symbol n).toNat ≠ pad :=
  fun heq ↦ symbol_ne_pad h (Char.toNat_inj.mp heq)

/-- Two symbols or more, padded to four, are a last group. -/
theorem decodeLast_symbols (offset padding : Nat) {numbers : List Nat} (h : ∀ n ∈ numbers, n < 64)
    (hlength : numbers.length + padding = 4) (htwo : 2 ≤ numbers.length) :
    ∃ last, decodeLast offset ((numbers.map symbol ++ List.replicate padding '=').map Char.toNat) =
      joinLast offset last numbers := by
  have hgroup : (numbers.map symbol ++ List.replicate padding '=').map Char.toNat =
      (numbers.map fun n ↦ (symbol n).toNat) ++ List.replicate padding pad := by
    rw [List.map_append, List.map_map, List.map_replicate]
    rfl
  have hsymbols : ((numbers.map fun n ↦ (symbol n).toNat) ++ List.replicate padding pad).takeWhile
      (· != pad) = numbers.map fun n ↦ (symbol n).toNat := by
    rw [List.takeWhile_append_of_pos, List.takeWhile_replicate, if_neg (by decide), List.append_nil]
    simp only [List.forall_mem_map, bne_iff_ne]
    exact fun n hn ↦ symbol_toNat_ne_pad (h n hn)
  have hfew : ¬(numbers.map fun n ↦ (symbol n).toNat).length < 2 := by
    rw [List.length_map]
    omega
  have hpads : (List.replicate padding pad).any (· != pad) = false := by simp
  refine ⟨(numbers.map fun n ↦ (symbol n).toNat).getLastD pad, ?_⟩
  rw [hgroup, decodeLast]
  dsimp only
  rw [hsymbols, values_symbols h, List.drop_left, hpads, Bool.or_false, decide_eq_false hfew,
    Bool.and_false]
  change ite _ _ _ = _
  rw [if_neg hfew, if_neg]
  simpa using hlength

/-- What encodes the last bytes is decoded to them. -/
theorem decodeLast_encode (offset : Nat) (hlow : 1 ≤ last.length) (hhigh : last.length ≤ 3) :
    (encode last).length = 4 ∧ decodeLast offset ((encode last).map Char.toNat) = .ok last := by
  match last with
  | [a] =>
    have ha := a.toNat_lt
    have hlt : ∀ n ∈ [a.toNat / 4, a.toNat % 4 * 16], n < 64 := by
      simp
      omega
    obtain ⟨symbol, hdecode⟩ := decodeLast_symbols offset 2 hlt rfl (Nat.le_refl 2)
    have hfirst : a.toNat / 4 * 4 + a.toNat % 4 * 16 / 16 = a.toNat := by omega
    refine ⟨rfl, hdecode.trans ?_⟩
    rw [joinLast, if_pos (by omega), hfirst, UInt8.ofNat_toNat]
  | [a, b] =>
    have ha := a.toNat_lt
    have hb := b.toNat_lt
    have hlt : ∀ n ∈ [a.toNat / 4, a.toNat % 4 * 16 + b.toNat / 16, b.toNat % 16 * 4], n < 64 := by
      simp
      omega
    obtain ⟨symbol, hdecode⟩ := decodeLast_symbols offset 1 hlt rfl (Nat.le_succ 2)
    have hfirst : a.toNat / 4 * 4 + (a.toNat % 4 * 16 + b.toNat / 16) / 16 = a.toNat := by omega
    have hsecond : (a.toNat % 4 * 16 + b.toNat / 16) % 16 * 16 + b.toNat % 16 * 4 / 4 =
        b.toNat := by omega
    refine ⟨rfl, hdecode.trans ?_⟩
    rw [joinLast, if_pos (by omega), hfirst, hsecond, UInt8.ofNat_toNat, UInt8.ofNat_toNat]
  | [a, b, c] =>
    have hthree : 3 ∣ [a, b, c].length := Nat.dvd_refl 3
    obtain ⟨symbol, hdecode⟩ :=
      decodeLast_symbols offset 0 (sextets_lt [a, b, c]) rfl (by simp [sextets])
    have hjoin : joinQuads (sextets [a, b, c]) = [a, b, c] := (sextets_groups hthree).2.1
    exact ⟨rfl, hdecode.trans (congrArg Except.ok hjoin)⟩

theorem toNat_lt_of_mem_encode (bytes : List UInt8) : ∀ c ∈ encode bytes, c.toNat < 0x80 := by
  have hsigns : ∀ c ∈ signs, c.toNat < 0x80 := forall_mem_of_all (by decide)
  exact fun c hc ↦ (isPlain_or_mem_encode bytes c hc).elim toNat_lt_of_isPlain (hsigns c)

/-- Complete groups of symbols and a last one are decoded each by itself. -/
theorem decodeBytes_append {numbers group : List Nat} (h : ∀ n ∈ numbers, n < 64)
    (hdvd : 4 ∣ numbers.length) (hgroup : group.length = 4)
    (hlast : decodeLast numbers.length group = .ok last) :
    decodeBytes ((numbers.map fun n ↦ (symbol n).toNat) ++ group) =
      .ok (joinQuads numbers ++ last) := by
  have hsymbols : (numbers.map fun n ↦ (symbol n).toNat).length = numbers.length :=
    List.length_map _
  have htotal : ((numbers.map fun n ↦ (symbol n).toNat) ++ group).length = numbers.length + 4 := by
    rw [List.length_append, hsymbols, hgroup]
  have hoffset : (numbers.length + 4 - 1) / 4 * 4 = numbers.length := by omega
  have hmod : ¬(numbers.length + 4) % 4 = 1 := by omega
  have hsome : ((numbers.map fun n ↦ (symbol n).toNat) ++ group).isEmpty = false := by
    rw [List.isEmpty_eq_false_iff, ← List.length_pos_iff, htotal]
    omega
  rw [decodeBytes, hsome, htotal]
  dsimp only
  rw [decide_eq_false hmod, hoffset, List.take_left' hsymbols, List.drop_left' hsymbols,
    values_symbols h, hlast]
  rfl

/-- What is encoded is decoded to the same bytes. -/
theorem decode_encode (bytes : List UInt8) : decode (encode bytes) = .ok bytes := by
  obtain rfl | hne := eq_or_ne bytes []
  · rfl
  have hpositive := List.length_pos_iff.mpr hne
  -- The last group has one to three bytes.
  obtain ⟨front, last, rfl, hfront, hlow, hhigh⟩ : ∃ front last, front ++ last = bytes ∧
      3 ∣ front.length ∧ 1 ≤ last.length ∧ last.length ≤ 3 := by
    refine ⟨bytes.take ((bytes.length - 1) / 3 * 3), bytes.drop ((bytes.length - 1) / 3 * 3),
      List.take_append_drop _ _, ?_, ?_, ?_⟩
    · rw [List.length_take]
      omega
    · rw [List.length_drop]
      omega
    · rw [List.length_drop]
      omega
  obtain ⟨hlength, hjoin, hencode⟩ := sextets_groups hfront
  obtain ⟨hfour, hlast⟩ := decodeLast_encode (sextets front).length hlow hhigh
  rw [decode, Utf8.encode_of_ascii (toNat_lt_of_mem_encode _), hencode last, List.map_append,
    List.map_map]
  have hdecode := decodeBytes_append (sextets_lt front) (by omega)
    (by rw [List.length_map, hfour]) hlast
  rwa [hjoin] at hdecode

theorem trim_encode (bytes : List UInt8) : trim (encode bytes) = encode bytes := by
  have hsigns : ∀ c ∈ signs, isBlank c = false := forall_mem_of_all (by decide)
  exact trim_eq_self_iff.mpr (noBlankEnds_of_not_blank fun c hc ↦
    (isPlain_or_mem_encode bytes c hc).elim not_blank_of_isPlain (hsigns c))

theorem isBase64Char_symbol (n : Nat) : Literal.isBase64Char (symbol n) = true := by
  by_cases h : n < 63
  · exact (by decide : ∀ n < 63, Literal.isBase64Char (symbol n) = true) n h
  · rw [symbol, if_neg (by omega), if_neg (by omega), if_neg (by omega), if_neg (by omega)]
    decide

theorem isBase64Char_of_mem_encode (bytes : List UInt8) :
    ∀ c ∈ encode bytes, Literal.isBase64Char c = true := by
  have hpad : Literal.isBase64Char '=' = true := by decide
  induction bytes using encode.induct with
  | case1 => exact List.forall_mem_nil _
  | case2 a => simp [encode, isBase64Char_symbol, hpad]
  | case3 a b => simp [encode, isBase64Char_symbol, hpad]
  | case4 a b c rest ih =>
    rw [encode]
    simp only [List.forall_mem_cons, isBase64Char_symbol, true_and]
    exact ih

/-- Behind its prefix what is encoded is read up to the end of the text. -/
theorem recovers_scanBinary (bytes : List UInt8) :
    Scan.Recovers Literal.scanBinary (encode bytes) bytes [] := by
  have hquote : (encode bytes ++ []).head?.any (· == '"') = false := by
    rw [List.append_nil]
    exact bars_of_class (isBase64Char_of_mem_encode bytes) fun c hc ↦ by rw [eq_of_beq hc]; rfl
  have hpayload : Scan.Recovers Literal.scanPayload (encode bytes) (encode bytes) [] := by
    refine Scan.recovers_look (a := false) (fun passed ↦ congrArg (EStateM.Result.ok · _) hquote) ?_
    exact Scan.recovers_readWhile (isBase64Char_of_mem_encode bytes) rfl
  intro passed
  rw [Literal.scanBinary, bind_ok (hpayload passed), trim_encode, decode_encode]
  rfl

theorem scansTo_encode (bytes : List UInt8) (localOffset : UtcOffset) :
    Lexer.ScansTo localOffset (['b', 'i', 'n'] ++ ':' :: encode bytes) (.binary bytes) :=
  Lexer.scansTo_typed (rfl : LiteralType.ofWord? ['b', 'i', 'n'] = some .binary)
    (recovers_scanBinary bytes).map

end Base64

end ResourceQuery
