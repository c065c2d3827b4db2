import ResourceQuery.Proofs.CaseFolding

/-!
# Decoded text

Percent-decoding leaves a character as it is or makes it of one percent code or more. What is read
somewhere in a decoded text therefore stands for a piece of the text, and if that piece has a code,
it weighs more: it has more percent signs, or more of the digit that the code of a percent sign
begins with. Letter case does not count for the weight.
-/

namespace ResourceQuery.Text

/-! ### Bytes of characters -/

namespace Utf8

variable {index : Nat} {byte : UInt8} {rest : List UInt8} {text : List Char} {pending : Pending}

theorem isLead_of_decodeFrom (h : decodeFrom index none (byte :: rest) = .ok text) :
    isLead byte = true := by
  rw [decodeFrom] at h
  cases hlead : lead? byte.toNat with
  | none =>
    rw [hlead] at h
    cases h
  | some lead => simpa [isLead] using (lead?_eq_some hlead).1

theorem bits_of_lead? {n low high bits : Nat} (h : lead? n = some ⟨0, low, high, bits⟩) :
    bits = n := by
  unfold lead? at h
  split_ifs at h <;> cases h
  rfl

/-- No character begins while another one is incomplete. -/
theorem decodeFrom_pending_char (hpending : AwaitsInner (some pending)) (c : Char) :
    decodeFrom index (some pending) (String.utf8EncodeChar c ++ rest) ≠ .ok text := by
  intro h
  cases hbytes : String.utf8EncodeChar c with
  | nil =>
    have hcount := countP_isLead_char c
    rw [hbytes] at hcount
    cases hcount
  | cons byte bytes =>
    obtain ⟨next, hnext⟩ := decodeFrom_char c 0 []
    rw [hbytes, List.cons_append] at hnext
    have hlead : isLead byte = true := isLead_of_decodeFrom hnext
    rw [isLead, Bool.or_eq_true, decide_eq_true_eq, decide_eq_true_eq] at hlead
    obtain ⟨hlow, hhigh⟩ := hpending pending rfl
    have hrange : ¬(pending.low ≤ byte.toNat && byte.toNat ≤ pending.high) = true := by
      rw [Bool.and_eq_true, decide_eq_true_eq, decide_eq_true_eq]
      omega
    rw [hbytes, List.cons_append, decodeFrom, if_neg hrange] at h
    cases h

end Utf8

namespace Percent

variable {a b text decoded piece codes : List Char} {c high low : Char}

/-! ### Weights -/

/-- How many percent signs there are, and how many of the digits that the code of one begins
with. -/
def weight (text : List Char) : Nat :=
  text.count '%' + text.count '2'

theorem weight_append (a b : List Char) : weight (a ++ b) = weight a + weight b := by
  simp only [weight, List.count_append]
  omega

theorem weight_cons (c : Char) (text : List Char) : weight (c :: text) = weight [c] + weight text :=
  weight_append [c] text

theorem weight_lower (text : List Char) : weight (lower text) = weight text := by
  rw [weight, weight, count_lower (by decide), count_lower (by decide)]

theorem weight_singleton_le (c : Char) : weight [c] ≤ 1 := by
  simp only [weight, List.count_singleton, beq_iff_eq]
  split_ifs with hpercent htwo
  · rw [hpercent] at htwo
    exact absurd htwo (by decide)
  · exact Nat.le_refl 1
  · exact Nat.le_refl 1
  · exact Nat.zero_le 1

/-! ### Codes -/

/-- The codes stand together for one character. -/
structure AreCodes (codes : List Char) (c : Char) : Prop where
  chars : ∀ d ∈ codes, isSegmentChar d = true
  hasCode : HasCode codes
  weight_lt : weight [c] < weight codes

theorem isSegmentChar_of_mem_code (hhigh : isHexDigit high = true) (hlow : isHexDigit low = true) :
    ∀ c ∈ ['%', high, low], isSegmentChar c = true := by
  simpa using ⟨by decide, isSegmentChar_of_isHexDigit hhigh, isSegmentChar_of_isHexDigit hlow⟩

theorem eq_of_hexValue_eq_two (hhex : isHexDigit c = true) : hexValue c = 2 → c = '2' :=
  of_isHexDigit (P := fun c ↦ hexValue c = 2 → c = '2') (by decide) hhex

/-- The code of a single character. -/
theorem areCodes_single {n : Nat} (hhigh : isHexDigit high = true) (hlow : isHexDigit low = true)
    (hn : n = 16 * hexValue high + hexValue low) : AreCodes ['%', high, low] (Char.ofNat n) := by
  refine ⟨isSegmentChar_of_mem_code hhigh hlow, ⟨[], high, low, [], rfl, hhigh, hlow⟩, ?_⟩
  have hcode : weight ['%', high, low] = 1 + weight [high] + weight [low] := by
    rw [weight_cons, weight_cons high, Nat.add_assoc]
    rfl
  have hlowValue := hexValue_lt hlow
  have hsame (d : Char) (hd : d ≠ '\x00') (h : Char.ofNat n = d) : n = d.toNat := by
    obtain hzero | hcode := toNat_ofNat n
    · exact absurd (h.symm.trans hzero) hd
    · rw [← h, hcode]
  by_cases hpercent : Char.ofNat n = '%'
  · have hvalue : n = 37 := hsame '%' (by decide) hpercent
    obtain rfl := eq_of_hexValue_eq_two hhigh (by omega)
    have htwo : weight ['2'] = 1 := rfl
    have hsign : weight ['%'] = 1 := rfl
    rw [hpercent, hcode]
    omega
  by_cases htwo : Char.ofNat n = '2'
  · have hvalue : n = 50 := hsame '2' (by decide) htwo
    obtain rfl := eq_of_hexValue_eq_two hlow (by omega)
    have htwoWeight : weight ['2'] = 1 := rfl
    rw [htwo, hcode]
    omega
  · have hnone : weight [Char.ofNat n] = 0 := by
      simp [weight, hpercent, htwo]
    omega

/-- A code in front of others, for a character of several bytes. -/
theorem areCodes_cons (hhigh : isHexDigit high = true) (hlow : isHexDigit low = true)
    (hchars : ∀ d ∈ codes, isSegmentChar d = true) (hmem : '%' ∈ codes) (c : Char) :
    AreCodes ('%' :: high :: low :: codes) c where
  chars := by
    have hfirst := isSegmentChar_of_mem_code hhigh hlow
    exact List.forall_mem_append.mpr ⟨hfirst, hchars⟩
  hasCode := ⟨[], high, low, codes, rfl, hhigh, hlow⟩
  weight_lt := by
    have hsign : 0 < codes.count '%' := List.count_pos_iff.mpr hmem
    have hle := weight_singleton_le c
    have hcons : weight ('%' :: high :: low :: codes) =
        1 + (weight [high] + (weight [low] + weight codes)) := by
      rw [weight_cons, weight_cons high, weight_cons low]
      rfl
    have hcodes : codes.count '%' ≤ weight codes := Nat.le_add_right _ _
    omega

/-! ### What a text stands for -/

/-- Every character of the second text is either one of the first or made of codes in it. -/
inductive Decodes : List Char → List Char → Prop
  | nil : Decodes [] []
  | char (c : Char) {text decoded : List Char} (hc : c = '%' → ¬BeginsCode text)
      (h : Decodes text decoded) : Decodes (c :: text) (c :: decoded)
  | codes {codes text decoded : List Char} {c : Char} (hcodes : AreCodes codes c)
      (h : Decodes text decoded) : Decodes (codes ++ text) (c :: decoded)

/-- What the bytes of the text are read as, behind a whole character or inside of one. -/
structure ReadsDecoded (text : List Char) : Prop where
  whole {index : Nat} {decoded : List Char}
    (h : Utf8.decodeFrom index none (bytes text) = .ok decoded) : Decodes text decoded
  inside {index : Nat} {pending : Utf8.Pending} {decoded : List Char}
    (hpending : Utf8.AwaitsInner (some pending))
    (h : Utf8.decodeFrom index (some pending) (bytes text) = .ok decoded) :
    ∃ codes behind c rest, text = codes ++ behind ∧ decoded = c :: rest ∧
      (∀ d ∈ codes, isSegmentChar d = true) ∧ '%' ∈ codes ∧ Decodes behind rest

theorem ReadsDecoded.char (hrest : ReadsDecoded text)
    (hbytes : bytes (c :: text) = String.utf8EncodeChar c ++ bytes text)
    (hc : c = '%' → ¬BeginsCode text) : ReadsDecoded (c :: text) where
  whole {index decoded} h := by
    obtain ⟨next, hnext⟩ := Utf8.decodeFrom_char c index (bytes text)
    rw [hbytes, hnext] at h
    obtain ⟨behind, hbehind, rfl⟩ := Utf8.map_cons_eq_ok h
    exact .char c hc (hrest.whole hbehind)
  inside hpending h := by
    rw [hbytes] at h
    exact absurd h (Utf8.decodeFrom_pending_char hpending c)

theorem ReadsDecoded.code (hrest : ReadsDecoded text) (hhigh : isHexDigit high = true)
    (hlow : isHexDigit low = true) : ReadsDecoded ('%' :: high :: low :: text) := by
  have hbytes : bytes ('%' :: high :: low :: text) =
      UInt8.ofNat (16 * hexValue high + hexValue low) :: bytes text := by
    rw [bytes, if_pos (by simp [hhigh, hlow])]
  have hvalue : (UInt8.ofNat (16 * hexValue high + hexValue low)).toNat =
      16 * hexValue high + hexValue low := by
    have hhighValue := hexValue_lt hhigh
    have hlowValue := hexValue_lt hlow
    rw [UInt8.toNat_ofNat', Nat.mod_eq_of_lt (by omega)]
  constructor
  · intro index decoded h
    rw [hbytes, Utf8.decodeFrom, hvalue] at h
    cases hlead : Utf8.lead? (16 * hexValue high + hexValue low) with
    | none =>
      rw [hlead] at h
      cases h
    | some lead =>
      obtain ⟨-, hleast, hmost⟩ := Utf8.lead?_eq_some hlead
      rw [hlead] at h
      obtain ⟨tails, least, most, bits⟩ := lead
      cases tails with
      | zero =>
        obtain rfl := Utf8.bits_of_lead? hlead
        obtain ⟨behind, hbehind, rfl⟩ := Utf8.map_cons_eq_ok h
        exact .codes (areCodes_single hhigh hlow rfl) (hrest.whole hbehind)
      | succ tails =>
        obtain ⟨codes, behind, c, rest, rfl, rfl, hchars, hmem, hdecodes⟩ :=
          hrest.inside (Utf8.awaitsInner_some hleast hmost) h
        exact .codes (areCodes_cons hhigh hlow hchars hmem c) hdecodes
  · intro index pending decoded _ h
    have hfirst := isSegmentChar_of_mem_code hhigh hlow
    rw [hbytes, Utf8.decodeFrom] at h
    split at h
    · dsimp only at h
      split at h
      · obtain ⟨behind, hbehind, rfl⟩ := Utf8.map_cons_eq_ok h
        exact ⟨['%', high, low], text, _, behind, rfl, rfl, hfirst, List.mem_cons_self,
          hrest.whole hbehind⟩
      · have hnext : 0x80 ≤ 0x80 ∧ 0xBF < 0xC0 := by decide
        obtain ⟨codes, behind, c, rest, rfl, rfl, hchars, -, hdecodes⟩ :=
          hrest.inside (Utf8.awaitsInner_some hnext.1 hnext.2) h
        exact ⟨['%', high, low] ++ codes, behind, c, rest, rfl, rfl,
          List.forall_mem_append.mpr ⟨hfirst, hchars⟩, List.mem_cons_self, hdecodes⟩
    · cases h

theorem readsDecoded (text : List Char) : ReadsDecoded text := by
  induction text using bytes.induct with
  | case1 =>
    constructor
    · rintro _ _ ⟨⟩
      exact .nil
    · rintro _ _ _ _ ⟨⟩
  | case2 high low rest hhex ih =>
    rw [Bool.and_eq_true] at hhex
    exact ih.code hhex.1 hhex.2
  | case3 high low rest hhex ih =>
    refine ih.char (by rw [bytes, if_neg hhex]) fun _ hcode ↦ ?_
    obtain ⟨_, _, _, htext, hdigits⟩ := hcode
    cases htext
    exact hhex (Bool.and_eq_true_iff.mpr hdigits)
  | case4 c rest hc ih =>
    refine ih.char (by rw [bytes]; exact hc) ?_
    rintro rfl ⟨high, low, behind, rfl, -⟩
    exact hc high low behind rfl rfl

theorem decodes_of_decode (h : decode text = .ok decoded) : Decodes text decoded := by
  unfold decode at h
  split at h
  · exact (readsDecoded text).whole h
  · next hnone =>
    cases h
    rw [List.contains_iff_mem] at hnone
    induction text with
    | nil => exact .nil
    | cons c text ih =>
      rw [List.mem_cons, not_or] at hnone
      exact .char c (fun hc ↦ absurd hc.symm hnone.1) (ih hnone.2)

/-! ### Pieces of decoded texts -/

/-- The text can be cut where what it stands for can be cut. -/
theorem Decodes.of_append (h : Decodes text (a ++ b)) :
    ∃ front behind, text = front ++ behind ∧ Decodes front a ∧ Decodes behind b := by
  induction a generalizing text with
  | nil => exact ⟨[], text, rfl, .nil, h⟩
  | cons c a ih =>
    cases h with
    | char _ hc h =>
      obtain ⟨front, behind, rfl, hfront, hbehind⟩ := ih h
      exact ⟨c :: front, behind, rfl,
        .char c (fun hpercent hcode ↦ hc hpercent (hcode.append behind)) hfront, hbehind⟩
    | codes hcodes h =>
      obtain ⟨front, behind, rfl, hfront, hbehind⟩ := ih h
      exact ⟨_ ++ front, behind, (List.append_assoc _ _ _).symm, .codes hcodes hfront, hbehind⟩

/-- A piece of what a text stands for is what a piece of the text stands for. -/
theorem Decodes.of_piece (h : Decodes text decoded) (hpiece : piece <:+: decoded) :
    ∃ source, source <:+: text ∧ Decodes source piece := by
  obtain ⟨before, behind, rfl⟩ := hpiece
  obtain ⟨front, back, rfl, hfront, -⟩ := h.of_append
  obtain ⟨first, source, rfl, -, hsource⟩ := hfront.of_append
  exact ⟨source, ⟨first, back, rfl⟩, hsource⟩

theorem Decodes.isSegmentChar (h : Decodes text decoded)
    (hdecoded : ∀ c ∈ decoded, isSegmentChar c = true) :
    ∀ c ∈ text, ResourceQuery.isSegmentChar c = true := by
  induction h with
  | nil => exact List.forall_mem_nil _
  | char c _ _ ih =>
    obtain ⟨hc, hrest⟩ := List.forall_mem_cons.mp hdecoded
    exact List.forall_mem_cons.mpr ⟨hc, ih hrest⟩
  | codes hcodes _ ih =>
    exact List.forall_mem_append.mpr ⟨hcodes.chars, ih (List.forall_mem_cons.mp hdecoded).2⟩

/-- A text stands for itself and has no code, or it has one and stands for a lighter text. -/
theorem Decodes.weighs (h : Decodes text decoded) :
    text = decoded ∧ ¬HasCode text ∨ HasCode text ∧ weight decoded < weight text := by
  induction h with
  | nil => exact .inl ⟨rfl, not_hasCode_nil⟩
  | @char c text decoded hc _ ih =>
    obtain ⟨rfl, hnone⟩ | ⟨hcode, hweight⟩ := ih
    · refine .inl ⟨rfl, fun hcode ↦ ?_⟩
      obtain ⟨hpercent, hbegins⟩ | hcode := hasCode_cons_iff_beginsCode.mp hcode
      · exact hc hpercent hbegins
      · exact hnone hcode
    · refine .inr ⟨hcode.append_left [c], ?_⟩
      rw [weight_cons c text, weight_cons c decoded]
      omega
  | @codes codes text decoded c hcodes _ ih =>
    refine .inr ⟨hcodes.hasCode.append_right text, ?_⟩
    have hle : weight decoded ≤ weight text := by
      obtain ⟨rfl, -⟩ | ⟨-, hweight⟩ := ih
      · exact Nat.le_refl _
      · exact Nat.le_of_lt hweight
    have hlt := hcodes.weight_lt
    rw [weight_append, weight_cons c decoded]
    omega

/-- The piece is part of a segment, has a code and weighs more. -/
structure IsHeavier (least : Nat) (piece : List Char) : Prop where
  chars : ∀ c ∈ piece, isSegmentChar c = true
  hasCode : HasCode piece
  least_lt : least < weight piece

/-- A piece with a code stands for a heavier one. -/
theorem Decodes.exists_isHeavier (h : Decodes text decoded) (hpiece : piece <:+: decoded)
    (hchars : ∀ c ∈ piece, ResourceQuery.isSegmentChar c = true) (hcode : HasCode piece) :
    ∃ source, source <:+: text ∧ IsHeavier (weight piece) source := by
  obtain ⟨source, hsource, hdecodes⟩ := h.of_piece hpiece
  obtain ⟨rfl, hnone⟩ | ⟨hsourceCode, hweight⟩ := hdecodes.weighs
  · exact absurd hcode hnone
  · exact ⟨source, hsource, hdecodes.isSegmentChar hchars, hsourceCode, hweight⟩

end Percent

end ResourceQuery.Text
