import Mathlib.Tactic.SplitIfs
import ResourceQuery.Text.Percent

/-!
# UTF-8 and percent codes

Reading back the bytes of a text yields the text, and reading any bytes yields as many characters as
there are leading bytes. A text without a percent code therefore stands for itself, and one with a
percent code never does: what it stands for is shorter.
-/

namespace ResourceQuery.Text.Utf8

variable {v index : Nat} {rest : List UInt8}

/-! ### Reading a character back -/

theorem decodeFrom_lead {n bits : Nat} {low high tails : Nat} (hn : n < 256)
    (hlead : lead? n = some ⟨tails + 1, low, high, bits⟩) :
    decodeFrom index none (UInt8.ofNat n :: rest) =
      decodeFrom (index + 1) (some ⟨index, 1, tails + 1, low, high, bits⟩) rest := by
  rw [decodeFrom, UInt8.toNat_ofNat', Nat.mod_eq_of_lt hn, hlead]
  rfl

theorem decodeFrom_tail {start read owed low high bits t : Nat} (ht : t < 64)
    (hlow : low ≤ t + 128) (hhigh : t + 128 ≤ high) :
    decodeFrom index (some ⟨start, read, owed + 2, low, high, bits⟩)
        (UInt8.ofNat (t + 128) :: rest) =
      decodeFrom (index + 1) (some ⟨start, read + 1, owed + 1, 0x80, 0xBF, bits * 64 + t⟩)
        rest := by
  rw [decodeFrom, UInt8.toNat_ofNat', Nat.mod_eq_of_lt (by omega)]
  simp [hlow, hhigh]

theorem decodeFrom_last {start read low high bits t : Nat} (ht : t < 64)
    (hlow : low ≤ t + 128) (hhigh : t + 128 ≤ high) :
    decodeFrom index (some ⟨start, read, 1, low, high, bits⟩) (UInt8.ofNat (t + 128) :: rest) =
      (decodeFrom (index + 1) none rest).map (Char.ofNat (bits * 64 + t) :: ·) := by
  rw [decodeFrom, UInt8.toNat_ofNat', Nat.mod_eq_of_lt (by omega)]
  simp [hlow, hhigh]

theorem lead?_two (hlow : 0x80 ≤ v) (hhigh : v < 0x800) :
    lead? (v / 64 % 32 + 192) = some ⟨1, 0x80, 0xBF, v / 64⟩ := by
  have hbits : v / 64 % 32 + 192 - 0xC0 = v / 64 := by omega
  rw [lead?, if_neg (by omega), if_neg (by omega), if_pos (by omega), hbits]

/-- The byte behind the lead of three must not make up a shorter form or a surrogate. -/
theorem lead?_three (hlow : 0x800 ≤ v) (hhigh : v < 0x10000) (hvalid : v < 0xD800 ∨ 0xDFFF < v) :
    ∃ low high, lead? (v / 4096 % 16 + 224) = some ⟨2, low, high, v / 4096⟩ ∧
      low ≤ v / 64 % 64 + 128 ∧ v / 64 % 64 + 128 ≤ high := by
  have hlead : v / 4096 % 16 + 224 = v / 4096 + 0xE0 := by omega
  rw [hlead]
  by_cases hfirst : v / 4096 = 0
  · rw [hfirst]
    exact ⟨0xA0, 0xBF, rfl, by omega, by omega⟩
  by_cases hsurrogate : v / 4096 = 0xD
  · rw [hsurrogate]
    exact ⟨0x80, 0x9F, rfl, by omega, by omega⟩
  · refine ⟨0x80, 0xBF, ?_, by omega, by omega⟩
    rw [lead?, if_neg (by omega), if_neg (by omega), if_neg (by omega),
      if_neg (by simpa using hfirst), if_neg (by rw [beq_iff_eq]; omega), if_pos (by omega),
      Nat.add_sub_cancel]

/-- The byte behind the lead of four must not make up a shorter form or leave Unicode. -/
theorem lead?_four (hlow : 0x10000 ≤ v) (hhigh : v < 0x110000) :
    ∃ low high, lead? (v / 262144 % 8 + 240) = some ⟨3, low, high, v / 262144⟩ ∧
      low ≤ v / 4096 % 64 + 128 ∧ v / 4096 % 64 + 128 ≤ high := by
  have hlead : v / 262144 % 8 + 240 = v / 262144 + 0xF0 := by omega
  have hfour : v / 262144 = 0 ∨ v / 262144 = 1 ∨ v / 262144 = 2 ∨ v / 262144 = 3 ∨
      v / 262144 = 4 := by omega
  rw [hlead]
  obtain h | h | h | h | h := hfour
  · rw [h]
    exact ⟨0x90, 0xBF, rfl, by omega, by omega⟩
  · rw [h]
    exact ⟨0x80, 0xBF, rfl, by omega, by omega⟩
  · rw [h]
    exact ⟨0x80, 0xBF, rfl, by omega, by omega⟩
  · rw [h]
    exact ⟨0x80, 0xBF, rfl, by omega, by omega⟩
  · rw [h]
    exact ⟨0x80, 0x8F, rfl, by omega, by omega⟩

theorem decodeFrom_one (h : v < 0x80) :
    decodeFrom index none (UInt8.ofNat v :: rest) =
      (decodeFrom (index + 1) none rest).map (Char.ofNat v :: ·) := by
  have hlead : lead? v = some ⟨0, 0x80, 0xBF, v⟩ := if_pos h
  rw [decodeFrom, UInt8.toNat_ofNat', Nat.mod_eq_of_lt (by omega), hlead]
  rfl

theorem decodeFrom_two (hlow : 0x80 ≤ v) (hhigh : v < 0x800) :
    decodeFrom index none
        (UInt8.ofNat (v / 64 % 32 + 192) :: UInt8.ofNat (v % 64 + 128) :: rest) =
      (decodeFrom (index + 2) none rest).map (Char.ofNat v :: ·) := by
  have hbits : v / 64 * 64 + v % 64 = v := by omega
  rw [decodeFrom_lead (by omega) (lead?_two hlow hhigh),
    decodeFrom_last (by omega) (by omega) (by omega), hbits]

theorem decodeFrom_three (hlow : 0x800 ≤ v) (hhigh : v < 0x10000)
    (hvalid : v < 0xD800 ∨ 0xDFFF < v) :
    decodeFrom index none (UInt8.ofNat (v / 4096 % 16 + 224) ::
        UInt8.ofNat (v / 64 % 64 + 128) :: UInt8.ofNat (v % 64 + 128) :: rest) =
      (decodeFrom (index + 3) none rest).map (Char.ofNat v :: ·) := by
  obtain ⟨low, high, hlead, hleast, hmost⟩ := lead?_three hlow hhigh hvalid
  have hbits : (v / 4096 * 64 + v / 64 % 64) * 64 + v % 64 = v := by omega
  rw [decodeFrom_lead (by omega) hlead,
    decodeFrom_tail (by omega) hleast hmost,
    decodeFrom_last (by omega) (by omega) (by omega), hbits]

theorem decodeFrom_four (hlow : 0x10000 ≤ v) (hhigh : v < 0x110000) :
    decodeFrom index none (UInt8.ofNat (v / 262144 % 8 + 240) ::
        UInt8.ofNat (v / 4096 % 64 + 128) :: UInt8.ofNat (v / 64 % 64 + 128) ::
        UInt8.ofNat (v % 64 + 128) :: rest) =
      (decodeFrom (index + 4) none rest).map (Char.ofNat v :: ·) := by
  obtain ⟨low, high, hlead, hleast, hmost⟩ := lead?_four hlow hhigh
  have hbits : ((v / 262144 * 64 + v / 4096 % 64) * 64 + v / 64 % 64) * 64 + v % 64 = v := by
    omega
  rw [decodeFrom_lead (by omega) hlead,
    decodeFrom_tail (by omega) hleast hmost,
    decodeFrom_tail (by omega) (by omega) (by omega),
    decodeFrom_last (by omega) (by omega) (by omega), hbits]

/-- The bytes of a character are read as that character. -/
theorem decodeFrom_char (c : Char) (index : Nat) (rest : List UInt8) :
    ∃ next, decodeFrom index none (String.utf8EncodeChar c ++ rest) =
      (decodeFrom next none rest).map (c :: ·) := by
  have hvalid : c.toNat < 0xD800 ∨ (0xDFFF < c.toNat ∧ c.toNat < 0x110000) := c.valid
  have hchar : Char.ofNat c.toNat = c := Char.ofNat_toNat c
  by_cases hone : c.toNat ≤ 127
  · have hbytes : String.utf8EncodeChar c = [UInt8.ofNat c.toNat] := if_pos hone
    refine ⟨index + 1, ?_⟩
    rw [hbytes, List.singleton_append, decodeFrom_one (by omega), hchar]
  by_cases htwo : c.toNat ≤ 2047
  · have hbytes : String.utf8EncodeChar c =
        [UInt8.ofNat (c.toNat / 64 % 32 + 192), UInt8.ofNat (c.toNat % 64 + 128)] :=
      (if_neg hone).trans (if_pos htwo)
    refine ⟨index + 2, ?_⟩
    rw [hbytes, List.cons_append, List.singleton_append, decodeFrom_two (by omega) (by omega),
      hchar]
  by_cases hthree : c.toNat ≤ 65535
  · have hbytes : String.utf8EncodeChar c = [UInt8.ofNat (c.toNat / 4096 % 16 + 224),
        UInt8.ofNat (c.toNat / 64 % 64 + 128), UInt8.ofNat (c.toNat % 64 + 128)] :=
      (if_neg hone).trans ((if_neg htwo).trans (if_pos hthree))
    refine ⟨index + 3, ?_⟩
    rw [hbytes, List.cons_append, List.cons_append, List.singleton_append,
      decodeFrom_three (by omega) (by omega) (by omega), hchar]
  · have hbytes : String.utf8EncodeChar c = [UInt8.ofNat (c.toNat / 262144 % 8 + 240),
        UInt8.ofNat (c.toNat / 4096 % 64 + 128), UInt8.ofNat (c.toNat / 64 % 64 + 128),
        UInt8.ofNat (c.toNat % 64 + 128)] :=
      (if_neg hone).trans ((if_neg htwo).trans (if_neg hthree))
    refine ⟨index + 4, ?_⟩
    rw [hbytes, List.cons_append, List.cons_append, List.cons_append, List.singleton_append,
      decodeFrom_four (by omega) (by omega), hchar]

/-- The bytes of a text are read as that text. -/
theorem decode_encode (text : List Char) : decode (encode text) = .ok text := by
  have hfrom (index : Nat) : decodeFrom index none (encode text) = .ok text := by
    induction text generalizing index with
    | nil => rfl
    | cons c text ih =>
      obtain ⟨next, hnext⟩ := decodeFrom_char c index (encode text)
      have hencode : encode (c :: text) = String.utf8EncodeChar c ++ encode text := rfl
      rw [hencode, hnext, ih]
      rfl
  exact hfrom 0

/-! ### How many characters bytes are read as -/

/-- The byte stands at the front of a character. -/
def isLead (byte : UInt8) : Bool :=
  byte.toNat < 0x80 || 0xC0 ≤ byte.toNat

theorem lead?_eq_some {n : Nat} {lead : Lead} (h : lead? n = some lead) :
    (n < 0x80 ∨ 0xC0 ≤ n) ∧ 0x80 ≤ lead.low ∧ lead.high < 0xC0 := by
  unfold lead? at h
  split_ifs at h
  all_goals
    cases h
    dsimp only
    omega

theorem map_cons_eq_ok {result : Except Fault (List Char)} {c : Char} {text : List Char}
    (h : result.map (c :: ·) = .ok text) : ∃ behind, result = .ok behind ∧ text = c :: behind := by
  cases result with
  | error fault => cases h
  | ok behind =>
    cases h
    exact ⟨behind, rfl, rfl⟩

/-- What has been begun waits for bytes that are no leading ones. -/
def AwaitsInner (pending : Option Pending) : Prop :=
  ∀ p ∈ pending, 0x80 ≤ p.low ∧ p.high < 0xC0

theorem awaitsInner_none : AwaitsInner none := nofun

theorem awaitsInner_some {pending : Pending} (hlow : 0x80 ≤ pending.low)
    (hhigh : pending.high < 0xC0) : AwaitsInner (some pending) := by
  rintro _ ⟨⟩
  exact ⟨hlow, hhigh⟩

/-- A byte either begins a character or goes on with the one that has been begun. -/
theorem exists_of_decodeFrom_cons {byte : UInt8} {text : List Char} {pending : Option Pending}
    (hpending : AwaitsInner pending) (h : decodeFrom index pending (byte :: rest) = .ok text) :
    ∃ next behind, AwaitsInner next ∧ decodeFrom (index + 1) next rest = .ok behind ∧
      text.length + next.toList.length =
        behind.length + (if isLead byte then 1 else 0) + pending.toList.length := by
  cases pending with
  | none =>
    rw [decodeFrom] at h
    cases hlead : lead? byte.toNat with
    | none =>
      rw [hlead] at h
      cases h
    | some lead =>
      obtain ⟨hbyte, hlow, hhigh⟩ := lead?_eq_some hlead
      have hfirst : isLead byte = true := by
        simpa [isLead] using hbyte
      rw [hlead] at h
      obtain ⟨tails, low, high, bits⟩ := lead
      cases tails with
      | zero =>
        obtain ⟨behind, hbehind, rfl⟩ := map_cons_eq_ok h
        exact ⟨none, behind, awaitsInner_none, hbehind, by simp [hfirst]⟩
      | succ tails => exact ⟨_, text, awaitsInner_some hlow hhigh, h, by simp [hfirst]⟩
  | some pending =>
    obtain ⟨hlow, hhigh⟩ := hpending pending rfl
    rw [decodeFrom] at h
    split at h
    · next hrange =>
      rw [Bool.and_eq_true, decide_eq_true_eq, decide_eq_true_eq] at hrange
      have hinner : isLead byte = false := by
        rw [Bool.eq_false_iff]
        simp only [isLead, ne_eq, Bool.or_eq_true, decide_eq_true_eq]
        omega
      dsimp only at h
      split at h
      · obtain ⟨behind, hbehind, rfl⟩ := map_cons_eq_ok h
        exact ⟨none, behind, awaitsInner_none, hbehind, by simp [hinner]⟩
      · have hnext : 0x80 ≤ 0x80 ∧ 0xBF < 0xC0 := by decide
        exact ⟨_, text, awaitsInner_some hnext.1 hnext.2, h, by simp [hinner]⟩
    · cases h

/-- Each leading byte makes a character, and what has been begun makes one as well. -/
theorem length_of_decodeFrom {bytes : List UInt8} {text : List Char} {pending : Option Pending}
    (hpending : AwaitsInner pending) (h : decodeFrom index pending bytes = .ok text) :
    text.length = bytes.countP isLead + pending.toList.length := by
  induction bytes generalizing index pending text with
  | nil =>
    cases pending with
    | none =>
      cases h
      rfl
    | some pending => cases h
  | cons byte rest ih =>
    obtain ⟨next, behind, hnext, hbehind, hlength⟩ := exists_of_decodeFrom_cons hpending h
    have hrest := ih hnext hbehind
    rw [List.countP_cons]
    omega

theorem length_of_decode {bytes : List UInt8} {text : List Char} (h : decode bytes = .ok text) :
    text.length = bytes.countP isLead := by
  simpa using length_of_decodeFrom awaitsInner_none h

theorem encode_cons (c : Char) (text : List Char) :
    encode (c :: text) = String.utf8EncodeChar c ++ encode text := rfl

theorem countP_isLead_char (c : Char) : (String.utf8EncodeChar c).countP isLead = 1 := by
  have hencode : encode [c] = String.utf8EncodeChar c := List.append_nil _
  have hlength := length_of_decode (decode_encode [c])
  rwa [hencode, eq_comm] at hlength

end ResourceQuery.Text.Utf8

/-! ### Percent codes -/

namespace ResourceQuery.Text.Percent

variable {text a b : List Char}

/-- A percent sign stands in front of two hexadecimal digits. -/
def HasCode (text : List Char) : Prop :=
  ∃ before high low behind, text = before ++ '%' :: high :: low :: behind ∧
    isHexDigit high = true ∧ isHexDigit low = true

theorem HasCode.mem (h : HasCode text) : '%' ∈ text := by
  obtain ⟨before, high, low, behind, rfl, -⟩ := h
  simp

theorem not_hasCode_of_not_mem (h : '%' ∉ text) : ¬HasCode text :=
  fun hcode ↦ h hcode.mem

theorem not_hasCode_nil : ¬HasCode [] :=
  not_hasCode_of_not_mem (by simp)

theorem HasCode.append_left (h : HasCode b) (a : List Char) : HasCode (a ++ b) := by
  obtain ⟨before, high, low, behind, rfl, hhex⟩ := h
  exact ⟨a ++ before, high, low, behind, by simp, hhex⟩

theorem HasCode.append_right (h : HasCode a) (b : List Char) : HasCode (a ++ b) := by
  obtain ⟨before, high, low, behind, rfl, hhex⟩ := h
  exact ⟨before, high, low, behind ++ b, by simp, hhex⟩

/-- A code begins with the text, or lies behind its first character. -/
theorem hasCode_cons_iff {c : Char} :
    HasCode (c :: text) ↔ (∃ high low behind, c :: text = '%' :: high :: low :: behind ∧
      isHexDigit high = true ∧ isHexDigit low = true) ∨ HasCode text := by
  constructor
  · rintro ⟨before, high, low, behind, htext, hhex⟩
    cases before with
    | nil => exact .inl ⟨high, low, behind, htext, hhex⟩
    | cons d before =>
      obtain ⟨-, rfl⟩ := List.cons.inj htext
      exact .inr ⟨before, high, low, behind, rfl, hhex⟩
  · rintro (⟨high, low, behind, htext, hhex⟩ | h)
    · exact ⟨[], high, low, behind, htext, hhex⟩
    · exact h.append_left [c]

theorem hasCode_append_of_not_mem (h : '%' ∉ a) : HasCode (a ++ b) ↔ HasCode b := by
  induction a with
  | nil => rfl
  | cons c a ih =>
    obtain ⟨hc, ha⟩ := not_or.mp (mt List.mem_cons.mpr h)
    rw [List.cons_append, hasCode_cons_iff, ih ha]
    refine or_iff_right ?_
    rintro ⟨high, low, behind, htext, -⟩
    exact hc (List.cons.inj htext).1.symm

/-- Without a code every character stands for itself. -/
theorem bytes_eq_encode (h : ¬HasCode text) : bytes text = Utf8.encode text := by
  induction text using bytes.induct with
  | case1 => rfl
  | case2 high low rest hhex =>
    exact absurd ⟨[], high, low, rest, rfl, Bool.and_eq_true_iff.mp hhex⟩ h
  | case3 high low rest hhex ih =>
    rw [bytes, if_neg hhex, Utf8.encode_cons, ih fun hrest ↦ h (hasCode_cons_iff.mpr (.inr hrest))]
  | case4 c rest hc ih =>
    rw [bytes, Utf8.encode_cons, ih fun hrest ↦ h (hasCode_cons_iff.mpr (.inr hrest))]
    exact hc

/-- The text stands for as many characters as it has, or for fewer if it has a code. -/
def Shrinks (text : List Char) : Prop :=
  (bytes text).countP Utf8.isLead ≤ text.length ∧
    (HasCode text → (bytes text).countP Utf8.isLead < text.length)

/-- A character that stands for itself has the codes of the text behind it. -/
theorem Shrinks.cons {c : Char} (h : Shrinks text)
    (hbytes : bytes (c :: text) = String.utf8EncodeChar c ++ bytes text)
    (hcode : HasCode (c :: text) → HasCode text) : Shrinks (c :: text) := by
  have hcount : (bytes (c :: text)).countP Utf8.isLead =
      1 + (bytes text).countP Utf8.isLead := by
    rw [hbytes, List.countP_append, Utf8.countP_isLead_char]
  obtain ⟨hle, hless⟩ := h
  refine ⟨by rw [hcount, List.length_cons]; omega, fun h ↦ ?_⟩
  have hfewer := hless (hcode h)
  rw [hcount, List.length_cons]
  omega

theorem shrinks (text : List Char) : Shrinks text := by
  induction text using bytes.induct with
  | case1 => exact ⟨Nat.le_refl 0, fun h ↦ absurd h not_hasCode_nil⟩
  | case2 high low rest hhex ih =>
    have hcount : (bytes ('%' :: high :: low :: rest)).countP Utf8.isLead ≤
        (bytes rest).countP Utf8.isLead + 1 := by
      rw [bytes, if_pos hhex, List.countP_cons]
      split <;> omega
    have hle := ih.1
    simp only [Shrinks, List.length_cons]
    omega
  | case3 high low rest hhex ih =>
    refine ih.cons (by rw [bytes, if_neg hhex]) fun h ↦ ?_
    obtain ⟨_, _, _, htext, hcode⟩ | hrest := hasCode_cons_iff.mp h
    · cases htext
      exact absurd (Bool.and_eq_true_iff.mpr hcode) hhex
    · exact hrest
  | case4 c rest hc ih =>
    have hbytes : bytes (c :: rest) = String.utf8EncodeChar c ++ bytes rest := by
      rw [bytes]
      exact hc
    refine ih.cons hbytes fun h ↦ ?_
    obtain ⟨high, low, behind, htext, hcode⟩ | hrest := hasCode_cons_iff.mp h
    · obtain ⟨rfl, rfl⟩ := List.cons.inj htext
      exact absurd rfl (hc high low behind rfl)
    · exact hrest

theorem decode_of_not_hasCode (h : ¬HasCode text) : decode text = .ok text := by
  unfold decode
  split
  · rw [bytes_eq_encode h, Utf8.decode_encode]
  · rfl

/-- What a text with a code stands for is shorter. -/
theorem length_lt_of_hasCode (h : HasCode text) {decoded : List Char}
    (hdecode : decode text = .ok decoded) : decoded.length < text.length := by
  rw [decode, if_pos (List.contains_iff_mem.mpr h.mem)] at hdecode
  rw [Utf8.length_of_decode hdecode]
  exact (shrinks text).2 h

end ResourceQuery.Text.Percent
