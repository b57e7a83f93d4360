import Verum.Json.NumberTexts

open Utf8

open List

namespace Json

open Nat

open Grammar

namespace Parser

section Strings

theorem tail_byte (n : Nat) : 0x80 ||| (n &&& 0x3F) = n % 0x40 + 0x80 := by
  have mask : n &&& 0x3F = n % 0x40 := and_two_pow_sub_one_eq_mod n 6
  rw [mask]
  exact mark_or 1 7 (n % 0x40) ((mod_lt n (by decide)).trans (by decide))

theorem pushUtf8_eq (out : Text) {cp : Nat} (valid : cp.isValidChar) :
    pushUtf8 out cp = out ++ encode [Char.ofNat cp] := by
  have hb : cp < 0x110000 := by
    rcases valid with low | high
    · omega
    · exact high.2
  rw [encode_cons, encode_nil, append_nil, encodeChar_ofNat valid, pushUtf8]
  simp only [tail_byte, shiftRight_eq_div_pow]
  split_ifs with one two three
  · rfl
  · have lead : 0xC0 ||| (cp / 2 ^ 6) = cp / 64 % 0x20 + 0xC0 := by
      rw [mod_eq_of_lt (by omega)]
      exact mark_or 3 6 (cp / 64) (by omega)
    rw [lead]
  · have lead : 0xE0 ||| (cp / 2 ^ 12) = cp / 4096 % 0x10 + 0xE0 := by
      rw [mod_eq_of_lt (by omega)]
      exact mark_or 7 5 (cp / 4096) (by omega)
    rw [lead]
  · have lead : 0xF0 ||| (cp / 2 ^ 18) = cp / 262144 % 0x08 + 0xF0 := by
      rw [mod_eq_of_lt (by omega)]
      exact mark_or 15 4 (cp / 262144) (by omega)
    rw [lead]

variable {c : Char} {v n fuel : Nat} {b : UInt8} {p p' : Parser} {text rest : List Char} {out out' buf : Text}

theorem hexDigit_char (low : c.toNat < 0x80) : hexDigit c.toNat.toUInt8 = hexValue c := by
  have all : ∀ n < 0x80, hexDigit n.toUInt8 = hexValue (Char.ofNat n) := by decide
  rw [all c.toNat low, Char.ofNat_toNat]

theorem hexValue_low (isHex : hexValue c = some v) : c.toNat < 0x80 ∧ v < 16 := by
  unfold hexValue at isHex
  split_ifs at isHex with digit upper lower
  · have bounds : 0x30 ≤ c.toNat ∧ c.toNat ≤ 0x39 := digit
    have := Option.some.inj isHex
    omega
  · have bounds : 0x41 ≤ c.toNat ∧ c.toNat ≤ 0x46 := upper
    have := Option.some.inj isHex
    omega
  · have bounds : 0x61 ≤ c.toNat ∧ c.toNat ≤ 0x66 := lower
    have := Option.some.inj isHex
    omega

theorem hexDigit_low (isHex : hexDigit b = some v) : b < 0x80 := by
  unfold hexDigit at isHex
  split_ifs at isHex with digit upper lower
  · exact UInt8.lt_of_le_of_lt digit.2 (by decide)
  · exact UInt8.lt_of_le_of_lt upper.2 (by decide)
  · exact UInt8.lt_of_le_of_lt lower.2 (by decide)

theorem hexLoop_ok {count : Nat} (here : p.rest = encode text) (runs : hexLoop (count + 1) v p = .ok (n, p')) :
    ∃ c digit hl, text = c :: hl ∧ hexValue c = some digit ∧ Moved p hl p.advance ∧
      hexLoop count (v * 16 + digit) p.advance = .ok (n, p') := by
  rw [hexLoop] at runs
  split at runs
  · simp at runs
  · rename_i b peeked
    split at runs
    · rename_i digit isHex
      obtain ⟨hl, isText, moved⟩ := of_peek here (hexDigit_low isHex) peeked
      refine ⟨_, digit, hl, isText, ?_, moved, runs⟩
      have small : b.toNat < 0x80 := hexDigit_low isHex
      have num : (Char.ofNat b.toNat).toNat = b.toNat := toNat_ofNat (.inl (by omega))
      rw [← hexDigit_char (by rw [num]; exact small), num]
      simpa using isHex
    · simp at runs

theorem hexLoop_step (n v : Nat) {digit : Nat} (here : p.rest = encode (c :: text))
    (isHex : hexValue c = some digit) :
    hexLoop (n + 1) v p = hexLoop n (v * 16 + digit) p.advance ∧ Moved p text p.advance := by
  have low := (hexValue_low isHex).1
  refine ⟨?_, .advance here low⟩
  rw [hexLoop, peek_eq here low]
  simp only [hexDigit_char low, isHex]

theorem parseHex4_ok (here : p.rest = encode text) (runs : p.parseHex4 = .ok (n, p')) :
    ∃ rest, Hex4 text n rest ∧ Moved p rest p' := by
  obtain ⟨c₁, v₁, later₁, rfl, hex₁, moved₁, runs₁⟩ := hexLoop_ok here runs
  obtain ⟨c₂, v₂, later₂, rfl, hex₂, moved₂, runs₂⟩ := hexLoop_ok moved₁.rest runs₁
  obtain ⟨c₃, v₃, later₃, rfl, hex₃, moved₃, runs₃⟩ := hexLoop_ok moved₂.rest runs₂
  obtain ⟨c₄, v₄, later₄, rfl, hex₄, moved₄, runs₄⟩ := hexLoop_ok moved₃.rest runs₃
  rw [hexLoop, Except.ok.injEq, Prod.mk.injEq] at runs₄
  rw [← runs₄.1, ← runs₄.2, zero_mul, zero_add]
  exact ⟨later₄, .mk hex₁ hex₂ hex₃ hex₄, ((moved₁.trans moved₂).trans moved₃).trans moved₄⟩

theorem parseHex4_complete (here : p.rest = encode text) (hex : Hex4 text n rest) :
    ∃ p', p.parseHex4 = .ok (n, p') ∧ Moved p rest p' := by
  cases hex with
  | mk hex₁ hex₂ hex₃ hex₄ =>
    obtain ⟨runs₁, moved₁⟩ := hexLoop_step 3 0 here hex₁
    obtain ⟨runs₂, moved₂⟩ := hexLoop_step 2 _ moved₁.rest hex₂
    obtain ⟨runs₃, moved₃⟩ := hexLoop_step 1 _ moved₂.rest hex₃
    obtain ⟨runs₄, moved₄⟩ := hexLoop_step 0 _ moved₃.rest hex₄
    refine ⟨_, ?_, ((moved₁.trans moved₂).trans moved₃).trans moved₄⟩
    rw [parseHex4, runs₁, runs₂, runs₃, runs₄, hexLoop, zero_mul, zero_add]

theorem hex4_lt (hex : Hex4 text n rest) : n < 0x10000 := by
  cases hex with
  | mk hex₁ hex₂ hex₃ hex₄ =>
    have bound₁ := (hexValue_low hex₁).2
    have bound₂ := (hexValue_low hex₂).2
    have bound₃ := (hexValue_low hex₃).2
    have bound₄ := (hexValue_low hex₄).2
    omega

theorem valid_pair {high low : Nat} (highLow : 0xD800 ≤ high) (highHigh : high ≤ 0xDBFF) (lowLow : 0xDC00 ≤ low)
    (lowHigh : low ≤ 0xDFFF) : (0x10000 + (high - 0xD800) * 0x400 + (low - 0xDC00)).isValidChar :=
  .inr ⟨by omega, by omega⟩

theorem valid_unit {unit : Nat} (hb : unit < 0x10000) (noSurrogate : ¬ (0xD800 ≤ unit ∧ unit ≤ 0xDFFF)) :
    unit.isValidChar := by
  rw [Nat.isValidChar]
  omega

theorem parseUnicodeEscape_ok {hex : List Char} (here : p.rest = encode hex)
    (runs : p.parseUnicodeEscape out = .ok (out', p')) :
    ∃ c rest, Escape ('u' :: hex) c rest ∧ out' = out ++ encode [c] ∧ Moved p rest p' := by
  unfold parseUnicodeEscape at runs
  simp only [bind, Except.bind] at runs
  split at runs
  · simp at runs
  rename_i fst isFirst
  obtain ⟨cp, q₁⟩ := fst
  obtain ⟨afterUnit, isUnit, moved₁⟩ := parseHex4_ok here isFirst
  have hb := hex4_lt isUnit
  simp only at runs
  split at runs
  · rename_i high
    split at runs
    · simp at runs
    rename_i q₂ backslash
    obtain ⟨peeked₂, isNext₂⟩ := expectByte_ok backslash
    rw [isNext₂] at runs
    obtain ⟨text₂, isText₂, moved₂⟩ := of_peek moved₁.rest (by decide) peeked₂
    split at runs
    · simp at runs
    rename_i q₃ letter
    obtain ⟨peeked₃, isNext₃⟩ := expectByte_ok letter
    rw [isNext₃] at runs
    obtain ⟨text₃, isText₃, moved₃⟩ := of_peek moved₂.rest (by decide) peeked₃
    split at runs
    · simp at runs
    rename_i snd isSecond
    obtain ⟨low, q₄⟩ := snd
    obtain ⟨rest, isLow, moved₄⟩ := parseHex4_ok moved₃.rest isSecond
    simp only at runs
    split at runs
    · simp at runs
    · rename_i notOutside
      rw [not_or, not_lt, not_lt] at notOutside
      obtain ⟨rfl, rfl⟩ := Prod.mk.inj (Except.ok.inj runs)
      rw [isText₂, isText₃] at isUnit
      refine ⟨_, rest, .pair isUnit high.1 high.2 isLow notOutside.1 notOutside.2, ?_,
        ((moved₁.trans moved₂).trans moved₃).trans moved₄⟩
      exact pushUtf8_eq out (valid_pair high.1 high.2 notOutside.1 notOutside.2)
  · rename_i notHigh
    split at runs
    · simp at runs
    · rename_i notLow
      cases runs
      have noSurrogate : ¬ (0xD800 ≤ cp ∧ cp ≤ 0xDFFF) := by omega
      exact ⟨_, afterUnit, .unicode isUnit noSurrogate, pushUtf8_eq out (valid_unit hb noSurrogate), moved₁⟩

theorem simpleEscape_some {c : UInt8} (hit : simpleEscape b = some c) :
    b < 0x80 ∧ ∃ e, escaped (Char.ofNat b.toNat) = some e ∧ encode [e] = [c] := by
  unfold simpleEscape at hit
  split_ifs at hit with h₁ h₂ h₃ h₄ h₅ h₆ h₇ h₈
  · subst h₁
    exact ⟨by decide, '"', rfl, by rw [← Option.some.inj hit]; decide⟩
  · subst h₂
    exact ⟨by decide, '\\', rfl, by rw [← Option.some.inj hit]; decide⟩
  · subst h₃
    exact ⟨by decide, '/', rfl, by rw [← Option.some.inj hit]; decide⟩
  · subst h₄
    exact ⟨by decide, '\x08', rfl, by rw [← Option.some.inj hit]; decide⟩
  · subst h₅
    exact ⟨by decide, '\x0C', rfl, by rw [← Option.some.inj hit]; decide⟩
  · subst h₆
    exact ⟨by decide, '\n', rfl, by rw [← Option.some.inj hit]; decide⟩
  · subst h₇
    exact ⟨by decide, '\r', rfl, by rw [← Option.some.inj hit]; decide⟩
  · subst h₈
    exact ⟨by decide, '\t', rfl, by rw [← Option.some.inj hit]; decide⟩

theorem escaped_some {e : Char} (hit : escaped c = some e) :
    c.toNat < 0x80 ∧ ∃ b, simpleEscape c.toNat.toUInt8 = some b ∧ encode [e] = [b] := by
  unfold escaped at hit
  split at hit <;> simp only [Option.some.injEq, reduceCtorEq] at hit <;> subst hit <;>
    exact ⟨by decide, _, rfl, by decide⟩

theorem parseEscape_ok (here : p.rest = encode text) (runs : p.parseEscape out = .ok (out', p')) :
    ∃ c rest, Escape text c rest ∧ out' = out ++ encode [c] ∧ Moved p rest p' := by
  unfold parseEscape at runs
  split at runs
  · simp at runs
  rename_i b peeked
  split at runs
  · rename_i c hit
    obtain ⟨low, e, isEscaped, isByte⟩ := simpleEscape_some hit
    obtain ⟨rest, isText, moved⟩ := of_peek here low peeked
    cases runs
    rw [isText]
    exact ⟨e, rest, .letter rest isEscaped, by rw [isByte], moved⟩
  · split at runs
    · rename_i isLetter
      rw [isLetter] at peeked
      obtain ⟨hex, isText, moved⟩ := of_peek here (by decide) peeked
      obtain ⟨c, rest, isEscape, isOut, movedRest⟩ := parseUnicodeEscape_ok moved.rest runs
      rw [isText]
      exact ⟨c, rest, isEscape, isOut, moved.trans movedRest⟩
    · simp at runs

theorem parseEscape_complete (isEscape : Escape text c rest) (here : p.rest = encode text) (out : Text) :
    ∃ p', p.parseEscape out = .ok (out ++ encode [c], p') ∧ Moved p rest p' := by
  unfold parseEscape
  cases isEscape with
  | letter rest isEscaped =>
    obtain ⟨low, b, hit, isByte⟩ := escaped_some isEscaped
    refine ⟨_, ?_, .advance here low⟩
    simp only [peek_eq here low, hit, isByte]
  | @unicode unit hex rest isUnit noSurrogate =>
    have moved := Moved.advance here (by decide)
    obtain ⟨q₁, fst, moved₁⟩ := parseHex4_complete moved.rest isUnit
    have hb := hex4_lt isUnit
    refine ⟨q₁, ?_, moved.trans moved₁⟩
    simp only [peek_eq here (by decide : 'u'.toNat < 0x80)]
    have notSimple : simpleEscape 'u'.toNat.toUInt8 = none := by decide
    simp only [notSimple]
    rw [if_pos (by decide), parseUnicodeEscape]
    simp only [fst, bind, Except.bind]
    rw [if_neg (by omega), if_neg (by omega), pushUtf8_eq out (valid_unit hb noSurrogate)]
  | @pair high low hex hex' rest isHigh highLow highHigh isLow lowLow lowHigh =>
    have moved := Moved.advance here (by decide)
    obtain ⟨q₁, fst, moved₁⟩ := parseHex4_complete moved.rest isHigh
    have moved₂ := Moved.advance moved₁.rest (by decide)
    have moved₃ := Moved.advance moved₂.rest (by decide)
    obtain ⟨q₄, snd, moved₄⟩ := parseHex4_complete moved₃.rest isLow
    refine ⟨q₄, ?_, (((moved.trans moved₁).trans moved₂).trans moved₃).trans moved₄⟩
    simp only [peek_eq here (by decide : 'u'.toNat < 0x80)]
    have notSimple : simpleEscape 'u'.toNat.toUInt8 = none := by decide
    simp only [notSimple]
    rw [if_pos (by decide), parseUnicodeEscape]
    simp only [fst, bind, Except.bind]
    have isBackslash : q₁.peek = some 0x5C := peek_eq moved₁.rest (by decide)
    have isLetter : q₁.advance.peek = some 0x75 := peek_eq moved₂.rest (by decide)
    rw [if_pos ⟨highLow, highHigh⟩, expectByte_of_peek isBackslash]
    simp only
    rw [expectByte_of_peek isLetter]
    simp only [snd]
    rw [if_neg (by omega), pushUtf8_eq out (valid_pair highLow highHigh lowLow lowHigh)]

def Plain (b : UInt8) : Prop := b ≠ 0x22 ∧ b ≠ 0x5C ∧ 0x20 ≤ b

theorem stringLoop_push (peeked : p.peek = some b) (plain : Plain b) : stringLoop (fuel + 1) buf p =
      if (buf ++ [b]).length > maxJsonStringBytes then
        .error (p.advance.mkErr .stringTooLong "string exceeds MAX_JSON_STRING_BYTES (32 MiB)")
      else stringLoop fuel (buf ++ [b]) p.advance := by
  rw [stringLoop, peeked]
  simp only [plain.1, plain.2.1, UInt8.not_lt.mpr plain.2.2, if_false]
  rfl

theorem stringLoop_plain (bytes : List UInt8) (plain : ∀ b ∈ bytes, Plain b) {rest : List UInt8}
    (here : p.rest = bytes ++ rest) : (∀ res, stringLoop fuel buf p = .ok res →
      ∃ fuel' q, fuel' ≤ fuel ∧ (bytes ≠ [] → fuel' < fuel) ∧ q.rest = rest ∧ q.depth = p.depth ∧
        q.rejectDuplicateKeys = p.rejectDuplicateKeys ∧ stringLoop fuel' (buf ++ bytes) q = .ok res ∧
        (buf.length ≤ maxJsonStringBytes → (buf ++ bytes).length ≤ maxJsonStringBytes)) ∧
    (p.rest.length < fuel → (buf ++ bytes).length ≤ maxJsonStringBytes →
      ∃ fuel' q, q.rest = rest ∧ q.depth = p.depth ∧ q.rejectDuplicateKeys = p.rejectDuplicateKeys ∧
        rest.length < fuel' ∧ stringLoop fuel buf p = stringLoop fuel' (buf ++ bytes) q) := by
  induction bytes generalizing fuel buf p with
  | nil =>
    rw [append_nil]
    refine ⟨?_, ?_⟩
    · intro res runs
      exact ⟨fuel, p, le_refl _, fun ne => absurd rfl ne, here, rfl, rfl, runs, id⟩
    · intro he hf
      rw [here] at he
      exact ⟨fuel, p, here, rfl, rfl, he, rfl⟩
  | cons b bytes ih =>
    have peeked : p.peek = some b := by rw [peek, here]; rfl
    have isPlain := plain b (by simp)
    have advanced : p.advance.rest = bytes ++ rest := by rw [advance_rest, here]; rfl
    have shift : buf ++ b :: bytes = (buf ++ [b]) ++ bytes := by simp
    have hl := fun b' mem => plain b' (mem_cons_of_mem b mem)
    rw [shift]
    refine ⟨?_, ?_⟩
    · intro res runs
      cases fuel with
      | zero => simp [stringLoop] at runs
      | succ fuel =>
        rw [stringLoop_push peeked isPlain] at runs
        split at runs
        · simp at runs
        · rename_i hf
          obtain ⟨fuel', q, le, -, isRest, d, flag, goesOn, bounded⟩ := (ih hl advanced).1 res runs
          exact ⟨fuel', q, by omega, fun _ => by omega, isRest, d.trans (advance_depth p),
            flag.trans (advance_flag p), goesOn, fun _ => bounded (not_lt.mp hf)⟩
    · intro he hf
      cases fuel with
      | zero => exact absurd he (not_lt_zero _)
      | succ fuel =>
        have shorter : p.advance.rest.length < fuel := by
          rw [here, cons_append, length_cons] at he
          rw [advanced]
          omega
        obtain ⟨fuel', q, isRest, d, flag, left, goesOn⟩ := (ih hl advanced).2 shorter hf
        refine ⟨fuel', q, isRest, d.trans (advance_depth p), flag.trans (advance_flag p), left, ?_⟩
        rw [stringLoop_push peeked isPlain, if_neg, goesOn]
        rw [length_append] at hf
        omega

theorem plain_encodeChar (printable : 0x20 ≤ c.toNat) (notQuote : c ≠ '"') (notBackslash : c ≠ '\\') :
    ∀ b ∈ String.utf8EncodeChar c, Plain b := by
  intro b mem
  rcases lt_or_ge c.toNat 0x80 with low | high
  · rw [encodeChar_ascii low, mem_singleton] at mem
    have isChar := ofNat_toNat mem.symm low
    have v : b.toNat = c.toNat := by
      rw [mem, UInt8.toNat_ofNat']
      omega
    refine ⟨?_, ?_, ?_⟩
    · rintro rfl
      exact notQuote isChar
    · rintro rfl
      exact notBackslash isChar
    · rw [UInt8.le_iff_toNat_le, v]
      exact printable
  · have isHigh := encodeChar_high high b mem
    refine ⟨?_, ?_, UInt8.le_trans (by decide) isHigh⟩
    · rintro rfl
      exact absurd isHigh (by decide)
    · rintro rfl
      exact absurd isHigh (by decide)

theorem of_peek_plain (here : p.rest = encode text) (peeked : p.peek = some b) (plain : Plain b) :
    ∃ c hl, text = c :: hl ∧ 0x20 ≤ c.toNat ∧ c ≠ '"' ∧ c ≠ '\\' := by
  rcases UInt8.lt_or_le b 0x80 with low | high
  · obtain ⟨hl, isText, -⟩ := of_peek here low peeked
    have small : b.toNat < 0x80 := low
    have num : (Char.ofNat b.toNat).toNat = b.toNat := toNat_ofNat (.inl (by omega))
    have isByte : b = (Char.ofNat b.toNat).toNat.toUInt8 := by simp [num]
    refine ⟨_, hl, isText, ?_, ?_, ?_⟩
    · rw [num]
      exact plain.2.2
    · intro isQuote
      rw [isQuote] at isByte
      exact plain.1 isByte
    · intro isBackslash
      rw [isBackslash] at isByte
      exact plain.2.1 isByte
  · rw [peek, List.head?_eq_some_iff] at peeked
    obtain ⟨rest, bytes⟩ := peeked
    obtain ⟨c, hl, others, isText, isHigh, -, -⟩ := encode_head_high high (here.symm.trans bytes)
    refine ⟨c, hl, isText, by omega, ?_, ?_⟩
    · rintro rfl
      exact absurd isHigh (by decide)
    · rintro rfl
      exact absurd isHigh (by decide)

theorem stringLoop_ok (fuel : Nat) (here : p.rest = encode text)
    (runs : stringLoop fuel buf p = .ok (out, p')) :
    ∃ chars rest, StringBody text chars rest ∧ out = buf ++ encode chars ∧
      (buf.length ≤ maxJsonStringBytes → out.length ≤ maxJsonStringBytes) ∧ Moved p rest p' := by
  induction fuel using Nat.strong_induction_on generalizing buf p text with
  | _ fuel ih =>
    cases fuel with
    | zero => simp [stringLoop] at runs
    | succ fuel =>
      have unfolded := runs
      rw [stringLoop] at runs
      split at runs
      · simp at runs
      rename_i b peeked
      split at runs
      · rename_i isQuote
        rw [isQuote] at peeked
        obtain ⟨rest, isText, moved⟩ := of_peek here (by decide) peeked
        cases runs
        rw [isText]
        exact ⟨[], rest, .close rest, by simp, id, moved⟩
      rename_i notQuote
      by_cases isBackslash : b = 0x5C
      · rw [isBackslash] at peeked
        obtain ⟨afterSlash, isText, moved⟩ := of_peek here (by decide) peeked
        simp only [if_pos isBackslash, bind, Except.bind] at runs
        split at runs
        · simp at runs
        rename_i escapedText isEscapedText
        obtain ⟨buf', q⟩ := escapedText
        obtain ⟨c, hl, isEscape, isBuf, movedEscape⟩ := parseEscape_ok moved.rest isEscapedText
        simp only at runs
        split at runs
        · simp at runs
        rename_i hf
        obtain ⟨chars, rest, body, isOut, bounded, movedRest⟩ :=
          ih fuel (lt_succ_self _) movedEscape.rest runs
        rw [isText]
        refine ⟨c :: chars, rest, .escape isEscape body, ?_, fun _ => bounded (not_lt.mp hf),
          (moved.trans movedEscape).trans movedRest⟩
        rw [isOut, isBuf, append_assoc, ← encode_append]
        rfl
      · by_cases isControl : b < 0x20
        · simp only [if_neg isBackslash, if_pos isControl, bind, Except.bind] at runs
          simp at runs
        · have plain : Plain b := ⟨notQuote, isBackslash, UInt8.not_lt.mp isControl⟩
          obtain ⟨c, hl, isText, printable, cNotQuote, cNotBackslash⟩ := of_peek_plain here peeked plain
          rw [isText, encode_cons] at here
          obtain ⟨fuel', q, -, lt, isRest, d, flag, goesOn, bounded⟩ :=
            (stringLoop_plain _ (plain_encodeChar printable cNotQuote cNotBackslash) here).1 _ unfolded
          obtain ⟨chars, rest, body, isOut, boundedRest, movedRest⟩ :=
            ih fuel' (lt String.utf8EncodeChar_ne_nil) isRest goesOn
          rw [isText]
          refine ⟨c :: chars, rest, .unescaped printable cNotQuote cNotBackslash body, ?_,
            fun hf => boundedRest (bounded hf), movedRest.rest, movedRest.depth.trans d,
            movedRest.flag.trans flag⟩
          rw [isOut, append_assoc]
          rfl

theorem hex4_suffix (hex : Hex4 text n rest) : rest <:+ text := by
  cases hex with
  | @mk c₁ c₂ c₃ c₄ => exact suffix_append [c₁, c₂, c₃, c₄] rest

theorem escape_suffix (isEscape : Escape text c rest) : rest <:+ text := by
  cases isEscape with
  | letter rest _ => exact suffix_cons _ _
  | unicode isUnit _ => exact (hex4_suffix isUnit).trans (suffix_cons _ _)
  | @pair _ _ hex hex' _ isHigh _ _ isLow _ _ =>
    have inner : rest <:+ '\\' :: 'u' :: hex' := (hex4_suffix isLow).trans (suffix_append ['\\', 'u'] hex')
    exact (inner.trans (hex4_suffix isHigh)).trans (suffix_cons _ _)

theorem stringLoop_complete {chars : List Char} (body : StringBody text chars rest)
    (here : p.rest = encode text) (he : p.rest.length < fuel)
    (hf : (buf ++ encode chars).length ≤ maxJsonStringBytes) :
    ∃ p', stringLoop fuel buf p = .ok (buf ++ encode chars, p') ∧ Moved p rest p' := by
  induction body generalizing fuel buf p with
  | close rest =>
    cases fuel with
    | zero => exact absurd he (not_lt_zero _)
    | succ fuel =>
      have peeked : p.peek = some 0x22 := peek_eq here (by decide)
      refine ⟨p.advance, ?_, .advance here (by decide)⟩
      rw [stringLoop, peeked]
      simp
  | @unescaped c text chars rest printable notQuote notBackslash body ih =>
    have bytes : p.rest = String.utf8EncodeChar c ++ encode text := by rw [here, encode_cons]
    have shift : buf ++ encode (c :: chars) = (buf ++ String.utf8EncodeChar c) ++ encode chars := by
      rw [encode_cons, append_assoc]
    rw [shift] at hf ⊢
    have partFits : (buf ++ String.utf8EncodeChar c).length ≤ maxJsonStringBytes := by
      rw [length_append] at hf
      omega
    obtain ⟨fuel', q, isRest, d, flag, left, goesOn⟩ :=
      (stringLoop_plain _ (plain_encodeChar printable notQuote notBackslash) bytes).2 he partFits
    rw [← isRest] at left
    obtain ⟨p', runs, moved⟩ := ih isRest left hf
    exact ⟨p', goesOn.trans runs, moved.rest, moved.depth.trans d, moved.flag.trans flag⟩
  | @escape c text text' chars rest isEscape body ih =>
    cases fuel with
    | zero => exact absurd he (not_lt_zero _)
    | succ fuel =>
      have peeked : p.peek = some 0x5C := peek_eq here (by decide)
      have moved := Moved.advance here (by decide)
      obtain ⟨q, escapes, movedEscape⟩ := parseEscape_complete isEscape moved.rest buf
      have shift : buf ++ encode (c :: chars) = (buf ++ encode [c]) ++ encode chars := by
        rw [append_assoc, ← encode_append]
        rfl
      rw [shift] at hf ⊢
      have shorter : q.rest.length < fuel := by
        have lt := encode_length_le (escape_suffix isEscape)
        have pos := length_pos_of_ne_nil (String.utf8EncodeChar_ne_nil (c := '\\'))
        rw [here, encode_cons, length_append] at he
        rw [movedEscape.rest]
        omega
      obtain ⟨p', runs, movedRest⟩ := ih movedEscape.rest shorter hf
      refine ⟨p', ?_, (moved.trans movedEscape).trans movedRest⟩
      rw [stringLoop, peeked]
      simp only [bind, Except.bind]
      rw [if_neg (by decide)]
      simp only [if_true, escapes]
      rw [if_neg, runs]
      rw [length_append] at hf
      omega

theorem parseStringRaw_ok {s : Text} (here : p.rest = encode text) (runs : p.parseStringRaw = .ok (s, p')) :
    ∃ rest, StringText text s rest ∧ Moved p rest p' := by
  unfold parseStringRaw at runs
  simp only [bind, Except.bind] at runs
  split at runs
  · simp at runs
  rename_i q isQuote
  obtain ⟨peeked, isNext⟩ := expectByte_ok isQuote
  obtain ⟨body, isText, moved⟩ := of_peek here (by decide) peeked
  rw [isNext] at runs
  obtain ⟨chars, rest, isBody, isOut, bounded, movedRest⟩ := stringLoop_ok _ moved.rest runs
  rw [nil_append] at isOut
  rw [isText, isOut]
  rw [isOut] at bounded
  exact ⟨rest, .mk isBody (bounded (zero_le _)), moved.trans movedRest⟩

theorem parseStringRaw_complete {s : Text} (isString : StringText text s rest) (here : p.rest = encode text) :
    ∃ p', p.parseStringRaw = .ok (s, p') ∧ Moved p rest p' := by
  cases isString with
  | mk isBody hf =>
    have peeked : p.peek = some 0x22 := peek_eq here (by decide)
    have moved := Moved.advance here (by decide)
    rw [← nil_append (encode _)] at hf
    obtain ⟨p', runs, movedRest⟩ := stringLoop_complete isBody moved.rest (lt_succ_self _) hf
    refine ⟨p', ?_, moved.trans movedRest⟩
    rw [parseStringRaw, expectByte_of_peek peeked]
    exact runs

end Strings

end Parser

end Json
