import Verum.Json.Utf16
import Verum.Json.IntegerTexts

open Utf8

open List

namespace Json

open Grammar

namespace Jcs

section Escapes

def escapeChar (c : Char) : List Char :=
  if c = '"' then ['\\', '"']
  else if c = '\\' then ['\\', '\\']
  else if c = '\x08' then ['\\', 'b']
  else if c = '\t' then ['\\', 't']
  else if c = '\n' then ['\\', 'n']
  else if c = '\x0C' then ['\\', 'f']
  else if c = '\r' then ['\\', 'r']
  else if c.toNat < 0x20 then ['\\', 'u', '0', '0', Nat.digitChar (c.toNat / 16), Nat.digitChar (c.toNat % 16)]
  else [c]

theorem escapeByte_ascii (n : Nat) (low : n < 0x80) :
    escapeByte n.toUInt8 = encode (escapeChar (Char.ofNat n)) := by
  revert n
  decide +kernel

theorem escapeByte_high (b : UInt8) (high : 0x80 ≤ b) : escapeByte b = [b] := by
  have other {c : UInt8} (low : c < 0x80) : ¬ b = c := by
    rintro rfl
    exact absurd high (UInt8.not_le.mpr low)
  unfold escapeByte
  rw [if_neg (other (by decide)), if_neg (other (by decide)), if_neg (other (by decide)), if_neg (other (by decide)),
    if_neg (other (by decide)), if_neg (other (by decide)), if_neg (other (by decide)), if_neg]
  exact UInt8.not_lt.mpr (UInt8.le_trans (by decide) high)

theorem escape_char (c : Char) : (String.utf8EncodeChar c).flatMap escapeByte = encode (escapeChar c) := by
  rcases Nat.lt_or_ge c.toNat 0x80 with low | high
  · have ascii := escapeByte_ascii c.toNat low
    rw [Char.ofNat_toNat] at ascii
    rw [encodeChar_ascii low, flatMap_singleton, ascii]
  · have other {d : Char} (small : d.toNat < 0x80) : ¬ c = d := by
      rintro rfl
      exact absurd high (Nat.not_le.mpr small)
    have isSame : escapeChar c = [c] := by
      unfold escapeChar
      rw [if_neg (other (by decide)), if_neg (other (by decide)), if_neg (other (by decide)),
        if_neg (other (by decide)), if_neg (other (by decide)), if_neg (other (by decide)),
        if_neg (other (by decide)), if_neg (by omega)]
    rw [isSame, encode_cons, encode_nil, append_nil]
    have hk : ∀ b ∈ String.utf8EncodeChar c, escapeByte b = [b] :=
      fun b mem => escapeByte_high b (encodeChar_high high b mem)
    rw [flatMap_congr hk, flatMap_singleton']

theorem emitString_encode (chars : List Char) :
    emitString (encode chars) = encode ('"' :: (chars.flatMap escapeChar ++ ['"'])) := by
  have inner : (encode chars).flatMap escapeByte = encode (chars.flatMap escapeChar) := by
    induction chars with
    | nil => rfl
    | cons c chars ih =>
      rw [encode_cons, flatMap_append, escape_char, ih, flatMap_cons, encode_append]
  rw [emitString, inner, encode_cons, encode_append, encodeChar_ascii (by decide)]
  rfl

theorem hexValue_digitChar (d : Nat) (small : d < 16) : hexValue (Nat.digitChar d) = some d := by
  revert d
  decide

theorem stringBody_escapeChar {c : Char} {text chars rest : List Char} (body : StringBody text chars rest) :
    StringBody (escapeChar c ++ text) (c :: chars) rest := by
  have letter {d e : Char} (isChar : c = e) (isLetter : escaped d = some e) :
      StringBody (['\\', d] ++ text) (c :: chars) rest := by
    rw [isChar]
    exact .escape (.letter text isLetter) body
  unfold escapeChar
  split
  · rename_i isChar
    exact letter isChar rfl
  rename_i notQuote
  split
  · rename_i isChar
    exact letter isChar rfl
  rename_i notBackslash
  split
  · rename_i isChar
    exact letter isChar rfl
  split
  · rename_i isChar
    exact letter isChar rfl
  split
  · rename_i isChar
    exact letter isChar rfl
  split
  · rename_i isChar
    exact letter isChar rfl
  split
  · rename_i isChar
    exact letter isChar rfl
  split
  · rename_i control
    have hex : Hex4 ('0' :: '0' :: Nat.digitChar (c.toNat / 16) :: Nat.digitChar (c.toNat % 16) :: text)
        (((0 * 16 + 0) * 16 + c.toNat / 16) * 16 + c.toNat % 16) text :=
      .mk rfl rfl (hexValue_digitChar _ (by omega)) (hexValue_digitChar _ (by omega))
    have unit : ((0 * 16 + 0) * 16 + c.toNat / 16) * 16 + c.toNat % 16 = c.toNat := by omega
    rw [unit] at hex
    have escape := Escape.unicode hex (by omega)
    rw [Char.ofNat_toNat] at escape
    exact .escape escape body
  · rename_i printable
    exact .unescaped (Nat.not_lt.mp printable) notQuote notBackslash body

theorem stringBody_escaped (chars rest : List Char) :
    StringBody (chars.flatMap escapeChar ++ '"' :: rest) chars rest := by
  induction chars with
  | nil => exact .close rest
  | cons c chars ih =>
    rw [flatMap_cons, append_assoc]
    exact stringBody_escapeChar ih

end Escapes

section Utf16

theorem lead_two (n : Nat) (small : n < 0x20) :
    (n + 0xC0).toUInt8 &&& 0xE0 = 0xC0 ∧ ((n + 0xC0).toUInt8 &&& 0x1F).toNat = n ∧ ¬ (n + 0xC0).toUInt8 < 0x80 := by
  revert n
  decide

theorem lead_three (n : Nat) (small : n < 0x10) :
    ¬ (n + 0xE0).toUInt8 &&& 0xE0 = 0xC0 ∧ (n + 0xE0).toUInt8 &&& 0xF0 = 0xE0 ∧
      ((n + 0xE0).toUInt8 &&& 0x0F).toNat = n ∧ ¬ (n + 0xE0).toUInt8 < 0x80 := by
  revert n
  decide

theorem lead_four (n : Nat) (small : n < 0x08) :
    ¬ (n + 0xF0).toUInt8 &&& 0xE0 = 0xC0 ∧ ¬ (n + 0xF0).toUInt8 &&& 0xF0 = 0xE0 ∧
      (n + 0xF0).toUInt8 &&& 0xF8 = 0xF0 ∧ ((n + 0xF0).toUInt8 &&& 0x07).toNat = n ∧
      ¬ (n + 0xF0).toUInt8 < 0x80 := by
  revert n
  decide

theorem tail_bits (n : Nat) (small : n < 0x40) : ((n + 0x80).toUInt8 &&& 0x3F).toNat = n := by
  revert n
  decide

theorem shift_or (high low k : Nat) (small : low < 2 ^ k) : (high <<< k) ||| low = high * 2 ^ k + low := by
  rw [Nat.shiftLeft_eq, Nat.mul_comm, mark_or high k low small, Nat.add_comm]

theorem nextCodePoint_encode (c : Char) (rest : List UInt8) :
    ∃ lead others, String.utf8EncodeChar c ++ rest = lead :: others ∧ nextCodePoint lead others = (c.toNat, rest) := by
  have valid : c.toNat.isValidChar := c.valid
  have bytes := encodeChar_ofNat valid
  have hb : c.toNat < 0x110000 := by
    rcases Utf16.not_surrogate c with low | ⟨-, high⟩ <;> omega
  rw [Char.ofNat_toNat] at bytes
  generalize c.toNat = n at bytes hb
  rw [bytes]
  split
  · rename_i ascii
    refine ⟨n.toUInt8, rest, rfl, ?_⟩
    have value : n.toUInt8.toNat = n := by
      rw [UInt8.toNat_ofNat']
      omega
    have low : n.toUInt8 < 0x80 := by
      rw [UInt8.lt_iff_toNat_lt, value]
      exact ascii
    rw [nextCodePoint, if_pos low, value]
  split
  · rename_i two
    obtain ⟨mark, bits, high⟩ := lead_two (n / 64 % 0x20) (Nat.mod_lt _ (by decide))
    refine ⟨_, (n % 0x40 + 0x80).toUInt8 :: rest, rfl, ?_⟩
    rw [nextCodePoint, if_neg high, if_pos ⟨mark, by simp⟩, bits]
    simp only [getD_cons_zero, drop_succ_cons, drop_zero]
    rw [tail_bits _ (Nat.mod_lt _ (by decide)), shift_or _ _ 6 (by omega)]
    exact Prod.ext (by simp only; omega) rfl
  split
  · rename_i three
    obtain ⟨notTwo, mark, bits, high⟩ := lead_three (n / 4096 % 0x10) (Nat.mod_lt _ (by decide))
    refine ⟨_, (n / 64 % 0x40 + 0x80).toUInt8 :: (n % 0x40 + 0x80).toUInt8 :: rest, rfl, ?_⟩
    rw [nextCodePoint, if_neg high, if_neg (fun two => notTwo two.1), if_pos ⟨mark, by simp⟩, bits]
    simp only [getD_cons_zero, getD_cons_succ, drop_succ_cons,
      drop_zero]
    rw [tail_bits _ (Nat.mod_lt _ (by decide)), tail_bits _ (Nat.mod_lt _ (by decide)), Nat.or_assoc,
      shift_or _ _ 6 (by omega), shift_or _ _ 12 (by omega)]
    exact Prod.ext (by simp only; omega) rfl
  · rename_i four
    obtain ⟨notTwo, notThree, mark, bits, high⟩ := lead_four (n / 262144 % 0x08) (Nat.mod_lt _ (by decide))
    refine ⟨_, (n / 4096 % 0x40 + 0x80).toUInt8 :: (n / 64 % 0x40 + 0x80).toUInt8 :: (n % 0x40 + 0x80).toUInt8 :: rest,
      rfl, ?_⟩
    rw [nextCodePoint, if_neg high, if_neg (fun two => notTwo two.1), if_neg (fun three => notThree three.1),
      if_pos ⟨mark, by simp⟩, bits]
    simp only [getD_cons_zero, getD_cons_succ, drop_succ_cons,
      drop_zero]
    rw [tail_bits _ (Nat.mod_lt _ (by decide)), tail_bits _ (Nat.mod_lt _ (by decide)),
      tail_bits _ (Nat.mod_lt _ (by decide)), Nat.or_assoc, Nat.or_assoc,
      shift_or _ _ 6 (by omega), shift_or _ _ 12 (by omega), shift_or _ _ 18 (by omega)]
    exact Prod.ext (by simp only; omega) rfl

theorem codeUnits_char (c : Char) : codeUnits c.toNat = Utf16.encodeChar c := by
  have hb := Utf16.not_surrogate c
  unfold codeUnits Utf16.encodeChar
  split
  · rfl
  · generalize c.toNat = n at hb
    have shifted : (n - 0x10000) >>> 10 = (n - 0x10000) / 0x400 := Nat.shiftRight_eq_div_pow _ 10
    have masked : (n - 0x10000) &&& 0x3FF = (n - 0x10000) % 0x400 := Nat.and_two_pow_sub_one_eq_mod _ 10
    have high : 0xD800 ||| ((n - 0x10000) / 0x400) = 0xD800 + (n - 0x10000) / 0x400 :=
      (mark_or 0x36 10 ((n - 0x10000) / 0x400) (by omega)).trans (Nat.add_comm _ _)
    have low : 0xDC00 ||| ((n - 0x10000) % 0x400) = 0xDC00 + (n - 0x10000) % 0x400 :=
      (mark_or 0x37 10 ((n - 0x10000) % 0x400) (Nat.mod_lt _ (by decide))).trans (Nat.add_comm _ _)
    rw [shifted, masked, high, low]

theorem utf8ToUtf16_encode (chars : List Char) : utf8ToUtf16 (encode chars) = Utf16.encode chars := by
  induction chars with
  | nil =>
    rw [encode_nil, utf8ToUtf16]
    rfl
  | cons c chars ih =>
    obtain ⟨lead, others, bytes, next⟩ := nextCodePoint_encode c (encode chars)
    rw [encode_cons, bytes, utf8ToUtf16, next, codeUnits_char, ih, Utf16.encode_cons]

theorem utf16Lt_iff (a b : List Nat) : utf16Lt a b = true ↔ a < b := by
  induction a generalizing b with
  | nil =>
    cases b with
    | nil | cons b bs => simp [utf16Lt]
  | cons a as ih =>
    cases b with
    | nil => simp [utf16Lt]
    | cons b bs =>
      rw [utf16Lt, cons_lt_cons_iff]
      split
      · rename_i lt
        simp [lt]
      · split
        · rename_i notLess greater
          have different : ¬ a = b := by omega
          simp [notLess, different]
        · rename_i notLess notGreater
          have eq : a = b := by omega
          rw [ih]
          simp [eq]

end Utf16

end Jcs

end Json
