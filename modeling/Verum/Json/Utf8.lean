import Mathlib.Data.List.Basic
import Mathlib.Data.Nat.Bitwise

namespace Utf8

def encode (chars : List Char) : List UInt8 := chars.flatMap String.utf8EncodeChar

@[simp] theorem encode_nil : encode [] = [] := rfl

theorem encode_cons (c : Char) (chars : List Char) : encode (c :: chars) = String.utf8EncodeChar c ++ encode chars :=
  rfl

@[simp] theorem encode_append (fst snd : List Char) : encode (fst ++ snd) = encode fst ++ encode snd :=
  List.flatMap_append

variable {c : Char} {chars text : List Char} {b : UInt8} {rest : List UInt8}

theorem encodeChar_ascii (low : c.toNat < 0x80) : String.utf8EncodeChar c = [c.toNat.toUInt8] := by
  unfold String.utf8EncodeChar
  have isLow : c.val.toNat ≤ 0x7f := Nat.le_of_lt_succ low
  simp only [isLow, if_true]
  rfl

theorem mark_le (n : Nat) {bits mark : Nat} (pos : 0 < bits) (isMark : 0x80 ≤ mark) (hf : bits + mark ≤ 0x100) :
    0x80 ≤ UInt8.ofNat (n % bits + mark) := by
  rw [UInt8.le_iff_toNat_le, UInt8.toNat_ofNat']
  have small := Nat.mod_lt n pos
  have v : (0x80 : UInt8).toNat = 128 := rfl
  omega

theorem encodeChar_high (high : 0x80 ≤ c.toNat) : ∀ b ∈ String.utf8EncodeChar c, 0x80 ≤ b := by
  have notLow : ¬ c.val.toNat ≤ 0x7f := Nat.not_le.mpr high
  unfold String.utf8EncodeChar
  simp only [notLow, if_false]
  intro b mem
  split_ifs at mem <;> simp only [List.mem_cons, List.not_mem_nil, or_false] at mem
  · rcases mem with rfl | rfl <;> exact mark_le _ (by decide) (by decide) (by decide)
  · rcases mem with rfl | rfl | rfl <;> exact mark_le _ (by decide) (by decide) (by decide)
  · rcases mem with rfl | rfl | rfl | rfl <;> exact mark_le _ (by decide) (by decide) (by decide)

theorem encode_eq_nil : encode chars = [] ↔ chars = [] := by
  cases chars with
  | nil => simp
  | cons c chars => simp [encode_cons, String.utf8EncodeChar_ne_nil]

theorem encode_length_le {rest : List Char} (suffix : rest <:+ text) :
    (encode rest).length ≤ (encode text).length := by
  obtain ⟨front, rfl⟩ := suffix
  rw [encode_append, List.length_append]
  exact Nat.le_add_left _ _

theorem toNat_ofNat {n : Nat} (valid : n.isValidChar) : (Char.ofNat n).toNat = n := by
  rw [Char.ofNat, dif_pos valid]
  rfl

theorem ofNat_toNat (eq : c.toNat.toUInt8 = b) (low : c.toNat < 0x80) : c = Char.ofNat b.toNat := by
  have v : b.toNat = c.toNat := by
    rw [← eq, UInt8.toNat_ofNat']
    omega
  rw [v, Char.ofNat_toNat]

theorem encode_head (low : b < 0x80) (head : encode chars = b :: rest) :
    ∃ hl, chars = Char.ofNat b.toNat :: hl ∧ rest = encode hl := by
  cases chars with
  | nil => simp at head
  | cons c hl =>
    rw [encode_cons] at head
    rcases Nat.lt_or_ge c.toNat 0x80 with isLow | isHigh
    · rw [encodeChar_ascii isLow, List.singleton_append, List.cons.injEq] at head
      exact ⟨hl, by rw [← ofNat_toNat head.1 isLow], head.2.symm⟩
    · obtain ⟨fst, others, bytes⟩ := List.exists_cons_of_ne_nil (String.utf8EncodeChar_ne_nil (c := c))
      rw [bytes, List.cons_append, List.cons.injEq] at head
      have isHighByte := encodeChar_high isHigh fst (by simp [bytes])
      rw [head.1] at isHighByte
      exact absurd low (UInt8.not_lt.mpr isHighByte)

theorem of_encode_prefix {word : List Char} (ascii : ∀ c ∈ word, c.toNat < 0x80)
    (isPrefix : encode word <+: encode text) : ∃ rest, text = word ++ rest := by
  induction word generalizing text with
  | nil => exact ⟨text, rfl⟩
  | cons c word ih =>
    have low := ascii c (by simp)
    obtain ⟨hl, bytes⟩ := isPrefix
    rw [encode_cons, encodeChar_ascii low, List.append_assoc, List.singleton_append] at bytes
    have small : c.toNat.toUInt8 < 0x80 := by
      rw [UInt8.lt_iff_toNat_lt, UInt8.toNat_ofNat']
      exact Nat.lt_of_le_of_lt (Nat.mod_le _ _) low
    obtain ⟨text', isText, isLater⟩ := encode_head small bytes.symm
    rw [← ofNat_toNat rfl low] at isText
    obtain ⟨rest, isText'⟩ := ih (fun d mem => ascii d (List.mem_cons_of_mem c mem)) ⟨hl, isLater⟩
    exact ⟨rest, by rw [isText, isText', List.cons_append]⟩

theorem encode_head_high (high : 0x80 ≤ b) (head : encode chars = b :: rest) :
    ∃ c hl others, chars = c :: hl ∧ 0x80 ≤ c.toNat ∧ String.utf8EncodeChar c = b :: others ∧
      rest = others ++ encode hl := by
  cases chars with
  | nil => simp at head
  | cons c hl =>
    rw [encode_cons] at head
    rcases Nat.lt_or_ge c.toNat 0x80 with isLow | isHigh
    · rw [encodeChar_ascii isLow, List.singleton_append, List.cons.injEq] at head
      rw [← head.1, UInt8.le_iff_toNat_le, UInt8.toNat_ofNat'] at high
      have v : (0x80 : UInt8).toNat = 128 := rfl
      omega
    · obtain ⟨fst, others, bytes⟩ := List.exists_cons_of_ne_nil (String.utf8EncodeChar_ne_nil (c := c))
      rw [bytes, List.cons_append, List.cons.injEq] at head
      exact ⟨c, hl, others, rfl, isHigh, by rw [bytes, head.1], head.2.symm⟩

theorem encodeChar_ofNat {n : Nat} (valid : n.isValidChar) : String.utf8EncodeChar (Char.ofNat n) =
    if n < 0x80 then [n.toUInt8]
    else if n < 0x800 then [(n / 64 % 0x20 + 0xC0).toUInt8, (n % 0x40 + 0x80).toUInt8]
    else if n < 0x10000 then
      [(n / 4096 % 0x10 + 0xE0).toUInt8, (n / 64 % 0x40 + 0x80).toUInt8, (n % 0x40 + 0x80).toUInt8]
    else [(n / 262144 % 0x08 + 0xF0).toUInt8, (n / 4096 % 0x40 + 0x80).toUInt8,
      (n / 64 % 0x40 + 0x80).toUInt8, (n % 0x40 + 0x80).toUInt8] := by
  have num : (Char.ofNat n).val.toNat = n := toNat_ofNat valid
  unfold String.utf8EncodeChar
  simp only [num, Nat.lt_succ_iff.symm]

theorem mark_or (n k low : Nat) (small : low < 2 ^ k) : 2 ^ k * n ||| low = low + 2 ^ k * n := by
  rw [← Nat.two_pow_add_eq_or_of_lt small, Nat.add_comm]

end Utf8
