import Mathlib.Data.List.Basic

namespace Utf16

def encodeChar (c : Char) : List Nat :=
  if c.toNat < 0x10000 then [c.toNat]
  else [0xD800 + (c.toNat - 0x10000) / 0x400, 0xDC00 + (c.toNat - 0x10000) % 0x400]

def encode (chars : List Char) : List Nat := chars.flatMap encodeChar

@[simp] theorem encode_nil : encode [] = [] := rfl

theorem encode_cons (c : Char) (chars : List Char) : encode (c :: chars) = encodeChar c ++ encode chars :=
  List.flatMap_cons

theorem not_surrogate (c : Char) : c.toNat < 0xD800 ∨ 0xDFFF < c.toNat ∧ c.toNat < 0x110000 := c.valid

theorem encodeChar_ne_nil (c : Char) : encodeChar c ≠ [] := by
  unfold encodeChar
  split <;> simp

theorem encodeChar_prefix {c d : Char} {others others' : List Nat}
    (eq : encodeChar c ++ others = encodeChar d ++ others') : c = d ∧ others = others' := by
  have noSurrogate := not_surrogate c
  have noSurrogate' := not_surrogate d
  unfold encodeChar at eq
  split at eq <;> split at eq <;>
    simp only [List.cons_append, List.nil_append, List.cons.injEq] at eq
  · exact ⟨Char.toNat_inj.mp eq.1, eq.2⟩
  · omega
  · omega
  · obtain ⟨high, low, rest⟩ := eq
    exact ⟨Char.toNat_inj.mp (by omega), rest⟩

theorem encode_injective : Function.Injective encode := by
  intro chars
  induction chars with
  | nil =>
    intro others eq
    cases others with
    | nil => rfl
    | cons d others =>
      rw [encode_nil, encode_cons] at eq
      exact absurd (List.append_eq_nil_iff.mp eq.symm).1 (encodeChar_ne_nil d)
  | cons c chars ih =>
    intro others eq
    cases others with
    | nil =>
      rw [encode_nil, encode_cons] at eq
      exact absurd (List.append_eq_nil_iff.mp eq).1 (encodeChar_ne_nil c)
    | cons d others =>
      rw [encode_cons, encode_cons] at eq
      obtain ⟨isChar, isRest⟩ := encodeChar_prefix eq
      rw [isChar, ih isRest]

end Utf16
