import Verum.Wire.Decoder
import Mathlib.Data.Nat.Bitwise

namespace Vbc

open Nat

open BitVec

open Wire

/-- The decoding errors of the bytecode readers. -/
inductive VbcError where
  | unexpectedEof (offset expected : Nat)
  | varIntOverflow (offset : Nat)
  | invalidTypeRef (offset : UInt32) (discriminant : UInt8)
  | tableTooLarge (field : String) (count max : UInt32)
  | invalidOpcode (opcode : UInt8)
  | invalidInstructionEncoding (offset : Nat) (reason : String)
  | deserialization (message : String)
  deriving DecidableEq

abbrev Decode (α : Type) := Decoder VbcError α

abbrev Result (α : Type) := Outcome VbcError α

def eof (offset expected : Nat) : VbcError := .unexpectedEof offset expected

def usizeMax : Nat := 2 ^ 64 - 1

structure Reg where
  index : UInt16
  deriving DecidableEq

structure RegRange where
  start : Reg
  count : UInt8
  deriving DecidableEq

-- Nine shifts by seven bits exhaust a `u64`, so the loop pushes at most ten bytes.
def encodeVarintLoop : Nat → Nat → List UInt8
  | 0, v => [UInt8.ofNat v]
  | rounds + 1, v =>
    if 0x80 ≤ v then (UInt8.ofNat v ||| 0x80) :: encodeVarintLoop rounds (v >>> 7)
    else [UInt8.ofNat v]

/-- The value is a `u64`. -/
def encodeVarint (value : Nat) : List UInt8 := encodeVarintLoop 9 value

def decodeU8 : Decode UInt8 := do
  let offset ← position
  let len ← dataLen
  if len ≤ offset then fail (eof offset 1) else do
    let byte ← index offset
    advance 1
    return byte

-- `rounds` is the number of bytes that still fit: `shift` runs through 0, 7, …, 63, and the check
-- `shift >= 64` after the tenth byte is the last equation.
def decodeVarintLoop (start : Nat) : Nat → Nat → Nat → Decode Nat
  | 0, _, _ => fail (.varIntOverflow start)
  | rounds + 1, shift, result => do
    let byte ← decodeU8
    if shift = 63 ∧ byte &&& 0x7E ≠ 0 then fail (.varIntOverflow start)
    else if byte &&& 0x80 = 0 then return result ||| ((byte &&& 0x7F).toNat <<< shift)
    else decodeVarintLoop start rounds (shift + 7) (result ||| ((byte &&& 0x7F).toNat <<< shift))

def decodeVarint : Decode Nat := do
  let start ← position
  decodeVarintLoop start 10 0 0

def zigzag (value : Int64) : UInt64 := ((value <<< 1) ^^^ (value >>> 63)).toUInt64

def unzigzag (zigzag : UInt64) : Int64 := (zigzag >>> 1).toInt64 ^^^ -(zigzag &&& 1).toInt64

def encodeSignedVarint (value : Int64) : List UInt8 := encodeVarint (zigzag value).toNat

def decodeSignedVarint : Decode Int64 := do
  let value ← decodeVarint
  return unzigzag (UInt64.ofNat value)

def toLeBytes : Nat → Nat → List UInt8
  | 0, _ => []
  | width + 1, value => UInt8.ofNat value :: toLeBytes width (value / 256)

def fromLeBytes : List UInt8 → Nat
  | [] => 0
  | byte :: rest => byte.toNat + 256 * fromLeBytes rest

def decodeFixed (width : Nat) : Decode (List UInt8) := fun data offset =>
  if offset + width ≤ data.length then
    (do advance width; return (data.bytes.drop offset).take width : Decode _) data offset
  else .err (eof offset width)

def encodeF64 (bits : UInt64) : List UInt8 := toLeBytes 8 bits.toNat

def decodeF64 : Decode UInt64 := do
  let bytes ← decodeFixed 8
  return UInt64.ofNat (fromLeBytes bytes)

def encodeF32 (bits : UInt32) : List UInt8 := toLeBytes 4 bits.toNat

def decodeF32 : Decode UInt32 := do
  let bytes ← decodeFixed 4
  return UInt32.ofNat (fromLeBytes bytes)

def encodeReg (reg : Reg) : List UInt8 :=
  if reg.index < 128 then [reg.index.toUInt8]
  else [(0x80 : UInt8) ||| (reg.index >>> 8).toUInt8, reg.index.toUInt8]

def decodeReg : Decode Reg := do
  let byte ← decodeU8
  if byte &&& 0x80 = 0 then return ⟨byte.toUInt16⟩
  else do
    let low ← decodeU8
    return ⟨(byte &&& 0x7F).toUInt16 <<< 8 ||| low.toUInt16⟩

def encodeRegRange (range : RegRange) : List UInt8 := encodeReg range.start ++ [range.count]

def decodeRegRange : Decode RegRange := do
  let start ← decodeReg
  let count ← decodeU8
  return ⟨start, count⟩

/-- Validates a length-prefixed payload against its enclosing slice. `usize::try_from` cannot fail
    on a 64-bit target. -/
def decodePayloadRange : Decode (Nat × Nat) := do
  let len ← decodeVarint
  let start ← position
  let size ← dataLen
  let available ← subUsize size start
  if available < len then fail (eof start len) else do
    let stop ← addUsize start len
    setPosition stop
    return (start, stop)

def decodeBytes : Decode Slice := do
  let range ← decodePayloadRange
  subslice range.1 range.2

def encodeBytes (bytes : List UInt8) : List UInt8 := encodeVarint bytes.length ++ bytes

def regSize (reg : Reg) : Nat := if reg.index < 128 then 1 else 2

theorem decodeU8_run (data : Slice) (offset : Nat) :
    decodeU8 data offset =
      match data.bytes[offset]? with
      | some byte => .ok byte (offset + 1)
      | none => .err (eof offset 1) := by
  by_cases inside : offset < data.length
  · have bound := data.length_lt
    have found : data.bytes[offset]? = some data.bytes[offset] := List.getElem?_eq_getElem inside
    have small : offset + 1 < 2 ^ 64 := by omega
    simp only [decodeU8, bind_run, position, dataLen, not_le.mpr inside, if_false, index, found,
      advance, small, if_true, pure_run]
  · have missing : data.bytes[offset]? = none := List.getElem?_eq_none (not_lt.mp inside)
    simp [decodeU8, bind_run, position, dataLen, not_lt.mp inside, fail, missing]

theorem reads_u8 (byte : UInt8) : Reads decodeU8 [byte] byte := by
  intro data off held
  rw [decodeU8_run, held.getElem?]
  rfl

theorem reads_tag (byte : UInt8) {α : Type} {next : UInt8 → Decode α} {rest : List UInt8} {v : α}
    (tail : Reads (next byte) rest v) : Reads (decodeU8 >>= next) (byte :: rest) v :=
  (reads_u8 byte).bind tail

theorem byte_bits : ∀ n : Nat, n < 256 →
    (UInt8.ofNat n ||| 0x80) &&& 0x80 ≠ 0 ∧ ((UInt8.ofNat n ||| 0x80) &&& 0x7F).toNat = n % 128 ∧
    (n < 128 → UInt8.ofNat n &&& 0x80 = 0 ∧ (UInt8.ofNat n &&& 0x7F).toNat = n) ∧
    (n < 2 → UInt8.ofNat n &&& 0x7E = 0) := by
  decide +kernel

theorem ofNat_byte (v : Nat) : UInt8.ofNat v = UInt8.ofNat (v % 256) := by
  apply UInt8.toNat_inj.mp
  simp

theorem continuation_byte (v : Nat) :
    (UInt8.ofNat v ||| 0x80) &&& 0x80 ≠ 0 ∧ ((UInt8.ofNat v ||| 0x80) &&& 0x7F).toNat = v % 128 := by
  have bits := byte_bits (v % 256) (mod_lt _ (by decide))
  rw [ofNat_byte]
  exact ⟨bits.1, by rw [bits.2.1]; omega⟩

theorem final_byte (v : Nat) (small : v < 128) :
    UInt8.ofNat v &&& 0x80 = 0 ∧ (UInt8.ofNat v &&& 0x7F).toNat = v :=
  (byte_bits v (by omega)).2.2.1 small

theorem or_shift (res v shift : Nat) (hlt : res < 2 ^ shift) :
    res ||| (v <<< shift) = res + v * 2 ^ shift := by
  rw [Nat.or_comm, Nat.shiftLeft_eq, Nat.mul_comm, ← Nat.two_pow_add_eq_or_of_lt hlt]
  omega

theorem reads_varint_loop (start : Nat) (rounds : Nat) :
    ∀ (v res : Nat), v < 2 ^ (7 * rounds + 1) → rounds ≤ 9 → res < 2 ^ (63 - 7 * rounds) →
      Reads (decodeVarintLoop start (rounds + 1) (63 - 7 * rounds) res) (encodeVarintLoop rounds v)
        (res + v * 2 ^ (63 - 7 * rounds)) := by
  induction rounds with
  | zero =>
    intro v res small _ hlt
    have bit : v < 2 := by simpa using small
    have last := final_byte v (by omega)
    have clear : UInt8.ofNat v &&& 0x7E = 0 := (byte_bits v (by omega)).2.2.2 bit
    apply Reads.bind_pure (reads_u8 _)
    simp only [clear, ne_eq, not_true_eq_false, and_false, if_false, last.1, if_true, last.2]
    exact Reads.pure_eq (or_shift res v _ hlt)
  | succ rounds ih =>
    intro v res small le hlt
    have notLast : 63 - 7 * (rounds + 1) ≠ 63 := by omega
    have shiftNext : 63 - 7 * (rounds + 1) + 7 = 63 - 7 * rounds := by omega
    have scale : 2 ^ (63 - 7 * rounds) = 2 ^ (63 - 7 * (rounds + 1)) * 128 := by
      rw [← shiftNext, Nat.pow_add]
    by_cases more : 0x80 ≤ v
    · have byte := continuation_byte v
      have quotient : v >>> 7 < 2 ^ (7 * rounds + 1) := by
        rw [shiftRight_eq_div_pow, div_lt_iff_lt_mul (by decide), ← Nat.pow_add]
        exact lt_of_lt_of_eq small (by congr 1)
      have sum := or_shift res (v % 128) _ hlt
      have next : res + v % 128 * 2 ^ (63 - 7 * (rounds + 1)) < 2 ^ (63 - 7 * rounds) := by
        have digit : v % 128 ≤ 127 := by omega
        have product := mul_le_mul_right (2 ^ (63 - 7 * (rounds + 1))) digit
        omega
      have tail := ih (v >>> 7) (res + v % 128 * 2 ^ (63 - 7 * (rounds + 1))) quotient (by omega) next
      rw [encodeVarintLoop, if_pos more]
      refine reads_tag _ ?_
      simp only [notLast, false_and, if_false, byte.1, byte.2, sum, shiftNext]
      convert tail using 1
      rw [shiftRight_eq_div_pow, scale]
      have split := div_add_mod v 128
      calc res + v * 2 ^ (63 - 7 * (rounds + 1))
          = res + (128 * (v / 128) + v % 128) * 2 ^ (63 - 7 * (rounds + 1)) := by rw [split]
        _ = _ := by ring
    · have last := final_byte v (by omega)
      rw [encodeVarintLoop, if_neg more]
      apply Reads.bind_pure (reads_u8 _)
      simp only [notLast, false_and, if_false, last.1, if_true, last.2]
      exact Reads.pure_eq (or_shift res v _ hlt)

theorem reads_varint (v : Nat) (small : v < 2 ^ 64) :
    Reads decodeVarint (encodeVarint v) v := by
  intro data off held
  have run := reads_varint_loop off 9 v 0 (by simpa using small) (by omega) (by decide) data off held
  simpa [decodeVarint, bind_run, position, encodeVarint] using run

theorem reads_u32 (v : UInt32) : Reads decodeVarint (encodeVarint v.toNat) v.toNat :=
  reads_varint _ (lt_trans v.toNat_lt (by decide))

theorem reads_u16 (v : UInt16) : Reads decodeVarint (encodeVarint v.toNat) v.toNat :=
  reads_varint _ (lt_trans v.toNat_lt (by decide))

theorem encodeVarint_length_pos (v : Nat) : 0 < (encodeVarint v).length := by
  unfold encodeVarint encodeVarintLoop
  split <;> simp

theorem sshiftRight_sign (bits : BitVec 64) :
    bits.sshiftRight 63 = if bits.msb then BitVec.allOnes 64 else 0#64 := by
  apply eq_of_getLsbD_eq
  intro i small
  rw [getLsbD_sshiftRight]
  by_cases zero : i = 0
  · subst zero
    cases top : bits.msb <;> simp_all [BitVec.msb, BitVec.getMsbD]
  · have outside : ¬ 63 + i < 64 := by omega
    cases top : bits.msb
    · simp [outside, small]
    · simp only [outside, if_false, if_true, getLsbD_allOnes]
      simp [small]

theorem unzigzag_bits (bits : BitVec 64) :
    (bits <<< 1 ^^^ bits.sshiftRight 63) >>> 1 ^^^ -((bits <<< 1 ^^^ bits.sshiftRight 63) &&& 1#64) = bits := by
  rw [sshiftRight_sign]
  cases top : bits.msb
  · have low : (bits <<< 1 ^^^ 0#64) &&& 1#64 = 0#64 := by
      apply eq_of_getLsbD_eq
      intro i small
      by_cases zero : i = 0 <;> simp [zero]
    simp only [Bool.false_eq_true, if_false, low]
    apply eq_of_getLsbD_eq
    intro i small
    by_cases last : i = 63
    · subst last
      simp_all [BitVec.msb, BitVec.getMsbD]
    · have next : 1 + i < 64 := by omega
      simp [small, next]
  · have low : (bits <<< 1 ^^^ BitVec.allOnes 64) &&& 1#64 = 1#64 := by
      apply eq_of_getLsbD_eq
      intro i small
      by_cases zero : i = 0
      · subst zero; simp
      · simp [zero]
    have neg : -(1#64) = BitVec.allOnes 64 := by decide
    simp only [if_true, low, neg]
    apply eq_of_getLsbD_eq
    intro i small
    by_cases last : i = 63
    · subst last
      simp_all [BitVec.msb, BitVec.getMsbD]
    · have next : 1 + i < 64 := by omega
      rw [getLsbD_xor, getLsbD_ushiftRight, getLsbD_xor]
      simp only [getLsbD_shiftLeft, getLsbD_allOnes]
      simp [small, next]

theorem unzigzag_zigzag (v : Int64) : unzigzag (zigzag v) = v := by
  apply Int64.toBitVec_inj.mp
  have eq := unzigzag_bits v.toBitVec
  simpa [unzigzag, zigzag] using eq

theorem reads_signed (v : Int64) :
    Reads decodeSignedVarint (encodeSignedVarint v) v := by
  apply Reads.bind_pure (reads_varint _ (zigzag v).toNat_lt)
  apply Reads.pure_eq
  rw [UInt64.ofNat_toNat, unzigzag_zigzag]

theorem toLeBytes_length (width v : Nat) : (toLeBytes width v).length = width := by
  induction width generalizing v with
  | zero => rfl
  | succ width ih => simp [toLeBytes, ih]

theorem fromLeBytes_toLeBytes (width v : Nat) (small : v < 256 ^ width) :
    fromLeBytes (toLeBytes width v) = v := by
  induction width generalizing v with
  | zero =>
    simp only [pow_zero] at small
    simp only [toLeBytes, fromLeBytes]
    omega
  | succ width ih =>
    have quotient : v / 256 < 256 ^ width := by
      rw [div_lt_iff_lt_mul (by decide), ← pow_succ]
      exact small
    simp only [toLeBytes, fromLeBytes, ih _ quotient, UInt8.toNat_ofNat']
    omega

theorem reads_fixed (bytes : List UInt8) : Reads (decodeFixed bytes.length) bytes bytes := by
  intro data off held
  have hb := held.bound
  have hf := data.length_lt
  have small : off + bytes.length < 2 ^ 64 := by omega
  simp only [decodeFixed, hb, if_true, bind_run, advance, small, pure_run, held.take]

theorem reads_f64 (bits : UInt64) : Reads decodeF64 (encodeF64 bits) bits := by
  have fixed := reads_fixed (toLeBytes 8 bits.toNat)
  rw [toLeBytes_length] at fixed
  apply Reads.bind_pure fixed
  apply Reads.pure_eq
  rw [fromLeBytes_toLeBytes 8 bits.toNat bits.toNat_lt, UInt64.ofNat_toNat]

def Reg.Encodable (reg : Reg) : Prop := reg.index.toNat < 2 ^ 15

theorem long_reg (high : Nat) (small : high < 128) :
    ((0x80 : UInt8) ||| UInt8.ofNat high) &&& 0x80 ≠ 0 ∧
      (((0x80 : UInt8) ||| UInt8.ofNat high) &&& 0x7F).toNat = high := by
  have bits := byte_bits high (by omega)
  rw [UInt8.or_comm]
  exact ⟨bits.1, by rw [bits.2.1, mod_eq_of_lt small]⟩

theorem reads_reg (reg : Reg) (hb : reg.Encodable) : Reads decodeReg (encodeReg reg) reg := by
  unfold Reg.Encodable at hb
  unfold encodeReg
  split
  · rename_i short
    have lt : reg.index.toNat < 128 := short
    have byte : reg.index.toUInt8 = UInt8.ofNat reg.index.toNat := by
      apply UInt8.toNat_inj.mp
      simp
    apply Reads.bind_pure (reads_u8 _)
    rw [byte, if_pos (final_byte _ lt).1]
    apply Reads.pure_eq
    congr 1
    apply UInt16.toNat_inj.mp
    simp only [UInt8.toNat_toUInt16, UInt8.toNat_ofNat']
    omega
  · rename_i long
    have ge : 128 ≤ reg.index.toNat := not_lt.mp long
    have byte : (reg.index >>> 8).toUInt8 = UInt8.ofNat (reg.index.toNat / 256) := by
      apply UInt8.toNat_inj.mp
      simp [shiftRight_eq_div_pow]
    have bits := long_reg (reg.index.toNat / 256) (by omega)
    refine reads_tag _ ?_
    rw [byte, if_neg bits.1]
    apply Reads.bind_pure (reads_u8 _)
    apply Reads.pure_eq
    congr 1
    apply UInt16.toNat_inj.mp
    simp only [UInt16.toNat_or, UInt16.toNat_shiftLeft, UInt8.toNat_toUInt16, bits.2, UInt16.toNat_toUInt8]
    have joined := Nat.two_pow_add_eq_or_of_lt (i := 8) (b := reg.index.toNat % 256) (by omega) (reg.index.toNat / 256)
    have product : reg.index.toNat / 256 * 256 % 65536 = 2 ^ 8 * (reg.index.toNat / 256) := by omega
    simp [Nat.shiftLeft_eq]
    rw [product, ← joined]
    omega

theorem reads_reg_range (hr : RegRange) (hb : hr.start.Encodable) :
    Reads decodeRegRange (encodeRegRange hr) hr :=
  (reads_reg _ hb).bind ((reads_u8 _).bind_pure (Reads.pure _))

theorem reads_bytes (bytes : List UInt8) (small : bytes.length < 2 ^ 63) :
    Reads decodeBytes (encodeBytes bytes) ⟨bytes, small⟩ := by
  intro data off held
  have hf := data.length_lt
  have prefixRead := reads_varint bytes.length (by omega) data off held.left
  have pl := held.right
  have hb := pl.bound
  have available : ¬ data.length - (off + (encodeVarint bytes.length).length) < bytes.length := by omega
  have hin : off + (encodeVarint bytes.length).length ≤ data.length := by omega
  have noWrap : off + (encodeVarint bytes.length).length + bytes.length < 2 ^ 64 := by omega
  have hr : decodePayloadRange data off =
      .ok (off + (encodeVarint bytes.length).length, off + (encodeVarint bytes.length).length + bytes.length)
        (off + (encodeVarint bytes.length).length + bytes.length) := by
    simp only [decodePayloadRange, bind_run, prefixRead, position, dataLen, subUsize, hin, if_true,
      available, if_false, addUsize, noWrap, setPosition, pure_run]
  rw [decodeBytes, bind_ok hr, subslice, if_pos ⟨by omega, hb⟩, pl.sub, encodeBytes,
    List.length_append, ← add_assoc]

end Vbc
