import Verum.Sorting.Merge
import Mathlib.Tactic.Ring

namespace Cbor

/-- Texts are their bytes, floats their bits; a negative integer is the `n` of `-1 - n`. -/
inductive CborValue where
  | cborUint (n : UInt64)
  | cborNint (n : UInt64)
  | cborBytes (bytes : List UInt8)
  | cborText (text : List UInt8)
  | cborArray (elems : List CborValue)
  | cborMap (entries : List (CborValue × CborValue))
  | cborTag (tag : UInt64) (value : CborValue)
  | cborBool (b : Bool)
  | cborNull
  | cborUndefined
  | cborF64 (bits : UInt64)

open CborValue

def byteAt (n : UInt64) (shift : UInt64) : UInt8 := ((n >>> shift) &&& 0xFF).toUInt8

def eightBytes (n : UInt64) : List UInt8 := (List.range 8).map fun i => byteAt n ((7 - i) * 8).toUInt64

def writeHead (major : UInt8) (len : UInt64) : List UInt8 :=
  let base := major <<< 5
  if len < 24 then [base ||| len.toUInt8]
  else if len < 0x100 then [base ||| 24, len.toUInt8]
  else if len < 0x10000 then [base ||| 25, byteAt len 8, byteAt len 0]
  else if len < 0x100000000 then [base ||| 26, byteAt len 24, byteAt len 16, byteAt len 8, byteAt len 0]
  else (base ||| 27) :: eightBytes len

mutual

def encodeInto : CborValue → List UInt8
  | cborUint n => writeHead 0 n
  | cborNint n => writeHead 1 n
  | cborBytes bytes => writeHead 2 bytes.length.toUInt64 ++ bytes
  | cborText text => writeHead 3 text.length.toUInt64 ++ text
  | cborArray elems => writeHead 4 elems.length.toUInt64 ++ encodeElems elems
  | cborMap entries => writeHead 5 entries.length.toUInt64 ++ encodeEntries entries
  | cborTag tag value => writeHead 6 tag ++ encodeInto value
  | cborBool b => [if b then 0xF5 else 0xF4]
  | cborNull => [0xF6]
  | cborUndefined => [0xF7]
  | cborF64 bits => 0xFB :: eightBytes bits

def encodeElems : List CborValue → List UInt8
  | [] => []
  | v :: elems => encodeInto v ++ encodeElems elems

def encodeEntries : List (CborValue × CborValue) → List UInt8
  | [] => []
  | (k, v) :: entries => encodeInto k ++ (encodeInto v ++ encodeEntries entries)

end

def encode (v : CborValue) : List UInt8 := encodeInto v

def bytesLt : List UInt8 → List UInt8 → Bool
  | a :: as, b :: bs => if a < b then true else if a > b then false else bytesLt as bs
  | [], bs => 0 < bs.length
  | _ :: _, [] => false

abbrev Tagged := List UInt8 × CborValue × CborValue

def mergeSortTagged (tagged : List Tagged) : List Tagged := Sorting.mergeSort (fun a b => bytesLt a.1 b.1) tagged

mutual

def cloneValue : CborValue → CborValue
  | cborUint n => cborUint n
  | cborNint n => cborNint n
  | cborBytes bytes => cborBytes bytes
  | cborText text => cborText text
  | cborArray elems => cborArray (cloneElems elems)
  | cborMap entries => cborMap (cloneEntries entries)
  | cborTag tag value => cborTag tag (cloneValue value)
  | cborBool b => cborBool b
  | cborNull => cborNull
  | cborUndefined => cborUndefined
  | cborF64 bits => cborF64 bits

def cloneElems : List CborValue → List CborValue
  | [] => []
  | v :: elems => cloneValue v :: cloneElems elems

def cloneEntries : List (CborValue × CborValue) → List (CborValue × CborValue)
  | [] => []
  | (k, v) :: entries => (cloneValue k, cloneValue v) :: cloneEntries entries

end

mutual

def canonicalise : CborValue → CborValue
  | cborArray elems => cborArray (canonicaliseElems elems)
  | cborMap entries =>
    cborMap ((mergeSortTagged (tagEntries entries)).map fun tagged => (cloneValue tagged.2.1, cloneValue tagged.2.2))
  | v => cloneValue v

def canonicaliseElems : List CborValue → List CborValue
  | [] => []
  | v :: elems => canonicalise v :: canonicaliseElems elems

def tagEntries : List (CborValue × CborValue) → List Tagged
  | [] => []
  | (k, v) :: entries => (encode k, cloneValue k, canonicalise v) :: tagEntries entries

end

attribute [grind =] canonicalise

def encodeCanonical (v : CborValue) : List UInt8 := encode (canonicalise v)

/-- The `width` low bytes of a number, the highest first. -/
def bigEndian : Nat → Nat → List UInt8
  | 0, _ => []
  | width + 1, n => bigEndian width (n / 256) ++ [UInt8.ofNat n]

@[simp] theorem bigEndian_length (width n : Nat) : (bigEndian width n).length = width := by
  induction width generalizing n with
  | zero => rfl
  | succ width ih => rw [bigEndian, List.length_append, ih, List.length_singleton]

theorem bigEndian_injective {width n m : Nat} (small : n < 256 ^ width) (small' : m < 256 ^ width)
    (eq : bigEndian width n = bigEndian width m) : n = m := by
  induction width generalizing n m with
  | zero =>
    rw [pow_zero] at small small'
    omega
  | succ width ih =>
    obtain ⟨high, low⟩ := List.append_inj eq (by rw [bigEndian_length, bigEndian_length])
    rw [pow_succ] at small small'
    have isHigh := ih (by omega) (by omega) high
    have isLow := congrArg UInt8.toNat (List.singleton_inj.mp low)
    rw [UInt8.toNat_ofNat', UInt8.toNat_ofNat'] at isLow
    omega

theorem byteAt_eq (n shift : UInt64) (small : shift < 64) : byteAt n shift = UInt8.ofNat (n.toNat / 2 ^ shift.toNat) := by
  have isShift : shift.toNat % 64 = shift.toNat := Nat.mod_eq_of_lt small
  rw [← UInt8.toNat_inj]
  unfold byteAt
  rw [UInt64.toNat_toUInt8, UInt64.toNat_and, UInt64.toNat_shiftRight, isShift, UInt8.toNat_ofNat',
    Nat.shiftRight_eq_div_pow]
  have mask : (0xFF : UInt64).toNat = 2 ^ 8 - 1 := rfl
  rw [mask, Nat.and_two_pow_sub_one_eq_mod, Nat.mod_mod]

theorem eightBytes_eq (n : UInt64) : eightBytes n = bigEndian 8 n.toNat := by
  have isByte (i : Nat) (small : i < 8) :
      byteAt n ((7 - i) * 8).toUInt64 = UInt8.ofNat (n.toNat / 2 ^ ((7 - i) * 8)) := by
    have isShift : (((7 - i) * 8).toUInt64).toNat = (7 - i) * 8 := by
      rw [UInt64.toNat_ofNat']
      omega
    rw [byteAt_eq n _ (by rw [UInt64.lt_iff_toNat_lt, isShift]; show (7 - i) * 8 < 64; omega), isShift]
  have bytes : eightBytes n = (List.range 8).map fun i => UInt8.ofNat (n.toNat / 2 ^ ((7 - i) * 8)) :=
    List.map_congr_left fun i mem => isByte i (List.mem_range.mp mem)
  rw [bytes]
  simp [bigEndian, Nat.div_div_eq_div_mul, List.range_succ]

def minorOf (n : Nat) : Nat :=
  if n < 24 then n else if n < 0x100 then 24 else if n < 0x10000 then 25 else if n < 0x100000000 then 26 else 27

/-- The number of bytes of the argument that come after the first byte of a head. -/
def widthOf (n : Nat) : Nat :=
  if n < 24 then 0 else if n < 0x100 then 1 else if n < 0x10000 then 2 else if n < 0x100000000 then 4 else 8

theorem minorOf_lt (n : Nat) : minorOf n < 32 := by
  unfold minorOf
  split_ifs <;> omega

theorem widthOf_eq {n m : Nat} (small : n < 2 ^ 64) (small' : m < 2 ^ 64) (eq : minorOf n = minorOf m) :
    widthOf n = widthOf m ∧ (n = m ∨ n < 256 ^ widthOf n ∧ m < 256 ^ widthOf m) := by
  unfold minorOf at eq
  unfold widthOf
  split_ifs at eq ⊢ <;> omega

theorem firstByte (major : UInt8) (small : major < 8) {minor : Nat} (short : minor < 32) :
    (major <<< 5 ||| UInt8.ofNat minor).toNat = major.toNat * 32 + minor := by
  have isSmall : major.toNat < 8 := small
  rw [UInt8.toNat_or, UInt8.toNat_shiftLeft, UInt8.toNat_ofNat', Nat.mod_eq_of_lt (show minor < 2 ^ 8 by omega)]
  show (major.toNat <<< 5 % 2 ^ 8) ||| minor = _
  rw [Nat.mod_eq_of_lt (by rw [Nat.shiftLeft_eq]; omega), ← Nat.shiftLeft_add_eq_or_of_lt (by omega), Nat.shiftLeft_eq]

theorem writeHead_eq (major : UInt8) (len : UInt64) :
    writeHead major len = (major <<< 5 ||| UInt8.ofNat (minorOf len.toNat)) :: bigEndian (widthOf len.toNat) len.toNat := by
  have byte (shift : UInt64) (small : shift < 64) := byteAt_eq len shift small
  unfold writeHead minorOf widthOf
  simp only [UInt64.lt_iff_toNat_lt]
  show (if len.toNat < 24 then _ else if len.toNat < 0x100 then _ else if len.toNat < 0x10000 then _ else
    if len.toNat < 0x100000000 then _ else _) = _
  split_ifs
  · rfl
  · rfl
  · rw [byte 8 (by decide), byte 0 (by decide)]
    simp [bigEndian]
  · rw [byte 24 (by decide), byte 16 (by decide), byte 8 (by decide), byte 0 (by decide)]
    simp [bigEndian, Nat.div_div_eq_div_mul]
  · rw [eightBytes_eq]
    rfl

theorem writeHead_unique {major major' : UInt8} (small : major < 8) (small' : major' < 8) {len len' : UInt64}
    {rest rest' : List UInt8} (eq : writeHead major len ++ rest = writeHead major' len' ++ rest') :
    major = major' ∧ len = len' ∧ rest = rest' := by
  rw [writeHead_eq, writeHead_eq, List.cons_append, List.cons_append, List.cons.injEq] at eq
  have first := congrArg UInt8.toNat eq.1
  rw [firstByte major small (minorOf_lt _), firstByte major' small' (minorOf_lt _)] at first
  have short := minorOf_lt len.toNat
  have short' := minorOf_lt len'.toNat
  have isMinor : minorOf len.toNat = minorOf len'.toNat := by omega
  obtain ⟨isWidth, hf⟩ := widthOf_eq len.toNat_lt len'.toNat_lt isMinor
  obtain ⟨isArg, isRest⟩ := List.append_inj eq.2 (by rw [bigEndian_length, bigEndian_length, isWidth])
  refine ⟨UInt8.toNat_inj.mp (by omega), UInt64.toNat_inj.mp ?_, isRest⟩
  rcases hf with equal | ⟨hlt, below'⟩
  · exact equal
  · rw [← isWidth] at isArg below'
    exact bigEndian_injective hlt below' isArg

end Cbor
