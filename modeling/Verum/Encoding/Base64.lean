import Mathlib.Data.Nat.Bitwise
import Verum.Collections.Outcome

namespace Base64

inductive Base64ErrorKind where
  | invalidChar
  | invalidLength
  | invalidPadding
  deriving DecidableEq

structure Base64Error where
  kind : Base64ErrorKind
  position : Nat
  message : String
  deriving DecidableEq

/-- `'A'..'Z'`, `'a'..'z'` and `'0'..'9'`, which both alphabets start with. -/
def alphanumerics : List UInt8 :=
  [0x41, 0x42, 0x43, 0x44, 0x45, 0x46, 0x47, 0x48, 0x49, 0x4A, 0x4B, 0x4C, 0x4D, 0x4E, 0x4F, 0x50, 0x51, 0x52, 0x53,
   0x54, 0x55, 0x56, 0x57, 0x58, 0x59, 0x5A, 0x61, 0x62, 0x63, 0x64, 0x65, 0x66, 0x67, 0x68, 0x69, 0x6A, 0x6B, 0x6C,
   0x6D, 0x6E, 0x6F, 0x70, 0x71, 0x72, 0x73, 0x74, 0x75, 0x76, 0x77, 0x78, 0x79, 0x7A, 0x30, 0x31, 0x32, 0x33, 0x34,
   0x35, 0x36, 0x37, 0x38, 0x39]

def stdAlphabet : List UInt8 := alphanumerics ++ [0x2B, 0x2F]

def urlAlphabet : List UInt8 := alphanumerics ++ [0x2D, 0x5F]

def encodeWith (alpha : List UInt8) (pad : Bool) : List UInt8 → List UInt8
  | b0 :: b1 :: b2 :: rest =>
    symbol (b0.toNat >>> 2) :: symbol (b0.toNat <<< 4 ||| b1.toNat >>> 4) ::
      symbol (b1.toNat <<< 2 ||| b2.toNat >>> 6) :: symbol b2.toNat :: encodeWith alpha pad rest
  | [b0, b1] =>
    symbol (b0.toNat >>> 2) :: symbol (b0.toNat <<< 4 ||| b1.toNat >>> 4) :: symbol (b1.toNat <<< 2) ::
      if pad then [0x3D] else []
  | [b0] => symbol (b0.toNat >>> 2) :: symbol (b0.toNat <<< 4) :: if pad then [0x3D, 0x3D] else []
  | [] => []
where
  symbol (bits : Nat) : UInt8 := alpha.getD (bits &&& 0x3F) 0

def encode (input : List UInt8) : List UInt8 := encodeWith stdAlphabet true input

def encodeUrl (input : List UInt8) : List UInt8 := encodeWith urlAlphabet false input

def decodeByte (b : UInt8) (urlSafe : Bool) (pos : Nat) : Except Base64Error Nat :=
  if 0x41 ≤ b ∧ b ≤ 0x5A then .ok (b - 0x41).toNat
  else if 0x61 ≤ b ∧ b ≤ 0x7A then .ok (b - 0x61 + 26).toNat
  else if 0x30 ≤ b ∧ b ≤ 0x39 then .ok (b - 0x30 + 52).toNat
  else if b = (if urlSafe then 0x2D else 0x2B) then .ok 62
  else if b = (if urlSafe then 0x5F else 0x2F) then .ok 63
  else .error ⟨.invalidChar, pos, "character outside the base64 alphabet"⟩

def firstByte (c0 c1 : Nat) : UInt8 := UInt8.ofNat (c0 <<< 2 ||| c1 >>> 4)

def secondByte (c1 c2 : Nat) : UInt8 := UInt8.ofNat ((c1 &&& 0x0F) <<< 4 ||| c2 >>> 2)

def thirdByte (c2 c3 : Nat) : UInt8 := UInt8.ofNat ((c2 &&& 0x03) <<< 6 ||| c3)

/-- The loop over the groups of four and the tail, from position `i` on. -/
def decodeGroups (urlSafe : Bool) (i : Nat) : List UInt8 → Except Base64Error (List UInt8)
  | b0 :: b1 :: b2 :: b3 :: rest => do
    let c0 ← decodeByte b0 urlSafe i
    let c1 ← decodeByte b1 urlSafe (i + 1)
    let c2 ← decodeByte b2 urlSafe (i + 2)
    let c3 ← decodeByte b3 urlSafe (i + 3)
    let out ← decodeGroups urlSafe (i + 4) rest
    .ok (firstByte c0 c1 :: secondByte c1 c2 :: thirdByte c2 c3 :: out)
  | [b0, b1, b2] => do
    let c0 ← decodeByte b0 urlSafe i
    let c1 ← decodeByte b1 urlSafe (i + 1)
    let c2 ← decodeByte b2 urlSafe (i + 2)
    if c2 &&& 0x03 ≠ 0 then .error ⟨.invalidPadding, i + 2, "non-canonical: trailing bits must be zero"⟩
    else .ok [firstByte c0 c1, secondByte c1 c2]
  | [b0, b1] => do
    let c0 ← decodeByte b0 urlSafe i
    let c1 ← decodeByte b1 urlSafe (i + 1)
    if c1 &&& 0x0F ≠ 0 then .error ⟨.invalidPadding, i + 1, "non-canonical: trailing bits must be zero"⟩
    else .ok [firstByte c0 c1]
  | [_] => .error ⟨.invalidLength, i, "dangling character at end"⟩
  | [] => .ok []

attribute [grind =] encodeWith decodeGroups

/-- The loop that strips the `=` signs at the end. -/
def effectiveLength (bytes : List UInt8) : Nat → Nat
  | 0 => 0
  | n + 1 => if bytes[n]? = some 0x3D then effectiveLength bytes n else n + 1

attribute [grind =] effectiveLength

/-- The shape of a padded text, which both alphabets ask for in the same way. -/
def checkPadding (lengthMessage : String) (n effective : Nat) : Except Base64Error Unit :=
  let padChars := n - effective
  let rem := effective - effective / 4 * 4
  if n % 4 ≠ 0 then .error ⟨.invalidLength, n, lengthMessage⟩
  else if padChars > 2 then .error ⟨.invalidPadding, effective, "more than 2 trailing '=' characters"⟩
  else if padChars = 1 ∧ rem ≠ 3 then .error ⟨.invalidPadding, effective, "single '=' must follow a 3-char group"⟩
  else if padChars = 2 ∧ rem ≠ 2 then .error ⟨.invalidPadding, effective, "double '==' must follow a 2-char group"⟩
  else .ok ()

def decodeWith (input : List UInt8) (urlSafe : Bool) : Except Base64Error (List UInt8) := do
  let n := input.length
  let effective := effectiveLength input n
  if ¬ urlSafe then checkPadding "standard base64 input length must be a multiple of 4" n effective
  else if n - effective > 0 then checkPadding "padded URL-safe base64 must be a multiple of 4" n effective
  decodeGroups urlSafe 0 (input.take effective)

def decode (input : List UInt8) : Except Base64Error (List UInt8) := decodeWith input false

def decodeUrl (input : List UInt8) : Except Base64Error (List UInt8) := decodeWith input true

def alphabet (urlSafe : Bool) : List UInt8 := if urlSafe then urlAlphabet else stdAlphabet

section Bits

variable {b c0 c1 c2 c3 : Nat}

theorem shift_or {a n : Nat} (small : b < 2 ^ n) : a <<< n ||| b = a * 2 ^ n + b := by
  rw [← Nat.shiftLeft_add_eq_or_of_lt small, Nat.shiftLeft_eq]

theorem and_63 (n : Nat) : n &&& 0x3F = n % 64 := Nat.and_two_pow_sub_one_eq_mod n 6

theorem and_15 (n : Nat) : n &&& 0x0F = n % 16 := Nat.and_two_pow_sub_one_eq_mod n 4

theorem and_3 (n : Nat) : n &&& 0x03 = n % 4 := Nat.and_two_pow_sub_one_eq_mod n 2

theorem toNat_firstByte (small : c0 < 64) (small' : c1 < 64) : (firstByte c0 c1).toNat = c0 * 4 + c1 / 16 := by
  rw [firstByte, Nat.shiftRight_eq_div_pow, shift_or (by omega), UInt8.toNat_ofNat']
  omega

theorem toNat_secondByte (small : c2 < 64) : (secondByte c1 c2).toNat = c1 % 16 * 16 + c2 / 4 := by
  rw [secondByte, and_15, Nat.shiftRight_eq_div_pow, shift_or (by omega), UInt8.toNat_ofNat']
  omega

theorem toNat_thirdByte (small : c3 < 64) : (thirdByte c2 c3).toNat = c2 % 4 * 64 + c3 := by
  rw [thirdByte, and_3, shift_or small, UInt8.toNat_ofNat']
  omega

theorem first_sextet (b0 : UInt8) : b0.toNat >>> 2 &&& 0x3F = b0.toNat / 4 := by
  have hb := b0.toNat_lt
  rw [and_63, Nat.shiftRight_eq_div_pow]
  omega

theorem second_sextet (b0 b1 : UInt8) :
    (b0.toNat <<< 4 ||| b1.toNat >>> 4) &&& 0x3F = b0.toNat % 4 * 16 + b1.toNat / 16 := by
  have hb := b1.toNat_lt
  rw [and_63, Nat.shiftRight_eq_div_pow, shift_or (by omega)]
  omega

theorem third_sextet (b1 b2 : UInt8) :
    (b1.toNat <<< 2 ||| b2.toNat >>> 6) &&& 0x3F = b1.toNat % 16 * 4 + b2.toNat / 64 := by
  have hb := b2.toNat_lt
  rw [and_63, Nat.shiftRight_eq_div_pow, shift_or (by omega)]
  omega

theorem last_sextet (b : UInt8) : b.toNat &&& 0x3F = b.toNat % 64 := and_63 _

theorem tail_sextet (b : UInt8) (n : Nat) : b.toNat <<< n &&& 0x3F = b.toNat * 2 ^ n % 64 := by
  rw [and_63, Nat.shiftLeft_eq]

end Bits

section Groups

variable {urlSafe : Bool} {b : UInt8} {c pos : Nat}

theorem decodeByte_symbol : ∀ urlSafe : Bool, ∀ c < 64, decodeByte ((alphabet urlSafe).getD c 0) urlSafe 0 = .ok c := by
  decide +kernel

theorem symbol_decodeByte : ∀ urlSafe : Bool, ∀ n < 256, (decodeByte (UInt8.ofNat n) urlSafe 0).toOption.all
    (fun c => decide (c < 64 ∧ (alphabet urlSafe).getD c 0 = UInt8.ofNat n)) = true := by
  decide +kernel

theorem decodeByte_iff : decodeByte b urlSafe pos = .ok c ↔ c < 64 ∧ (alphabet urlSafe).getD c 0 = b := by
  have anywhere : decodeByte b urlSafe pos = .ok c ↔ decodeByte b urlSafe 0 = .ok c := by
    unfold decodeByte
    split_ifs <;> simp
  rw [anywhere]
  constructor
  · intro found
    have known := symbol_decodeByte urlSafe b.toNat b.toNat_lt
    rw [UInt8.ofNat_toNat, found] at known
    exact of_decide_eq_true known
  · rintro ⟨small, rfl⟩
    exact decodeByte_symbol urlSafe c small

@[simp] theorem decodeByte_alphabet (small : c < 64) :
    decodeByte ((alphabet urlSafe).getD c 0) urlSafe pos = .ok c :=
  decodeByte_iff.mpr ⟨small, rfl⟩

theorem cons_symbol {alpha xs ys : List UInt8} {c d : Nat} (eq : c = d) (rest : xs = ys) :
    alpha.getD c 0 :: xs = alpha.getD d 0 :: ys := by
  rw [eq, rest]

theorem cons_byte {x y : UInt8} {xs ys : List UInt8} (eq : x.toNat = y.toNat) (rest : xs = ys) :
    x :: xs = y :: ys := by
  rw [UInt8.toNat_inj.mp eq, rest]

theorem decodeGroups_encode (input : List UInt8) (i : Nat) :
    decodeGroups urlSafe i (encodeWith (alphabet urlSafe) false input) = .ok input := by
  induction input using encodeWith.induct generalizing i with
  | case1 b0 b1 b2 rest ih =>
    have bounds := And.intro b0.toNat_lt (And.intro b1.toNat_lt b2.toNat_lt)
    simp only [encodeWith, encodeWith.symbol, first_sextet, second_sextet, third_sextet, last_sextet, decodeGroups]
    rw [decodeByte_alphabet (by omega), decodeByte_alphabet (by omega), decodeByte_alphabet (by omega),
      decodeByte_alphabet (by omega)]
    simp only [okBind, ih]
    refine congrArg _ (cons_byte ?_ (cons_byte ?_ (cons_byte ?_ rfl)))
    · rw [toNat_firstByte (by omega) (by omega)]
      omega
    · rw [toNat_secondByte (by omega)]
      omega
    · rw [toNat_thirdByte (by omega)]
      omega
  | case2 b0 b1 =>
    have bounds := And.intro b0.toNat_lt b1.toNat_lt
    simp only [encodeWith, encodeWith.symbol, first_sextet, second_sextet, tail_sextet, decodeGroups,
      Bool.false_eq_true, if_false]
    rw [decodeByte_alphabet (by omega), decodeByte_alphabet (by omega), decodeByte_alphabet (by omega)]
    simp only [okBind]
    rw [if_neg (by rw [and_3]; omega)]
    refine congrArg _ (cons_byte ?_ (cons_byte ?_ rfl))
    · rw [toNat_firstByte (by omega) (by omega)]
      omega
    · rw [toNat_secondByte (by omega)]
      omega
  | case3 b0 =>
    have hb := b0.toNat_lt
    simp only [encodeWith, encodeWith.symbol, first_sextet, tail_sextet, decodeGroups, Bool.false_eq_true, if_false]
    rw [decodeByte_alphabet (by omega), decodeByte_alphabet (by omega)]
    simp only [okBind]
    rw [if_neg (by rw [and_15]; omega)]
    refine congrArg _ (cons_byte ?_ rfl)
    rw [toNat_firstByte (by omega) (by omega)]
    omega
  | case4 => rfl

theorem encode_of_decodeGroups {input out : List UInt8} {i : Nat} (decoded : decodeGroups urlSafe i input = .ok out) :
    input = encodeWith (alphabet urlSafe) false out := by
  fun_induction decodeGroups urlSafe i input generalizing out with
  | case1 i b0 b1 b2 b3 rest ih =>
    simp only [bindOk_iff, decodeByte_iff] at decoded
    obtain ⟨c0, ⟨small0, rfl⟩, c1, ⟨small1, rfl⟩, c2, ⟨small2, rfl⟩, c3, ⟨small3, rfl⟩, out, tail, made⟩ := decoded
    cases made
    simp only [encodeWith, encodeWith.symbol, first_sextet, second_sextet, third_sextet, last_sextet]
    rw [toNat_firstByte small0 small1, toNat_secondByte small2, toNat_thirdByte small3]
    exact cons_symbol (by omega) (cons_symbol (by omega) (cons_symbol (by omega) (cons_symbol (by omega) (ih tail))))
  | case2 i b0 b1 b2 =>
    simp only [bindOk_iff, decodeByte_iff, and_3] at decoded
    obtain ⟨c0, ⟨small0, rfl⟩, c1, ⟨small1, rfl⟩, c2, ⟨small2, rfl⟩, made⟩ := decoded
    split at made
    · cases made
    · cases made
      simp only [encodeWith, encodeWith.symbol, first_sextet, second_sextet, tail_sextet, Bool.false_eq_true, if_false]
      rw [toNat_firstByte small0 small1, toNat_secondByte small2]
      exact cons_symbol (by omega) (cons_symbol (by omega) (cons_symbol (by omega) rfl))
  | case3 i b0 b1 =>
    simp only [bindOk_iff, decodeByte_iff, and_15] at decoded
    obtain ⟨c0, ⟨small0, rfl⟩, c1, ⟨small1, rfl⟩, made⟩ := decoded
    split at made
    · cases made
    · cases made
      simp only [encodeWith, encodeWith.symbol, first_sextet, tail_sextet, Bool.false_eq_true, if_false]
      rw [toNat_firstByte small0 small1]
      exact cons_symbol (by omega) (cons_symbol (by omega) rfl)
  | case4 => cases decoded
  | case5 =>
    cases decoded
    rfl

theorem decodeGroups_iff {input out : List UInt8} {i : Nat} :
    decodeGroups urlSafe i input = .ok out ↔ input = encodeWith (alphabet urlSafe) false out :=
  ⟨encode_of_decodeGroups, fun isEncoding => isEncoding ▸ decodeGroups_encode out i⟩

end Groups

section Padding

variable {s : List UInt8} {n : Nat}

/-- The signs that complete a text to a multiple of four. -/
def padding (length : Nat) : List UInt8 := List.replicate ((4 - length % 4) % 4) 0x3D

theorem encodeWith_length (alpha input : List UInt8) :
    (encodeWith alpha false input).length = input.length / 3 * 4 + (input.length % 3 * 4 + 2) / 3 := by
  induction input using encodeWith.induct with
  | case1 b0 b1 b2 rest ih =>
    simp only [encodeWith, List.length_cons, ih]
    omega
  | case2 b0 b1 | case3 b0 | case4 => simp [encodeWith]

theorem padding_add_four (n : Nat) : padding (n + 4) = padding n := by
  rw [padding, Nat.add_mod_right, padding]

theorem encodeWith_pad (alpha input : List UInt8) :
    encodeWith alpha true input =
      encodeWith alpha false input ++ padding (encodeWith alpha false input).length := by
  induction input using encodeWith.induct with
  | case1 b0 b1 b2 rest ih => simp only [encodeWith, ih, List.cons_append, List.length_cons, padding_add_four]
  | case2 b0 b1 | case3 b0 | case4 => simp [encodeWith, padding]

theorem symbol_ne (urlSafe : Bool) (small : n < 64) : (alphabet urlSafe).getD n 0 ≠ 0x3D := by
  intro sign
  have found := decodeByte_symbol urlSafe n small
  rw [sign] at found
  cases urlSafe <;> cases found

theorem encodeWith_ne (urlSafe : Bool) (input : List UInt8) : 0x3D ∉ encodeWith (alphabet urlSafe) false input := by
  have ne (bits : Nat) : 0x3D ≠ encodeWith.symbol (alphabet urlSafe) bits := by
    unfold encodeWith.symbol
    rw [and_63]
    exact (symbol_ne urlSafe (Nat.mod_lt _ (by decide))).symm
  induction input using encodeWith.induct with
  | case1 b0 b1 b2 rest ih => simp [encodeWith, ne, ih]
  | case2 b0 b1 | case3 b0 | case4 => simp [encodeWith, ne]

theorem effectiveLength_le (bytes : List UInt8) (n : Nat) : effectiveLength bytes n ≤ n := by
  induction n with
  | zero => exact Nat.le_refl _
  | succ n ih =>
    rw [effectiveLength]
    split <;> omega

theorem effectiveLength_append {body : List UInt8} (unsigned : 0x3D ∉ body) (k : Nat) :
    effectiveLength (body ++ List.replicate k 0x3D) (body.length + k) = body.length := by
  have stripped (j : Nat) (le : j ≤ k) :
      effectiveLength (body ++ List.replicate k 0x3D) (body.length + j) = body.length := by
    induction j with
    | zero =>
      cases ends : body.length with
      | zero => rfl
      | succ m =>
        rw [Nat.add_zero, effectiveLength, if_neg]
        intro sign
        rw [List.getElem?_append_left (by omega)] at sign
        exact unsigned (List.mem_of_getElem? sign)
    | succ j ih =>
      rw [← Nat.add_assoc, effectiveLength, if_pos, ih (by omega)]
      rw [List.getElem?_append_right (by omega), Nat.add_sub_cancel_left, List.getElem?_replicate_of_lt (by omega)]
  exact stripped k (Nat.le_refl _)

theorem effectiveLength_split (s : List UInt8) : s =
    s.take (effectiveLength s s.length) ++ List.replicate (s.length - effectiveLength s s.length) 0x3D := by
  have split (n : Nat) (le : n ≤ s.length) : s.take n =
      s.take (effectiveLength s n) ++ List.replicate (n - effectiveLength s n) 0x3D := by
    induction n with
    | zero => rfl
    | succ n ih =>
      rw [effectiveLength]
      split
      · rename_i sign
        have hb := effectiveLength_le s n
        rw [List.take_add_one, sign, ih (by omega), Nat.succ_sub hb, List.replicate_succ', List.append_assoc]
        rfl
      · rw [Nat.sub_self, List.replicate_zero, List.append_nil]
  simpa using split s.length (Nat.le_refl _)

theorem checkPadding_iff {message : String} {n e : Nat} (le : e ≤ n) :
    checkPadding message n e = .ok () ↔ n - e = (4 - e % 4) % 4 ∧ e % 4 ≠ 1 := by
  simp only [checkPadding]
  split_ifs <;> simp only [false_iff, true_iff] <;> omega

end Padding

/-- The standard texts that decode are the encodings; a URL-safe text may carry its padding or leave it out. -/
theorem base64_bijective (s input : List UInt8) :
    (decode s = .ok input ↔ s = encode input) ∧
      (decodeUrl s = .ok input ↔
        s = encodeUrl input ∨ s = encodeUrl input ++ padding (encodeUrl input).length) := by
  have le := effectiveLength_le s s.length
  have split := effectiveLength_split s
  have padded (urlSafe : Bool) (message : String) :
      (checkPadding message s.length (effectiveLength s s.length) = .ok () ∧
        decodeGroups urlSafe 0 (s.take (effectiveLength s s.length)) = .ok input) ↔
      s = encodeWith (alphabet urlSafe) false input ++ padding (encodeWith (alphabet urlSafe) false input).length := by
    rw [checkPadding_iff le, decodeGroups_iff]
    constructor
    · rintro ⟨⟨pads, _⟩, body⟩
      have length : (encodeWith (alphabet urlSafe) false input).length = effectiveLength s s.length := by
        rw [← body, List.length_take, Nat.min_eq_left le]
      rw [length, ← body, padding, ← pads]
      exact split
    · intro isPadded
      have stripped := effectiveLength_append (encodeWith_ne urlSafe input)
        ((4 - (encodeWith (alphabet urlSafe) false input).length % 4) % 4)
      have whole := congrArg List.length isPadded
      rw [List.length_append, padding, List.length_replicate] at whole
      rw [← padding, ← isPadded, ← whole] at stripped
      rw [stripped]
      have short := encodeWith_length (alphabet urlSafe) input
      refine ⟨⟨by omega, by omega⟩, ?_⟩
      conv_lhs => rw [isPadded]
      exact List.take_left
  constructor
  · show decodeWith s false = _ ↔ _
    simp only [decodeWith, Bool.false_eq_true, not_false_eq_true, if_true, bindOk_iff]
    rw [encode, encodeWith_pad]
    exact Unique.exists_iff.trans (padded false "standard base64 input length must be a multiple of 4")
  · show decodeWith s true = _ ↔ _
    simp only [decodeWith, not_true_eq_false, if_false]
    have whole := padded true "padded URL-safe base64 must be a multiple of 4"
    by_cases signed : s.length - effectiveLength s s.length > 0
    · have notPlain : s ≠ encodeUrl input := by
        intro plain
        have stripped := effectiveLength_append (encodeWith_ne true input) 0
        rw [List.replicate_zero, List.append_nil, Nat.add_zero] at stripped
        change effectiveLength (encodeUrl input) (encodeUrl input).length = (encodeUrl input).length at stripped
        rw [plain, stripped] at signed
        omega
      rw [if_pos signed, bindOk_iff, or_iff_right notPlain]
      exact Unique.exists_iff.trans whole
    · have entire : s.take (effectiveLength s s.length) = s := List.take_of_length_le (by omega)
      rw [if_neg signed]
      show decodeGroups true 0 _ = _ ↔ _
      rw [entire] at whole ⊢
      constructor
      · exact fun decoded => .inl (decodeGroups_iff.mp decoded)
      · rintro (plain | isPadded)
        · exact decodeGroups_iff.mpr plain
        · exact (whole.mpr isPadded).2

end Base64
