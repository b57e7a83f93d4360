import Verum.Json.TextNumbers
import Verum.Sorting.Merge

namespace Json

namespace Fields

variable {α : Type}

def get? (key : Text) (fields : List (Text × α)) : Option α := (fields.find? fun field => field.1 = key).map Prod.snd

theorem mem_of_get? {key : Text} {fs : List (Text × α)} {v : α} (found : get? key fs = some v) :
    (key, v) ∈ fs := by
  unfold get? at found
  obtain ⟨field, isField, rfl⟩ := Option.map_eq_some_iff.mp found
  have isKey : field.1 = key := by simpa using List.find?_some isField
  rw [← isKey]
  exact List.mem_of_find?_eq_some isField

end Fields

namespace Jcs

inductive JcsError where
  | jsonParseFailed (error : Stop)
  | unsupportedValue (message : Text)
  deriving DecidableEq

def u64Digits (x : UInt64) : Text :=
  if x > 0 then (0x30 + (x % 10).toUInt8) :: u64Digits (x / 10) else []
termination_by x.toNat
decreasing_by
  rename_i positive
  have large : 0 < x.toNat := positive
  rw [UInt64.toNat_div]
  exact Nat.div_lt_self large (by decide)

def emitU64 (n : UInt64) : Text := if n = 0 then [0x30] else (u64Digits n).reverse

def emitInt (n : Int64) : Text :=
  if n < 0 then 0x2D :: emitU64 ((~~~n).toUInt64 + 1) else emitU64 n.toUInt64

def nibbleHex (n : UInt8) : UInt8 := if n < 10 then 0x30 + n else 0x61 + (n - 10)

def hexByte (b : UInt8) : Text := [nibbleHex ((b >>> 4) &&& 0x0F), nibbleHex (b &&& 0x0F)]

def escapeByte (c : UInt8) : Text :=
  if c = 0x22 then [0x5C, 0x22]
  else if c = 0x5C then [0x5C, 0x5C]
  else if c = 0x08 then [0x5C, 0x62]
  else if c = 0x09 then [0x5C, 0x74]
  else if c = 0x0A then [0x5C, 0x6E]
  else if c = 0x0C then [0x5C, 0x66]
  else if c = 0x0D then [0x5C, 0x72]
  else if c < 0x20 then [0x5C, 0x75, 0x30, 0x30] ++ hexByte c
  else [c]

def emitString (s : Text) : Text := 0x22 :: (s.flatMap escapeByte ++ [0x22])

/-- The code point that starts with the byte, with what comes after it; other bytes give the replacement
character. -/
def nextCodePoint (c : UInt8) (rest : List UInt8) : Nat × List UInt8 :=
  if c < 0x80 then (c.toNat, rest)
  else if c &&& 0xE0 = 0xC0 ∧ 0 < rest.length then
    (((c &&& 0x1F).toNat <<< 6) ||| (rest.getD 0 0 &&& 0x3F).toNat, rest.drop 1)
  else if c &&& 0xF0 = 0xE0 ∧ 1 < rest.length then
    (((c &&& 0x0F).toNat <<< 12) ||| ((rest.getD 0 0 &&& 0x3F).toNat <<< 6) ||| (rest.getD 1 0 &&& 0x3F).toNat,
      rest.drop 2)
  else if c &&& 0xF8 = 0xF0 ∧ 2 < rest.length then
    (((c &&& 0x07).toNat <<< 18) ||| ((rest.getD 0 0 &&& 0x3F).toNat <<< 12) |||
      ((rest.getD 1 0 &&& 0x3F).toNat <<< 6) ||| (rest.getD 2 0 &&& 0x3F).toNat, rest.drop 3)
  else (0xFFFD, rest)

theorem nextCodePoint_length (c : UInt8) (rest : List UInt8) : (nextCodePoint c rest).2.length ≤ rest.length := by
  unfold nextCodePoint
  split_ifs <;> simp

def codeUnits (cp : Nat) : List Nat :=
  if cp < 0x10000 then [cp]
  else [0xD800 ||| ((cp - 0x10000) >>> 10), 0xDC00 ||| ((cp - 0x10000) &&& 0x3FF)]

def utf8ToUtf16 : List UInt8 → List Nat
  | [] => []
  | c :: rest => codeUnits (nextCodePoint c rest).1 ++ utf8ToUtf16 (nextCodePoint c rest).2
termination_by bytes => bytes.length
decreasing_by exact Nat.lt_succ_of_le (nextCodePoint_length c rest)

def utf16Lt : List Nat → List Nat → Bool
  | a :: as, b :: bs => if a < b then true else if a > b then false else utf16Lt as bs
  | [], bs => 0 < bs.length
  | _ :: _, [] => false

def sortKeysUtf16 (keys : List Text) : List Text :=
  let pairs := keys.map fun key => (utf8ToUtf16 key, key)
  (Sorting.mergeSort (fun a b => utf16Lt a.1 b.1) pairs).map Prod.snd

variable {F : Type} (emitFloat : F → Except JcsError Text)

mutual

def emit : JsonValue F → Except JcsError Text
  | .jsonNull => .ok (ascii "null")
  | .jsonBool b => .ok (if b then ascii "true" else ascii "false")
  | .jsonInt n => .ok (emitInt n)
  | .jsonFloat f => emitFloat f
  | .jsonString s => .ok (emitString s)
  | .jsonArray elems => do
    let body ← emitElems elems
    .ok (0x5B :: (body ++ [0x5D]))
  | .jsonObject fields => do
    let body ← emitMembers fields (sortKeysUtf16 (fields.map Prod.fst))
    .ok (0x7B :: (body ++ [0x7D]))
termination_by v => (sizeOf v, 0)

def emitElems : List (JsonValue F) → Except JcsError Text
  | [] => .ok []
  | [v] => emit v
  | v :: w :: vs => do
    let first ← emit v
    let others ← emitElems (w :: vs)
    .ok (first ++ 0x2C :: others)
termination_by vs => (sizeOf vs, 0)

def emitMember (fields : List (Text × JsonValue F)) (key : Text) : Except JcsError Text := do
  let value ← (match found : Fields.get? key fields with
    | some v => emit v
    | none => .ok (ascii "null"))
  .ok (emitString key ++ 0x3A :: value)
termination_by (sizeOf fields, 0)
decreasing_by
  left
  have small := List.sizeOf_lt_of_mem (Fields.mem_of_get? found)
  simp only [Prod.mk.sizeOf_spec] at small
  omega

/-- The members of the object under the keys, with commas between them. -/
def emitMembers (fields : List (Text × JsonValue F)) : List Text → Except JcsError Text
  | [] => .ok []
  | [key] => emitMember fields key
  | key :: key' :: keys => do
    let first ← emitMember fields key
    let others ← emitMembers fields (key' :: keys)
    .ok (first ++ 0x2C :: others)
termination_by keys => (sizeOf fields, keys.length)

end

def canonicalize (v : JsonValue F) : Except JcsError Text := emit emitFloat v

def canonicalizeStr (toFloat : Text → F) (input : Text) : Except JcsError Text :=
  match parseValue (textNumbers toFloat) input with
  | .error stop => .error (.jsonParseFailed stop)
  | .ok v => canonicalize emitFloat v

end Jcs

end Json
