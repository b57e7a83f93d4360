import Verum.Json.IntegerTexts

namespace Json

/-- A JSON document of the kinds a derived serializer writes. -/
inductive Tree where
  | number (n : Nat)
  | string (text : String)
  | array (items : List Tree)
  | object (members : List (String × Tree))

namespace Tree

mutual

def nesting : Tree → Nat
  | .number _ | .string _ => 0
  | .array items => nestingItems items + 1
  | .object members => nestingMembers members + 1

def nestingItems : List Tree → Nat
  | [] => 0
  | item :: rest => max item.nesting (nestingItems rest)

def nestingMembers : List (String × Tree) → Nat
  | [] => 0
  | (_, value) :: rest => max value.nesting (nestingMembers rest)

end

attribute [grind =] nesting

theorem nestingItems_le {xs : List Tree} {hb : Nat} (each : ∀ item ∈ xs, item.nesting ≤ hb) :
    nestingItems xs ≤ hb := by
  induction xs with
  | nil => exact Nat.zero_le _
  | cons item rest ih =>
    rw [nestingItems]
    exact max_le (each item (by simp)) (ih fun next mem => each next (.tail _ mem))

theorem nestingMembers_le {ms : List (String × Tree)} {hb : Nat}
    (each : ∀ member ∈ ms, member.2.nesting ≤ hb) : nestingMembers ms ≤ hb := by
  induction ms with
  | nil => exact Nat.zero_le _
  | cons member rest ih =>
    rw [nestingMembers]
    exact max_le (each member (by simp)) (ih fun next mem => each next (.tail _ mem))

def hexLower (n : Nat) : UInt8 := if n < 10 then 0x30 + n.toUInt8 else 0x61 + (n - 10).toUInt8

def escapeByte (b : UInt8) : List UInt8 :=
  if b = 0x22 then [0x5C, 0x22]
  else if b = 0x5C then [0x5C, 0x5C]
  else if b = 0x08 then [0x5C, 0x62]
  else if b = 0x09 then [0x5C, 0x74]
  else if b = 0x0A then [0x5C, 0x6E]
  else if b = 0x0C then [0x5C, 0x66]
  else if b = 0x0D then [0x5C, 0x72]
  else if b < 0x20 then [0x5C, 0x75, 0x30, 0x30, hexLower (b.toNat / 16), hexLower (b.toNat % 16)]
  else [b]

def writeString (text : String) : List UInt8 :=
  0x22 :: ((Utf8.encode text.toList).flatMap escapeByte ++ [0x22])

mutual

def write : Tree → List UInt8
  | .number n => Utf8.encode (Nat.toDigits 10 n)
  | .string text => writeString text
  | .array items => 0x5B :: (writeItems items ++ [0x5D])
  | .object members => 0x7B :: (writeMembers members ++ [0x7D])

def writeItems : List Tree → List UInt8
  | [] => []
  | [item] => item.write
  | item :: rest => item.write ++ 0x2C :: writeItems rest

def writeMembers : List (String × Tree) → List UInt8
  | [] => []
  | [(key, value)] => writeString key ++ 0x3A :: value.write
  | (key, value) :: rest => writeString key ++ 0x3A :: (value.write ++ 0x2C :: writeMembers rest)

end

end Tree

namespace ByteText

def isBlank (b : UInt8) : Bool := b = 0x20 || b = 0x09 || b = 0x0A || b = 0x0D

def Blank (text : List UInt8) : Prop := ∀ b ∈ text, isBlank b = true

def isHex (b : UInt8) : Bool := (0x30 ≤ b && b ≤ 0x39) || (0x41 ≤ b && b ≤ 0x46) || (0x61 ≤ b && b ≤ 0x66)

def isEscape (b : UInt8) : Bool :=
  b = 0x22 || b = 0x5C || b = 0x2F || b = 0x62 || b = 0x66 || b = 0x6E || b = 0x72 || b = 0x74

/-- The bytes of a string after its opening quote. -/
inductive StringBody : List UInt8 → Prop where
  | close : StringBody [0x22]
  | unescaped {b : UInt8} {text : List UInt8} : 0x20 ≤ b → b ≠ 0x22 → b ≠ 0x5C → StringBody text →
    StringBody (b :: text)
  | escape {b : UInt8} {text : List UInt8} : isEscape b = true → StringBody text → StringBody (0x5C :: b :: text)
  | unicode {b₁ b₂ b₃ b₄ : UInt8} {text : List UInt8} : isHex b₁ = true → isHex b₂ = true → isHex b₃ = true →
    isHex b₄ = true → StringBody text → StringBody (0x5C :: 0x75 :: b₁ :: b₂ :: b₃ :: b₄ :: text)

/-- What the bytes are a text of. -/
inductive Part where
  | value
  | padded
  | elements
  | members

/-- The grammar of JSON, with how deep the brackets and braces outside strings are nested. -/
inductive Derives : Part → Nat → List UInt8 → Prop where
  | null : Derives .value 0 [0x6E, 0x75, 0x6C, 0x6C]
  | true : Derives .value 0 [0x74, 0x72, 0x75, 0x65]
  | false : Derives .value 0 [0x66, 0x61, 0x6C, 0x73, 0x65]
  | number {text : List Char} {isFloat : Bool} : Grammar.NumberText text isFloat →
    Derives .value 0 (Utf8.encode text)
  | string {body : List UInt8} : StringBody body → Derives .value 0 (0x22 :: body)
  | emptyArray {blank : List UInt8} : Blank blank → Derives .value 1 (0x5B :: (blank ++ [0x5D]))
  | array {n : Nat} {text : List UInt8} : Derives .elements n text → Derives .value (n + 1) (0x5B :: (text ++ [0x5D]))
  | emptyObject {blank : List UInt8} : Blank blank → Derives .value 1 (0x7B :: (blank ++ [0x7D]))
  | object {n : Nat} {text : List UInt8} : Derives .members n text → Derives .value (n + 1) (0x7B :: (text ++ [0x7D]))
  | padded {n : Nat} {before text after : List UInt8} : Blank before → Derives .value n text → Blank after →
    Derives .padded n (before ++ (text ++ after))
  | lastElement {n : Nat} {text : List UInt8} : Derives .padded n text → Derives .elements n text
  | moreElements {n m : Nat} {text rest : List UInt8} : Derives .padded n text → Derives .elements m rest →
    Derives .elements (max n m) (text ++ 0x2C :: rest)
  | lastMember {n : Nat} {before key after text : List UInt8} : Blank before → StringBody key → Blank after →
    Derives .padded n text → Derives .members n (before ++ (0x22 :: key ++ (after ++ 0x3A :: text)))
  | moreMembers {n m : Nat} {text rest : List UInt8} : Derives .members n text → Derives .members m rest →
    Derives .members (max n m) (text ++ 0x2C :: rest)

def Document (n : Nat) (text : List UInt8) : Prop := Derives .padded n text

theorem Blank.nil : Blank [] := nofun

theorem Derives.pad {n : Nat} {text : List UInt8} (v : Derives .value n text) : Derives .padded n text := by
  have padded := Derives.padded Blank.nil v Blank.nil
  rw [List.nil_append, List.append_nil] at padded
  exact padded

end ByteText

namespace Tree

open ByteText

theorem hexLower_isHex {n : Nat} (small : n < 16) : isHex (hexLower n) = true := by
  have all : ∀ n : Fin 16, isHex (hexLower n) = true := by decide
  exact all ⟨n, small⟩

theorem escapeByte_body (b : UInt8) {text : List UInt8} (body : StringBody text) : StringBody (escapeByte b ++ text) := by
  unfold escapeByte
  split_ifs with quote backslash backspace tab newline feed ret control
  · exact .escape (by decide) body
  · exact .escape (by decide) body
  · exact .escape (by decide) body
  · exact .escape (by decide) body
  · exact .escape (by decide) body
  · exact .escape (by decide) body
  · exact .escape (by decide) body
  · have small : b.toNat < 32 := UInt8.lt_iff_toNat_lt.mp control
    exact .unicode (by decide) (by decide) (hexLower_isHex (by omega)) (hexLower_isHex (by omega)) body
  · exact .unescaped (UInt8.not_lt.mp control) quote backslash body

theorem writeString_body (bytes : List UInt8) : StringBody (bytes.flatMap escapeByte ++ [0x22]) := by
  induction bytes with
  | nil => exact .close
  | cons b bytes ih =>
    rw [List.flatMap_cons, List.append_assoc]
    exact escapeByte_body b ih

theorem writeString_member {n : Nat} (key : String) {text : List UInt8} (v : Derives .value n text) :
    Derives .members n (writeString key ++ 0x3A :: text) := by
  have mem := Derives.lastMember Blank.nil (writeString_body (Utf8.encode key.toList)) Blank.nil v.pad
  rw [List.nil_append, List.nil_append] at mem
  exact mem

mutual

theorem write_derives : (tree : Tree) → Derives .value tree.nesting tree.write
  | .number n =>
    .number ⟨[], Nat.toDigits 10 n, [], [], .inl rfl, Text.intText_toDigits n, .none, .none,
      by simp, rfl⟩
  | .string text => .string (writeString_body (Utf8.encode text.toList))
  | .array xs =>
    if empty : xs = [] then empty ▸ .emptyArray Blank.nil
    else .array (writeItems_derives xs empty)
  | .object ms =>
    if empty : ms = [] then empty ▸ .emptyObject Blank.nil
    else .object (writeMembers_derives ms empty)

theorem writeItems_derives : (xs : List Tree) → xs ≠ [] → Derives .elements (nestingItems xs) (writeItems xs)
  | [], ne => absurd rfl ne
  | [item], _ => by
    have last := Derives.lastElement item.write_derives.pad
    simpa [nestingItems, writeItems] using last
  | item :: next :: rest, _ => by
    rw [nestingItems, writeItems]
    · exact .moreElements item.write_derives.pad (writeItems_derives (next :: rest) nofun)
    · exact nofun

theorem writeMembers_derives : (ms : List (String × Tree)) → ms ≠ [] →
    Derives .members (nestingMembers ms) (writeMembers ms)
  | [], ne => absurd rfl ne
  | [(key, v)], _ => by
    have last := writeString_member key v.write_derives
    simpa [nestingMembers, writeMembers] using last
  | (key, v) :: next :: rest, _ => by
    rw [nestingMembers, writeMembers]
    · have more := Derives.moreMembers (writeString_member key v.write_derives)
        (writeMembers_derives (next :: rest) nofun)
      rw [List.append_assoc] at more
      exact more
    · exact nofun

end

end Tree

end Json
