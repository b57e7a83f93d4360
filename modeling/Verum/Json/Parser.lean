import Mathlib.Data.List.Basic

namespace Json

abbrev Text := List UInt8

def ascii (chars : String) : Text := chars.toList.map fun c => c.toNat.toUInt8

/-- Floats are those of the number parsers; the members of an object are listed in an order of the map. -/
inductive JsonValue (F : Type) where
  | jsonNull
  | jsonBool (value : Bool)
  | jsonInt (value : Int64)
  | jsonFloat (value : F)
  | jsonString (value : Text)
  | jsonArray (elems : List (JsonValue F))
  | jsonObject (fields : List (Text × JsonValue F))

inductive JsonErrorKind where
  | unexpectedEof
  | unexpectedChar
  | invalidEscape
  | invalidNumber
  | invalidUnicode
  | depthLimit
  | stringTooLong
  | arrayTooLarge
  | objectTooLarge
  | trailingGarbage
  | duplicateKey
  | documentTooLarge
  | invalidLimit
  deriving DecidableEq

structure JsonError where
  kind : JsonErrorKind
  line : Nat
  column : Nat
  message : Text
  deriving DecidableEq

/-- An error of the parser, or a model run whose fuel did not suffice. -/
inductive Stop where
  | failed (error : JsonError)
  | outOfFuel
  deriving DecidableEq

def maxJsonDepth : Nat := 256

def maxJsonStringBytes : Nat := 32 * 1024 * 1024

def maxJsonArrayItems : Nat := 1000000

def maxJsonObjectKeys : Nat := 1000000

/-- The bytes from the cursor on, with the rest of the state. -/
structure Parser where
  rest : List UInt8
  line : Nat
  column : Nat
  depth : Nat
  rejectDuplicateKeys : Bool

/-- The number parsers of the text library. -/
structure Numbers (F : Type) where
  parseInt : Text → Option Int64
  parseFloat : Text → Option F

namespace Fields

variable {α : Type}

def containsKey (key : Text) (fields : List (Text × α)) : Bool := fields.any fun field => field.1 = key

def insert (key : Text) (value : α) : List (Text × α) → List (Text × α)
  | [] => [(key, value)]
  | field :: fields => if field.1 = key then (key, value) :: fields else field :: insert key value fields

end Fields

namespace Parser

def new (bytes : List UInt8) : Parser := ⟨bytes, 1, 1, 0, false⟩

def mkErr (p : Parser) (kind : JsonErrorKind) (message : String) : Stop :=
  .failed ⟨kind, p.line, p.column, ascii message⟩

def peek (p : Parser) : Option UInt8 := p.rest.head?

def advance (p : Parser) : Parser :=
  match p.rest with
  | [] => p
  | b :: rest =>
    if b = 0x0A then { p with rest := rest, line := p.line + 1, column := 1 }
    else { p with rest := rest, column := p.column + 1 }

def advanceWhile (test : UInt8 → Bool) (p : Parser) : Parser :=
  (p.rest.takeWhile test).foldl (fun p _ => p.advance) p

def isWs (b : UInt8) : Bool := b = 0x20 || b = 0x09 || b = 0x0A || b = 0x0D

def isDigit (b : UInt8) : Bool := 0x30 ≤ b && b ≤ 0x39

def skipWs (p : Parser) : Parser := p.advanceWhile isWs

def expectByte (p : Parser) (b : UInt8) (ctx : String) : Except Stop Parser :=
  match p.peek with
  | some c => if c = b then .ok p.advance else .error (p.mkErr .unexpectedChar ctx)
  | none => .error (p.mkErr .unexpectedEof ctx)

def matchLiteral (p : Parser) (expected : List UInt8) : Option Parser :=
  if expected.isPrefixOf p.rest then some (expected.foldl (fun p _ => p.advance) p) else none

variable {F : Type}

def parseNull (p : Parser) : Except Stop (JsonValue F × Parser) :=
  match p.matchLiteral [0x6E, 0x75, 0x6C, 0x6C] with
  | some p => .ok (.jsonNull, p)
  | none => .error (p.mkErr .unexpectedChar "expected 'null'")

def parseBool (p : Parser) : Except Stop (JsonValue F × Parser) :=
  match p.matchLiteral [0x74, 0x72, 0x75, 0x65] with
  | some p => .ok (.jsonBool true, p)
  | none =>
    match p.matchLiteral [0x66, 0x61, 0x6C, 0x73, 0x65] with
    | some p => .ok (.jsonBool false, p)
    | none => .error (p.mkErr .unexpectedChar "expected 'true' or 'false'")

def hexDigit (b : UInt8) : Option Nat :=
  if 0x30 ≤ b ∧ b ≤ 0x39 then some (b - 0x30).toNat
  else if 0x41 ≤ b ∧ b ≤ 0x46 then some (b - 0x41 + 10).toNat
  else if 0x61 ≤ b ∧ b ≤ 0x66 then some (b - 0x61 + 10).toNat
  else none

def hexLoop : Nat → Nat → Parser → Except Stop (Nat × Parser)
  | 0, v, p => .ok (v, p)
  | count + 1, v, p =>
    match p.peek with
    | none => .error (p.mkErr .unexpectedEof "short unicode escape")
    | some b =>
      match hexDigit b with
      | some n => hexLoop count (v * 16 + n) p.advance
      | none => .error (p.mkErr .invalidUnicode "non-hex in \\u escape")

attribute [grind =] hexLoop

def parseHex4 (p : Parser) : Except Stop (Nat × Parser) := hexLoop 4 0 p

def pushUtf8 (out : Text) (cp : Nat) : Text :=
  if cp < 0x80 then out ++ [cp.toUInt8]
  else if cp < 0x800 then out ++ [(0xC0 ||| (cp >>> 6)).toUInt8, (0x80 ||| (cp &&& 0x3F)).toUInt8]
  else if cp < 0x10000 then
    out ++ [(0xE0 ||| (cp >>> 12)).toUInt8, (0x80 ||| ((cp >>> 6) &&& 0x3F)).toUInt8,
      (0x80 ||| (cp &&& 0x3F)).toUInt8]
  else
    out ++ [(0xF0 ||| (cp >>> 18)).toUInt8, (0x80 ||| ((cp >>> 12) &&& 0x3F)).toUInt8,
      (0x80 ||| ((cp >>> 6) &&& 0x3F)).toUInt8, (0x80 ||| (cp &&& 0x3F)).toUInt8]

def parseUnicodeEscape (p : Parser) (out : Text) : Except Stop (Text × Parser) := do
  let (cp, p) ← p.parseHex4
  if 0xD800 ≤ cp ∧ cp ≤ 0xDBFF then
    let p ← p.expectByte 0x5C "expected low surrogate after high surrogate"
    let p ← p.expectByte 0x75 "expected '\\u' for low surrogate"
    let (low, p) ← p.parseHex4
    if low < 0xDC00 ∨ low > 0xDFFF then .error (p.mkErr .invalidUnicode "invalid low surrogate")
    else .ok (pushUtf8 out (0x10000 + (cp - 0xD800) * 0x400 + (low - 0xDC00)), p)
  else if 0xDC00 ≤ cp ∧ cp ≤ 0xDFFF then .error (p.mkErr .invalidUnicode "unpaired low surrogate")
  else .ok (pushUtf8 out cp, p)

def simpleEscape (b : UInt8) : Option UInt8 :=
  if b = 0x22 then some 0x22
  else if b = 0x5C then some 0x5C
  else if b = 0x2F then some 0x2F
  else if b = 0x62 then some 0x08
  else if b = 0x66 then some 0x0C
  else if b = 0x6E then some 0x0A
  else if b = 0x72 then some 0x0D
  else if b = 0x74 then some 0x09
  else none

def parseEscape (p : Parser) (out : Text) : Except Stop (Text × Parser) :=
  match p.peek with
  | none => .error (p.mkErr .unexpectedEof "incomplete escape")
  | some b =>
    match simpleEscape b with
    | some c => .ok (out ++ [c], p.advance)
    | none =>
      if b = 0x75 then p.advance.parseUnicodeEscape out
      else .error (p.advance.mkErr .invalidEscape "unknown escape")

def stringLoop : Nat → Text → Parser → Except Stop (Text × Parser)
  | 0, _, _ => .error .outOfFuel
  | fuel + 1, buf, p =>
    match p.peek with
    | none => .error (p.mkErr .unexpectedEof "unterminated string")
    | some b =>
      if b = 0x22 then .ok (buf, p.advance)
      else do
        let (buf, p) ←
          if b = 0x5C then p.advance.parseEscape buf
          else if b < 0x20 then .error (p.mkErr .unexpectedChar "unescaped control character")
          else .ok (buf ++ [b], p.advance)
        if buf.length > maxJsonStringBytes then
          .error (p.mkErr .stringTooLong "string exceeds MAX_JSON_STRING_BYTES (32 MiB)")
        else stringLoop fuel buf p

attribute [grind =] stringLoop

def parseStringRaw (p : Parser) : Except Stop (Text × Parser) := do
  let p ← p.expectByte 0x22 "expected '\"'"
  stringLoop (p.rest.length + 1) [] p

def parseStringValue (p : Parser) : Except Stop (JsonValue F × Parser) := do
  let (s, p) ← p.parseStringRaw
  .ok (.jsonString s, p)

def digits (p : Parser) (message : String) : Except Stop Parser :=
  if p.peek.any isDigit then .ok (p.advanceWhile isDigit) else .error (p.mkErr .invalidNumber message)

def integerPart (p : Parser) : Except Stop Parser :=
  if p.peek = some 0x30 then .ok p.advance else p.digits "expected digit"

def fractionPart (p : Parser) : Except Stop (Bool × Parser) :=
  if p.peek = some 0x2E then do
    let p ← p.advance.digits "expected digit after '.'"
    .ok (true, p)
  else .ok (false, p)

def exponentPart (p : Parser) : Except Stop (Bool × Parser) :=
  if p.peek = some 0x65 ∨ p.peek = some 0x45 then do
    let p := p.advance
    let p := if p.peek = some 0x2B ∨ p.peek = some 0x2D then p.advance else p
    let p ← p.digits "expected digit in exponent"
    .ok (true, p)
  else .ok (false, p)

/-- The value of a number text; an integer that is none falls back to a float. -/
def numberValue (numbers : Numbers F) (isFloat : Bool) (repr : Text) : Option (JsonValue F) :=
  if isFloat then (numbers.parseFloat repr).map .jsonFloat
  else match numbers.parseInt repr with
    | some i => some (.jsonInt i)
    | none => (numbers.parseFloat repr).map .jsonFloat

def parseNumber (numbers : Numbers F) (start : Parser) : Except Stop (JsonValue F × Parser) := do
  let p := if start.peek = some 0x2D then start.advance else start
  let p ← p.integerPart
  let (hasFraction, p) ← p.fractionPart
  let (hasExponent, p) ← p.exponentPart
  let isFloat := hasFraction || hasExponent
  match numberValue numbers isFloat (start.rest.take (start.rest.length - p.rest.length)) with
  | some value => .ok (value, p)
  | none => .error (p.mkErr .invalidNumber (if isFloat then "float out of range" else "integer out of range"))

/-- The brackets around the elements, once the loop over them is known. -/
def parseArray (loop : Parser → Except Stop (List (JsonValue F) × Parser)) (p : Parser) :
    Except Stop (JsonValue F × Parser) :=
  if p.depth ≥ maxJsonDepth then .error (p.mkErr .depthLimit "array nesting too deep")
  else do
    let p ← { p with depth := p.depth + 1 }.expectByte 0x5B "expected '['"
    let p := p.skipWs
    if p.peek = some 0x5D then .ok (.jsonArray [], { p.advance with depth := p.depth - 1 })
    else do
      let (elems, p) ← loop p
      .ok (.jsonArray elems, { p with depth := p.depth - 1 })

def parseObject (loop : Parser → Except Stop (List (Text × JsonValue F) × Parser)) (p : Parser) :
    Except Stop (JsonValue F × Parser) :=
  if p.depth ≥ maxJsonDepth then .error (p.mkErr .depthLimit "object nesting too deep")
  else do
    let p ← { p with depth := p.depth + 1 }.expectByte 0x7B "expected '\x7b'"
    let p := p.skipWs
    if p.peek = some 0x7D then .ok (.jsonObject [], { p.advance with depth := p.depth - 1 })
    else do
      let (fields, p) ← loop p
      .ok (.jsonObject fields, { p with depth := p.depth - 1 })

def parseKey (fields : List (Text × JsonValue F)) (p : Parser) : Except Stop (Text × Parser) := do
  let start := p
  let (key, p) ← p.parseStringRaw
  if p.rejectDuplicateKeys && Fields.containsKey key fields then
    .error (.failed ⟨.duplicateKey, start.line, start.column, ascii "duplicate object key: " ++ key⟩)
  else do
    let p ← p.skipWs.expectByte 0x3A "expected ':' after key"
    .ok (key, p)

mutual

def parseValueImpl (numbers : Numbers F) : Nat → Parser → Except Stop (JsonValue F × Parser)
  | 0, _ => .error .outOfFuel
  | fuel + 1, start =>
    let p := start.skipWs
    match p.peek with
    | none => .error (p.mkErr .unexpectedEof "expected JSON value")
    | some b =>
      if b = 0x7B then parseObject (objectLoop numbers fuel []) p
      else if b = 0x5B then parseArray (arrayLoop numbers fuel []) p
      else if b = 0x22 then p.parseStringValue
      else if b = 0x74 ∨ b = 0x66 then p.parseBool
      else if b = 0x6E then p.parseNull
      else p.parseNumber numbers

/-- The loop over the elements of an array, from one to the closing bracket. -/
def arrayLoop (numbers : Numbers F) : Nat → List (JsonValue F) → Parser → Except Stop (List (JsonValue F) × Parser)
  | 0, _, _ => .error .outOfFuel
  | fuel + 1, elems, start => do
    let (v, p) ← parseValueImpl numbers fuel start.skipWs
    let elems := elems ++ [v]
    if elems.length > maxJsonArrayItems then
      .error (p.mkErr .arrayTooLarge "array exceeds MAX_JSON_ARRAY_ITEMS (1M)")
    else
      let p := p.skipWs
      match p.peek with
      | none => .error (p.mkErr .unexpectedEof "unterminated array")
      | some b =>
        if b = 0x2C then arrayLoop numbers fuel elems p.advance
        else if b = 0x5D then .ok (elems, p.advance)
        else .error (p.mkErr .unexpectedChar "expected ',' or ']'")

/-- The loop over the members of an object, from one to the closing brace. -/
def objectLoop (numbers : Numbers F) :
    Nat → List (Text × JsonValue F) → Parser → Except Stop (List (Text × JsonValue F) × Parser)
  | 0, _, _ => .error .outOfFuel
  | fuel + 1, fields, start => do
    let (key, p) ← parseKey fields start.skipWs
    let (value, p) ← parseValueImpl numbers fuel p.skipWs
    let fields := Fields.insert key value fields
    if fields.length > maxJsonObjectKeys then
      .error (p.mkErr .objectTooLarge "object exceeds MAX_JSON_OBJECT_KEYS (1M)")
    else
      let p := p.skipWs
      match p.peek with
      | none => .error (p.mkErr .unexpectedEof "unterminated object")
      | some b =>
        if b = 0x2C then objectLoop numbers fuel fields p.advance
        else if b = 0x7D then .ok (fields, p.advance)
        else .error (p.mkErr .unexpectedChar "expected ',' or '\x7d'")

end

def parseDocument (numbers : Numbers F) (fuel : Nat) (p : Parser) : Except Stop (JsonValue F) := do
  let (value, p) ← parseValueImpl numbers fuel p.skipWs
  let p := p.skipWs
  if p.rest = [] then .ok value
  else .error (p.mkErr .trailingGarbage "unexpected content after JSON value")

end Parser

variable {F : Type}

/-- Two units of fuel a byte are enough: one for a value and one for the turn of a loop. -/
def enoughFuel (bytes : List UInt8) : Nat := 2 * bytes.length + 1

def parse (numbers : Numbers F) (source : Text) : Except Stop (JsonValue F) :=
  (Parser.new source).parseDocument numbers (enoughFuel source)

def parseStrict (numbers : Numbers F) (source : Text) (maxBytes : Int) : Except Stop (JsonValue F) :=
  let p := Parser.new source
  if maxBytes < 0 then .error (p.mkErr .invalidLimit "JSON document byte limit must be non-negative")
  else if source.length > maxBytes then
    .error (p.mkErr .documentTooLarge "JSON document exceeds its byte limit")
  else { p with rejectDuplicateKeys := true }.parseDocument numbers (enoughFuel source)

/-- The value at the start of the text; what comes after it is not looked at. -/
def parseValue (numbers : Numbers F) (source : Text) : Except Stop (JsonValue F) := do
  let (value, _) ← Parser.parseValueImpl numbers (enoughFuel source) (Parser.new source).skipWs
  .ok value

end Json
