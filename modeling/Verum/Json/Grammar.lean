import Verum.Json.Parser
import Verum.Json.Utf8

namespace Json

namespace Grammar

def isWs (c : Char) : Bool := c = ' ' || c = '\t' || c = '\n' || c = '\r'

def isDigit (c : Char) : Bool := '0' ≤ c && c ≤ '9'

/-- Whitespace from the start of the first text to the start of the second. -/
inductive Ws : List Char → List Char → Prop
  | done (text : List Char) : Ws text text
  | step {c : Char} {text rest : List Char} : isWs c = true → Ws text rest → Ws (c :: text) rest

def Digits (text : List Char) : Prop := text ≠ [] ∧ ∀ c ∈ text, isDigit c = true

inductive IntText : List Char → Prop
  | zero : IntText ['0']
  | digits {c : Char} {text : List Char} : isDigit c = true → c ≠ '0' → (∀ d ∈ text, isDigit d = true) →
    IntText (c :: text)

inductive FracText : List Char → Prop
  | none : FracText []
  | some {text : List Char} : Digits text → FracText ('.' :: text)

inductive ExpText : List Char → Prop
  | none : ExpText []
  | some {e : Char} {sign text : List Char} : e = 'e' ∨ e = 'E' → sign = [] ∨ sign = ['+'] ∨ sign = ['-'] →
    Digits text → ExpText (e :: (sign ++ text))

/-- The text of a number, with whether it has a fraction or an exponent. -/
def NumberText (text : List Char) (isFloat : Bool) : Prop :=
  ∃ minus int frac exp, (minus = [] ∨ minus = ['-']) ∧ IntText int ∧ FracText frac ∧ ExpText exp ∧
    text = minus ++ (int ++ (frac ++ exp)) ∧ isFloat = !(frac.isEmpty && exp.isEmpty)

/-- The text does not start with a digit. -/
def NoDigit (text : List Char) : Prop := text.head?.any isDigit = false

/-- A number text before the rest, every part of which goes as far as it can. -/
def GreedyNumber (text : List Char) (isFloat : Bool) (rest : List Char) : Prop :=
  ∃ minus int frac exp, (minus = [] ∨ minus = ['-']) ∧ IntText int ∧ FracText frac ∧ ExpText exp ∧
    text = minus ++ (int ++ (frac ++ exp)) ∧ isFloat = !(frac.isEmpty && exp.isEmpty) ∧
    (int ≠ ['0'] → NoDigit (frac ++ (exp ++ rest))) ∧
    (if frac = [] then (exp ++ rest).head? ≠ some '.' else NoDigit (exp ++ rest)) ∧
    (if exp = [] then rest.head? ≠ some 'e' ∧ rest.head? ≠ some 'E' else NoDigit rest)

def GreedyAt (text rest : List Char) : Prop :=
  ∀ number isFloat, NumberText number isFloat → text = number ++ rest → GreedyNumber number isFloat rest

def hexValue (c : Char) : Option Nat :=
  if '0' ≤ c ∧ c ≤ '9' then some (c.toNat - 0x30)
  else if 'A' ≤ c ∧ c ≤ 'F' then some (c.toNat - 0x41 + 10)
  else if 'a' ≤ c ∧ c ≤ 'f' then some (c.toNat - 0x61 + 10)
  else none

/-- The code unit written by four hex digits, and the text after them. -/
inductive Hex4 : List Char → Nat → List Char → Prop
  | mk {c₁ c₂ c₃ c₄ : Char} {v₁ v₂ v₃ v₄ : Nat} {rest : List Char} : hexValue c₁ = some v₁ → hexValue c₂ = some v₂ →
    hexValue c₃ = some v₃ → hexValue c₄ = some v₄ →
    Hex4 (c₁ :: c₂ :: c₃ :: c₄ :: rest) (((v₁ * 16 + v₂) * 16 + v₃) * 16 + v₄) rest

def escaped : Char → Option Char
  | '"' => some '"'
  | '\\' => some '\\'
  | '/' => some '/'
  | 'b' => some '\x08'
  | 'f' => some '\x0C'
  | 'n' => some '\n'
  | 'r' => some '\r'
  | 't' => some '\t'
  | _ => none

/-- An escape after its backslash: its text, its character and the text after it. -/
inductive Escape : List Char → Char → List Char → Prop
  | letter {c e : Char} (rest : List Char) : escaped c = some e → Escape (c :: rest) e rest
  | unicode {unit : Nat} {hex rest : List Char} : Hex4 hex unit rest → ¬ (0xD800 ≤ unit ∧ unit ≤ 0xDFFF) →
    Escape ('u' :: hex) (Char.ofNat unit) rest
  | pair {high low : Nat} {hex hex' rest : List Char} : Hex4 hex high ('\\' :: 'u' :: hex') →
    0xD800 ≤ high → high ≤ 0xDBFF → Hex4 hex' low rest → 0xDC00 ≤ low → low ≤ 0xDFFF →
    Escape ('u' :: hex) (Char.ofNat (0x10000 + (high - 0xD800) * 0x400 + (low - 0xDC00))) rest

/-- The rest of a string after its opening quote: its text, its characters and the text after it. -/
inductive StringBody : List Char → List Char → List Char → Prop
  | close (rest : List Char) : StringBody ('"' :: rest) [] rest
  | unescaped {c : Char} {text chars rest : List Char} : 0x20 ≤ c.toNat → c ≠ '"' → c ≠ '\\' →
    StringBody text chars rest → StringBody (c :: text) (c :: chars) rest
  | escape {c : Char} {text text' chars rest : List Char} : Escape text c text' →
    StringBody text' chars rest → StringBody ('\\' :: text) (c :: chars) rest

/-- A string within the limit on its bytes. -/
inductive StringText : List Char → Text → List Char → Prop
  | mk {body chars rest : List Char} : StringBody body chars rest →
    (Utf8.encode chars).length ≤ maxJsonStringBytes → StringText ('"' :: body) (Utf8.encode chars) rest

variable {F : Type}

/-- The members of an object in the order of the text: the last of two with one key stays. -/
def lastWins (fields : List (Text × JsonValue F)) (members : List (Text × JsonValue F)) :
    List (Text × JsonValue F) :=
  members.foldl (fun fields member => Fields.insert member.1 member.2 fields) fields

def denote (numbers : Numbers F) (isFloat : Bool) (text : List Char) : JsonValue F :=
  (Parser.numberValue numbers isFloat (Utf8.encode text)).getD .jsonNull

/-- What a text can be derived as. -/
inductive Derived (F : Type) where
  | value (v : JsonValue F)
  | elements (vs : List (JsonValue F))
  | members (ms : List (Text × JsonValue F))

/-- A text, what its start is derived as with nesting at most `n`, and the text after that. Elements and members
run to the closing bracket. -/
inductive Derives (numbers : Numbers F) (strict : Bool) : Nat → List Char → Derived F → List Char → Prop
  | null {n : Nat} (rest : List Char) :
    Derives numbers strict n ('n' :: 'u' :: 'l' :: 'l' :: rest) (.value .jsonNull) rest
  | true {n : Nat} (rest : List Char) :
    Derives numbers strict n ('t' :: 'r' :: 'u' :: 'e' :: rest) (.value (.jsonBool Bool.true)) rest
  | false {n : Nat} (rest : List Char) :
    Derives numbers strict n ('f' :: 'a' :: 'l' :: 's' :: 'e' :: rest) (.value (.jsonBool Bool.false)) rest
  | number {n : Nat} {number : List Char} {isFloat : Bool} (rest : List Char) : NumberText number isFloat →
    Derives numbers strict n (number ++ rest) (.value (denote numbers isFloat number)) rest
  | string {n : Nat} {text rest : List Char} {s : Text} : StringText text s rest →
    Derives numbers strict n text (.value (.jsonString s)) rest
  | emptyArray {n : Nat} {text rest : List Char} : Ws text (']' :: rest) →
    Derives numbers strict (n + 1) ('[' :: text) (.value (.jsonArray [])) rest
  | array {n : Nat} {text rest : List Char} {vs : List (JsonValue F)} :
    Derives numbers strict n text (.elements vs) rest → vs.length ≤ maxJsonArrayItems →
    Derives numbers strict (n + 1) ('[' :: text) (.value (.jsonArray vs)) rest
  | emptyObject {n : Nat} {text rest : List Char} : Ws text ('}' :: rest) →
    Derives numbers strict (n + 1) ('{' :: text) (.value (.jsonObject [])) rest
  | object {n : Nat} {text rest : List Char} {ms : List (Text × JsonValue F)} :
    Derives numbers strict n text (.members ms) rest → (lastWins [] ms).length ≤ maxJsonObjectKeys →
    (strict = Bool.true → (ms.map Prod.fst).Nodup) →
    Derives numbers strict (n + 1) ('{' :: text) (.value (.jsonObject (lastWins [] ms))) rest
  | lastElement {n : Nat} {text text₁ text₂ rest : List Char} {v : JsonValue F} : Ws text text₁ →
    Derives numbers strict n text₁ (.value v) text₂ → Ws text₂ (']' :: rest) →
    Derives numbers strict n text (.elements [v]) rest
  | moreElements {n : Nat} {text text₁ text₂ text₃ rest : List Char} {v : JsonValue F} {vs : List (JsonValue F)} :
    Ws text text₁ → Derives numbers strict n text₁ (.value v) text₂ → Ws text₂ (',' :: text₃) →
    Derives numbers strict n text₃ (.elements vs) rest → Derives numbers strict n text (.elements (v :: vs)) rest
  | lastMember {n : Nat} {text text₁ text₂ text₃ text₄ text₅ rest : List Char} {key : Text} {v : JsonValue F} :
    Ws text text₁ → StringText text₁ key text₂ → Ws text₂ (':' :: text₃) → Ws text₃ text₄ →
    Derives numbers strict n text₄ (.value v) text₅ → Ws text₅ ('}' :: rest) →
    Derives numbers strict n text (.members [(key, v)]) rest
  | moreMembers {n : Nat} {text text₁ text₂ text₃ text₄ text₅ text₆ rest : List Char} {key : Text}
    {v : JsonValue F} {ms : List (Text × JsonValue F)} :
    Ws text text₁ → StringText text₁ key text₂ → Ws text₂ (':' :: text₃) → Ws text₃ text₄ →
    Derives numbers strict n text₄ (.value v) text₅ → Ws text₅ (',' :: text₆) →
    Derives numbers strict n text₆ (.members ms) rest → Derives numbers strict n text (.members ((key, v) :: ms)) rest

def Document (numbers : Numbers F) (strict : Bool) (text : List Char) (v : JsonValue F) : Prop :=
  ∃ start rest, Ws text start ∧ Derives numbers strict maxJsonDepth start (.value v) rest ∧ Ws rest []

def FirstValue (numbers : Numbers F) (text : List Char) (v : JsonValue F) (rest : List Char) : Prop :=
  ∃ start, Ws text start ∧ Derives numbers false maxJsonDepth start (.value v) rest ∧ GreedyAt start rest

def Accepts (numbers : Numbers F) : Prop :=
  ∀ text isFloat, NumberText text isFloat → (numbers.parseFloat (Utf8.encode text)).isSome

end Grammar

end Json
