import Mathlib.Tactic.Ring
import Verum.Json.Parser

namespace Json

namespace Text

def digitValue (b : UInt8) : Option Nat :=
  if 48 ≤ b ∧ b ≤ 57 then some (b.toNat - 48)
  else if 65 ≤ b ∧ b ≤ 90 then some (b.toNat - 65 + 10)
  else if 97 ≤ b ∧ b ≤ 122 then some (b.toNat - 97 + 10)
  else none

def magnitude (radix : Nat) : Nat → Text → Option Nat
  | mag, [] => some mag
  | mag, b :: rest =>
    match digitValue b with
    | none => none
    | some digit =>
      if digit ≥ radix then none
      else if mag > (2 ^ 64 - 1) / radix then none
      else
        let next := (mag * radix + digit) % 2 ^ 64
        if next < mag then none else magnitude radix next rest

def signed (negative : Bool) (mag : Nat) : Option Int64 :=
  if negative then
    if mag > 2 ^ 63 then none
    else if mag = 2 ^ 63 then some Int64.minValue
    else some (0 - Int64.ofNat mag)
  else if mag > 2 ^ 63 - 1 then none
  else some (Int64.ofNat mag)

def parseIntRadix (text : Text) (radix : Nat) : Option Int64 :=
  if radix < 2 ∨ radix > 36 then none
  else match text with
    | [] => none
    | first :: rest =>
      let negative := first = 45
      let digits := if negative ∨ first = 43 then rest else first :: rest
      if digits = [] then none else (magnitude radix 0 digits).bind (signed negative)

def parseInt (text : Text) : Option Int64 := parseIntRadix text 10

/-- A run of decimal digits: whether there is one, and what follows the run. -/
def digitRun (text : Text) : Bool × Text := (text.head?.any Parser.isDigit, text.dropWhile Parser.isDigit)

def afterSign (text : Text) : Text := if text.head? = some 43 ∨ text.head? = some 45 then text.tail else text

/-- The value is that of the conversion; only the form is checked. -/
def parseFloat {F : Type} (toFloat : Text → F) (text : Text) : Option F :=
  if text = [] then none
  else
    let (seenInt, rest) := digitRun (afterSign text)
    let (seenFrac, rest) := if rest.head? = some 46 then digitRun rest.tail else (false, rest)
    let (expDigits, rest) :=
      if rest.head? = some 101 ∨ rest.head? = some 69 then digitRun (afterSign rest.tail) else (true, rest)
    if !expDigits then none
    else if !(seenInt || seenFrac) then none
    else if rest ≠ [] then none
    else some (toFloat text)

end Text

/-- The number parsers of the text library over a conversion to floats. -/
def textNumbers {F : Type} (toFloat : Text → F) : Numbers F := ⟨Text.parseInt, Text.parseFloat toFloat⟩

end Json
