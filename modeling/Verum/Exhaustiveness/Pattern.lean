import Mathlib.Tactic.Ring

namespace Exhaustiveness

/-- The literals of patterns over `Bool`, `Int` and `Text`. -/
inductive LiteralPattern where
  | int (value : Int)
  | bool (value : Bool)
  | text (value : String)
  deriving DecidableEq

/-- The pattern kinds that the coverage matrix distinguishes; bindings are wildcards. -/
inductive Pattern where
  | wildcard
  | literal (lit : LiteralPattern)
  | range (start finish : Option Int) (inclusive : Bool)
  | tuple (elements : List Pattern)
  | variant (name : String) (args : List Pattern)
  | or (alternatives : List Pattern)
  | and (conjuncts : List Pattern)
  | guard (pattern : Pattern)

inductive PatternColumn where
  | wildcard
  | constructor (name : String) (args : List PatternColumn)
  | literal (lit : LiteralPattern)
  | range (start finish : Option Int) (inclusive : Bool)
  | or (alternatives : List PatternColumn)
  | and (conjuncts : List PatternColumn)
  | guarded (inner : PatternColumn)
  | tuple (elements : List PatternColumn)

structure PatternRow where
  columns : List PatternColumn
  originalIndex : Nat
  hasGuard : Bool

/-- `value as i64` of an `i128`. -/
def toI64 (value : Int) : Int := value.bmod (2 ^ 64)

def LiteralPattern.truncated : LiteralPattern → LiteralPattern
  | int value => int (toI64 value)
  | bool value => bool value
  | text value => text value

mutual

def patternToColumn : Pattern → PatternColumn
  | .wildcard => .wildcard
  | .literal lit => .literal lit.truncated
  | .range start finish inclusive => .range start finish inclusive
  | .tuple elements => .tuple (patternsToColumns elements)
  | .variant name args => .constructor name (patternsToColumns args)
  | .or alternatives => .or (patternsToColumns alternatives)
  | .and conjuncts => .and (patternsToColumns conjuncts)
  | .guard pattern => .guarded (patternToColumn pattern)

def patternsToColumns : List Pattern → List PatternColumn
  | [] => []
  | pattern :: patterns => patternToColumn pattern :: patternsToColumns patterns

end

mutual

/-- The flag that the conversion to a column raises at every guard inside. -/
def Pattern.hasGuard : Pattern → Bool
  | .wildcard => false
  | .literal _ => false
  | .range _ _ _ => false
  | .tuple elements => Pattern.anyHasGuard elements
  | .variant _ args => Pattern.anyHasGuard args
  | .or alternatives => Pattern.anyHasGuard alternatives
  | .and conjuncts => Pattern.anyHasGuard conjuncts
  | .guard _ => true

def Pattern.anyHasGuard : List Pattern → Bool
  | [] => false
  | pattern :: patterns => pattern.hasGuard || Pattern.anyHasGuard patterns

end

def patternRow (index : Nat) : Pattern → PatternRow
  | .guard pattern => ⟨[patternToColumn pattern], index, true⟩
  | pattern => ⟨[patternToColumn pattern], index, pattern.hasGuard⟩

def buildMatrix (patterns : List Pattern) : List PatternRow :=
  patterns.zipIdx.map fun (pattern, index) => patternRow index pattern

/-- The payload of a variant is the unit tuple, its only field, or the tuple of its fields. -/
inductive Value where
  | int (value : Int)
  | bool (value : Bool)
  | text (value : String)
  | tuple (elements : List Value)
  | variant (name : String) (payload : Value)

def LiteralPattern.matches : LiteralPattern → Value → Bool
  | int value, .int actual => value == actual
  | bool value, .bool actual => value == actual
  | text value, .text actual => value == actual
  | _, _ => false

def inRange (start finish : Option Int) (inclusive : Bool) (value : Int) : Bool :=
  start.all (· ≤ value) && finish.all fun bound => if inclusive then value ≤ bound else value < bound

def payloadFields (arity : Nat) (payload : Value) : Option (List Value) :=
  if arity = 1 then some [payload]
  else match payload with
    | .tuple elements => if elements.length = arity then some elements else none
    | _ => none

mutual

/-- Whether a value has the shape of a pattern when every guard answers `guards`. -/
def Pattern.matches (guards : Bool) : Pattern → Value → Bool
  | .wildcard, _ => true
  | .literal lit, value => lit.matches value
  | .range start finish inclusive, .int value => inRange start finish inclusive value
  | .tuple elements, .tuple values => Pattern.matchesAll guards elements values
  | .variant name args, .variant actual payload =>
    name == actual && match payloadFields args.length payload with
      | some fields => Pattern.matchesAll guards args fields
      | none => false
  | .or alternatives, value => Pattern.matchesAny guards alternatives value
  | .and conjuncts, value => Pattern.matchesEvery guards conjuncts value
  | .guard pattern, value => guards && pattern.matches guards value
  | _, _ => false

def Pattern.matchesAll (guards : Bool) : List Pattern → List Value → Bool
  | [], [] => true
  | pattern :: patterns, value :: values =>
    pattern.matches guards value && Pattern.matchesAll guards patterns values
  | _, _ => false

def Pattern.matchesAny (guards : Bool) : List Pattern → Value → Bool
  | [], _ => false
  | pattern :: patterns, value => pattern.matches guards value || Pattern.matchesAny guards patterns value

def Pattern.matchesEvery (guards : Bool) : List Pattern → Value → Bool
  | [], _ => true
  | pattern :: patterns, value => pattern.matches guards value && Pattern.matchesEvery guards patterns value

end

mutual

def PatternColumn.covers (guards : Bool) : PatternColumn → Value → Bool
  | .wildcard, _ => true
  | .literal lit, value => lit.matches value
  | .range start finish inclusive, .int value => inRange start finish inclusive value
  | .tuple elements, .tuple values => PatternColumn.coversAll guards elements values
  | .constructor name args, .variant actual payload =>
    name == actual && match payloadFields args.length payload with
      | some fields => PatternColumn.coversAll guards args fields
      | none => false
  | .or alternatives, value => PatternColumn.coversAny guards alternatives value
  | .and conjuncts, value => PatternColumn.coversEvery guards conjuncts value
  | .guarded inner, value => guards && inner.covers guards value
  | _, _ => false

def PatternColumn.coversAll (guards : Bool) : List PatternColumn → List Value → Bool
  | [], [] => true
  | column :: columns, value :: values =>
    column.covers guards value && PatternColumn.coversAll guards columns values
  | _, _ => false

def PatternColumn.coversAny (guards : Bool) : List PatternColumn → Value → Bool
  | [], _ => false
  | column :: columns, value => column.covers guards value || PatternColumn.coversAny guards columns value

def PatternColumn.coversEvery (guards : Bool) : List PatternColumn → Value → Bool
  | [], _ => true
  | column :: columns, value => column.covers guards value && PatternColumn.coversEvery guards columns value

end

end Exhaustiveness
