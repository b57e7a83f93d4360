import Verum.SyntaxTree.Green

namespace SyntaxTree

inductive DocCommentKind where
  | outer
  | inner
  deriving DecidableEq

inductive Trivia where
  | whitespace (text : Text)
  | newline (text : Text)
  | lineComment (text : Text)
  | blockComment (text : Text)
  | docComment (kind : DocCommentKind) (text : Text)
  deriving DecidableEq

namespace Trivia

def text : Trivia → Text
  | whitespace text => text
  | newline text => text
  | lineComment text => text
  | blockComment text => text
  | docComment _ text => text

def isNewline : Trivia → Bool
  | newline _ => true
  | _ => false

end Trivia

def concatText (items : List Trivia) : Text := items.flatMap Trivia.text

/-- `&text[start..stop]`; `none` is a range that is inverted or not on character boundaries. -/
def slice (text : Text) (start stop : Nat) : Option Text :=
  if start ≤ stop then do
    let (_, back) ← splitBytes start text
    let (middle, _) ← splitBytes (stop - start) back
    some middle
  else none

def flush (text : Text) (currentStart currentPos : Nat) (result : List Trivia) : Option (List Trivia) :=
  if currentStart < currentPos then
    (slice text currentStart currentPos).map fun space => result ++ [.whitespace space]
  else some result

/-- A terminator's first character takes the next one along when that is `other`. -/
def newlineRest (other : Char) (chars : Text) : Text := if chars.head? = some other then chars.tail else chars

def newlineEnd (other : Char) (chars : Text) (currentPos : Nat) : Nat :=
  if chars.head? = some other then currentPos + 2 else currentPos + 1

def lineEnd : Text → Nat → Text × Nat
  | [], currentPos => ([], currentPos)
  | char :: chars, currentPos =>
    if char = '\n' ∨ char = '\r' then (char :: chars, currentPos)
    else lineEnd chars (currentPos + char.utf8Size)

/-- The loop to the end of a block comment; the depth is an `i32`. -/
def blockEnd : Int → Text → Nat → Text × Nat
  | _, [], currentPos => ([], currentPos)
  | depth, [char], currentPos =>
    if depth > 0 then ([], currentPos + char.utf8Size) else ([char], currentPos)
  | depth, char :: next :: chars, currentPos =>
    if depth > 0 then
      if char = '*' ∧ next = '/' then blockEnd ((depth - 1).bmod (2 ^ 32)) chars (currentPos + 2)
      else if char = '/' ∧ next = '*' then blockEnd ((depth + 1).bmod (2 ^ 32)) chars (currentPos + 2)
      else blockEnd depth (next :: chars) (currentPos + char.utf8Size)
    else (char :: next :: chars, currentPos)

theorem newlineRest_length (other : Char) (chars : Text) : (newlineRest other chars).length ≤ chars.length := by
  unfold newlineRest
  split
  · rw [List.length_tail]
    omega
  · exact Nat.le_refl _

theorem lineEnd_length (chars : Text) (currentPos : Nat) : (lineEnd chars currentPos).1.length ≤ chars.length := by
  induction chars generalizing currentPos with
  | nil => exact Nat.le_refl _
  | cons char chars ih =>
    rw [lineEnd]
    split
    · exact Nat.le_refl _
    · exact Nat.le_trans (ih _) (Nat.le_succ _)

theorem blockEnd_length (d : Int) (chars : Text) (currentPos : Nat) :
    (blockEnd d chars currentPos).1.length ≤ chars.length := by
  induction d, chars, currentPos using blockEnd.induct with
  | case1 => exact Nat.le_refl _
  | case2 d char currentPos pos => rw [blockEnd, if_pos pos]; exact Nat.zero_le _
  | case3 d char currentPos done | case7 d char next chars currentPos done =>
    exact Nat.le_of_eq (by rw [blockEnd, if_neg done])
  | case4 d char next chars currentPos pos closes ih =>
    rw [blockEnd, if_pos pos, if_pos closes]
    exact Nat.le_trans ih (by simp only [List.length_cons]; omega)
  | case5 d char next chars currentPos pos closes opens ih =>
    rw [blockEnd, if_pos pos, if_neg closes, if_pos opens]
    exact Nat.le_trans ih (by simp only [List.length_cons]; omega)
  | case6 d char next chars currentPos pos closes opens ih =>
    rw [blockEnd, if_pos pos, if_neg closes, if_neg opens]
    exact Nat.le_trans ih (Nat.le_succ _)

/-- The kind of a comment that starts with two slashes, from the character after them. -/
def commentOf (chars : Text) (text : Text) : Trivia :=
  if chars.head? = some '!' then .docComment .inner text
  else if chars.head? = some '/' then .docComment .outer text
  else .lineComment text

def classifyLoop (text : Text) : Text → Nat → Nat → List Trivia → Option (List Trivia)
  | [], currentStart, currentPos, result => flush text currentStart currentPos result
  | char :: chars, currentStart, currentPos, result =>
    if char = '\n' then do
      let result ← flush text currentStart currentPos result
      let stop := newlineEnd '\r' chars currentPos
      let newline ← slice text currentPos stop
      classifyLoop text (newlineRest '\r' chars) stop stop (result ++ [.newline newline])
    else if char = '\r' then do
      let result ← flush text currentStart currentPos result
      let stop := newlineEnd '\n' chars currentPos
      let newline ← slice text currentPos stop
      classifyLoop text (newlineRest '\n' chars) stop stop (result ++ [.newline newline])
    else if char = '/' ∧ chars.head? = some '/' then do
      let result ← flush text currentStart currentPos result
      let stop := (lineEnd chars.tail (currentPos + 2)).2
      let comment ← slice text currentPos stop
      classifyLoop text (lineEnd chars.tail (currentPos + 2)).1 stop stop
        (result ++ [commentOf chars.tail comment])
    else if char = '/' ∧ chars.head? = some '*' then do
      let result ← flush text currentStart currentPos result
      let stop := (blockEnd 1 chars.tail (currentPos + 2)).2
      let comment ← slice text currentPos stop
      classifyLoop text (blockEnd 1 chars.tail (currentPos + 2)).1 stop stop
        (result ++ [.blockComment comment])
    else classifyLoop text chars currentStart (currentPos + char.utf8Size) result
termination_by chars => chars.length
decreasing_by
  all_goals
    have := newlineRest_length '\r' chars
    have := newlineRest_length '\n' chars
    have := lineEnd_length chars.tail (currentPos + 2)
    have := blockEnd_length 1 chars.tail (currentPos + 2)
    have := List.length_tail (l := chars)
    simp only [List.length_cons]
    omega

def classifyTrivia (text : Text) : Option (List Trivia) := classifyLoop text text 0 0 []

/-- The loop over the items, with the leading and the trailing ones so far. -/
def splitLoop (leading trailing : List Trivia) (seenNewline : Bool) :
    List Trivia → List Trivia × List Trivia
  | [] => (leading, trailing)
  | item :: items =>
    if seenNewline then splitLoop (leading ++ [item]) trailing seenNewline items
    else if item.isNewline then splitLoop (leading ++ [item]) trailing true items
    else splitLoop leading (trailing ++ [item]) seenNewline items

def splitTrivia (trivia : List Trivia) : List Trivia × List Trivia := splitLoop [] [] false trivia

end SyntaxTree
