import Mathlib.Algebra.BigOperators.Group.List.Basic
import Mathlib.Tactic.Ring

namespace SyntaxTree

/-- The kinds that the incremental engine names; `other` is any other kind by its discriminant. -/
inductive SyntaxKind where
  | sourceFile
  | fnDef | typeDef | protocolDef | implBlock | contextDef | constDef | staticDef | mountStmt
  | moduleDef | metaDef | ffiDecl | theoremDef | axiomDef | lemmaDef | corollaryDef
  | block | blockExpr | proofBlock
  | letStmt | exprStmt | returnStmt | breakStmt | continueStmt | yieldStmt | deferStmt | errdeferStmt
  | provideStmt | throwStmt
  | literalExpr | pathExpr | binaryExpr | prefixExpr | postfixExpr | callExpr | methodCallExpr
  | fieldExpr | indexExpr | ifExpr | matchExpr | closureExpr | asyncExpr | awaitExpr | spawnExpr
  | selectExpr | pipelineExpr | tryExpr | tupleExpr | arrayExpr | recordExpr | rangeExpr | castExpr
  | refExpr | derefExpr | parenExpr | loopExpr | whileExpr | forExpr | forAwaitExpr | streamExpr
  | refinementExpr | recoverExpr | mapExpr | setExpr | tensorExpr | comprehensionExpr
  | streamComprehensionExpr | throwExpr | isExpr | quoteExpr | spliceExpr | generatorExpr | yieldExpr
  | forallExpr | existsExpr
  | pathType | referenceType | pointerType | functionType | tupleType | arrayType | sliceType
  | refinedType | genericType | inferType | neverType | genrefType | parenType | dynamicType | unionType
  | intersectionType
  | ffiBlock | matchArm
  | ident | intLiteral | floatLiteral | stringLiteral | charLiteral | interpolatedString | whitespace
  | newline | lineComment | blockComment | docComment
  | other (discriminant : Nat)

/-- Discriminants below 256 are tokens; the trivia kinds from `newline` on lie above. -/
def SyntaxKind.isToken : SyntaxKind → Bool
  | .ident | .intLiteral | .floatLiteral | .stringLiteral | .charLiteral | .interpolatedString
  | .whitespace => true
  | .other discriminant => discriminant < 256
  | _ => false

abbrev Text := List Char

def byteLength (text : Text) : Nat := (text.map Char.utf8Size).sum

@[simp]
theorem byteLength_nil : byteLength [] = 0 := rfl

@[simp]
theorem byteLength_cons (char : Char) (text : Text) :
    byteLength (char :: text) = char.utf8Size + byteLength text := by
  simp [byteLength]

@[simp]
theorem byteLength_append (front back : Text) :
    byteLength (front ++ back) = byteLength front + byteLength back := by
  simp [byteLength]

theorem byteLength_replicate (n : Nat) (char : Char) :
    byteLength (List.replicate n char) = n * char.utf8Size := by
  simp [byteLength]

/-- `(&text[..offset], &text[offset..])`; `none` is an offset that is not on a character boundary. -/
def splitBytes (offset : Nat) : Text → Option (Text × Text)
  | [] => if offset = 0 then some ([], []) else none
  | char :: text =>
    if offset = 0 then some ([], char :: text)
    else if char.utf8Size ≤ offset then
      (splitBytes (offset - char.utf8Size) text).map fun (front, back) => (char :: front, back)
    else none

def IsCharBoundary (text : Text) (offset : Nat) : Prop :=
  ∃ front back, text = front ++ back ∧ byteLength front = offset

theorem splitBytes_append (front back : Text) :
    splitBytes (byteLength front) (front ++ back) = some (front, back) := by
  induction front with
  | nil => cases back <;> simp [splitBytes]
  | cons char front ih =>
    have sizePos := Char.utf8Size_pos char
    have nonzero : ¬ char.utf8Size + byteLength front = 0 := by omega
    simp only [List.cons_append, splitBytes, byteLength_cons, if_neg nonzero, Nat.le_add_right, if_true,
      Nat.add_sub_cancel_left, ih, Option.map_some]

theorem prefix_of_byteLength_le {shorter longer : Text} {back back' : Text}
    (sameText : shorter ++ back = longer ++ back')
    (lengthLe : byteLength shorter ≤ byteLength longer) :
    ∃ mid, longer = shorter ++ mid ∧ back = mid ++ back' := by
  rcases List.append_eq_append_iff.mp sameText with ⟨mid, longerEq, backEq⟩ | ⟨mid, shorterEq, backEq⟩
  · exact ⟨mid, longerEq, backEq⟩
  · have middleNil : mid = [] := by
      cases mid with
      | nil => rfl
      | cons char mid =>
        have sizePos := Char.utf8Size_pos char
        simp [shorterEq] at lengthLe
        omega
    subst middleNil
    exact ⟨[], by simpa using shorterEq.symm, by simpa using backEq.symm⟩

structure GreenToken where
  kind : SyntaxKind
  text : Text

/-- The width of a token is a `u32`. -/
def GreenToken.width (token : GreenToken) : Nat := byteLength token.text % 2 ^ 32

mutual

inductive GreenNode where
  | new (kind : SyntaxKind) (children : List GreenChild)

inductive GreenChild where
  | node (node : GreenNode)
  | token (token : GreenToken)

end

namespace GreenNode

def kind : GreenNode → SyntaxKind
  | new kind _ => kind

def children : GreenNode → List GreenChild
  | new _ children => children

@[simp]
theorem children_new (kind : SyntaxKind) (kids : List GreenChild) : (new kind kids).children = kids :=
  rfl

end GreenNode

mutual

def GreenNode.width : GreenNode → Nat
  | .new _ children => GreenChild.totalWidth children

def GreenChild.width : GreenChild → Nat
  | .node node => node.width
  | .token token => token.width

def GreenChild.totalWidth : List GreenChild → Nat
  | [] => 0
  | child :: children => (child.width + GreenChild.totalWidth children) % 2 ^ 32

end

mutual

def GreenNode.text : GreenNode → Text
  | .new _ children => GreenChild.collectText children

def GreenChild.text : GreenChild → Text
  | .node node => node.text
  | .token token => token.text

def GreenChild.collectText : List GreenChild → Text
  | [] => []
  | child :: children => child.text ++ GreenChild.collectText children

end

theorem GreenNode.text_eq (node : GreenNode) : node.text = GreenChild.collectText node.children := by
  cases node
  simp [text, children]

theorem GreenChild.collectText_append (front back : List GreenChild) :
    collectText (front ++ back) = collectText front ++ collectText back := by
  induction front with
  | nil => simp [collectText]
  | cons child front ih => simp [collectText, ih]

mutual

theorem GreenNode.width_eq (node : GreenNode) : node.width = byteLength node.text % 2 ^ 32 := by
  cases node with
  | new kind kids =>
    simpa [GreenNode.width, GreenNode.text] using GreenChild.totalWidth_eq kids

theorem GreenChild.width_eq (child : GreenChild) : child.width = byteLength child.text % 2 ^ 32 := by
  cases child with
  | node node => simpa [GreenChild.width, GreenChild.text] using GreenNode.width_eq node
  | token token => simp [GreenChild.width, GreenChild.text, GreenToken.width]

theorem GreenChild.totalWidth_eq (kids : List GreenChild) :
    GreenChild.totalWidth kids = byteLength (GreenChild.collectText kids) % 2 ^ 32 := by
  cases kids with
  | nil => simp [GreenChild.totalWidth, GreenChild.collectText]
  | cons child kids =>
    simp [GreenChild.totalWidth, GreenChild.collectText, GreenChild.width_eq child,
      GreenChild.totalWidth_eq kids]

end

def GreenNode.replaceChild (node : GreenNode) (index : Nat) (newChild : GreenChild) : GreenNode :=
  if index < node.children.length then .new node.kind (node.children.set index newChild)
  else .new node.kind node.children

def GreenChild.subtreeAt : List Nat → GreenChild → Option GreenChild
  | [], child => some child
  | index :: address, .node inner => inner.children[index]?.bind (subtreeAt address)
  | _ :: _, .token _ => none

end SyntaxTree
