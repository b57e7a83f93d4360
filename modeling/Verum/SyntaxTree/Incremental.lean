import Verum.SyntaxTree.Green

namespace SyntaxTree

structure TextRange where
  start : Nat
  stop : Nat

namespace TextRange

/-- `offset + len` is a `u32`. -/
def atOffset (offset len : Nat) : TextRange := ⟨offset, (offset + len) % 2 ^ 32⟩

def containsRange (range other : TextRange) : Bool := range.start ≤ other.start && other.stop ≤ range.stop

def intersect (range other : TextRange) : Option TextRange :=
  let start := max range.start other.start
  let stop := min range.stop other.stop
  if start ≤ stop then some ⟨start, stop⟩ else none

theorem atOffset_containsRange_iff (off len : Nat) (hr : TextRange) :
    (atOffset off len).containsRange hr = true
      ↔ off ≤ hr.start ∧ hr.stop ≤ (off + len) % 2 ^ 32 := by
  rw [containsRange, Bool.and_eq_true, decide_eq_true_eq, decide_eq_true_eq]
  rfl

end TextRange

structure TextEdit where
  range : TextRange
  newText : Text

/-- `none` is a slice that is not on a character boundary. -/
def TextEdit.apply (edit : TextEdit) (source : Text) : Option Text := do
  let (front, _) ← splitBytes (min edit.range.start (byteLength source)) source
  if edit.range.stop ≤ byteLength source then do
    let (_, back) ← splitBytes edit.range.stop source
    some (front ++ edit.newText ++ back)
  else some (front ++ edit.newText)

inductive NodeStability where
  | stable
  | unstable
  | token
  deriving DecidableEq

inductive ReparseContext where
  | module
  | item
  | block
  | statement
  | expression
  | type
  | unknown
  deriving DecidableEq

def ReparseContext.forKind : SyntaxKind → ReparseContext
  | .sourceFile => .module
  | .fnDef | .typeDef | .protocolDef | .implBlock | .contextDef | .constDef | .staticDef | .mountStmt
  | .moduleDef | .metaDef | .ffiDecl | .theoremDef | .axiomDef | .lemmaDef | .corollaryDef => .item
  | .block | .blockExpr | .proofBlock => .block
  | .letStmt | .exprStmt | .returnStmt | .breakStmt | .continueStmt | .yieldStmt | .deferStmt
  | .errdeferStmt | .provideStmt | .throwStmt => .statement
  | .literalExpr | .pathExpr | .binaryExpr | .prefixExpr | .postfixExpr | .callExpr | .methodCallExpr
  | .fieldExpr | .indexExpr | .ifExpr | .matchExpr | .closureExpr | .asyncExpr | .awaitExpr | .spawnExpr
  | .selectExpr | .pipelineExpr | .tryExpr | .tupleExpr | .arrayExpr | .recordExpr | .rangeExpr
  | .castExpr | .refExpr | .derefExpr | .parenExpr | .loopExpr | .whileExpr | .forExpr | .forAwaitExpr
  | .streamExpr | .refinementExpr | .recoverExpr | .mapExpr | .setExpr | .tensorExpr
  | .comprehensionExpr | .streamComprehensionExpr | .throwExpr | .isExpr | .quoteExpr | .spliceExpr
  | .generatorExpr | .yieldExpr | .forallExpr | .existsExpr => .expression
  | .pathType | .referenceType | .pointerType | .functionType | .tupleType | .arrayType | .sliceType
  | .refinedType | .genericType | .inferType | .neverType | .genrefType | .parenType | .dynamicType
  | .unionType | .intersectionType => .type
  | _ => .unknown

def NodeStability.isStable (kind : SyntaxKind) : NodeStability :=
  if kind.isToken then .token
  else match kind with
    | .sourceFile | .fnDef | .typeDef | .protocolDef | .implBlock | .contextDef | .constDef | .staticDef
    | .mountStmt | .moduleDef | .metaDef | .ffiDecl | .theoremDef | .axiomDef | .lemmaDef
    | .corollaryDef => .stable
    | .block | .blockExpr | .proofBlock | .ffiBlock => .stable
    | .letStmt | .returnStmt | .breakStmt | .continueStmt | .yieldStmt | .deferStmt | .errdeferStmt
    | .provideStmt | .throwStmt => .stable
    | .matchArm => .stable
    | _ => .unstable

def SyntaxKind.isContent : SyntaxKind → Bool
  | .stringLiteral | .intLiteral | .floatLiteral | .charLiteral | .interpolatedString | .ident
  | .lineComment | .blockComment | .docComment | .whitespace | .newline => true
  | _ => false

structure AffectedSubtree where
  path : List Nat
  node : GreenNode
  startOffset : Nat
  context : ReparseContext
  isStable : Bool
  contentOnly : Bool

/-- A node on the way down, with its path and offset. -/
structure Place where
  path : List Nat
  node : GreenNode
  offset : Nat

/-- The child that contains the range, if it is a node and no child before it touches the range. -/
def findChild (range : TextRange) :
    (index childOffset : Nat) → List GreenChild → Option (Nat × GreenNode × Nat)
  | _, _, [] => none
  | index, childOffset, child :: children =>
    let childRange := TextRange.atOffset childOffset child.width
    if childRange.containsRange range then
      match child with
      | .node node => some (index, node, childOffset)
      | .token _ => none
    else if (childRange.intersect range).isSome then none
    else findChild range (index + 1) ((childOffset + child.width) % 2 ^ 32) children

theorem findChild_mem {hr : TextRange} {idx childOffset : Nat} {kids : List GreenChild}
    {hit : Nat × GreenNode × Nat} (foundEq : findChild hr idx childOffset kids = some hit) :
    GreenChild.node hit.2.1 ∈ kids := by
  induction kids generalizing idx childOffset with
  | nil => simp [findChild] at foundEq
  | cons child kids ih =>
    simp only [findChild] at foundEq
    split at foundEq
    · cases child with
      | node node =>
        simp only [Option.some.injEq] at foundEq
        subst foundEq
        simp
      | token token => simp at foundEq
    · split at foundEq
      · simp at foundEq
      · exact List.mem_cons_of_mem child (ih foundEq)

theorem GreenNode.sizeOf_lt_of_mem {node par : GreenNode}
    (isChild : GreenChild.node node ∈ par.children) :
    sizeOf node < sizeOf par := by
  cases par with
  | new kind kids =>
    have memLt := List.sizeOf_lt_of_mem isChild
    simp [GreenNode.children] at memLt ⊢
    omega

def rememberStable (current lastStable : Place) : Place :=
  if NodeStability.isStable current.node.kind = .stable then current else lastStable

/-- The descent: the smallest node found and the last stable one on the way. -/
def descend (range : TextRange) (current lastStable : Place) : Place × Place :=
  match _found : findChild range 0 current.offset current.node.children with
  | some (index, node, nodeOffset) =>
    descend range ⟨current.path ++ [index], node, nodeOffset⟩ (rememberStable current lastStable)
  | none => (current, rememberStable current lastStable)
termination_by sizeOf current.node
decreasing_by exact GreenNode.sizeOf_lt_of_mem (findChild_mem _found)

/-- The rounds of `is_content_only_change`. -/
def contentOnlyFrom (localRange : TextRange) : (childOffset : Nat) → List GreenChild → Bool
  | _, [] => false
  | childOffset, child :: children =>
    match (TextRange.atOffset childOffset child.width).containsRange localRange, child with
    | true, .token token => token.kind.isContent
    | _, _ => contentOnlyFrom localRange ((childOffset + child.width) % 2 ^ 32) children

def isContentOnlyChange (node : GreenNode) (edit : TextEdit) (nodeOffset : Nat) : Bool :=
  let localStart := edit.range.start - nodeOffset
  let localEnd := edit.range.stop - nodeOffset
  contentOnlyFrom ⟨localStart, min localEnd node.width⟩ 0 node.children

def findAffectedSubtree (root : GreenNode) (edit : TextEdit) : Option AffectedSubtree :=
  let (current, lastStable) := descend edit.range ⟨[], root, 0⟩ ⟨[], root, 0⟩
  let final := rememberStable current lastStable
  some {
    path := final.path
    node := final.node
    startOffset := final.offset
    context := ReparseContext.forKind final.node.kind
    isStable := NodeStability.isStable final.node.kind = .stable
    contentOnly := isContentOnlyChange final.node edit final.offset }

/-- `none` is an index out of bounds. -/
def rebuildWithReplacement :
    (root : GreenNode) → (path : List Nat) → (replacement : GreenNode) → Option GreenNode
  | _, [], replacement => some replacement
  | root, [index], replacement => some (root.replaceChild index (.node replacement))
  | root, index :: path, replacement =>
    match root.children[index]? with
    | some (.node child) => do
      let rebuilt ← rebuildWithReplacement child path replacement
      some (root.replaceChild index (.node rebuilt))
    | some (.token _) => some root
    | none => none

/-- `none` is a panic. The statistics, which hold the time that was taken, are left out. -/
def applyEdit (root : GreenNode) (edit : TextEdit) (reparse : Text → ReparseContext → GreenNode)
    (source : Text) : Option GreenNode :=
  let fullReparse := (edit.apply source).map fun newSource => reparse newSource .module
  match findAffectedSubtree root edit with
  | none => fullReparse
  | some affected =>
    if affected.path.isEmpty ∨ affected.context = .unknown then fullReparse
    else
      let subtreeStart := affected.startOffset
      let subtreeEnd := subtreeStart + affected.node.width
      if subtreeEnd > byteLength source then fullReparse
      else do
        let (front, _) ← splitBytes subtreeEnd source
        let (_, subtreeSource) ← splitBytes subtreeStart front
        let localRange : TextRange :=
          ⟨edit.range.start - affected.startOffset, edit.range.stop - affected.startOffset⟩
        let newSubtreeSource ← TextEdit.apply ⟨localRange, edit.newText⟩ subtreeSource
        rebuildWithReplacement root affected.path (reparse newSubtreeSource affected.context)

end SyntaxTree
