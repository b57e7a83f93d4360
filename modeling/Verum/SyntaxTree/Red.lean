import Verum.SyntaxTree.Incremental

namespace SyntaxTree

def TextRange.contains (range : TextRange) (offset : Nat) : Bool := range.start ≤ offset && offset < range.stop

/-- The offset of a child; the sum of the widths is a `u32`. -/
def GreenNode.childOffset (node : GreenNode) (index : Nat) : Option Nat :=
  if node.children.length ≤ index then none else some (GreenChild.totalWidth (node.children.take index))

/-- A node with its parent, its index there as a `u32` and its offset in the text. -/
inductive SyntaxNode where
  | mk (green : GreenNode) (parent : Option SyntaxNode) (indexInParent offset : Nat)

namespace SyntaxNode

def green : SyntaxNode → GreenNode
  | mk green _ _ _ => green

def parent : SyntaxNode → Option SyntaxNode
  | mk _ parent _ _ => parent

def index : SyntaxNode → Nat
  | mk _ _ indexInParent _ => indexInParent

def offset : SyntaxNode → Nat
  | mk _ _ _ offset => offset

def newRoot (green : GreenNode) : SyntaxNode := mk green none 0 0

def newChild (green : GreenNode) (parent : SyntaxNode) (index offset : Nat) : SyntaxNode :=
  mk green (some parent) (index % 2 ^ 32) offset

def textRange (node : SyntaxNode) : TextRange := .atOffset node.offset node.green.width

def text (node : SyntaxNode) : Text := node.green.text

end SyntaxNode

structure SyntaxToken where
  green : GreenToken
  parent : SyntaxNode
  index : Nat
  offset : Nat

def SyntaxToken.textRange (token : SyntaxToken) : TextRange := .atOffset token.offset token.green.width

inductive SyntaxElement where
  | node (node : SyntaxNode)
  | token (token : SyntaxToken)

namespace SyntaxElement

def textRange : SyntaxElement → TextRange
  | node n => n.textRange
  | token t => t.textRange

def text : SyntaxElement → Text
  | node n => n.text
  | token t => t.green.text

def parent : SyntaxElement → Option SyntaxNode
  | node n => n.parent
  | token t => some t.parent

def ofChild (self : SyntaxNode) (index offset : Nat) : GreenChild → SyntaxElement
  | .node n => node (.newChild n self index offset)
  | .token t => token ⟨t, self, index, offset⟩

end SyntaxElement

def GreenChild.advance (child : GreenChild) (offset : Nat) : Nat := (offset + child.width) % 2 ^ 32

def GreenChild.elements (self : SyntaxNode) : List GreenChild → Nat → Nat → List SyntaxElement
  | [], _, _ => []
  | child :: rest, index, offset =>
    .ofChild self index offset child :: GreenChild.elements self rest (index + 1) (child.advance offset)

namespace SyntaxNode

def children (self : SyntaxNode) : List SyntaxElement := GreenChild.elements self self.green.children 0 self.offset

def child (self : SyntaxNode) (index : Nat) : Option SyntaxElement :=
  match self.green.childOffset index, self.green.children[index]? with
  | some offset, some child => some (.ofChild self index ((self.offset + offset) % 2 ^ 32) child)
  | _, _ => none

def nextSibling (self : SyntaxNode) : Option SyntaxElement :=
  self.parent.bind fun parent => parent.child (self.index + 1)

def prevSibling (self : SyntaxNode) : Option SyntaxElement :=
  if self.index = 0 then none else self.parent.bind fun parent => parent.child (self.index - 1)

end SyntaxNode

def SyntaxToken.nextSibling (self : SyntaxToken) : Option SyntaxElement := self.parent.child (self.index + 1)

def SyntaxToken.prevSibling (self : SyntaxToken) : Option SyntaxElement :=
  if self.index = 0 then none else self.parent.child (self.index - 1)

def SyntaxElement.nextSibling : SyntaxElement → Option SyntaxElement
  | node n => n.nextSibling
  | token t => t.nextSibling

def SyntaxElement.prevSibling : SyntaxElement → Option SyntaxElement
  | node n => n.prevSibling
  | token t => t.prevSibling

mutual

def GreenNode.firstToken : GreenNode → SyntaxNode → Option SyntaxToken
  | .new _ children, self => GreenChild.firstToken children self 0 self.offset

def GreenChild.firstToken : List GreenChild → SyntaxNode → Nat → Nat → Option SyntaxToken
  | [], _, _, _ => none
  | .token t :: _, self, index, offset => some ⟨t, self, index, offset⟩
  | .node n :: rest, self, index, offset =>
    match n.firstToken (.newChild n self index offset) with
    | some t => some t
    | none => GreenChild.firstToken rest self (index + 1) (GreenChild.advance (.node n) offset)

end

mutual

def GreenNode.lastToken : GreenNode → SyntaxNode → Option SyntaxToken
  | .new _ children, self => GreenChild.lastToken children self 0 self.offset

/-- The last token of the children from a place on, those behind first. -/
def GreenChild.lastToken : List GreenChild → SyntaxNode → Nat → Nat → Option SyntaxToken
  | [], _, _, _ => none
  | .token t :: rest, self, index, offset =>
    match GreenChild.lastToken rest self (index + 1) (GreenChild.advance (.token t) offset) with
    | some last => some last
    | none => some ⟨t, self, index, offset⟩
  | .node n :: rest, self, index, offset =>
    match GreenChild.lastToken rest self (index + 1) (GreenChild.advance (.node n) offset) with
    | some last => some last
    | none => n.lastToken (.newChild n self index offset)

end

mutual

def GreenNode.tokenAtOffset (target : Nat) : GreenNode → SyntaxNode → Option SyntaxToken
  | .new _ children, self =>
    if self.textRange.contains target then GreenChild.tokenAtOffset target children self 0 self.offset else none

def GreenChild.tokenAtOffset (target : Nat) : List GreenChild → SyntaxNode → Nat → Nat → Option SyntaxToken
  | [], _, _, _ => none
  | .token t :: rest, self, index, offset =>
    if (SyntaxElement.ofChild self index offset (.token t)).textRange.contains target then
      some ⟨t, self, index, offset⟩
    else GreenChild.tokenAtOffset target rest self (index + 1) (GreenChild.advance (.token t) offset)
  | .node n :: rest, self, index, offset =>
    if (SyntaxElement.ofChild self index offset (.node n)).textRange.contains target then
      n.tokenAtOffset target (.newChild n self index offset)
    else GreenChild.tokenAtOffset target rest self (index + 1) (GreenChild.advance (.node n) offset)

end

mutual

def GreenNode.coveringElement (range : TextRange) : GreenNode → SyntaxNode → SyntaxElement
  | .new _ children, self => GreenChild.coveringElement range children self 0 self.offset

/-- The element of the first child that covers the range, or the node itself. -/
def GreenChild.coveringElement (range : TextRange) : List GreenChild → SyntaxNode → Nat → Nat → SyntaxElement
  | [], self, _, _ => .node self
  | .token t :: rest, self, index, offset =>
    if (SyntaxElement.ofChild self index offset (.token t)).textRange.containsRange range then
      .token ⟨t, self, index, offset⟩
    else GreenChild.coveringElement range rest self (index + 1) (GreenChild.advance (.token t) offset)
  | .node n :: rest, self, index, offset =>
    if (SyntaxElement.ofChild self index offset (.node n)).textRange.containsRange range then
      n.coveringElement range (.newChild n self index offset)
    else GreenChild.coveringElement range rest self (index + 1) (GreenChild.advance (.node n) offset)

end

namespace SyntaxNode

def firstToken (self : SyntaxNode) : Option SyntaxToken := self.green.firstToken self

def lastToken (self : SyntaxNode) : Option SyntaxToken := self.green.lastToken self

def tokenAtOffset (self : SyntaxNode) (offset : Nat) : Option SyntaxToken := self.green.tokenAtOffset offset self

def coveringElement (self : SyntaxNode) (range : TextRange) : SyntaxElement := self.green.coveringElement range self

end SyntaxNode

/-- The loop of the token walks: to a sibling, into it, or up; `none` where the fuel runs out. -/
def SyntaxElement.seek (sibling : SyntaxElement → Option SyntaxElement) (edge : SyntaxNode → Option SyntaxToken) :
    Nat → SyntaxElement → Option (Option SyntaxToken)
  | 0, _ => none
  | fuel + 1, current =>
    match sibling current with
    | some (.token t) => some (some t)
    | some (.node n) =>
      match edge n with
      | some t => some (some t)
      | none => SyntaxElement.seek sibling edge fuel (.node n)
    | none =>
      match current.parent with
      | none => some none
      | some parent => SyntaxElement.seek sibling edge fuel (.node parent)

attribute [grind =] SyntaxElement.seek

def SyntaxToken.nextToken (fuel : Nat) (self : SyntaxToken) : Option (Option SyntaxToken) :=
  SyntaxElement.seek SyntaxElement.nextSibling SyntaxNode.firstToken fuel (.token self)

def SyntaxToken.prevToken (fuel : Nat) (self : SyntaxToken) : Option (Option SyntaxToken) :=
  SyntaxElement.seek SyntaxElement.prevSibling SyntaxNode.lastToken fuel (.token self)

structure DescendantsFrame where
  node : SyntaxNode
  index : Nat
  yieldedSelf : Bool

def DescendantsFrame.new (node : SyntaxNode) : DescendantsFrame := ⟨node, 0, false⟩

/-- One turn of the loop of the iterator: the element it returns, if any, and the frames left. -/
def DescendantsFrame.turn : List DescendantsFrame → Option (Option SyntaxElement × List DescendantsFrame)
  | [] => none
  | frame :: stack =>
    if !frame.yieldedSelf then some (some (.node frame.node), { frame with yieldedSelf := true } :: stack)
    else
      match frame.node.child frame.index with
      | some (.node n) => some (none, .new n :: { frame with index := frame.index + 1 } :: stack)
      | some (.token t) => some (some (.token t), { frame with index := frame.index + 1 } :: stack)
      | none => some (none, stack)

/-- An element that is some child's child of the root. -/
inductive InTree (root : GreenNode) : SyntaxElement → Prop where
  | root : InTree root (.node (.newRoot root))
  | child {n : SyntaxNode} {index : Nat} {e : SyntaxElement} (located : InTree root (.node n))
      (found : n.child index = some e) : InTree root e

theorem GreenNode.text_split (g : GreenNode) {index : Nat} {c : GreenChild} (here : g.children[index]? = some c) :
    g.text = GreenChild.collectText (g.children.take index) ++ c.text ++
      GreenChild.collectText (g.children.drop (index + 1)) := by
  rcases List.getElem?_eq_some_iff.mp here with ⟨hb, eq⟩
  have parts : g.children = g.children.take index ++ c :: g.children.drop (index + 1) := by
    rw [← eq, ← List.drop_eq_getElem_cons hb, List.take_append_drop]
  have cut := congrArg GreenChild.collectText parts
  rw [GreenChild.collectText_append] at cut
  rw [g.text_eq, List.append_assoc]
  exact cut

namespace SyntaxElement

variable (n : SyntaxNode) (index offset : Nat) (c : GreenChild)

@[simp]
theorem text_ofChild : (ofChild n index offset c).text = c.text := by cases c <;> rfl

@[simp]
theorem textRange_ofChild : (ofChild n index offset c).textRange = .atOffset offset c.width := by cases c <;> rfl

@[simp]
theorem parent_ofChild : (ofChild n index offset c).parent = some n := by cases c <;> rfl

end SyntaxElement

def SyntaxElement.Selects (text : Text) (e : SyntaxElement) : Prop :=
  ∃ front back, text = front ++ e.text ++ back ∧ e.textRange.start = byteLength front ∧
    e.textRange.stop = byteLength front + byteLength e.text

namespace SyntaxNode

variable (n : SyntaxNode)

def offsetAt (index : Nat) : Nat := (n.offset + GreenChild.totalWidth (n.green.children.take index)) % 2 ^ 32

theorem child_eq_some {index : Nat} {e : SyntaxElement} : n.child index = some e ↔
    ∃ c, n.green.children[index]? = some c ∧ e = .ofChild n index (n.offsetAt index) c := by
  unfold child GreenNode.childOffset
  by_cases outside : n.green.children.length ≤ index
  · rw [if_pos outside, List.getElem?_eq_none outside]
    constructor
    · exact nofun
    · rintro ⟨c, none, -⟩
      cases none
  · rw [if_neg outside]
    cases n.green.children[index]? with
    | none =>
      constructor
      · exact nofun
      · rintro ⟨c, none, -⟩
        cases none
    | some c =>
      constructor
      · intro eq
        exact ⟨c, rfl, (Option.some.inj eq).symm⟩
      · rintro ⟨other, eq, rfl⟩
        cases eq
        rfl

theorem advance_offsetAt {index : Nat} {c : GreenChild} (hit : n.green.children[index]? = some c) :
    c.advance (n.offsetAt index) = n.offsetAt (index + 1) := by
  have more : n.green.children.take (index + 1) = n.green.children.take index ++ [c] := by
    rw [List.take_add_one, hit]
    rfl
  have one : GreenChild.collectText [c] = c.text := by
    show c.text ++ [] = c.text
    exact List.append_nil _
  unfold GreenChild.advance offsetAt
  rw [more, GreenChild.totalWidth_eq, GreenChild.totalWidth_eq, GreenChild.collectText_append, one,
    byteLength_append, GreenChild.width_eq]
  omega

theorem offsetAt_zero (small : n.offset < 2 ^ 32) : n.offsetAt 0 = n.offset := by
  show (n.offset + 0) % 2 ^ 32 = n.offset
  omega

/-- The children from an index on, with the offset of the first of them. -/
structure Suffix (rest : List GreenChild) (index offset : Nat) : Prop where
  rest : n.green.children.drop index = rest
  offset : n.offsetAt index = offset

variable {n} {rest : List GreenChild} {index offset : Nat} {c : GreenChild}

theorem Suffix.whole (small : n.offset < 2 ^ 32) : n.Suffix n.green.children 0 n.offset :=
  ⟨rfl, n.offsetAt_zero small⟩

theorem Suffix.getElem? (suffix : n.Suffix (c :: rest) index offset) : n.green.children[index]? = some c := by
  have fst := congrArg (·[0]?) suffix.rest
  rw [List.getElem?_drop, Nat.add_zero] at fst
  exact fst

theorem Suffix.child (suffix : n.Suffix (c :: rest) index offset) :
    n.child index = some (.ofChild n index offset c) :=
  n.child_eq_some.mpr ⟨c, suffix.getElem?, by rw [suffix.offset]⟩

theorem Suffix.tail (suffix : n.Suffix (c :: rest) index offset) :
    n.Suffix rest (index + 1) (c.advance offset) := by
  constructor
  · have shorter := congrArg (·.drop 1) suffix.rest
    rw [List.drop_drop] at shorter
    exact shorter
  · rw [← suffix.offset, n.advance_offsetAt suffix.getElem?]

theorem child_eq_none (beyond : n.green.children.length ≤ index) : n.child index = none := by
  unfold SyntaxNode.child GreenNode.childOffset
  rw [if_pos beyond]

theorem Suffix.getElem?_elements (suffix : n.Suffix rest index offset) (further : Nat) :
    (GreenChild.elements n rest index offset)[further]? = n.child (index + further) := by
  induction rest generalizing index offset further with
  | nil =>
    have beyond : n.green.children.length ≤ index := List.drop_eq_nil_iff.mp suffix.rest
    exact (child_eq_none (by omega)).symm
  | cons c rest ih =>
    cases further with
    | zero => exact suffix.child.symm
    | succ further =>
      rw [show index + (further + 1) = index + 1 + further by omega]
      exact ih suffix.tail further

end SyntaxNode

namespace InTree

variable {root : GreenNode} {e : SyntaxElement} {n : SyntaxNode}

theorem offset_lt (loc : InTree root (.node n)) : n.offset < 2 ^ 32 := by
  cases loc with
  | root => exact Nat.two_pow_pos 32
  | child _ hit =>
    rcases (SyntaxNode.child_eq_some _).mp hit with ⟨c, -, eq⟩
    cases c with
    | node g =>
      cases eq
      exact Nat.mod_lt _ (Nat.two_pow_pos 32)
    | token t => cases eq

theorem suffix (loc : InTree root (.node n)) : n.Suffix n.green.children 0 n.offset := .whole loc.offset_lt

theorem parent (loc : InTree root e) {p : SyntaxNode} (above : e.parent = some p) : InTree root (.node p) := by
  cases loc with
  | root => cases above
  | child hin hit =>
    rcases (SyntaxNode.child_eq_some _).mp hit with ⟨c, -, rfl⟩
    rw [SyntaxElement.parent_ofChild] at above
    cases above
    exact hin

theorem mem_elements (loc : InTree root (.node n)) {rest : List GreenChild} {index offset : Nat}
    (suffix : n.Suffix rest index offset) (mem : e ∈ GreenChild.elements n rest index offset) :
    InTree root e := by
  induction rest generalizing index offset with
  | nil => cases mem
  | cons c rest ih =>
    rcases List.mem_cons.mp mem with rfl | hl
    · exact .child loc suffix.child
    · exact ih suffix.tail hl

theorem mem_children (loc : InTree root (.node n)) (mem : e ∈ n.children) : InTree root e :=
  loc.mem_elements loc.suffix mem

theorem getElem?_children (loc : InTree root (.node n)) (index : Nat) : n.children[index]? = n.child index := by
  have step := loc.suffix.getElem?_elements index
  rw [Nat.zero_add] at step
  exact step

theorem selects (small : byteLength root.text < 2 ^ 32) (located : InTree root e) : e.Selects root.text := by
  induction located with
  | root =>
    refine ⟨[], [], ?_, rfl, ?_⟩
    · show root.text = [] ++ root.text ++ []
      rw [List.append_nil, List.nil_append]
    · show (0 + root.width) % 2 ^ 32 = 0 + byteLength root.text
      rw [GreenNode.width_eq]
      omega
  | @child n index e _ hit ih =>
    rcases n.child_eq_some.mp hit with ⟨c, here, rfl⟩
    rcases ih with ⟨front, back, whole, start, -⟩
    let front' := front ++ GreenChild.collectText (n.green.children.take index)
    let back' := GreenChild.collectText (n.green.children.drop (index + 1)) ++ back
    have whole' : root.text = front' ++ c.text ++ back' := by
      have parts := n.green.text_split here
      rw [whole, show (SyntaxElement.node n).text = n.green.text from rfl, parts]
      simp only [front', back', List.append_assoc]
    have length : byteLength root.text = byteLength front' + byteLength c.text + byteLength back' := by
      rw [whole', byteLength_append, byteLength_append]
    have offset : n.offsetAt index = byteLength front' := by
      have frontLength : byteLength front' =
          byteLength front + byteLength (GreenChild.collectText (n.green.children.take index)) :=
        byteLength_append _ _
      have startOffset : n.offset = byteLength front := start
      unfold SyntaxNode.offsetAt
      rw [GreenChild.totalWidth_eq]
      omega
    have stop : (n.offsetAt index + c.width) % 2 ^ 32 = byteLength front' + byteLength c.text := by
      rw [offset, GreenChild.width_eq]
      omega
    refine ⟨front', back', ?_, ?_, ?_⟩
    · rw [SyntaxElement.text_ofChild]
      exact whole'
    · rw [SyntaxElement.textRange_ofChild]
      exact offset
    · rw [SyntaxElement.textRange_ofChild, SyntaxElement.text_ofChild]
      exact stop

end InTree

end SyntaxTree
