import Verum.SyntaxTree.Iteration
import Verum.SyntaxTree.Red

open List

namespace SyntaxTree

/-- One turn of the loop of the token iterator of a green node, over the children left at each level. -/
def GreenChild.tokenTurn : List (List GreenChild) → Option (Option GreenToken × List (List GreenChild))
  | [] => none
  | [] :: stack => some (none, stack)
  | (.token t :: rest) :: stack => some (some t, rest :: stack)
  | (.node n :: rest) :: stack => some (none, n.children :: rest :: stack)

mutual

def GreenNode.leaves : GreenNode → SyntaxNode → List SyntaxToken
  | .new _ children, self => GreenChild.leaves children self 0 self.offset

def GreenChild.leaves : List GreenChild → SyntaxNode → Nat → Nat → List SyntaxToken
  | [], _, _, _ => []
  | .token t :: rest, self, index, offset =>
    ⟨t, self, index, offset⟩ :: GreenChild.leaves rest self (index + 1) (GreenChild.advance (.token t) offset)
  | .node n :: rest, self, index, offset =>
    n.leaves (.newChild n self index offset) ++
      GreenChild.leaves rest self (index + 1) (GreenChild.advance (.node n) offset)

end

def SyntaxNode.leaves (self : SyntaxNode) : List SyntaxToken := self.green.leaves self

def SyntaxElement.leaves : SyntaxElement → List SyntaxToken
  | node n => n.leaves
  | token t => [t]

theorem GreenNode.leaves_eq (g : GreenNode) (self : SyntaxNode) :
    g.leaves self = GreenChild.leaves g.children self 0 self.offset := by
  cases g
  rfl

theorem GreenChild.leaves_eq (rest : List GreenChild) (self : SyntaxNode) (idx offset : Nat) :
    GreenChild.leaves rest self idx offset =
      (GreenChild.elements self rest idx offset).flatMap SyntaxElement.leaves := by
  induction rest generalizing idx offset with
  | nil => rfl
  | cons c rest ih =>
    cases c with
    | node n =>
      show n.leaves (.newChild n self idx offset) ++ _ = _ ++ _
      rw [ih]
      rfl
    | token t =>
      show SyntaxToken.mk t self idx offset :: _ = [SyntaxToken.mk t self idx offset] ++ _
      rw [ih]
      rfl

theorem SyntaxNode.leaves_eq (n : SyntaxNode) : n.leaves = n.children.flatMap SyntaxElement.leaves := by
  show n.green.leaves n = _
  rw [GreenNode.leaves_eq, GreenChild.leaves_eq]
  rfl

mutual

theorem GreenNode.firstToken_eq (g : GreenNode) (self : SyntaxNode) : g.firstToken self = (g.leaves self).head? := by
  cases g with
  | new kind kids => exact GreenChild.firstToken_eq kids self 0 self.offset

theorem GreenChild.firstToken_eq (rest : List GreenChild) (self : SyntaxNode) (idx offset : Nat) :
    GreenChild.firstToken rest self idx offset = (GreenChild.leaves rest self idx offset).head? := by
  match rest with
  | [] | .token _ :: _ => rfl
  | .node n :: rest =>
    have inner := GreenNode.firstToken_eq n (.newChild n self idx offset)
    have hl := GreenChild.firstToken_eq rest self (idx + 1) (GreenChild.advance (.node n) offset)
    rw [GreenChild.firstToken, GreenChild.leaves, inner, hl, List.head?_append]
    cases (n.leaves (.newChild n self idx offset)).head? <;> rfl

end

mutual

theorem GreenNode.lastToken_eq (g : GreenNode) (self : SyntaxNode) :
    g.lastToken self = (g.leaves self).getLast? := by
  cases g with
  | new kind kids => exact GreenChild.lastToken_eq kids self 0 self.offset

theorem GreenChild.lastToken_eq (rest : List GreenChild) (self : SyntaxNode) (idx offset : Nat) :
    GreenChild.lastToken rest self idx offset = (GreenChild.leaves rest self idx offset).getLast? := by
  match rest with
  | [] => rfl
  | .token t :: rest =>
    have hl := GreenChild.lastToken_eq rest self (idx + 1) (GreenChild.advance (.token t) offset)
    rw [GreenChild.lastToken, GreenChild.leaves, hl, List.getLast?_cons]
    cases (GreenChild.leaves rest self (idx + 1) (GreenChild.advance (.token t) offset)).getLast? <;> rfl
  | .node n :: rest =>
    have inner := GreenNode.lastToken_eq n (.newChild n self idx offset)
    have hl := GreenChild.lastToken_eq rest self (idx + 1) (GreenChild.advance (.node n) offset)
    rw [GreenChild.lastToken, GreenChild.leaves, inner, hl, List.getLast?_append]
    cases (GreenChild.leaves rest self (idx + 1) (GreenChild.advance (.node n) offset)).getLast? <;> rfl

end

theorem SyntaxNode.firstToken_eq (n : SyntaxNode) : n.firstToken = n.leaves.head? := n.green.firstToken_eq n

theorem SyntaxNode.lastToken_eq (n : SyntaxNode) : n.lastToken = n.leaves.getLast? := n.green.lastToken_eq n

mutual

theorem GreenNode.tokens_yields (g : GreenNode) (self : SyntaxNode) {stack : List (List GreenChild)}
    {xs : List GreenToken} (after : Iteration.Yields GreenChild.tokenTurn stack xs) :
    Iteration.Yields GreenChild.tokenTurn (g.children :: stack) ((g.leaves self).map (·.green) ++ xs) := by
  cases g with
  | new kind kids => exact GreenChild.tokens_yields kids self 0 self.offset after

theorem GreenChild.tokens_yields (rest : List GreenChild) (self : SyntaxNode) (idx offset : Nat)
    {stack : List (List GreenChild)} {xs : List GreenToken}
    (after : Iteration.Yields GreenChild.tokenTurn stack xs) :
    Iteration.Yields GreenChild.tokenTurn (rest :: stack)
      ((GreenChild.leaves rest self idx offset).map (·.green) ++ xs) := by
  match rest with
  | [] => exact .quiet rfl after
  | .token t :: rest =>
    exact .item rfl (GreenChild.tokens_yields rest self (idx + 1) (GreenChild.advance (.token t) offset) after)
  | .node n :: rest =>
    have hl := GreenChild.tokens_yields rest self (idx + 1) (GreenChild.advance (.node n) offset) after
    have inner := GreenNode.tokens_yields n (.newChild n self idx offset) hl
    rw [GreenChild.leaves, map_append, append_assoc]
    exact .quiet rfl inner

end

theorem SyntaxNode.leaves_tokens (n : SyntaxNode) :
    Iteration.Yields GreenChild.tokenTurn [n.green.children] (n.leaves.map (·.green)) := by
  have whole := n.green.tokens_yields n (.done rfl : Iteration.Yields GreenChild.tokenTurn [] [])
  rw [append_nil] at whole
  exact whole

mutual

theorem GreenNode.leaves_located (g : GreenNode) {root : GreenNode} {self : SyntaxNode} (eq : self.green = g)
    (loc : InTree root (.node self)) {t : SyntaxToken} (mem : t ∈ g.leaves self) :
    InTree root (.token t) := by
  cases g with
  | new kind kids =>
    have suffix := loc.suffix
    rw [eq] at suffix
    exact GreenChild.leaves_located kids loc suffix mem

theorem GreenChild.leaves_located (rest : List GreenChild) {root : GreenNode} {self : SyntaxNode}
    {idx offset : Nat} (loc : InTree root (.node self)) (suffix : self.Suffix rest idx offset)
    {t : SyntaxToken} (mem : t ∈ GreenChild.leaves rest self idx offset) : InTree root (.token t) := by
  match rest with
  | [] => cases mem
  | .token _ :: rest =>
    rcases mem_cons.mp mem with rfl | hl
    · exact .child loc suffix.child
    · exact GreenChild.leaves_located rest loc suffix.tail hl
  | .node n :: rest =>
    rcases mem_append.mp mem with inner | hl
    · exact GreenNode.leaves_located n rfl (.child loc suffix.child) inner
    · exact GreenChild.leaves_located rest loc suffix.tail hl

end

namespace InTree

variable {root : GreenNode} {e : SyntaxElement} {n : SyntaxNode} {t : SyntaxToken}

theorem leaves (loc : InTree root (.node n)) (mem : t ∈ n.leaves) : InTree root (.token t) :=
  n.green.leaves_located rfl loc mem

theorem leaves_subset (loc : InTree root e) : e.leaves ⊆ (SyntaxNode.newRoot root).leaves := by
  induction loc with
  | root => exact fun _ mem => mem
  | @child n idx e hin hit ih =>
    intro t mem
    apply ih
    show t ∈ n.leaves
    rw [n.leaves_eq]
    have here : e ∈ n.children := by
      rw [← hin.getElem?_children] at hit
      exact mem_of_getElem? hit
    exact mem_flatMap.mpr ⟨e, here, mem⟩

theorem token_iff : InTree root (.token t) ↔ t ∈ (SyntaxNode.newRoot root).leaves := by
  constructor
  · intro loc
    exact loc.leaves_subset (.head _)
  · exact InTree.root.leaves

end InTree

def Tiles : Nat → List SyntaxToken → Prop
  | _, [] => True
  | offset, t :: rest => t.offset = offset ∧ Tiles (offset + byteLength t.green.text) rest

def leavesText (leaves : List SyntaxToken) : Text := leaves.flatMap fun t => t.green.text

variable {offset tgt start : Nat} {leaves : List SyntaxToken}

theorem Tiles.append {front back : List SyntaxToken} (fst : Tiles offset front)
    (snd : Tiles (offset + byteLength (leavesText front)) back) : Tiles offset (front ++ back) := by
  induction front generalizing offset with
  | nil => exact snd
  | cons t front ih =>
    refine ⟨fst.1, ih fst.2 ?_⟩
    rw [Nat.add_assoc, ← byteLength_append]
    exact snd

mutual

theorem GreenNode.leaves_text (g : GreenNode) (self : SyntaxNode) : leavesText (g.leaves self) = g.text := by
  cases g with
  | new kind kids => exact GreenChild.leaves_text kids self 0 self.offset

theorem GreenChild.leaves_text (rest : List GreenChild) (self : SyntaxNode) (idx offset : Nat) :
    leavesText (GreenChild.leaves rest self idx offset) = GreenChild.collectText rest := by
  match rest with
  | [] => rfl
  | .token t :: rest =>
    exact congrArg (t.text ++ ·)
      (GreenChild.leaves_text rest self (idx + 1) (GreenChild.advance (.token t) offset))
  | .node n :: rest =>
    have inner := GreenNode.leaves_text n (.newChild n self idx offset)
    have hl := GreenChild.leaves_text rest self (idx + 1) (GreenChild.advance (.node n) offset)
    unfold leavesText at inner hl ⊢
    rw [GreenChild.leaves, flatMap_append, inner, hl]
    rfl

end

theorem GreenChild.advance_eq {c : GreenChild} (small : offset + byteLength c.text < 2 ^ 32) :
    c.advance offset = offset + byteLength c.text := by
  unfold GreenChild.advance
  rw [GreenChild.width_eq]
  omega

mutual

theorem GreenNode.leaves_tiles (g : GreenNode) (self : SyntaxNode)
    (small : self.offset + byteLength g.text < 2 ^ 32) : Tiles self.offset (g.leaves self) := by
  cases g with
  | new kind kids => exact GreenChild.leaves_tiles kids self 0 self.offset small

theorem GreenChild.leaves_tiles (rest : List GreenChild) (self : SyntaxNode) (idx offset : Nat)
    (small : offset + byteLength (GreenChild.collectText rest) < 2 ^ 32) :
    Tiles offset (GreenChild.leaves rest self idx offset) := by
  match rest with
  | [] => trivial
  | .token t :: rest =>
    have length : byteLength (GreenChild.collectText (.token t :: rest)) =
        byteLength t.text + byteLength (GreenChild.collectText rest) := byteLength_append _ _
    have next : GreenChild.advance (.token t) offset = offset + byteLength t.text :=
      GreenChild.advance_eq (c := .token t) (show offset + byteLength t.text < 2 ^ 32 by omega)
    refine ⟨rfl, ?_⟩
    rw [next]
    exact GreenChild.leaves_tiles rest self (idx + 1) (offset + byteLength t.text) (by omega)
  | .node n :: rest =>
    have length : byteLength (GreenChild.collectText (.node n :: rest)) =
        byteLength n.text + byteLength (GreenChild.collectText rest) := byteLength_append _ _
    have next : GreenChild.advance (.node n) offset = offset + byteLength n.text :=
      GreenChild.advance_eq (c := .node n) (show offset + byteLength n.text < 2 ^ 32 by omega)
    rw [GreenChild.leaves, next]
    apply Tiles.append
    · exact GreenNode.leaves_tiles n (.newChild n self idx offset)
        (show offset + byteLength n.text < 2 ^ 32 by omega)
    · rw [GreenNode.leaves_text]
      exact GreenChild.leaves_tiles rest self (idx + 1) (offset + byteLength n.text) (by omega)

end

theorem TextRange.contains_atOffset {length : Nat} (small : offset + length < 2 ^ 32) :
    (TextRange.atOffset offset (length % 2 ^ 32)).contains tgt = true ↔
      offset ≤ tgt ∧ tgt < offset + length := by
  have cut : length % 2 ^ 32 = length := Nat.mod_eq_of_lt (by omega)
  have stop : (TextRange.atOffset offset length).stop = offset + length := Nat.mod_eq_of_lt small
  rw [cut, TextRange.contains, stop, Bool.and_eq_true, decide_eq_true_eq, decide_eq_true_eq]
  rfl

theorem SyntaxElement.contains_ofChild {self : SyntaxNode} {idx : Nat} {c : GreenChild}
    (small : offset + byteLength c.text < 2 ^ 32) :
    (SyntaxElement.ofChild self idx offset c).textRange.contains tgt = true ↔
      offset ≤ tgt ∧ tgt < offset + byteLength c.text := by
  rw [SyntaxElement.textRange_ofChild, GreenChild.width_eq]
  exact TextRange.contains_atOffset small

mutual

theorem GreenNode.tokenAtOffset_finds (tgt : Nat) (g : GreenNode) (self : SyntaxNode) (same : self.green = g)
    (small : self.offset + byteLength g.text < 2 ^ 32)
    (inside : self.offset ≤ tgt ∧ tgt < self.offset + byteLength g.text) :
    ∃ t ∈ g.leaves self, g.tokenAtOffset tgt self = some t ∧ t.textRange.contains tgt = true := by
  cases g with
  | new kind kids =>
    have here : self.textRange.contains tgt = true := by
      unfold SyntaxNode.textRange
      rw [same, GreenNode.width_eq]
      exact (TextRange.contains_atOffset small).mpr inside
    rw [GreenNode.tokenAtOffset, if_pos here]
    exact GreenChild.tokenAtOffset_finds tgt kids self 0 self.offset small inside

theorem GreenChild.tokenAtOffset_finds (tgt : Nat) (rest : List GreenChild) (self : SyntaxNode)
    (idx offset : Nat) (small : offset + byteLength (GreenChild.collectText rest) < 2 ^ 32)
    (inside : offset ≤ tgt ∧ tgt < offset + byteLength (GreenChild.collectText rest)) :
    ∃ t ∈ GreenChild.leaves rest self idx offset,
      GreenChild.tokenAtOffset tgt rest self idx offset = some t ∧ t.textRange.contains tgt = true := by
  match rest with
  | [] =>
    have empty : tgt < offset + 0 := inside.2
    omega
  | .token t :: rest =>
    have length : byteLength (GreenChild.collectText (.token t :: rest)) =
        byteLength t.text + byteLength (GreenChild.collectText rest) := byteLength_append _ _
    have fits : offset + byteLength (GreenChild.text (.token t)) < 2 ^ 32 :=
      show offset + byteLength t.text < 2 ^ 32 by omega
    have next : GreenChild.advance (.token t) offset = offset + byteLength t.text := GreenChild.advance_eq fits
    rw [GreenChild.tokenAtOffset, GreenChild.leaves]
    by_cases here : (SyntaxElement.ofChild self idx offset (.token t)).textRange.contains tgt = true
    · rw [if_pos here]
      exact ⟨_, .head _, rfl, here⟩
    · rw [if_neg here, next]
      have beyond : ¬ (offset ≤ tgt ∧ tgt < offset + byteLength t.text) :=
        fun within => here ((SyntaxElement.contains_ofChild fits).mpr within)
      rcases GreenChild.tokenAtOffset_finds tgt rest self (idx + 1) (offset + byteLength t.text) (by omega)
        (by omega) with ⟨hit, mem, res, contains⟩
      exact ⟨hit, .tail _ mem, res, contains⟩
  | .node n :: rest =>
    have length : byteLength (GreenChild.collectText (.node n :: rest)) =
        byteLength n.text + byteLength (GreenChild.collectText rest) := byteLength_append _ _
    have fits : offset + byteLength (GreenChild.text (.node n)) < 2 ^ 32 :=
      show offset + byteLength n.text < 2 ^ 32 by omega
    have next : GreenChild.advance (.node n) offset = offset + byteLength n.text := GreenChild.advance_eq fits
    rw [GreenChild.tokenAtOffset, GreenChild.leaves]
    by_cases here : (SyntaxElement.ofChild self idx offset (.node n)).textRange.contains tgt = true
    · rw [if_pos here]
      rcases GreenNode.tokenAtOffset_finds tgt n (.newChild n self idx offset) rfl fits
        ((SyntaxElement.contains_ofChild fits).mp here) with ⟨hit, mem, res, contains⟩
      exact ⟨hit, mem_append_left _ mem, res, contains⟩
    · rw [if_neg here, next]
      have beyond : ¬ (offset ≤ tgt ∧ tgt < offset + byteLength n.text) :=
        fun within => here ((SyntaxElement.contains_ofChild fits).mpr within)
      rcases GreenChild.tokenAtOffset_finds tgt rest self (idx + 1) (offset + byteLength n.text) (by omega)
        (by omega) with ⟨hit, mem, res, contains⟩
      exact ⟨hit, mem_append_right _ mem, res, contains⟩

end

theorem Tiles.start_le (tiles : Tiles start leaves) {t : SyntaxToken} (mem : t ∈ leaves) : start ≤ t.offset := by
  induction leaves generalizing start with
  | nil => cases mem
  | cons fst rest ih =>
    rcases mem_cons.mp mem with rfl | hl
    · exact Nat.le_of_eq tiles.1.symm
    · have behind := ih tiles.2 hl
      omega

theorem Tiles.unique (tiles : Tiles start leaves) {t t' : SyntaxToken} (mem : t ∈ leaves)
    (member' : t' ∈ leaves) (holds : t.offset ≤ tgt ∧ tgt < t.offset + byteLength t.green.text)
    (holds' : t'.offset ≤ tgt ∧ tgt < t'.offset + byteLength t'.green.text) : t' = t := by
  induction leaves generalizing start with
  | nil => cases mem
  | cons fst rest ih =>
    have startEq := tiles.1
    rcases mem_cons.mp mem with rfl | hl
    · rcases mem_cons.mp member' with rfl | later'
      · rfl
      · have behind := tiles.2.start_le later'
        omega
    · rcases mem_cons.mp member' with rfl | later'
      · have behind := tiles.2.start_le hl
        omega
      · exact ih tiles.2 hl later'

namespace SyntaxToken

variable {t : SyntaxToken} {text : Text} {tgt : Nat}

theorem contains_holds (selects : (SyntaxElement.token t).Selects text)
    (contains : t.textRange.contains tgt = true) :
    t.offset ≤ tgt ∧ tgt < t.offset + byteLength t.green.text := by
  rcases selects with ⟨front, back, -, start, stop⟩
  have offset : t.offset = byteLength front := start
  have behind : t.textRange.stop = byteLength front + byteLength t.green.text := stop
  rw [TextRange.contains, Bool.and_eq_true, decide_eq_true_eq, decide_eq_true_eq] at contains
  have above : t.offset ≤ tgt := contains.1
  omega

end SyntaxToken

namespace InTree

variable {root : GreenNode} {n : SyntaxNode}

theorem fits (small : byteLength root.text < 2 ^ 32) (located : InTree root (.node n)) :
    n.offset + byteLength n.green.text < 2 ^ 32 := by
  rcases located.selects small with ⟨front, back, whole, start, -⟩
  have offset : n.offset = byteLength front := start
  have text : (SyntaxElement.node n).text = n.green.text := rfl
  rw [whole, byteLength_append, byteLength_append, text] at small
  omega

theorem tokenAtOffset_unique (small : byteLength root.text < 2 ^ 32) (located : InTree root (.node n)) {tgt : Nat}
    (inside : n.textRange.contains tgt = true) :
    ∃ t ∈ n.leaves, n.tokenAtOffset tgt = some t ∧ t.textRange.contains tgt = true ∧ t.green.text ≠ [] ∧
      ∀ t' ∈ n.leaves, t'.textRange.contains tgt = true → t' = t := by
  have fits := located.fits small
  have within : n.offset ≤ tgt ∧ tgt < n.offset + byteLength n.green.text := by
    unfold SyntaxNode.textRange at inside
    rw [GreenNode.width_eq] at inside
    exact (TextRange.contains_atOffset fits).mp inside
  rcases n.green.tokenAtOffset_finds tgt n rfl fits within with ⟨t, mem, res, contains⟩
  have holds : ∀ t' ∈ n.leaves, t'.textRange.contains tgt = true →
      t'.offset ≤ tgt ∧ tgt < t'.offset + byteLength t'.green.text :=
    fun t' member' contains' => SyntaxToken.contains_holds ((located.leaves member').selects small) contains'
  refine ⟨t, mem, res, contains, ?_, ?_⟩
  · intro empty
    have here := holds t mem contains
    rw [empty, byteLength_nil] at here
    omega
  · intro t' member' contains'
    exact (n.green.leaves_tiles n fits).unique mem member' (holds t mem contains) (holds t' member' contains')

end InTree

/-- The element is the one a search for a range ends at below another. -/
inductive Covers (range : TextRange) : SyntaxElement → SyntaxElement → Prop
  | token (t : SyntaxToken) : Covers range (.token t) (.token t)
  | node {n : SyntaxNode} (none : ∀ child ∈ n.children, child.textRange.containsRange range = false) :
    Covers range (.node n) (.node n)
  | child {n : SyntaxNode} {child e : SyntaxElement} (member : child ∈ n.children)
    (covers : child.textRange.containsRange range = true) (below : Covers range child e) : Covers range (.node n) e

mutual

theorem GreenNode.coveringElement_covers (range : TextRange) (g : GreenNode) (self : SyntaxNode)
    (eq : self.green = g) : Covers range (.node self) (g.coveringElement range self) := by
  cases g with
  | new kind kids =>
    have whole : self.children = GreenChild.elements self kids 0 self.offset := by
      unfold SyntaxNode.children
      rw [eq]
      rfl
    exact GreenChild.coveringElement_covers range kids self 0 self.offset [] whole nofun

theorem GreenChild.coveringElement_covers (range : TextRange) (rest : List GreenChild) (self : SyntaxNode)
    (idx offset : Nat) (pre : List SyntaxElement)
    (split : self.children = pre ++ GreenChild.elements self rest idx offset)
    (missed : ∀ child ∈ pre, child.textRange.containsRange range = false) :
    Covers range (.node self) (GreenChild.coveringElement range rest self idx offset) := by
  match rest with
  | [] =>
    rw [GreenChild.elements, append_nil] at split
    rw [← split] at missed
    exact .node missed
  | .token t :: rest =>
    have mem : SyntaxElement.ofChild self idx offset (.token t) ∈ self.children := by
      rw [split]
      exact mem_append_right _ (.head _)
    rw [GreenChild.coveringElement]
    by_cases here : (SyntaxElement.ofChild self idx offset (.token t)).textRange.containsRange range = true
    · rw [if_pos here]
      exact .child mem here (.token _)
    · rw [if_neg here]
      apply GreenChild.coveringElement_covers range rest self (idx + 1) _
        (pre ++ [.ofChild self idx offset (.token t)])
      · rw [split, GreenChild.elements, append_assoc]
        rfl
      · intro child earlier
        rcases mem_append.mp earlier with fst | last
        · exact missed child fst
        · rw [mem_singleton.mp last]
          exact Bool.eq_false_iff.mpr here
  | .node n :: rest =>
    have mem : SyntaxElement.ofChild self idx offset (.node n) ∈ self.children := by
      rw [split]
      exact mem_append_right _ (.head _)
    rw [GreenChild.coveringElement]
    by_cases here : (SyntaxElement.ofChild self idx offset (.node n)).textRange.containsRange range = true
    · rw [if_pos here]
      exact .child mem here (GreenNode.coveringElement_covers range n (.newChild n self idx offset) rfl)
    · rw [if_neg here]
      apply GreenChild.coveringElement_covers range rest self (idx + 1) _
        (pre ++ [.ofChild self idx offset (.node n)])
      · rw [split, GreenChild.elements, append_assoc]
        rfl
      · intro child earlier
        rcases mem_append.mp earlier with fst | last
        · exact missed child fst
        · rw [mem_singleton.mp last]
          exact Bool.eq_false_iff.mpr here

end

theorem SyntaxNode.coveringElement_covers (n : SyntaxNode) (range : TextRange) :
    Covers range (.node n) (n.coveringElement range) := n.green.coveringElement_covers range n rfl

namespace Covers

variable {range : TextRange} {start e : SyntaxElement}

theorem located {root : GreenNode} (covers : Covers range start e) (loc : InTree root start) :
    InTree root e := by
  induction covers with
  | token t | node none => exact loc
  | child mem _ _ ih => exact ih (loc.mem_children mem)

theorem containsRange (covers : Covers range start e) (whole : start.textRange.containsRange range = true) :
    e.textRange.containsRange range = true := by
  induction covers with
  | token t | node none => exact whole
  | child _ here _ ih => exact ih here

theorem deepest (covers : Covers range start e) {n : SyntaxNode} (node : e = .node n) :
    ∀ child ∈ n.children, child.textRange.containsRange range = false := by
  induction covers with
  | token t => cases node
  | node none =>
    cases node
    exact none
  | child _ _ _ ih => exact ih node

end Covers

end SyntaxTree
