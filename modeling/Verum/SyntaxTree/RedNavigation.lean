import Verum.SyntaxTree.RedWalks

namespace SyntaxTree

open Iteration

/-- The elements that any steps from the root lead to. -/
inductive Navigated (root : GreenNode) : SyntaxElement → Prop
  | root : Navigated root (.node (.newRoot root))
  | child {n : SyntaxNode} {index : Nat} {e : SyntaxElement} (start : Navigated root (.node n))
      (step : n.child index = some e) : Navigated root e
  | children {n : SyntaxNode} {e : SyntaxElement} (start : Navigated root (.node n)) (step : e ∈ n.children) :
      Navigated root e
  | parent {e : SyntaxElement} {n : SyntaxNode} (start : Navigated root e) (step : e.parent = some n) :
      Navigated root (.node n)
  | nextSibling {e e' : SyntaxElement} (start : Navigated root e) (step : e.nextSibling = some e') : Navigated root e'
  | prevSibling {e e' : SyntaxElement} (start : Navigated root e) (step : e.prevSibling = some e') : Navigated root e'
  | firstToken {n : SyntaxNode} {t : SyntaxToken} (start : Navigated root (.node n)) (step : n.firstToken = some t) :
      Navigated root (.token t)
  | lastToken {n : SyntaxNode} {t : SyntaxToken} (start : Navigated root (.node n)) (step : n.lastToken = some t) :
      Navigated root (.token t)
  | nextToken {t t' : SyntaxToken} {fuel : Nat} (start : Navigated root (.token t))
      (step : t.nextToken fuel = some (some t')) : Navigated root (.token t')
  | prevToken {t t' : SyntaxToken} {fuel : Nat} (start : Navigated root (.token t))
      (step : t.prevToken fuel = some (some t')) : Navigated root (.token t')
  | tokenAtOffset {n : SyntaxNode} {offset : Nat} {t : SyntaxToken} (start : Navigated root (.node n))
      (step : n.tokenAtOffset offset = some t) : Navigated root (.token t)
  | coveringElement {n : SyntaxNode} (range : TextRange) (start : Navigated root (.node n)) :
      Navigated root (n.coveringElement range)
  | descendants {n : SyntaxNode} {e : SyntaxElement} (start : Navigated root (.node n))
      (step : Issues DescendantsFrame.turn [.new n] e) : Navigated root e

namespace InTree

variable {root : GreenNode} {e e' : SyntaxElement} {n : SyntaxNode} {t : SyntaxToken}

theorem nextSibling (loc : InTree root e) (step : e.nextSibling = some e') : InTree root e' := by
  cases e with
  | node n =>
    rcases Option.bind_eq_some_iff.mp step with ⟨p, above, here⟩
    exact .child (loc.parent above) here
  | token t => exact .child (loc.parent rfl) step

theorem prevSibling (loc : InTree root e) (step : e.prevSibling = some e') : InTree root e' := by
  cases e with
  | node n =>
    have step : (if n.index = 0 then none else n.parent.bind fun par => par.child (n.index - 1)) = some e' :=
      step
    split at step
    · cases step
    · rcases Option.bind_eq_some_iff.mp step with ⟨p, above, here⟩
      exact .child (loc.parent above) here
  | token t =>
    have step : (if t.index = 0 then none else t.parent.child (t.index - 1)) = some e' := step
    split at step
    · cases step
    · exact .child (loc.parent rfl) step

theorem firstToken (loc : InTree root (.node n)) (step : n.firstToken = some t) : InTree root (.token t) := by
  rw [n.firstToken_eq] at step
  exact loc.leaves (List.mem_of_head? step)

theorem lastToken (loc : InTree root (.node n)) (step : n.lastToken = some t) : InTree root (.token t) := by
  rw [n.lastToken_eq] at step
  exact loc.leaves (List.mem_of_getLast? step)

theorem seek {sibling : SyntaxElement → Option SyntaxElement} {edge : SyntaxNode → Option SyntaxToken}
    (beside : ∀ {e e' : SyntaxElement}, InTree root e → sibling e = some e' → InTree root e')
    (hin : ∀ {n : SyntaxNode} {t : SyntaxToken}, InTree root (.node n) → edge n = some t → InTree root (.token t))
    {fuel : Nat} (loc : InTree root e) (hit : e.seek sibling edge fuel = some (some t)) :
    InTree root (.token t) := by
  induction fuel generalizing e with
  | zero => cases hit
  | succ fuel ih =>
    unfold SyntaxElement.seek at hit
    split at hit
    · next next step =>
      cases hit
      exact beside loc step
    · next m step =>
      split at hit
      · next fst edge =>
        cases hit
        exact hin (beside loc step) edge
      · exact ih (beside loc step) hit
    · split at hit
      · cases hit
      · next p above => exact ih (loc.parent above) hit

theorem tokenAtOffset (small : byteLength root.text < 2 ^ 32) (located : InTree root (.node n)) {off : Nat}
    (step : n.tokenAtOffset off = some t) : InTree root (.token t) := by
  have within : n.textRange.contains off = true := by
    by_contra outside
    unfold SyntaxNode.tokenAtOffset at step
    cases same : n.green with
    | new kind kids =>
      rw [same, GreenNode.tokenAtOffset, if_neg outside] at step
      cases step
  rcases located.tokenAtOffset_unique small within with ⟨t', mem, res, -⟩
  rw [step] at res
  cases res
  exact located.leaves mem

theorem descendants (located : InTree root (.node n)) (step : Issues DescendantsFrame.turn [.new n] e) :
    InTree root e := by
  have frames : ∀ frame ∈ [DescendantsFrame.new n], InTree root (.node frame.node) := by
    intro frame mem
    rw [List.mem_singleton.mp mem]
    exact located
  apply step.keeps (fun stack => ∀ frame ∈ stack, InTree root (.node frame.node)) (InTree root) _ frames
  intro stack stack' returned kept turn
  cases stack with
  | nil => cases turn
  | cons frame stack =>
    have here : InTree root (.node frame.node) := kept frame (.head _)
    have hlt : ∀ other ∈ stack, InTree root (.node other.node) :=
      fun other mem => kept other (.tail _ mem)
    have above : ∀ top : DescendantsFrame, InTree root (.node top.node) →
        ∀ other ∈ top :: stack, InTree root (.node other.node) := by
      intro top good other mem
      rcases List.mem_cons.mp mem with rfl | hl
      · exact good
      · exact hlt other hl
    rw [DescendantsFrame.turn] at turn
    split at turn
    · cases turn
      refine ⟨above _ here, ?_⟩
      intro item same
      cases same
      exact here
    · split at turn
      · next m found =>
        cases turn
        refine ⟨?_, nofun⟩
        intro other mem
        rcases List.mem_cons.mp mem with rfl | hl
        · exact .child here found
        · exact above { frame with index := frame.index + 1 } here other hl
      · next m found =>
        cases turn
        refine ⟨above _ here, ?_⟩
        intro item same
        cases same
        exact .child here found
      · cases turn
        exact ⟨hlt, nofun⟩

end InTree

theorem Navigated.located {root : GreenNode} (small : byteLength root.text < 2 ^ 32) {e : SyntaxElement}
    (reached : Navigated root e) : InTree root e := by
  induction reached with
  | root => exact .root
  | child _ step ih => exact .child ih step
  | children _ step ih => exact ih.mem_children step
  | parent _ step ih => exact ih.parent step
  | nextSibling _ step ih => exact ih.nextSibling step
  | prevSibling _ step ih => exact ih.prevSibling step
  | firstToken _ step ih => exact ih.firstToken step
  | lastToken _ step ih => exact ih.lastToken step
  | nextToken _ step ih => exact ih.seek InTree.nextSibling InTree.firstToken step
  | prevToken _ step ih => exact ih.seek InTree.prevSibling InTree.lastToken step
  | tokenAtOffset _ step ih => exact ih.tokenAtOffset small step
  | coveringElement range _ ih => exact (SyntaxNode.coveringElement_covers _ range).located ih
  | descendants _ step ih => exact ih.descendants step

theorem InTree.reached {root : GreenNode} {e : SyntaxElement} (loc : InTree root e) : Navigated root e := by
  induction loc with
  | root => exact .root
  | child _ hit ih => exact .child ih hit

def GreenNode.redTokens (root : GreenNode) : List SyntaxToken := (SyntaxNode.newRoot root).leaves

/-- Ranges follow the text on every way through a tree; the walks over the tokens do where an index fits. -/
theorem red_tree_follows_text (root : GreenNode) (small : byteLength root.text < 2 ^ 32) :
    (∀ e, Navigated root e → e.Selects root.text) ∧
      ((∀ t, t ∈ root.redTokens ↔ Navigated root (.token t)) ∧ Tiles 0 root.redTokens ∧
        Yields GreenChild.tokenTurn [root.children] (root.redTokens.map (·.green)) ∧
        (root.Narrow → root.redTokens.Nodup ∧
          Visits (fun t following => ∃ fuel, t.nextToken fuel = some following)
            (SyntaxNode.newRoot root).firstToken root.redTokens ∧
          Visits (fun t following => ∃ fuel, t.prevToken fuel = some following)
            (SyntaxNode.newRoot root).lastToken root.redTokens.reverse) ∧
        ∀ offset < byteLength root.text, ∃ t ∈ root.redTokens,
          (SyntaxNode.newRoot root).tokenAtOffset offset = some t ∧ t.textRange.contains offset = true ∧
            t.green.text ≠ [] ∧ ∀ t' ∈ root.redTokens, t'.textRange.contains offset = true → t' = t) ∧
      ∀ n, Navigated root (.node n) → ∀ range, n.textRange.containsRange range = true →
        (n.coveringElement range).textRange.containsRange range = true ∧
          ∀ m, n.coveringElement range = .node m →
            ∀ child ∈ m.children, child.textRange.containsRange range = false := by
  refine ⟨fun e reached => (reached.located small).selects small, ⟨?_, ?_, ?_, ?_, ?_⟩, ?_⟩
  · intro t
    show t ∈ (SyntaxNode.newRoot root).leaves ↔ _
    rw [← InTree.token_iff]
    exact ⟨InTree.reached, Navigated.located small⟩
  · exact root.leaves_tiles (.newRoot root) (InTree.root.fits small)
  · exact (SyntaxNode.newRoot root).leaves_tokens
  · intro narrow
    have forth := (Direction.forward narrow).visits narrow
    have once := forth.nodup fun _ _ _ one other => one.unique other
    exact ⟨once, forth, (Direction.backward narrow).visits narrow⟩
  · intro offset below
    have inside : (SyntaxNode.newRoot root).textRange.contains offset = true := by
      show (TextRange.atOffset 0 root.width).contains offset = true
      rw [GreenNode.width_eq]
      have within : 0 ≤ offset ∧ offset < 0 + byteLength root.text := by omega
      exact (TextRange.contains_atOffset (InTree.root.fits small)).mpr within
    exact InTree.root.tokenAtOffset_unique small inside
  · intro n _ range within
    have covers := n.coveringElement_covers range
    exact ⟨covers.containsRange within, fun m same => covers.deepest same⟩

def emptyBlock : GreenNode := .new .block []

def identBlock (char : Char) : GreenNode := .new .block [.token ⟨.ident, [char]⟩]

def nestedTree : GreenNode :=
  .new .sourceFile [.node emptyBlock, .token ⟨.whitespace, []⟩, .node (identBlock 'a'), .token ⟨.ident, ['b']⟩]

theorem emptyBlock_narrow : emptyBlock.Narrow := .new (Nat.zero_le _) nofun

theorem identBlock_narrow (char : Char) : (identBlock char).Narrow := by
  apply GreenNode.Narrow.new
  · exact Nat.one_le_two_pow
  · intro g mem
    cases List.mem_singleton.mp mem

theorem nestedTree_narrow : nestedTree.Narrow := by
  apply GreenNode.Narrow.new
  · decide
  · intro g mem
    simp only [List.mem_cons, GreenChild.node.injEq, List.not_mem_nil, reduceCtorEq, false_or, or_false] at mem
    rcases mem with rfl | rfl
    · exact emptyBlock_narrow
    · exact identBlock_narrow 'a'

theorem red_tree_follows_text_nested : nestedTree.redTokens.length = 3 ∧ nestedTree.redTokens.Nodup := by
  have small : byteLength nestedTree.text < 2 ^ 32 := by decide
  exact ⟨rfl, ((red_tree_follows_text nestedTree small).2.1.2.2.2.1 nestedTree_narrow).1⟩

def wideTree (count : Nat) : GreenNode :=
  .new .sourceFile (.token ⟨.ident, ['a']⟩ ::
    (List.replicate count (.node emptyBlock) ++ [.node (identBlock 'b')]))

theorem lastToken_replicate (self : SyntaxNode) (n idx off : Nat) :
    ∃ o, GreenChild.lastToken (List.replicate n (.node emptyBlock) ++ [.node (identBlock 'b')]) self idx off =
      some ⟨⟨.ident, ['b']⟩, .newChild (identBlock 'b') self (idx + n) o, 0, o⟩ := by
  induction n generalizing idx off with
  | zero => exact ⟨off, rfl⟩
  | succ n ih =>
    rcases ih (idx + 1) (GreenChild.advance (.node emptyBlock) off) with ⟨o, hl⟩
    use o
    rw [List.replicate_succ, List.cons_append, GreenChild.lastToken, hl,
      show idx + 1 + n = idx + (n + 1) by omega]

theorem wideTree_last {n : Nat} (wraps : (1 + n) % 2 ^ 32 = 0) :
    ∃ t, (SyntaxNode.newRoot (wideTree n)).lastToken = some t ∧ t.green.text = ['b'] ∧
      t.prevToken 3 = some none := by
  rcases lastToken_replicate (.newRoot (wideTree n)) n 1 (GreenChild.advance (.token ⟨.ident, ['a']⟩) 0)
    with ⟨o, hl⟩
  refine ⟨⟨⟨.ident, ['b']⟩, .newChild (identBlock 'b') (.newRoot (wideTree n)) (1 + n) o, 0, o⟩, ?_, rfl, ?_⟩
  · show GreenChild.lastToken (.token ⟨.ident, ['a']⟩ :: _) _ 0 0 = _
    rw [GreenChild.lastToken, hl]
  · have fst : SyntaxNode.newChild (identBlock 'b') (.newRoot (wideTree n)) (1 + n) o =
        .mk (identBlock 'b') (some (.newRoot (wideTree n))) 0 o := by
      unfold SyntaxNode.newChild
      rw [wraps]
    rw [fst]
    rfl

theorem wideTree_text (n : Nat) : (wideTree n).text = ['a', 'b'] := by
  have empties : GreenChild.collectText (List.replicate n (.node emptyBlock)) = [] := by
    induction n with
    | zero => rfl
    | succ n ih =>
      rw [List.replicate_succ]
      exact ih
  show 'a' :: GreenChild.collectText (_ ++ _) = _
  rw [GreenChild.collectText_append, empties]
  rfl

/-- A range outside of a node is in no element of it, and a walk ends early where an index wraps. -/
theorem red_tree_strays :
    ((SyntaxNode.newRoot (identBlock 'a')).coveringElement ⟨5, 6⟩).textRange.containsRange ⟨5, 6⟩ = false ∧
      byteLength (wideTree (2 ^ 32 - 1)).text < 2 ^ 32 ∧
      (∃ t, (SyntaxNode.newRoot (wideTree (2 ^ 32 - 1))).firstToken = some t ∧ t.green.text = ['a']) ∧
      ∃ t, (SyntaxNode.newRoot (wideTree (2 ^ 32 - 1))).lastToken = some t ∧ t.green.text = ['b'] ∧
        t.prevToken 3 = some none := by
  refine ⟨rfl, ?_, ⟨_, rfl, rfl⟩, wideTree_last (by omega)⟩
  rw [wideTree_text]
  decide

end SyntaxTree
