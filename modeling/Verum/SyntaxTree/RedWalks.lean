import Verum.SyntaxTree.RedTokens

open List

namespace SyntaxTree

/-- No node has more children than an index of 32 bits can tell apart. -/
inductive GreenNode.Narrow : GreenNode → Prop
  | new {kind : SyntaxKind} {children : List GreenChild} (few : children.length ≤ 2 ^ 32)
      (inner : ∀ g, .node g ∈ children → GreenNode.Narrow g) : GreenNode.Narrow (.new kind children)

theorem GreenNode.Narrow.length_le {g : GreenNode} (narrow : g.Narrow) : g.children.length ≤ 2 ^ 32 := by
  cases narrow with
  | new few _ => exact few

theorem GreenNode.Narrow.child {g inner : GreenNode} (narrow : g.Narrow) (mem : .node inner ∈ g.children) :
    inner.Narrow := by
  cases narrow with
  | new _ each => exact each inner mem

namespace SyntaxElement

section

variable (sibling : SyntaxElement → Option SyntaxElement) (edge : SyntaxNode → Option SyntaxToken)

def Seeks (e : SyntaxElement) (result : Option SyntaxToken) : Prop := ∃ fuel, seek sibling edge fuel e = some result

end

section

variable {sibling : SyntaxElement → Option SyntaxElement} {edge : SyntaxNode → Option SyntaxToken}
  {e : SyntaxElement} {n : SyntaxNode} {t : SyntaxToken} {other : Option SyntaxToken}

theorem seek_mono {fuel : Nat} (done : seek sibling edge fuel e = some res) (extra : Nat) :
    seek sibling edge (fuel + extra) e = some res := by
  induction fuel generalizing e with
  | zero => cases done
  | succ fuel ih =>
    rw [show fuel + 1 + extra = fuel + extra + 1 by omega]
    unfold seek at done ⊢
    cases step : sibling e with
    | some next =>
      rw [step] at done
      cases next with
      | token t => exact done
      | node n =>
        dsimp only at done ⊢
        cases fst : edge n with
        | some t =>
          rw [fst] at done
          exact done
        | none =>
          rw [fst] at done
          exact ih done
    | none =>
      rw [step] at done
      dsimp only at done ⊢
      cases above : e.parent with
      | none =>
        rw [above] at done
        exact done
      | some p =>
        rw [above] at done
        exact ih done

theorem Seeks.unique (fst : Seeks sibling edge e res) (snd : Seeks sibling edge e other) :
    res = other := by
  rcases fst with ⟨fuel, done⟩
  rcases snd with ⟨fuel', done'⟩
  have long := seek_mono done fuel'
  rw [Nat.add_comm, seek_mono done' fuel] at long
  exact (Option.some.inj long).symm

theorem Seeks.token (step : sibling e = some (.token t)) : Seeks sibling edge e (some t) := by
  use 1
  unfold seek
  rw [step]

theorem Seeks.inner (step : sibling e = some (.node n)) (fst : edge n = some t) :
    Seeks sibling edge e (some t) := by
  use 1
  unfold seek
  rw [step]
  dsimp only
  rw [fst]

theorem Seeks.skip (step : sibling e = some (.node n)) (empty : edge n = none)
    (rest : Seeks sibling edge (.node n) res) : Seeks sibling edge e res := by
  rcases rest with ⟨fuel, done⟩
  use fuel + 1
  unfold seek
  rw [step]
  dsimp only
  rw [empty]
  exact done

theorem Seeks.stop (last : sibling e = none) (top : e.parent = none) : Seeks sibling edge e none := by
  use 1
  unfold seek
  rw [last]
  dsimp only
  rw [top]

theorem Seeks.up (last : sibling e = none) (above : e.parent = some n) (rest : Seeks sibling edge (.node n) res) :
    Seeks sibling edge e res := by
  rcases rest with ⟨fuel, done⟩
  use fuel + 1
  unfold seek
  rw [last]
  dsimp only
  rw [above]
  exact done

end

end SyntaxElement

/-- A direction of the walks: the children in its order, the tokens below an element in its order, and the moves
of the code along them. -/
structure Direction (root : GreenNode) (sibling : SyntaxElement → Option SyntaxElement)
    (edge : SyntaxNode → Option SyntaxToken) (order : SyntaxNode → List SyntaxElement)
    (collect : SyntaxElement → List SyntaxToken) : Prop where
  member {n : SyntaxNode} {e : SyntaxElement} (here : e ∈ order n) : e ∈ n.children
  between {n : SyntaxNode} {e next : SyntaxElement} {front back : List SyntaxElement}
    (located : InTree root (.node n)) (here : order n = front ++ e :: next :: back) : sibling e = some next
  last {n : SyntaxNode} {e : SyntaxElement} {front : List SyntaxElement} (located : InTree root (.node n))
    (here : order n = front ++ [e]) : sibling e = none
  top : sibling (.node (.newRoot root)) = none
  token (t : SyntaxToken) : collect (.token t) = [t]
  node (n : SyntaxNode) : collect (.node n) = (order n).flatMap collect
  edge (n : SyntaxNode) : edge n = (collect (.node n)).head?

theorem GreenChild.mem_elements {self : SyntaxNode} {rest : List GreenChild} {idx off : Nat} {e : SyntaxElement}
    (mem : e ∈ GreenChild.elements self rest idx off) :
    ∃ c ∈ rest, ∃ i o, e = .ofChild self i o c := by
  induction rest generalizing idx off with
  | nil => cases mem
  | cons c rest ih =>
    rcases mem_cons.mp mem with rfl | hl
    · exact ⟨c, .head _, idx, off, rfl⟩
    · rcases ih hl with ⟨c', hin, i, o, eq⟩
      exact ⟨c', .tail _ hin, i, o, eq⟩

theorem SyntaxNode.parent_of_mem {n : SyntaxNode} {e : SyntaxElement} (mem : e ∈ n.children) :
    e.parent = some n := by
  rcases GreenChild.mem_elements mem with ⟨c, -, i, o, rfl⟩
  exact SyntaxElement.parent_ofChild n i o c

theorem SyntaxNode.green_of_mem {n m : SyntaxNode} (mem : .node m ∈ n.children) :
    .node m.green ∈ n.green.children := by
  rcases GreenChild.mem_elements mem with ⟨c, hin, i, o, eq⟩
  cases c with
  | node g =>
    cases eq
    exact hin
  | token t => cases eq

namespace Direction

open Iteration

variable {root : GreenNode} {sibling : SyntaxElement → Option SyntaxElement} {edge : SyntaxNode → Option SyntaxToken}
  {order : SyntaxNode → List SyntaxElement} {collect : SyntaxElement → List SyntaxToken}

theorem seeks (direction : Direction root sibling edge order collect) {n : SyntaxNode}
    (loc : InTree root (.node n)) {res : Option SyntaxToken}
    (above : SyntaxElement.Seeks sibling edge (.node n) res) {rest front : List SyntaxElement} {e : SyntaxElement}
    (here : order n = front ++ e :: rest) :
    SyntaxElement.Seeks sibling edge e ((rest.flatMap collect).head?.or res) := by
  induction rest generalizing front e with
  | nil =>
    have mem : e ∈ order n := by
      rw [here]
      exact mem_append_right _ (.head _)
    exact .up (direction.last loc here) (SyntaxNode.parent_of_mem (direction.member mem)) above
  | cons next rest ih =>
    have step := direction.between loc here
    have hl : order n = (front ++ [e]) ++ next :: rest := by
      rw [here, append_assoc]
      rfl
    cases next with
    | token t =>
      rw [flatMap_cons, direction.token]
      exact .token step
    | node m =>
      have fst := direction.edge m
      rw [flatMap_cons, List.head?_append, ← fst]
      cases empty : edge m with
      | some t => exact .inner step empty
      | none => exact .skip step empty (ih hl)

theorem visits_node (direction : Direction root sibling edge order collect) {g : GreenNode} (narrow : g.Narrow)
    {n : SyntaxNode} (eq : n.green = g) (loc : InTree root (.node n)) {res : Option SyntaxToken}
    {xs : List SyntaxToken} (above : SyntaxElement.Seeks sibling edge (.node n) res)
    (after : Visits (fun t => SyntaxElement.Seeks sibling edge (.token t)) res xs) :
    Visits (fun t => SyntaxElement.Seeks sibling edge (.token t))
      ((collect (.node n)).head?.or res) (collect (.node n) ++ xs) := by
  induction narrow generalizing n res xs with
  | new _ _ ih =>
    have each : ∀ (rest front : List SyntaxElement), order n = front ++ rest →
        Visits (fun t => SyntaxElement.Seeks sibling edge (.token t))
          ((rest.flatMap collect).head?.or res) (rest.flatMap collect ++ xs) := by
      intro rest
      induction rest with
      | nil => exact fun _ _ => after
      | cons e rest inductionHypothesis =>
        intro front here
        have hl : order n = (front ++ [e]) ++ rest := by
          rw [here, append_assoc]
          rfl
        have behind := inductionHypothesis (front ++ [e]) hl
        have leave := direction.seeks loc above here
        have mem : e ∈ n.children := by
          apply direction.member
          rw [here]
          exact mem_append_right _ (.head _)
        rw [flatMap_cons, List.head?_append, append_assoc, Option.or_assoc]
        cases e with
        | token t =>
          rw [direction.token]
          exact .item leave behind
        | node m =>
          have hin := SyntaxNode.green_of_mem mem
          rw [eq] at hin
          exact ih m.green hin rfl (loc.mem_children mem) leave behind
    rw [direction.node]
    exact each (order n) [] rfl

theorem visits (direction : Direction root sibling edge order collect) (narrow : root.Narrow) :
    Visits (fun t => SyntaxElement.Seeks sibling edge (.token t)) (edge (.newRoot root))
      (collect (.node (.newRoot root))) := by
  have top : SyntaxElement.Seeks sibling edge (.node (.newRoot root)) none := .stop direction.top rfl
  have whole := direction.visits_node narrow rfl .root top .done
  rw [Option.or_none, append_nil, ← direction.edge] at whole
  exact whole

end Direction

namespace InTree

variable {root : GreenNode} {n : SyntaxNode} {e : SyntaxElement} {idx : Nat}

theorem narrow (wide : root.Narrow) (loc : InTree root (.node n)) : n.green.Narrow := by
  generalize eq : SyntaxElement.node n = e at loc
  induction loc generalizing n with
  | root =>
    cases eq
    exact wide
  | child hin hit ih =>
    subst eq
    rw [← hin.getElem?_children] at hit
    exact (ih rfl).child (SyntaxNode.green_of_mem (mem_of_getElem? hit))

theorem siblings (wide : root.Narrow) (loc : InTree root (.node n)) (here : n.children[idx]? = some e) :
    e.nextSibling = n.children[idx + 1]? ∧
      e.prevSibling = if idx = 0 then none else n.children[idx - 1]? := by
  rw [loc.getElem?_children] at here
  rw [loc.getElem?_children, loc.getElem?_children]
  rcases n.child_eq_some.mp here with ⟨c, hit, rfl⟩
  have hb := (List.getElem?_eq_some_iff.mp hit).1
  have few := (loc.narrow wide).length_le
  have exact : idx % 2 ^ 32 = idx := Nat.mod_eq_of_lt (by omega)
  cases c with
  | token t => exact ⟨rfl, rfl⟩
  | node g =>
    constructor
    · show n.child (idx % 2 ^ 32 + 1) = n.child (idx + 1)
      rw [exact]
    · show (if idx % 2 ^ 32 = 0 then none else n.child (idx % 2 ^ 32 - 1)) = _
      rw [exact]

end InTree

theorem Direction.forward {root : GreenNode} (wide : root.Narrow) :
    Direction root SyntaxElement.nextSibling SyntaxNode.firstToken SyntaxNode.children SyntaxElement.leaves where
  member := fun here => here
  between := by
    intro n e next front back loc here
    have this : n.children[front.length]? = some e := by simp [here]
    rw [(loc.siblings wide this).1, here]
    simp
  last := by
    intro n e front loc here
    have this : n.children[front.length]? = some e := by simp [here]
    rw [(loc.siblings wide this).1, here]
    simp
  top := rfl
  token := fun _ => rfl
  node := SyntaxNode.leaves_eq
  edge := SyntaxNode.firstToken_eq

theorem Direction.backward {root : GreenNode} (wide : root.Narrow) :
    Direction root SyntaxElement.prevSibling SyntaxNode.lastToken (fun n => n.children.reverse)
      (fun e => e.leaves.reverse) where
  member := mem_reverse.mp
  between := by
    intro n e next front back loc here
    have forth : n.children = back.reverse ++ next :: e :: front.reverse := by
      rw [← reverse_reverse n.children, here]
      simp
    have this : n.children[back.reverse.length + 1]? = some e := by
      rw [forth]
      simp
    rw [(loc.siblings wide this).2, if_neg (Nat.succ_ne_zero _), forth]
    simp
  last := by
    intro n e front loc here
    have forth : n.children = e :: front.reverse := by
      rw [← reverse_reverse n.children, here]
      simp
    have this : n.children[0]? = some e := by
      rw [forth]
      rfl
    rw [(loc.siblings wide this).2, if_pos rfl]
  top := rfl
  token := fun _ => rfl
  node := by
    intro n
    show n.leaves.reverse = _
    rw [SyntaxNode.leaves_eq, reverse_flatMap]
    rfl
  edge := by
    intro n
    show n.lastToken = n.leaves.reverse.head?
    rw [List.head?_reverse]
    exact n.lastToken_eq

end SyntaxTree
