import Verum.Collections.BTree
import Verum.Collections.Weave

open List

namespace Collections

section Items

variable {α : Type} {xs ys : List α} {x y : α}

theorem item_append : item (xs ++ x :: ys) xs.length = .ok x := by
  unfold item
  simp

theorem item_append_succ : item (xs ++ x :: y :: ys) (xs.length + 1) = .ok y := by
  unfold item
  simp

end Items

namespace BTreeNode

variable {K V : Type}

def leafNode (es : List (K × V)) : BTreeNode K V := ⟨es.map Prod.fst, es.map Prod.snd, [], true⟩

def internalNode (es : List (K × V)) (children : List (BTreeNode K V)) : BTreeNode K V :=
  ⟨es.map Prod.fst, es.map Prod.snd, children, false⟩

mutual

/-- The entries of a node and of all nodes below it, from left to right. -/
def flatten : BTreeNode K V → List (K × V)
  | ⟨keys, values, children, _⟩ => weave (flattens children) (keys.zip values)

def flattens : List (BTreeNode K V) → List (List (K × V))
  | [] => []
  | child :: children => flatten child :: flattens children

end

/-- A node of a height: all its leaves are that far below it, and the nodes below it are filled at least
    to the minimum. -/
inductive Formed : Nat → BTreeNode K V → Prop
  | leaf {es : List (K × V)} : es.length ≤ maxKeys → Formed 0 (leafNode es)
  | internal {h : Nat} {es : List (K × V)} {children : List (BTreeNode K V)} : es.length ≤ maxKeys →
    children.length = es.length + 1 → (∀ child ∈ children, Formed h child) →
    (∀ child ∈ children, minKeys ≤ child.keys.length) → Formed (h + 1) (internalNode es children)

/-- The entries in front of a child: those of the children before it and the entries between. -/
def front (children : List (BTreeNode K V)) (es : List (K × V)) : List (K × V) :=
  Weave.before (children.map flatten) es

def back (children : List (BTreeNode K V)) (es : List (K × V)) : List (K × V) :=
  Weave.after (children.map flatten) es

variable {es es' : List (K × V)} {e : K × V} {children cs cs' : List (BTreeNode K V)} {c node : BTreeNode K V}
  {h : Nat}

theorem flattens_eq (children : List (BTreeNode K V)) : flattens children = children.map flatten := by
  induction children with
  | nil => rfl
  | cons child children ih => rw [flattens, ih, map_cons]

theorem zip_map (es : List (K × V)) : (es.map Prod.fst).zip (es.map Prod.snd) = es := by
  induction es with
  | nil => rfl
  | cons e es ih => rw [map_cons, map_cons, zip_cons_cons, ih]

@[simp] theorem flatten_leaf : (leafNode es).flatten = es := by
  rw [leafNode, flatten, zip_map, flattens, weave]

theorem flatten_internal : (internalNode es children).flatten = weave (children.map flatten) es := by
  rw [internalNode, flatten, zip_map, flattens_eq]

theorem flatten_split (balanced : cs.length = es.length) (balanced' : cs'.length = es'.length) :
    (internalNode (es ++ es') (cs ++ c :: cs')).flatten = front cs es ++ (c.flatten ++ back cs' es') := by
  rw [flatten_internal, map_append, map_cons]
  apply Weave.weave_split
  · rw [length_map, balanced]
  · rw [length_map, balanced']

theorem back_cons (balanced : cs.length = es.length) : back (c :: cs) (e :: es) = e :: (c.flatten ++ back cs es) := by
  unfold back
  rw [map_cons, Weave.after_cons (by rw [length_map, balanced])]

theorem exists_split (branching : children.length = (es ++ es').length + 1) : ∃ cs c cs',
    children = cs ++ c :: cs' ∧ cs.length = es.length ∧ cs'.length = es'.length := by
  rw [length_append] at branching
  have hin : es.length < children.length := by omega
  refine ⟨children.take es.length, children[es.length], children.drop (es.length + 1), ?_, ?_, ?_⟩
  · rw [getElem_cons_drop, take_append_drop]
  · rw [length_take]
    omega
  · rw [length_drop]
    omega

theorem depth_eq (wf : Formed h node) : node.depth = h := by
  have depths_eq : ∀ {k : Nat} {children : List (BTreeNode K V)}, children ≠ [] →
      (∀ child ∈ children, child.depth = k) → depths children = k + 1 := by
    intro k children
    induction children with
    | nil => exact fun ne => absurd rfl ne
    | cons child children ih =>
      intro _ all
      rw [depths, all child (.head _)]
      cases children with
      | nil => rfl
      | cons next children =>
        rw [ih (cons_ne_nil _ _) fun child mem => all child (.tail _ mem)]
        exact Nat.max_self _
  induction wf with
  | leaf => rfl
  | internal _ branching _ _ ih =>
    unfold internalNode depth
    apply depths_eq _ ih
    rintro rfl
    cases branching

theorem formed_internalNode : Formed (h + 1) (internalNode es children) ↔
    (es.length ≤ maxKeys ∧ children.length = es.length + 1) ∧
      ∀ child ∈ children, Formed h child ∧ minKeys ≤ child.keys.length := by
  constructor
  · intro wf
    generalize eq : internalNode es children = node at wf
    cases wf with
    | @internal _ es' children' few branching forms fills =>
      injection eq with keys values kids
      have entries : es = es' := by rw [← zip_map es, keys, values, zip_map]
      subst entries kids
      exact ⟨⟨few, branching⟩, fun child mem => ⟨forms child mem, fills child mem⟩⟩
  · rintro ⟨⟨few, branching⟩, each⟩
    exact .internal few branching (fun child mem => (each child mem).1) fun child mem =>
      (each child mem).2

section Order

variable [LinearOrder K]

theorem around {hlt : K → Prop} (down : ∀ x y, x < y → hlt y → hlt x) (balanced : cs.length = es.length)
    (ascending : Entries.Ascending (front cs es ++ (c.flatten ++ back cs' es')))
    (pre : ∀ e ∈ es, hlt e.1) (next : ∀ e ∈ es'.head?, ¬ hlt e.1) :
    (∀ x ∈ front cs es, hlt x.1) ∧ ∀ x ∈ back cs' es', ¬ hlt x.1 := by
  have parts := pairwise_append.mp ascending
  have behind := (pairwise_append.mp parts.2.1).2.1
  constructor
  · apply Weave.before_forall _ down parts.1 pre
    rw [length_map, balanced]
  · exact Weave.after_forall (p := fun k => ¬ hlt k)
        (fun x y lt above lower => above (down x y lt lower)) behind next

end Order

end BTreeNode

end Collections
