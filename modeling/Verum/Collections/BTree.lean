import Verum.Collections.Memory

namespace Collections

structure BTreeNode (K V : Type) where
  keys : List K
  values : List V
  children : List (BTreeNode K V)
  isLeaf : Bool

structure BTreeMap (K V : Type) where
  root : Option (BTreeNode K V)
  len : Nat

namespace BTreeNode

variable {K V : Type}

def b : Nat := 6

def maxKeys : Nat := 2 * b - 1

def minKeys : Nat := b - 1

mutual

/-- The number of levels below a node, which bounds the recursion of every operation. -/
def depth : BTreeNode K V → Nat
  | ⟨_, _, children, _⟩ => depths children

def depths : List (BTreeNode K V) → Nat
  | [] => 0
  | child :: children => max (depth child + 1) (depths children)

end

end BTreeNode

namespace BTreeMap

variable {K V : Type}

section Iteration

def pushLeft : Nat → List (BTreeNode K V × Nat) → BTreeNode K V → Except Panic (List (BTreeNode K V × Nat))
  | 0, _, _ => .error .diverges
  | depth + 1, stack, node =>
    if node.isLeaf then .ok ((node, 0) :: stack)
    else do
      let child ← item node.children 0
      pushLeft depth ((node, 0) :: stack) child

def next : List (BTreeNode K V × Nat) → Except Panic (Option ((K × V) × List (BTreeNode K V × Nat)))
  | [] => .ok none
  | (node, idx) :: stack =>
    if idx < node.keys.length then do
      let key ← item node.keys idx
      let value ← item node.values idx
      let stack ← if ¬ node.isLeaf ∧ idx + 1 < node.children.length then do
          let child ← item node.children (idx + 1)
          pushLeft (child.depth + 1) ((node, idx + 1) :: stack) child
        else .ok ((node, idx + 1) :: stack)
      .ok (some ((key, value), stack))
    else next stack

def iter (map : BTreeMap K V) : Except Panic (List (BTreeNode K V × Nat)) :=
  match map.root with
  | none => .ok []
  | some root => pushLeft (root.depth + 1) [] root

end Iteration

end BTreeMap

end Collections
