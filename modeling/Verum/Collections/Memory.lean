import Mathlib.Tactic.Ring
import Verum.Collections.Outcome

namespace Collections

/-- How a call may fail to return; `diverges` stands for a loop without end. -/
inductive Panic where
  | overflow
  | outOfMemory (capacity : Nat)
  | assertion (message : String)
  | invalidAccess
  | diverges

/-- Element size in bytes, and the requests that the allocator grants. -/
structure Memory where
  size : Nat
  grants : Nat → Bool

def maxInt : Nat := 2 ^ 63 - 1

def checked (n : Nat) : Except Panic Nat := if n ≤ maxInt then .ok n else .error .overflow

def checkedInt (n : Int) : Except Panic Int :=
  if -(maxInt + 1 : Int) ≤ n ∧ n ≤ maxInt then .ok n else .error .overflow

def alloc (memory : Memory) (capacity : Nat) : Except Panic Unit := do
  let bytes ← checked (capacity * memory.size)
  if memory.grants bytes then .ok () else .error (.outOfMemory capacity)

section Items

variable {α : Type}

/-- `list[i]` -/
def item (list : List α) (i : Nat) : Except Panic α :=
  match list[i]? with
  | some x => .ok x
  | none => .error .invalidAccess

def setItem (list : List α) (i : Nat) (x : α) : Except Panic (List α) :=
  if i < list.length then .ok (list.set i x) else .error .invalidAccess

/-- The elements from an index up to another, copied one after the other. -/
def copyItems (list : List α) (first last : Nat) : Except Panic (List α) :=
  if last ≤ list.length ∨ last ≤ first then .ok ((list.take last).drop first) else .error .invalidAccess

end Items

theorem lookup_filter_ne {K V : Type} [DecidableEq K] (es : List (K × V)) (key other : K) :
    (es.filter fun e => e.1 ≠ key).lookup other = if other = key then none else es.lookup other := by
  induction es with
  | nil => simp
  | cons e es ih =>
    by_cases here : e.1 = key
    · rw [List.filter_cons_of_neg (by simpa using here), ih, List.lookup_cons]
      split
      · rfl
      · rename_i different
        rw [beq_false_of_ne (fun eq => different (eq.trans here))]
    · rw [List.filter_cons_of_pos (by simpa using here), List.lookup_cons, List.lookup_cons]
      split
      · rename_i eq
        have found : other = e.1 := beq_iff_eq.mp eq
        rw [if_neg fun eq => here (found ▸ eq)]
      · exact ih

/-- The panics for want of memory or of integer range. -/
inductive Panic.OfMemory : Panic → Prop
  | overflow : OfMemory .overflow
  | outOfMemory (capacity : Nat) : OfMemory (.outOfMemory capacity)

abbrev Succeeds {α : Type} (outcome : Except Panic α) (post : α → Prop) : Prop :=
  Meets Panic.OfMemory outcome post

theorem checked_succeeds (n : Nat) : Succeeds (checked n) fun m => m = n ∧ m ≤ maxInt := by
  rw [checked]
  split
  · rename_i hf
    exact .ok ⟨rfl, hf⟩
  · exact .error .overflow

theorem checkedInt_succeeds (n : Int) : Succeeds (checkedInt n) fun m => m = n := by
  rw [checkedInt]
  split
  · exact .ok rfl
  · exact .error .overflow

theorem alloc_succeeds (memory : Memory) (capacity : Nat) : Succeeds (alloc memory capacity) fun _ => True := by
  rw [alloc]
  refine (checked_succeeds _).bind ?_
  intro bytes _
  split
  · exact .ok trivial
  · exact .error (.outOfMemory capacity)

end Collections
