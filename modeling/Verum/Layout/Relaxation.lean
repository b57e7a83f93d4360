import Mathlib.Algebra.BigOperators.Group.Finset.Basic

namespace Layout

/-- A sequence of items, some of which hold a relative offset to another item in a variable-width field. -/
structure Branches where
  /-- The size of an item without its offset field. -/
  fixed : Nat → Nat
  target : Nat → Option Nat
  /-- The width of an offset field. -/
  width : Int → Nat

namespace Branches

variable (branches : Branches) (offsets : Nat → Int)

def size (index : Nat) : Nat :=
  branches.fixed index + match branches.target index with
    | some _ => branches.width (offsets index)
    | none => 0

/-- Where an item starts when the offset fields hold `offsets`. -/
def start (index : Nat) : Nat := ∑ item ∈ Finset.range index, branches.size offsets item

/-- One round of relaxation: the distances under the widths of the current offsets. -/
def relax (index : Nat) : Int :=
  match branches.target index with
  | some target => branches.start offsets target - branches.start offsets (index + 1)
  | none => offsets index

/-- Every offset, counted from the end of its item, leads to the start of the target. -/
def Lands : Prop :=
  ∀ index target, branches.target index = some target →
    (branches.start offsets (index + 1) : Int) + offsets index = branches.start offsets target

variable {branches offsets}

theorem lands_iff_relax_eq : branches.Lands offsets ↔ branches.relax offsets = offsets := by
  constructor
  · intro lands
    funext idx
    unfold relax
    cases hit : branches.target idx with
    | none => rfl
    | some tgt =>
      have reached := lands idx tgt hit
      simp only
      omega
  · intro settled idx tgt hit
    have step : branches.relax offsets idx = offsets idx := congrFun settled idx
    rw [relax, hit] at step
    simp only at step
    omega

theorem start_succ (idx : Nat) :
    branches.start offsets (idx + 1) = branches.start offsets idx + branches.size offsets idx :=
  Finset.sum_range_succ _ _

theorem iterate_relax_eq (settled : branches.relax offsets = offsets) (rounds : Nat) :
    branches.relax^[rounds] offsets = offsets :=
  Function.iterate_fixed settled rounds

end Branches

end Layout
