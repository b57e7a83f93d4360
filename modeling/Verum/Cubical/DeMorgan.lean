import Mathlib.Order.Fin.Basic
import Mathlib.Data.Finset.Lattice.Fold

/-- A bounded distributive lattice with an involution that exchanges join and meet. -/
class DeMorganAlgebra (A : Type) extends DistribLattice A, BoundedOrder A where
  rev : A → A
  rev_rev (a : A) : rev (rev a) = a
  rev_sup (a b : A) : rev (a ⊔ b) = rev a ⊓ rev b

namespace DeMorganAlgebra

variable {A : Type} [DeMorganAlgebra A]

attribute [simp] rev_rev rev_sup

@[simp]
theorem rev_inf (a b : A) : rev (a ⊓ b) = rev a ⊔ rev b := by
  have dual := rev_sup (rev a) (rev b)
  rw [rev_rev, rev_rev] at dual
  rw [← dual, rev_rev]

theorem rev_antitone {a b : A} (le : a ≤ b) : rev b ≤ rev a := by
  rw [← sup_eq_right.mpr le, rev_sup]
  exact inf_le_left

@[simp]
theorem rev_bot : rev (⊥ : A) = ⊤ := by
  apply top_le_iff.mp
  rw [← rev_rev (⊤ : A)]
  exact rev_antitone bot_le

@[simp]
theorem rev_top : rev (⊤ : A) = ⊥ := by
  rw [← rev_bot, rev_rev]

theorem rev_finset_sup {ι : Type} (s : Finset ι) (f : ι → A) : rev (s.sup f) = s.inf fun i => rev (f i) := by
  classical
  induction s using Finset.induction_on with
  | empty => simp
  | insert i s _ ih => simp [ih]

theorem rev_finset_inf {ι : Type} (s : Finset ι) (f : ι → A) : rev (s.inf f) = s.sup fun i => rev (f i) := by
  classical
  induction s using Finset.induction_on with
  | empty => simp
  | insert i s _ ih => simp [ih]

def revIf (reversed : Bool) (a : A) : A := if reversed then rev a else a

@[simp]
theorem revIf_false (a : A) : revIf false a = a := rfl

@[simp]
theorem revIf_true (a : A) : revIf true a = rev a := rfl

theorem revIf_not (reversed : Bool) (a : A) : revIf (!reversed) a = rev (revIf reversed a) := by
  cases reversed <;> simp

end DeMorganAlgebra

/-- The four-element algebra `{0, a, b, 1}`: the pairs `(false, true)` and `(true, false)` are their own involutions. -/
instance : DeMorganAlgebra (Bool × Bool) where
  rev a := (!a.2, !a.1)
  rev_rev a := by simp
  rev_sup a b := by
    obtain ⟨a₁, a₂⟩ := a
    obtain ⟨b₁, b₂⟩ := b
    cases a₁ <;> cases a₂ <;> cases b₁ <;> cases b₂ <;> rfl

/-- The two endpoints of the interval and what lies between them. -/
inductive Point where
  | zero
  | interior
  | one
  deriving DecidableEq

namespace Point

def rank : Point → Nat
  | zero => 0
  | interior => 1
  | one => 2

theorem rank_injective : Function.Injective rank := by
  intro a b
  cases a <;> cases b <;> simp [rank]

instance : LinearOrder Point := LinearOrder.lift' rank rank_injective

def rev : Point → Point
  | zero => one
  | interior => interior
  | one => zero

instance : BoundedOrder Point where
  top := one
  le_top a := by cases a <;> decide
  bot := zero
  bot_le a := by cases a <;> decide

instance : DeMorganAlgebra Point where
  __ := (inferInstance : DistribLattice Point)
  __ := (inferInstance : BoundedOrder Point)
  rev := rev
  rev_rev a := by cases a <;> rfl
  rev_sup a b := by cases a <;> cases b <;> decide

def endpoint (one : Bool) : Point := if one then .one else .zero

end Point
