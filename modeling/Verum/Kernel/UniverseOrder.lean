import Verum.Kernel.Term

namespace Kernel

namespace UniverseLevel

def size : UniverseLevel → Nat
  | .concrete _ | .variable _ | .prop => 1
  | .succ level => level.size + 1
  | .max left right => left.size + right.size + 1

/-- The conservative order of the registration and quotient checks: what it cannot decide it
    refuses. -/
def levelAtMost (left right : UniverseLevel) : Bool :=
  if left = right then true
  else
    match left, right with
    | .prop, _ => true
    | .concrete a, .concrete b => a ≤ b
    | .max a b, right => levelAtMost a right && levelAtMost b right
    | left, .max a b => levelAtMost left a || levelAtMost left b
    | .succ a, .succ b => levelAtMost a b
    | .succ a, .concrete b => if 0 < b then levelAtMost a (.concrete (b - 1)) else false
    | .concrete a, .succ b => if 0 < a then levelAtMost (.concrete (a - 1)) b else true
    | _, _ => false
termination_by left.size + right.size
decreasing_by all_goals simp only [size]; omega

/-- The level under a valuation of the level variables; `Prop` is not above any other. -/
def denotation (valuation : String → Nat) : UniverseLevel → Nat
  | .concrete level => level.toNat
  | .variable name => valuation name
  | .succ level => level.denotation valuation + 1
  | .max left right => Nat.max (left.denotation valuation) (right.denotation valuation)
  | .prop => 0

/-- Neither variables nor `Prop`. -/
def Closed : UniverseLevel → Prop
  | .concrete _ => True
  | .variable _ | .prop => False
  | .succ level => level.Closed
  | .max left right => left.Closed ∧ right.Closed

variable {valuation : String → Nat}

theorem toNat_pred {n : UInt32} (pos : 0 < n) : n.toNat = (n - 1).toNat + 1 := by
  have hb : 0 < n.toNat := UInt32.lt_iff_toNat_lt.mp pos
  have one : (1 : UInt32) ≤ n := UInt32.le_iff_toNat_le.mpr hb
  rw [UInt32.toNat_sub_of_le n 1 one]
  exact (Nat.sub_add_cancel hb).symm

theorem levelAtMost_sound {left right : UniverseLevel} (accepted : levelAtMost left right = true) :
    left.denotation valuation ≤ right.denotation valuation := by
  fun_induction levelAtMost left right with
  | case1 right => exact Nat.le_refl _
  | case2 right ne => exact Nat.zero_le _
  | case3 a b ne => exact UInt32.le_iff_toNat_le.mp (of_decide_eq_true accepted)
  | case4 a b right ne ihFirst ihSecond =>
    have both := Bool.and_eq_true_iff.mp accepted
    exact Nat.max_le.mpr ⟨ihFirst both.1, ihSecond both.2⟩
  | case5 left a b notProp notMax ne ihFirst ihSecond =>
    rcases Bool.or_eq_true_iff.mp accepted with first | snd
    · exact Nat.le_trans (ihFirst first) (Nat.le_max_left ..)
    · exact Nat.le_trans (ihSecond snd) (Nat.le_max_right ..)
  | case6 a b ne ih => exact Nat.succ_le_succ (ih accepted)
  | case7 a b pos ne ih =>
    show a.denotation valuation + 1 ≤ b.toNat
    rw [toNat_pred pos]
    exact Nat.succ_le_succ (ih accepted)
  | case8 _ _ _ _ | case11 => exact absurd accepted Bool.false_ne_true
  | case9 a b pos ne ih =>
    show a.toNat ≤ b.denotation valuation + 1
    rw [toNat_pred pos]
    exact Nat.succ_le_succ (ih accepted)
  | case10 a b zero ne =>
    have none : a.toNat = 0 := Nat.eq_zero_of_not_pos fun above => zero (UInt32.lt_iff_toNat_lt.mpr above)
    show a.toNat ≤ b.denotation valuation + 1
    rw [none]
    exact Nat.zero_le _

theorem levelAtMost_complete {left right : UniverseLevel} (closedLeft : left.Closed)
    (closedRight : right.Closed) (hlt : left.denotation valuation ≤ right.denotation valuation) :
    levelAtMost left right = true := by
  fun_induction levelAtMost left right with
  | case1 _ | case2 _ _ | case10 _ _ _ _ => rfl
  | case3 a b apart => exact decide_eq_true (UInt32.le_iff_toNat_le.mpr hlt)
  | case4 a b right apart ihFirst ihSecond =>
    have both := Nat.max_le.mp hlt
    rw [ihFirst closedLeft.1 closedRight both.1, ihSecond closedLeft.2 closedRight both.2]
    rfl
  | case5 left a b notProp notMax apart ihFirst ihSecond =>
    rcases Nat.le_total (a.denotation valuation) (b.denotation valuation) with ord | ord
    · have upper : left.denotation valuation ≤ b.denotation valuation :=
        Nat.le_trans hlt (Nat.max_le.mpr ⟨ord, Nat.le_refl _⟩)
      rw [ihSecond closedLeft closedRight.2 upper, Bool.or_true]
    · have upper : left.denotation valuation ≤ a.denotation valuation :=
        Nat.le_trans hlt (Nat.max_le.mpr ⟨Nat.le_refl _, ord⟩)
      rw [ihFirst closedLeft closedRight.1 upper, Bool.true_or]
  | case6 a b apart ih => exact ih closedLeft closedRight (Nat.le_of_succ_le_succ hlt)
  | case7 a b pos apart ih =>
    apply ih closedLeft trivial
    change a.denotation valuation + 1 ≤ b.toNat at hlt
    rw [toNat_pred pos] at hlt
    exact Nat.le_of_succ_le_succ hlt
  | case8 a b zero apart =>
    change a.denotation valuation + 1 ≤ b.toNat at hlt
    exact absurd (UInt32.lt_iff_toNat_lt.mpr (Nat.lt_of_lt_of_le (Nat.succ_pos _) hlt)) zero
  | case9 a b pos apart ih =>
    apply ih trivial closedRight
    change a.toNat ≤ b.denotation valuation + 1 at hlt
    rw [toNat_pred pos] at hlt
    exact Nat.le_of_succ_le_succ hlt
  | case11 left right apart notProp notMaxLeft notMaxRight notConcrete notSucc notSuccConcrete
      notConcreteSucc =>
    cases left with
    | «variable» x | prop => exact closedLeft.elim
    | max a b => exact (notMaxLeft a b rfl).elim
    | concrete a =>
      cases right with
      | «variable» x | prop => exact closedRight.elim
      | max b c => exact (notMaxRight b c rfl).elim
      | concrete b => exact (notConcrete a b rfl rfl).elim
      | succ b => exact (notConcreteSucc a b rfl rfl).elim
    | succ a =>
      cases right with
      | «variable» x | prop => exact closedRight.elim
      | max b c => exact (notMaxRight b c rfl).elim
      | concrete b => exact (notSuccConcrete a b rfl rfl).elim
      | succ b => exact (notSucc a b rfl rfl).elim

/-- The check accepts only levels in order, and on closed levels accepts all of these. -/
theorem levelAtMost_exact :
    (∀ (left right : UniverseLevel) (valuation : String → Nat), levelAtMost left right = true →
      left.denotation valuation ≤ right.denotation valuation) ∧
    ∀ (left right : UniverseLevel) (valuation : String → Nat), left.Closed → right.Closed →
      left.denotation valuation ≤ right.denotation valuation → levelAtMost left right = true :=
  ⟨fun _ _ _ accepted => levelAtMost_sound accepted,
    fun _ _ _ closedLeft closedRight below => levelAtMost_complete closedLeft closedRight below⟩

end UniverseLevel

end Kernel
