import Mathlib.Data.Finset.Lattice.Prod
import Verum.Cubical.Cofibration

namespace Cubical

open Finset

/-- A dimension or its involution. -/
structure IntervalLiteral where
  dimension : String
  reversed : Bool
  deriving DecidableEq

instance : LinearOrder IntervalLiteral :=
  LinearOrder.lift' (fun lit => toLex (lit.dimension, lit.reversed)) (by
    rintro ⟨dimension, reversed⟩ ⟨dimension', reversed'⟩ equal
    simpa using equal)

abbrev Meet := BTreeSet IntervalLiteral

namespace Meet

def implies (left right : Meet) : Bool := decide (right.toFinset ⊆ left.toFinset)

@[simp]
theorem implies_iff (left right : Meet) : left.implies right = true ↔ right.toFinset ⊆ left.toFinset := by
  simp [implies]

theorem implies_refl (meet : Meet) : meet.implies meet = true := by simp

theorem implies_trans (a b c : Meet) (ab : a.implies b = true) (bc : b.implies c = true) :
    a.implies c = true := by
  rw [implies_iff] at *
  exact bc.trans ab

theorem implies_antisymm (a b : Meet) (ab : a.implies b = true) (ba : b.implies a = true) : a = b := by
  rw [implies_iff] at *
  exact BTreeSet.ext (ba.antisymm ab)

end Meet

@[ext]
structure IntervalExpr where
  clauses : List Meet
  canonical : Antichain.Canonical Meet.implies clauses

namespace IntervalExpr

def zero : IntervalExpr := ⟨[], Antichain.Canonical.nil _⟩

def one : IntervalExpr := ⟨[⟨∅⟩], Antichain.Canonical.singleton _ _⟩

def literal (lit : IntervalLiteral) : IntervalExpr := ⟨[⟨{lit}⟩], Antichain.Canonical.singleton _ _⟩

def variable' (dimension : String) : IntervalExpr := literal ⟨dimension, false⟩

def fromClauses (clauses : List Meet) : IntervalExpr :=
  ⟨Antichain.minimal Meet.implies clauses, Antichain.minimal_canonical Meet.implies_refl clauses⟩

def join (expr other : IntervalExpr) : IntervalExpr := fromClauses (expr.clauses ++ other.clauses)

def meet (expr other : IntervalExpr) : IntervalExpr :=
  fromClauses (expr.clauses.flatMap fun left => other.clauses.map fun right => ⟨left.toFinset ∪ right.toFinset⟩)

def reverse (expr : IntervalExpr) : IntervalExpr :=
  expr.clauses.foldl (fun outer clause =>
    outer.meet (clause.iter.foldl (fun inner lit =>
      inner.join (literal ⟨lit.dimension, !lit.reversed⟩)) zero)) one

def substitute (expr : IntervalExpr) (dimension : String) (replacement : IntervalExpr) : IntervalExpr :=
  if !(expr.clauses.any fun clause => clause.iter.any fun lit => lit.dimension == dimension) then expr
  else expr.clauses.foldl (fun outer clause =>
    outer.join (clause.iter.foldl (fun inner lit =>
      if lit.dimension == dimension then
        inner.meet (if lit.reversed then replacement.reverse else replacement)
      else inner.meet (literal lit)) one)) zero

def dimensions (expr : IntervalExpr) : Finset String :=
  (expr.clauses.flatMap fun clause => clause.iter.map (·.dimension)).toFinset

def constant (endpoint : Bool) : IntervalExpr := if endpoint then one else zero

def restrict (expr : IntervalExpr) (clause : Clause) : IntervalExpr :=
  clause.lits.iter.foldl (fun expression lit => expression.substitute lit.var (constant lit.endpoint)) expr

def endpointFace (expr : IntervalExpr) (one : Bool) : FaceFormula :=
  expr.clauses.foldl (fun outer clause =>
    let inner := clause.iter.foldl (fun inner lit =>
      let face := if one != lit.reversed then FaceFormula.atOne lit.dimension
        else FaceFormula.atZero lit.dimension
      if one then inner.and face else inner.or face) (if one then FaceFormula.top else FaceFormula.bottom)
    if one then outer.or inner else outer.and inner) (if one then FaceFormula.bottom else FaceFormula.top)

end IntervalExpr

/-- A constraint on the dimension becomes the replacement's face at that endpoint. -/
def FaceFormula.substitute (formula : FaceFormula) (var : String) (replacement : IntervalExpr) : FaceFormula :=
  formula.clauses.foldl (fun sum clause =>
    sum.or (clause.lits.iter.foldl (fun product lit =>
      if lit.var == var then product.and (replacement.endpointFace lit.endpoint)
      else product.and (FaceFormula.lit lit)) FaceFormula.top)) FaceFormula.bottom

open DeMorganAlgebra

section Eval

variable {A : Type} [DeMorganAlgebra A] (valuation : String → A)

def IntervalLiteral.eval (lit : IntervalLiteral) : A := revIf lit.reversed (valuation lit.dimension)

def Meet.eval (meet : Meet) : A := meet.toFinset.inf (IntervalLiteral.eval valuation)

def IntervalExpr.eval (expr : IntervalExpr) : A := expr.clauses.toFinset.sup (Meet.eval valuation)

theorem IntervalLiteral.eval_update (lit : IntervalLiteral) (dimension : String) (v : A) :
    lit.eval (Function.update valuation dimension v) =
      if lit.dimension = dimension then revIf lit.reversed v else lit.eval valuation := by
  unfold IntervalLiteral.eval
  split
  · rename_i eq
    rw [eq, Function.update_self]
  · rename_i ne
    rw [Function.update_of_ne ne]

theorem Meet.eval_le_of_implies (a b : Meet) (implied : a.implies b = true) : a.eval valuation ≤ b.eval valuation :=
  inf_mono ((Meet.implies_iff a b).mp implied)

namespace IntervalExpr

theorem eval_fromClauses (cs : List Meet) :
    (fromClauses cs).eval valuation = cs.toFinset.sup (Meet.eval valuation) :=
  Antichain.sup_minimal Meet.implies_refl Meet.implies_trans _ (Meet.eval_le_of_implies valuation) cs

@[simp]
theorem eval_zero : zero.eval valuation = ⊥ := by
  simp [eval, zero]

@[simp]
theorem eval_one : one.eval valuation = ⊤ := by
  simp [eval, one, Meet.eval]

@[simp]
theorem eval_literal (lit : IntervalLiteral) : (literal lit).eval valuation = lit.eval valuation := by
  simp [eval, literal, Meet.eval]

@[simp]
theorem eval_join (expr other : IntervalExpr) :
    (expr.join other).eval valuation = expr.eval valuation ⊔ other.eval valuation := by
  rw [join, eval_fromClauses, List.toFinset_append, sup_union, eval, eval]

@[simp]
theorem eval_meet (expr other : IntervalExpr) :
    (expr.meet other).eval valuation = expr.eval valuation ⊓ other.eval valuation := by
  rw [meet, eval_fromClauses, eval, eval, sup_inf_sup]
  have split (left right : Meet) : Meet.eval valuation ⟨left.toFinset ∪ right.toFinset⟩ =
      left.eval valuation ⊓ right.eval valuation := inf_union
  apply le_antisymm
  · apply Finset.sup_le
    intro both has
    simp only [List.mem_toFinset, List.mem_flatMap, List.mem_map] at has
    obtain ⟨left, leftMem, right, rightMem, rfl⟩ := has
    rw [split]
    refine le_sup (f := fun pair : Meet × Meet => pair.1.eval valuation ⊓ pair.2.eval valuation)
      (b := (left, right)) ?_
    simp [leftMem, rightMem]
  · apply Finset.sup_le
    rintro ⟨left, right⟩ has
    simp only [mem_product, List.mem_toFinset] at has
    rw [← split]
    refine le_sup (f := Meet.eval valuation) ?_
    simp only [List.mem_toFinset, List.mem_flatMap, List.mem_map]
    exact ⟨left, has.1, right, has.2, rfl⟩

theorem eval_foldl_meet {α : Type} [DecidableEq α] (parts : List α) (part : α → IntervalExpr) (start : IntervalExpr) :
    (parts.foldl (fun outer a => outer.meet (part a)) start).eval valuation =
      start.eval valuation ⊓ parts.toFinset.inf fun a => (part a).eval valuation := by
  induction parts generalizing start with
  | nil => simp
  | cons a parts ih => rw [List.foldl_cons, ih, eval_meet, List.toFinset_cons, inf_insert, inf_assoc]

theorem eval_foldl_join {α : Type} [DecidableEq α] (parts : List α) (part : α → IntervalExpr) (start : IntervalExpr) :
    (parts.foldl (fun outer a => outer.join (part a)) start).eval valuation =
      start.eval valuation ⊔ parts.toFinset.sup fun a => (part a).eval valuation := by
  induction parts generalizing start with
  | nil => simp
  | cons a parts ih => rw [List.foldl_cons, ih, eval_join, List.toFinset_cons, sup_insert, sup_assoc]

theorem toFinset_iter (c : Meet) : c.iter.toFinset = c.toFinset := by
  ext lit
  simp

@[simp]
theorem eval_reverse (expr : IntervalExpr) : expr.reverse.eval valuation = rev (expr.eval valuation) := by
  rw [reverse, eval_foldl_meet, eval_one, top_inf_eq, eval, rev_finset_sup]
  apply inf_congr rfl
  intro c _
  rw [eval_foldl_join, eval_zero, bot_sup_eq, toFinset_iter, Meet.eval, rev_finset_inf]
  apply sup_congr rfl
  intro lit _
  rw [eval_literal, IntervalLiteral.eval, revIf_not, IntervalLiteral.eval]

@[simp]
theorem eval_substitute (expr : IntervalExpr) (dimension : String) (repl : IntervalExpr) :
    (expr.substitute dimension repl).eval valuation =
      expr.eval (Function.update valuation dimension (repl.eval valuation)) := by
  unfold substitute
  split
  · rename_i ha
    simp only [Bool.not_eq_true', List.any_eq_false, Bool.not_eq_true, BTreeSet.mem_iter,
      beq_eq_false_iff_ne] at ha
    apply sup_congr rfl
    intro c has
    apply inf_congr rfl
    intro lit litMem
    rw [IntervalLiteral.eval_update, if_neg (ha c (List.mem_toFinset.mp has) lit litMem)]
  · rw [eval_foldl_join, eval_zero, bot_sup_eq]
    apply sup_congr rfl
    intro c _
    have step : (fun (inner : IntervalExpr) (lit : IntervalLiteral) =>
        if lit.dimension == dimension then inner.meet (if lit.reversed then repl.reverse else repl)
        else inner.meet (literal lit)) = fun inner lit => inner.meet
          (if lit.dimension == dimension then (if lit.reversed then repl.reverse else repl)
          else literal lit) := by
      funext inner lit
      split <;> rfl
    rw [step, eval_foldl_meet, eval_one, top_inf_eq, toFinset_iter, Meet.eval]
    apply inf_congr rfl
    intro lit _
    rw [IntervalLiteral.eval_update]
    by_cases eq : lit.dimension = dimension
    · cases reversed : lit.reversed <;> simp [eq]
    · simp [eq]

end IntervalExpr

end Eval

namespace IntervalExpr

/-- The first component of a value in the four-element algebra sees the literals independently. -/
def separating (meet : Meet) : String → Bool × Bool := fun dimension =>
  (decide (⟨dimension, false⟩ ∈ meet.toFinset), !decide (⟨dimension, true⟩ ∈ meet.toFinset))

theorem literal_eval_separating (meet : Meet) (lit : IntervalLiteral) :
    (lit.eval (separating meet)).1 = decide (lit ∈ meet.toFinset) := by
  obtain ⟨dimension, reversed⟩ := lit
  cases reversed
  · rfl
  · simp [IntervalLiteral.eval, separating, rev]

theorem eval_fst (expr : IntervalExpr) (valuation : String → Bool × Bool) :
    (expr.eval valuation).1 = true ↔
      ∃ c ∈ expr.clauses, ∀ lit ∈ c.toFinset, (lit.eval valuation).1 = true := by
  have sup : (expr.eval valuation).1 = expr.clauses.toFinset.sup fun c => (c.eval valuation).1 :=
    Finset.apply_sup_eq_sup_comp Prod.fst (fun _ _ => rfl) rfl
  have inf (c : Meet) : (c.eval valuation).1 =
      c.toFinset.inf fun lit => (lit.eval valuation).1 :=
    Finset.apply_inf_eq_inf_comp Prod.fst (fun _ _ => rfl) rfl
  have top (b : Bool) : b = true ↔ true ≤ b := by
    cases b <;> decide
  rw [sup, top, Finset.le_sup_iff (by decide : (⊥ : Bool) < true)]
  simp only [inf, Finset.le_inf_iff, top, List.mem_toFinset]

theorem eq_of_eval_eq (expr other : IntervalExpr)
    (eq : ∀ valuation : String → Bool × Bool, expr.eval valuation = other.eval valuation) : expr = other := by
  have implied (these those : IntervalExpr)
      (agree : ∀ valuation : String → Bool × Bool, these.eval valuation = those.eval valuation) :
      ∀ c ∈ these.clauses, ∃ weaker ∈ those.clauses, Meet.implies c weaker = true := by
    intro c has
    have hh : (these.eval (separating c)).1 = true := by
      rw [eval_fst]
      refine ⟨c, has, ?_⟩
      intro lit litMem
      rw [literal_eval_separating]
      exact decide_eq_true litMem
    rw [agree, eval_fst] at hh
    obtain ⟨weaker, weakerMem, all⟩ := hh
    refine ⟨weaker, weakerMem, ?_⟩
    rw [Meet.implies_iff]
    intro lit litMem
    have inClause := all lit litMem
    rw [literal_eval_separating] at inClause
    exact of_decide_eq_true inClause
  apply IntervalExpr.ext
  exact expr.canonical.eq_of_implied Meet.implies_antisymm Meet.implies_trans other.canonical
    (implied expr other eq) (implied other expr fun valuation => (eq valuation).symm)

end IntervalExpr

end Cubical
