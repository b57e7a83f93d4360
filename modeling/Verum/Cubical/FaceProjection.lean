import Verum.Cubical.Interval

open List

namespace Cubical

open DeMorganAlgebra

theorem Point.eq_one_iff (point : Point) : point = .one ↔ (⊤ : Point) ≤ point := by
  cases point <;> decide

theorem Point.eq_zero_iff (point : Point) : point = .zero ↔ point ≤ (⊥ : Point) := by
  cases point <;> decide

theorem Point.revIf_eq_endpoint (point : Point) (reversed one : Bool) :
    revIf reversed point = Point.endpoint one ↔ point = Point.endpoint (one != reversed) := by
  cases point <;> cases reversed <;> cases one <;> decide

section Folds

variable {α : Type} (assignment : Assignment) (parts : List α) (part : α → FaceFormula) (start : FaceFormula)

theorem FaceFormula.holds_foldl_or :
    (parts.foldl (fun outer a => outer.or (part a)) start).Holds assignment ↔
      start.Holds assignment ∨ ∃ a ∈ parts, (part a).Holds assignment := by
  induction parts generalizing start with
  | nil => simp
  | cons a parts ih =>
    rw [foldl_cons, ih, holds_or]
    simp [or_assoc]

theorem FaceFormula.holds_foldl_and :
    (parts.foldl (fun outer a => outer.and (part a)) start).Holds assignment ↔
      start.Holds assignment ∧ ∀ a ∈ parts, (part a).Holds assignment := by
  induction parts generalizing start with
  | nil => simp
  | cons a parts ih =>
    rw [foldl_cons, ih, holds_and]
    simp [and_assoc]

end Folds

namespace IntervalExpr

variable (assignment : Assignment)

theorem eval_eq_one_iff (expr : IntervalExpr) :
    expr.eval assignment = .one ↔
      ∃ c ∈ expr.clauses, ∀ lit ∈ c.toFinset, lit.eval assignment = .one := by
  have clauseOne (c : Meet) : c.eval assignment = .one ↔
      ∀ lit ∈ c.toFinset, lit.eval assignment = .one := by
    simp only [Point.eq_one_iff, Meet.eval, Finset.le_inf_iff]
  simp only [← clauseOne]
  rw [Point.eq_one_iff, eval, Finset.le_sup_iff (by decide : (⊥ : Point) < ⊤)]
  simp only [mem_toFinset, Point.eq_one_iff]

theorem eval_eq_zero_iff (expr : IntervalExpr) :
    expr.eval assignment = .zero ↔
      ∀ c ∈ expr.clauses, ∃ lit ∈ c.toFinset, lit.eval assignment = .zero := by
  have clauseZero (c : Meet) : c.eval assignment = .zero ↔
      ∃ lit ∈ c.toFinset, lit.eval assignment = .zero := by
    simp only [Point.eq_zero_iff, Meet.eval]
    exact Finset.inf_le_iff (by decide : (⊥ : Point) < ⊤)
  simp only [← clauseZero]
  rw [Point.eq_zero_iff, eval, Finset.sup_le_iff]
  simp only [mem_toFinset, Point.eq_zero_iff]

theorem holds_endpointFace (expr : IntervalExpr) (one : Bool) :
    (expr.endpointFace one).Holds assignment ↔ expr.eval assignment = Point.endpoint one := by
  have face (lit : IntervalLiteral) :
      (if one != lit.reversed then FaceFormula.atOne lit.dimension
        else FaceFormula.atZero lit.dimension).Holds assignment ↔
      lit.eval assignment = Point.endpoint one := by
    rw [IntervalLiteral.eval, Point.revIf_eq_endpoint]
    split
    · rename_i eq
      rw [eq]
      exact FaceFormula.holds_lit _ _
    · rename_i ne
      rw [Bool.not_eq_true] at ne
      rw [ne]
      exact FaceFormula.holds_lit _ _
  unfold endpointFace
  cases one
  · simp only [Bool.false_eq_true, ↓reduceIte] at face ⊢
    rw [FaceFormula.holds_foldl_and]
    simp only [FaceFormula.holds_top, true_and, FaceFormula.holds_foldl_or, FaceFormula.not_holds_bottom, false_or,
      face, BTreeSet.mem_iter]
    exact (eval_eq_zero_iff assignment expr).symm
  · simp only [↓reduceIte] at face ⊢
    rw [FaceFormula.holds_foldl_or]
    simp only [FaceFormula.not_holds_bottom, false_or, FaceFormula.holds_foldl_and, FaceFormula.holds_top, true_and,
      face, BTreeSet.mem_iter]
    exact (eval_eq_one_iff assignment expr).symm

end IntervalExpr

@[simp]
theorem FaceFormula.holds_substitute (assignment : Assignment) (formula : FaceFormula) (var : String)
    (repl : IntervalExpr) :
    (formula.substitute var repl).Holds assignment ↔
      formula.Holds (Function.update assignment var (repl.eval assignment)) := by
  have step : (fun (product : FaceFormula) (lit : FaceLit) =>
      if lit.var == var then product.and (repl.endpointFace lit.endpoint)
      else product.and (FaceFormula.lit lit)) = fun product lit => product.and
        (if lit.var == var then repl.endpointFace lit.endpoint else FaceFormula.lit lit) := by
    funext product lit
    split <;> rfl
  have atom (lit : FaceLit) :
      (if lit.var == var then repl.endpointFace lit.endpoint else FaceFormula.lit lit).Holds assignment ↔
        lit.Holds (Function.update assignment var (repl.eval assignment)) := by
    by_cases eq : lit.var = var
    · simp [eq, FaceLit.Holds, IntervalExpr.holds_endpointFace]
    · simp [eq, FaceLit.Holds]
  rw [FaceFormula.substitute, step, FaceFormula.holds_foldl_or]
  simp only [FaceFormula.not_holds_bottom, false_or, FaceFormula.holds_foldl_and, FaceFormula.holds_top, true_and,
    atom, BTreeSet.mem_iter]
  rfl

/-- The endpoint constraints that an assignment puts on some dimensions. -/
def endpointsOf (assignment : Assignment) (dimensions : Finset String) : Clause where
  lits := ⟨(dimensions.filter (assignment · = .zero)).image (⟨·, false⟩) ∪
    (dimensions.filter (assignment · = .one)).image (⟨·, true⟩)⟩
  consistent := by
    rintro ⟨var, endpoint⟩ present opposed
    simp only [Finset.mem_union, Finset.mem_image, Finset.mem_filter, FaceLit.opposite] at present opposed
    cases endpoint <;> simp_all

theorem mem_endpointsOf (assignment : Assignment) (dimensions : Finset String) (lit : FaceLit) :
    lit ∈ (endpointsOf assignment dimensions).lits.toFinset ↔ lit.var ∈ dimensions ∧ lit.Holds assignment := by
  obtain ⟨var, endpoint⟩ := lit
  simp only [endpointsOf, Finset.mem_union, Finset.mem_image, Finset.mem_filter, FaceLit.Holds]
  cases endpoint <;> simp [Point.endpoint]

namespace IntervalExpr

section Restrict

variable {A : Type} [DeMorganAlgebra A]

def bound (endpoint : Bool) : A := if endpoint then ⊤ else ⊥

theorem eval_constant (val : String → A) (endpoint : Bool) :
    (constant endpoint).eval val = bound endpoint := by
  cases endpoint <;> simp [constant, bound]

/-- A valuation with the dimensions of some endpoint constraints fixed. -/
def overwrite (lits : List FaceLit) (valuation : String → A) : String → A :=
  lits.foldr (fun lit valuation => Function.update valuation lit.var (bound lit.endpoint)) valuation

theorem eval_foldl_substitute (lits : List FaceLit) (expr : IntervalExpr) (val : String → A) :
    (lits.foldl (fun expression lit => expression.substitute lit.var (constant lit.endpoint)) expr).eval val =
      expr.eval (overwrite lits val) := by
  induction lits generalizing expr with
  | nil => rfl
  | cons lit lits ih =>
    rw [foldl_cons, ih, eval_substitute, eval_constant]
    rfl

variable {lits : List FaceLit} {dimension : String} {lit : IntervalLiteral}

theorem overwrite_absent (val : String → A) (ha : ∀ lit ∈ lits, lit.var ≠ dimension) :
    overwrite lits val dimension = val dimension := by
  induction lits with
  | nil => rfl
  | cons lit lits ih =>
    rw [overwrite, foldr_cons, Function.update_of_ne (ha lit (by simp)).symm]
    exact ih fun other mem => ha other (mem_cons_of_mem lit mem)

theorem overwrite_present (endpoint : Bool) (val : String → A) (has : ⟨dimension, endpoint⟩ ∈ lits)
    (free : ⟨dimension, !endpoint⟩ ∉ lits) : overwrite lits val dimension = bound endpoint := by
  induction lits with
  | nil => simp at has
  | cons lit lits ih =>
    rw [mem_cons, not_or] at free
    by_cases same : lit.var = dimension
    · have endpointSame : lit.endpoint = endpoint := by
        by_contra ne
        apply free.1
        rw [FaceLit.ext_iff]
        exact ⟨same.symm, (Bool.eq_not_of_ne ne).symm⟩
      rw [overwrite, foldr_cons, same, Function.update_self, endpointSame]
    · have hl : ⟨dimension, endpoint⟩ ∈ lits := by
        rcases mem_cons.mp has with head | tail
        · exact absurd (congrArg FaceLit.var head.symm) same
        · exact tail
      rw [overwrite, foldr_cons, Function.update_of_ne (Ne.symm same)]
      exact ih hl free.2

def pinned (assignment : Assignment) (valuation : String → A) : String → A := fun dimension =>
  match assignment dimension with
  | .zero => ⊥
  | .interior => valuation dimension
  | .one => ⊤

theorem overwrite_endpointsOf (assignment : Assignment) {dimensions : Finset String}
    (has : dimension ∈ dimensions) (val : String → A) :
    overwrite (endpointsOf assignment dimensions).lits.iter val dimension =
      pinned assignment val dimension := by
  have mem (endpoint : Bool) : ⟨dimension, endpoint⟩ ∈ (endpointsOf assignment dimensions).lits.iter ↔
      assignment dimension = Point.endpoint endpoint := by
    rw [BTreeSet.mem_iter, mem_endpointsOf]
    exact and_iff_right has
  unfold pinned
  cases here : assignment dimension with
  | zero =>
    refine overwrite_present false val ?_ ?_
    · rw [mem, here, Point.endpoint]
      rfl
    · rw [mem, here]
      decide
  | interior =>
    refine overwrite_absent val ?_
    rintro ⟨var, endpoint⟩ litMem rfl
    rw [mem, here] at litMem
    cases endpoint <;> exact absurd litMem (by decide)
  | one =>
    refine overwrite_present true val ?_ ?_
    · rw [mem, here, Point.endpoint]
      rfl
    · rw [mem, here]
      decide

theorem mem_dimensions {expr : IntervalExpr} {c : Meet} (clauseMem : c ∈ expr.clauses)
    (litMem : lit ∈ c.toFinset) : lit.dimension ∈ expr.dimensions := by
  rw [dimensions, mem_toFinset, mem_flatMap]
  exact ⟨c, clauseMem, mem_map.mpr ⟨lit, (BTreeSet.mem_iter _ _).mpr litMem, rfl⟩⟩

theorem eval_restrict_endpointsOf (expr : IntervalExpr) (assignment : Assignment) (val : String → A) :
    (expr.restrict (endpointsOf assignment expr.dimensions)).eval val =
      expr.eval (pinned assignment val) := by
  rw [restrict, eval_foldl_substitute]
  apply Finset.sup_congr rfl
  intro c has
  apply Finset.inf_congr rfl
  intro lit litMem
  rw [IntervalLiteral.eval, IntervalLiteral.eval,
    overwrite_endpointsOf assignment (mem_dimensions (mem_toFinset.mp has) litMem)]

theorem literal_eval_pinned (assignment : Assignment) (val : String → A) (one : Bool)
    (atEndpoint : lit.eval assignment = Point.endpoint one) :
    lit.eval (pinned assignment val) = bound one := by
  rw [IntervalLiteral.eval, Point.revIf_eq_endpoint] at atEndpoint
  rw [IntervalLiteral.eval, pinned, atEndpoint]
  cases one <;> cases lit.reversed <;> simp [Point.endpoint, bound]

end Restrict

theorem literal_eval_pinned_fst (assignment : Assignment) (lit : IntervalLiteral) (one : Bool) :
    (lit.eval (pinned assignment fun _ => (!one, one))).1 = one ↔ lit.eval assignment = Point.endpoint one := by
  rw [IntervalLiteral.eval, IntervalLiteral.eval, pinned, Point.revIf_eq_endpoint]
  cases assignment lit.dimension <;> cases lit.reversed <;> cases one <;> decide

theorem restrict_eq_constant_iff (expr : IntervalExpr) (assignment : Assignment) (one : Bool) :
    expr.restrict (endpointsOf assignment expr.dimensions) = constant one ↔
      expr.eval assignment = Point.endpoint one := by
  constructor
  · intro normal
    have v := congrArg (eval fun _ => (!one, one)) normal
    rw [eval_restrict_endpointsOf, eval_constant] at v
    have first := congrArg Prod.fst v
    cases one
    · refine (eval_eq_zero_iff assignment expr).mpr ?_
      by_contra missing
      push Not at missing
      obtain ⟨c, has, high⟩ := missing
      have contra : (expr.eval (pinned assignment fun _ => (!false, false))).1 = true := by
        rw [eval_fst]
        refine ⟨c, has, ?_⟩
        intro lit litMem
        by_contra low
        rw [Bool.not_eq_true, literal_eval_pinned_fst] at low
        exact high lit litMem low
      rw [contra] at first
      exact absurd first (by decide)
    · refine (eval_eq_one_iff assignment expr).mpr ?_
      obtain ⟨c, has, high⟩ := (eval_fst expr _).mp first
      refine ⟨c, has, ?_⟩
      intro lit litMem
      exact (literal_eval_pinned_fst assignment lit true).mp (high lit litMem)
  · intro v
    apply eq_of_eval_eq
    intro val
    rw [eval_restrict_endpointsOf, eval_constant]
    cases one
    · apply le_bot_iff.mp
      apply Finset.sup_le
      intro c has
      obtain ⟨lit, litMem, low⟩ := (eval_eq_zero_iff assignment expr).mp v c (mem_toFinset.mp has)
      refine (Finset.inf_le litMem).trans (le_of_eq ?_)
      exact literal_eval_pinned assignment val false low
    · apply top_le_iff.mp
      obtain ⟨c, has, high⟩ := (eval_eq_one_iff assignment expr).mp v
      refine le_trans ?_ (Finset.le_sup (mem_toFinset.mpr has))
      apply Finset.le_inf
      intro lit litMem
      exact (literal_eval_pinned assignment val true (high lit litMem)).ge

theorem eq_iff_eval_eq (expr other : IntervalExpr) :
    expr = other ↔ ∀ val : String → Bool × Bool, expr.eval val = other.eval val :=
  ⟨fun eq val => congrArg (eval val) eq, eq_of_eval_eq expr other⟩

end IntervalExpr

theorem intervalExpr_free (e f r : IntervalExpr) (i : String) :
    (e = f ↔ ∀ valuation : String → Bool × Bool, e.eval valuation = f.eval valuation) ∧
    (e = f ↔ ∀ (A : Type) [DeMorganAlgebra A] (valuation : String → A), e.eval valuation = f.eval valuation) ∧
    (∀ (A : Type) [DeMorganAlgebra A] (valuation : String → A),
      IntervalExpr.zero.eval valuation = ⊥ ∧ IntervalExpr.one.eval valuation = ⊤ ∧
      (IntervalExpr.variable' i).eval valuation = valuation i ∧
      (e.join f).eval valuation = e.eval valuation ⊔ f.eval valuation ∧
      (e.meet f).eval valuation = e.eval valuation ⊓ f.eval valuation ∧
      e.reverse.eval valuation = rev (e.eval valuation) ∧
      (e.substitute i r).eval valuation = e.eval (Function.update valuation i (r.eval valuation))) ∧
    e.reverse.reverse = e ∧
    (e.join f).reverse = e.reverse.meet f.reverse ∧ (e.meet f).reverse = e.reverse.join f.reverse ∧
    IntervalExpr.zero.substitute i r = .zero ∧ IntervalExpr.one.substitute i r = .one ∧
    (∀ j, (IntervalExpr.variable' j).substitute i r = if j = i then r else .variable' j) ∧
    (e.join f).substitute i r = (e.substitute i r).join (f.substitute i r) ∧
    (e.meet f).substitute i r = (e.substitute i r).meet (f.substitute i r) ∧
    e.reverse.substitute i r = (e.substitute i r).reverse ∧
    (∀ b assignment, (e.endpointFace b).Holds assignment ↔
      e.restrict (endpointsOf assignment e.dimensions) = .constant b) ∧
    ∀ b, (e.endpointFace b).substitute i r = (e.substitute i r).endpointFace b := by
  have variableEval {A : Type} [DeMorganAlgebra A] (valuation : String → A) (j : String) :
      (IntervalExpr.variable' j).eval valuation = valuation j := by
    rw [IntervalExpr.variable', IntervalExpr.eval_literal]
    rfl
  have byEval {left right : IntervalExpr}
      (same : ∀ valuation : String → Bool × Bool, left.eval valuation = right.eval valuation) : left = right :=
    IntervalExpr.eq_of_eval_eq left right same
  refine ⟨IntervalExpr.eq_iff_eval_eq e f, ⟨?_, ?_⟩, ?_, ?_, ?_, ?_, ?_, ?_, ?_, ?_, ?_, ?_, ?_, ?_⟩
  · rintro rfl A _ valuation
    rfl
  · intro same
    exact byEval (same (Bool × Bool))
  · intro A _ valuation
    simp [variableEval]
  · exact byEval fun valuation => by simp
  · exact byEval fun valuation => by simp
  · exact byEval fun valuation => by simp
  · exact byEval fun valuation => by simp
  · exact byEval fun valuation => by simp
  · intro j
    apply byEval
    intro valuation
    rw [IntervalExpr.eval_substitute, variableEval]
    by_cases same : j = i
    · simp [same]
    · simp [same, variableEval]
  · exact byEval fun valuation => by simp
  · exact byEval fun valuation => by simp
  · exact byEval fun valuation => by simp
  · intro b assignment
    rw [IntervalExpr.restrict_eq_constant_iff, IntervalExpr.holds_endpointFace]
  · intro b
    rw [FaceFormula.eq_iff]
    intro assignment
    rw [FaceFormula.holds_substitute, IntervalExpr.holds_endpointFace, IntervalExpr.holds_endpointFace,
      IntervalExpr.eval_substitute]

end Cubical
