import Verum.Kernel.Interpretation

namespace Kernel

open Function

def conjunctionName : String := "∧"

def makeConjunction (p1 p2 : CoreTerm) : CoreTerm := .app (.app (.var conjunctionName) p1) p2

/-- `{x : {y : B | p₁} | p₂}` becomes `{x : B | p₁ ∧ p₂}`, the inner binder renamed to the outer. -/
def foldRefineOfRefine : CoreTerm → Option CoreTerm
  | .bind .refine outerBinder (.bind .refine innerBinder innerBase innerPred) outerPred =>
    let renamedInnerPred :=
      if outerBinder = innerBinder then innerPred
      else innerPred.substitute innerBinder (.var outerBinder)
    some (.refine innerBase outerBinder (makeConjunction renamedInnerPred outerPred))
  | _ => none

namespace Interpretation

variable {D : Type u}

/-- What it is for `c` to be conjunction under a reading of predicates as propositions. -/
def IsConjunction (I : Interpretation D) (holds : D → Prop) (c : D) : Prop :=
  ∀ a b, holds (I.node .app ![I.node .app ![c, a], b]) ↔ holds a ∧ holds b

theorem eval_app (I : Interpretation D) (env : String → D) (f a : CoreTerm) :
    I.eval env (.app f a) = I.node .app ![I.eval env f, I.eval env a] := by
  show I.node .app (fun i => I.eval env (![f, a] i)) = _
  congr 1
  funext i
  match i with
  | 0 | 1 => rfl

theorem eval_makeConjunction (I : Interpretation D) (env : String → D) (p1 p2 : CoreTerm) :
    I.eval env (makeConjunction p1 p2) =
      I.node .app ![I.node .app ![env conjunctionName, I.eval env p1], I.eval env p2] := by
  rw [makeConjunction, eval_app, eval_app]
  rfl

end Interpretation

/-- The fold keeps the meaning of `{x : {y : base | p1} | p2}` for every carrier, every meaning of
    the constructs and of the free names, and every value. -/
def FoldPreserves (base : CoreTerm) (y : String) (p1 : CoreTerm) (x : String) (p2 : CoreTerm) :
    Prop :=
  ∃ q, foldRefineOfRefine (.refine (.refine base y p1) x p2) = some (.refine base x q) ∧
    ∀ (D : Type) (I : Interpretation D) (holds : D → Prop) (env : String → D) (v : D),
      I.AxiomsConstant → I.IsConjunction holds (env conjunctionName) →
        (holds (I.eval (update env x v) q) ↔
          holds (I.eval (update env y v) p1) ∧
            holds (I.eval (update env x v) p2))

def renamedPredicate (y : String) (p1 : CoreTerm) (x : String) : CoreTerm :=
  if x = y then p1 else p1.substitute y (.var x)

theorem foldRefineOfRefine_refine (base : CoreTerm) (y : String) (p1 : CoreTerm) (x : String)
    (p2 : CoreTerm) :
    foldRefineOfRefine (.refine (.refine base y p1) x p2) =
      some (.refine base x (makeConjunction (renamedPredicate y p1 x) p2)) := rfl

theorem eval_renamedPredicate {D : Type u} {I : Interpretation D} (constant : I.AxiomsConstant)
    (env : String → D) (y : String) (p1 : CoreTerm) (x : String) :
    I.eval env (renamedPredicate y p1 x) = I.eval (update env y (env x)) p1 := by
  unfold renamedPredicate
  split
  · rename_i eq
    subst eq
    rw [update_eq_self]
  · exact I.eval_substitute (constant.fixed p1) env y (.var x)

theorem foldPreserves_of_uncaptured (base : CoreTerm) (y : String) (p1 : CoreTerm) (x : String)
    (p2 : CoreTerm) (plain : x ≠ conjunctionName) (uncaptured : x = y ∨ ¬ p1.Mentions x) :
    FoldPreserves base y p1 x p2 := by
  refine ⟨_, foldRefineOfRefine_refine base y p1 x p2, ?_⟩
  intro D I hh env v constant conjunction
  rw [I.eval_makeConjunction, update_of_ne (Ne.symm plain), conjunction,
    eval_renamedPredicate constant, update_self]
  have inner : I.eval (update (update env x v) y v) p1 =
      I.eval (update env y v) p1 := by
    apply constant.eval_congr
    intro z mentioned
    by_cases isInner : z = y
    · rw [isInner, update_self, update_self]
    · rw [update_of_ne isInner, update_of_ne isInner]
      apply update_of_ne
      rintro rfl
      rcases uncaptured with eq | ha
      · exact isInner eq
      · exact ha mentioned
  rw [inner]

/-- Propositions as values: a term holds when all the names it mentions do. -/
def allHold : Interpretation Prop where
  node _ args := ∀ i, args i
  bind _ domain body := domain ∧ body True
  axiomNode _ _ _ := True

theorem eval_allHold (t : CoreTerm) (env : String → Prop) :
    allHold.eval env t ↔ ∀ y, t.Mentions y → env y := by
  induction t generalizing env with
  | var name => simp [Interpretation.eval, CoreTerm.Mentions]
  | node f args ih =>
    have whole : allHold.eval env (.node f args) ↔ ∀ i, allHold.eval env (args i) := Iff.rfl
    rw [whole]
    simp only [ih]
    constructor
    · rintro all y ⟨i, mentioned⟩
      exact all i y mentioned
    · intro all i y mentioned
      exact all y ⟨i, mentioned⟩
  | bind k binder domain body ihDomain ihBody =>
    have whole : allHold.eval env (.bind k binder domain body) ↔
        allHold.eval env domain ∧ allHold.eval (update env binder True) body := Iff.rfl
    rw [whole, ihDomain, ihBody]
    constructor
    · rintro ⟨outer, inner⟩ y (mentioned | ⟨ne, mentioned⟩)
      · exact outer y mentioned
      · simpa only [update_of_ne (Ne.symm ne)] using inner y mentioned
    · intro all
      refine ⟨fun y mentioned => all y (.inl mentioned), fun y mentioned => ?_⟩
      by_cases eq : y = binder
      · rw [eq, update_self]
        trivial
      · rw [update_of_ne eq]
        exact all y (.inr ⟨Ne.symm eq, mentioned⟩)
  | axiomNode name ty framework ih =>
    exact iff_of_true trivial fun _ => False.elim

theorem allHold_isConjunction : allHold.IsConjunction id True := by
  intro a b
  simp [allHold, Fin.forall_fin_two]

theorem not_foldPreserves_of_captured (base : CoreTerm) (y : String) (p1 : CoreTerm) (x : String)
    (p2 : CoreTerm) (plain : x ≠ conjunctionName) (ne : x ≠ y) (captured : p1.Mentions x) :
    ¬ FoldPreserves base y p1 x p2 := by
  rintro ⟨q, folded, preserves⟩
  rw [foldRefineOfRefine_refine] at folded
  have isConjunction : makeConjunction (renamedPredicate y p1 x) p2 = q := by
    have eq := Option.some.inj folded
    unfold CoreTerm.refine at eq
    injection eq
  subst isConjunction
  have eq := preserves Prop allHold id (fun z => z ≠ x) True (fun _ _ _ _ => rfl)
    (by simpa [Ne.symm plain] using allHold_isConjunction)
  have left : allHold.eval (update (fun z => z ≠ x) x True)
      (makeConjunction (renamedPredicate y p1 x) p2) := by
    rw [eval_allHold]
    intro z _
    by_cases isOuter : z = x
    · rw [isOuter, update_self]
      trivial
    · rw [update_of_ne isOuter]
      exact isOuter
  have right := (eval_allHold p1 _).mp (eq.mp left).1 x captured
  rw [update_of_ne ne] at right
  exact right rfl

/-- Values that only count the nodes of the term they come from, with one value for the
    connective and one for each of its partial applications. -/
inductive Weight where
  | connective
  | half (first : Nat)
  | plain (nodes : Nat)

def Weight.nodes : Weight → Nat
  | .connective => 1
  | .half first => first
  | .plain nodes => nodes

def weighApp : Weight → Weight → Weight
  | .connective, a => .half a.nodes
  | .half first, a => .plain (max first a.nodes)
  | .plain nodes, a => .plain (1 + (nodes + a.nodes))

def weights : Interpretation Weight where
  node f args :=
    match f, args with
    | .app, args => weighApp (args 0) (args 1)
    | f, args => .plain (1 + ∑ i : Fin f.arity, (args i).nodes)
  bind _ domain body := .plain (1 + (domain.nodes + (body (.plain 1)).nodes))
  axiomNode _ _ _ := .plain 1

/-- The weight of a term in which no name stands for the connective. -/
def weight (t : CoreTerm) : Nat := (weights.eval (fun _ => .plain 1) t).nodes

theorem update_plain (x : String) :
    update (fun _ : String => Weight.plain 1) x (.plain 1) = fun _ => .plain 1 :=
  update_eq_self x _

theorem eval_plain (t : CoreTerm) :
    weights.eval (fun _ => .plain 1) t = .plain (weight t) := by
  unfold weight
  induction t with
  | var name | axiomNode name ty framework ih | bind k binder domain body ihDomain ihBody => rfl
  | node f args ih =>
    cases f with
    | app =>
      have left := ih 0
      show weighApp (weights.eval _ (args 0)) (weights.eval _ (args 1)) =
        .plain (weighApp (weights.eval _ (args 0)) (weights.eval _ (args 1))).nodes
      rw [left]
      rfl
    | _ => rfl

theorem weighApp_nodes (f a : Weight) : (weighApp f a).nodes ≤ 1 + (f.nodes + a.nodes) := by
  cases f <;> simp only [weighApp, Weight.nodes] <;> omega

theorem light_update {env : String → Weight} (light : ∀ z, (env z).nodes ≤ 1) (x : String)
    {w : Weight} (lightValue : w.nodes ≤ 1) (z : String) :
    (update env x w z).nodes ≤ 1 := by
  by_cases eq : z = x
  · rw [eq, update_self]
    exact lightValue
  · rw [update_of_ne eq]
    exact light z

theorem nodes_eval_le (t : CoreTerm) (env : String → Weight) (light : ∀ z, (env z).nodes ≤ 1) :
    (weights.eval env t).nodes ≤ weight t := by
  induction t generalizing env with
  | var name => exact light name
  | axiomNode name ty framework ih => exact le_rfl
  | bind k binder domain body ihDomain ihBody =>
    have outer := ihDomain env light
    have inner := ihBody _ (light_update light binder (w := .plain 1) le_rfl)
    have whole : weight (.bind k binder domain body) = 1 + (weight domain + weight body) := by
      show 1 + ((weights.eval _ domain).nodes +
        (weights.eval (update _ binder (.plain 1)) body).nodes) = _
      rw [update_plain]
      rfl
    rw [whole]
    exact Nat.add_le_add_left (Nat.add_le_add outer inner) 1
  | node f args ih =>
    have part (i) := ih i env light
    cases f with
    | app =>
      have whole : weight (.node .app args) = 1 + (weight (args 0) + weight (args 1)) := by
        show (weighApp (weights.eval _ (args 0)) (weights.eval _ (args 1))).nodes = _
        rw [eval_plain, eval_plain]
        rfl
      rw [whole]
      exact (weighApp_nodes _ _).trans (Nat.add_le_add_left (Nat.add_le_add (part 0) (part 1)) 1)
    | _ => exact Nat.add_le_add_left (Finset.sum_le_sum fun i _ => part i) 1

theorem weights_isConjunction (limit : Nat) :
    weights.IsConjunction (fun w => w.nodes < limit) .connective := by
  intro a b
  show max a.nodes b.nodes < limit ↔ _
  exact max_lt_iff

theorem not_foldPreserves_of_connective (base : CoreTerm) (y : String) (p1 p2 : CoreTerm) :
    ¬ FoldPreserves base y p1 conjunctionName p2 := by
  rintro ⟨q, folded, preserves⟩
  rw [foldRefineOfRefine_refine] at folded
  have isConjunction : makeConjunction (renamedPredicate y p1 conjunctionName) p2 = q := by
    have eq := Option.some.inj folded
    unfold CoreTerm.refine at eq
    injection eq
  subst isConjunction
  let env : String → Weight := update (fun _ => .plain 1) conjunctionName .connective
  have restored : update env conjunctionName (.plain 1) = fun _ => .plain 1 := by
    rw [update_idem, update_plain]
  have eq := preserves Weight weights (fun w => w.nodes < 3 + weight p1 + weight p2) env (.plain 1)
    (fun _ _ _ _ => rfl) (by
      rw [show env conjunctionName = .connective from update_self ..]
      exact weights_isConjunction _)
  rw [restored, weights.eval_makeConjunction, eval_plain p2,
    eval_renamedPredicate (fun _ _ _ _ => rfl), update_plain, eval_plain p1] at eq
  have right : (weights.eval (update env y (.plain 1)) p1).nodes <
        3 + weight p1 + weight p2 ∧
      (Weight.plain (weight p2)).nodes < 3 + weight p1 + weight p2 := by
    have lightEnv (z) : (env z).nodes ≤ 1 := light_update (fun _ => le_rfl) conjunctionName le_rfl z
    have lighter := nodes_eval_le p1 _ (light_update lightEnv y (w := .plain 1) le_rfl)
    exact ⟨lt_of_le_of_lt lighter (by omega), show weight p2 < _ by omega⟩
  have left : 1 + (1 + (1 + weight p1) + weight p2) < 3 + weight p1 + weight p2 := eq.mpr right
  omega

/-- The fold keeps the meaning of nested refinements exactly when the outer binder is not the
    connective's name and captures no name of the inner predicate. -/
theorem foldPreserves_iff (base : CoreTerm) (y : String) (p1 : CoreTerm) (x : String)
    (p2 : CoreTerm) :
    FoldPreserves base y p1 x p2 ↔ x ≠ conjunctionName ∧ (x = y ∨ ¬ p1.Mentions x) := by
  constructor
  · intro preserves
    have plain : x ≠ conjunctionName := by
      rintro rfl
      exact not_foldPreserves_of_connective base y p1 p2 preserves
    refine ⟨plain, ?_⟩
    by_contra failing
    rcases not_or.mp failing with ⟨apart, captured⟩
    exact not_foldPreserves_of_captured base y p1 x p2 plain apart (not_not.mp captured) preserves
  · rintro ⟨plain, uncaptured⟩
    exact foldPreserves_of_uncaptured base y p1 x p2 plain uncaptured

/-- `{x : {y : B | x y} | x}`: the outer binder captures the `x` of the inner predicate. -/
theorem fold_captures :
    ¬ ∀ base y p1 x p2, FoldPreserves base y p1 x p2 := by
  intro always
  apply not_foldPreserves_of_captured (.var "B") "y" (.app (.var "x") (.var "y")) "x" (.var "x")
    (by decide) (by decide) _ (always _ _ _ _ _)
  exact ⟨0, rfl⟩

end Kernel
