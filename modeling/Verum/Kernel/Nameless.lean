import Verum.Kernel.Interpretation

namespace Kernel

open Function

/-- Terms with bound variables as indices; two named terms with one reading differ only in the
    names of their binders. -/
inductive Nameless where
  | bvar (index : Nat)
  | fvar (name : String)
  | node (former : Former) (args : Fin former.arity → Nameless)
  | bind (binding : Binding) (domain body : Nameless)
  | axiomNode (name : String) (ty : Nameless) (framework : FrameworkId)

namespace Nameless

def lift (cutoff amount : Nat) : Nameless → Nameless
  | .bvar i => .bvar (if i < cutoff then i else i + amount)
  | .fvar name => .fvar name
  | .node f args => .node f fun i => (args i).lift cutoff amount
  | .bind k domain body => .bind k (domain.lift cutoff amount) (body.lift (cutoff + 1) amount)
  | .axiomNode name ty framework => .axiomNode name (ty.lift cutoff amount) framework

/-- Simultaneous replacement of free names below `depth` binders. -/
def substitute (σ : String → Nameless) (depth : Nat) : Nameless → Nameless
  | .bvar i => .bvar i
  | .fvar name => (σ name).lift 0 depth
  | .node f args => .node f fun i => (args i).substitute σ depth
  | .bind k domain body => .bind k (domain.substitute σ depth) (body.substitute σ (depth + 1))
  | .axiomNode name ty framework => .axiomNode name (ty.substitute σ depth) framework

end Nameless

/-- The nameless reading of a term below the binders of `bound`, innermost first. -/
def CoreTerm.nameless (bound : List String) : CoreTerm → Nameless
  | .var name =>
    match bound.idxOf? name with
    | some i => .bvar i
    | none => .fvar name
  | .node f args => .node f fun i => (args i).nameless bound
  | .bind k binder domain body =>
    .bind k (domain.nameless bound) (body.nameless (binder :: bound))
  | .axiomNode name ty framework => .axiomNode name (ty.nameless bound) framework

/-- The reading as an interpretation: a value is a term for each depth, and a bound variable
    counts down to the depth at which it was bound. -/
def levels : Interpretation (Nat → Nameless) where
  node f args := fun depth => .node f fun i => args i depth
  bind k domain body := fun depth =>
    .bind k (domain depth) (body (fun d => .bvar (d - 1 - depth)) (depth + 1))
  axiomNode name framework ty := fun depth => .axiomNode name (ty depth) framework

def scope (bound : List String) (name : String) : Nat → Nameless :=
  match bound.idxOf? name with
  | some i => fun depth => .bvar (depth - 1 - (bound.length - 1 - i))
  | none => fun _ => .fvar name

theorem scope_cons (binder : String) (hb : List String) :
    scope (binder :: hb) =
      update (scope hb) binder fun d => .bvar (d - 1 - hb.length) := by
  funext name
  unfold scope
  by_cases eq : name = binder
  · subst eq
    simp [List.idxOf?_cons]
  · rw [update_of_ne eq]
    have other : (binder == name) = false := by simpa using Ne.symm eq
    rw [List.idxOf?_cons, other]
    cases hb.idxOf? name with
    | none => rfl
    | some i =>
      simp only [Bool.false_eq_true, if_false, Option.map_some, List.length_cons]
      funext depth
      congr 2
      omega

theorem nameless_eq_eval (t : CoreTerm) (hb : List String) :
    t.nameless hb = levels.eval (scope hb) t hb.length := by
  induction t generalizing hb with
  | var name =>
    unfold CoreTerm.nameless Interpretation.eval scope
    cases found : hb.idxOf? name with
    | none => rfl
    | some i =>
      have hin : i < hb.length := by
        rw [List.idxOf?_eq_some_iff] at found
        exact found.1
      simp only
      congr 1
      omega
  | node f args ih =>
    unfold CoreTerm.nameless Interpretation.eval
    exact congrArg (Nameless.node f) (funext fun i => ih i hb)
  | bind k binder domain body ihDomain ihBody =>
    unfold CoreTerm.nameless Interpretation.eval
    rw [ihDomain, ihBody, scope_cons]
    rfl
  | axiomNode name ty framework ih =>
    unfold CoreTerm.nameless Interpretation.eval
    rw [ih]
    rfl

theorem eval_lift (t : CoreTerm) (base n cutoff : Nat) (env env' : String → Nat → Nameless)
    (lifted : ∀ y i, cutoff ≤ i → env' y (base + i + n) = (env y (base + i)).lift i n) :
    levels.eval env' t (base + cutoff + n) =
      (levels.eval env t (base + cutoff)).lift cutoff n := by
  induction t generalizing cutoff env env' with
  | var name => exact lifted name cutoff le_rfl
  | node f args ih =>
    exact congrArg (Nameless.node f) (funext fun i => ih i cutoff env env' lifted)
  | bind k binder domain body ihDomain ihBody =>
    apply congrArg₂ (Nameless.bind k) (ihDomain cutoff env env' lifted)
    rw [show base + cutoff + n + 1 = base + (cutoff + 1) + n by omega]
    apply ihBody
    intro y i deep
    by_cases eq : y = binder
    · rw [eq, update_self, update_self, Nameless.lift,
        if_pos (by omega)]
      congr 1
      omega
    · rw [update_of_ne eq, update_of_ne eq]
      exact lifted y i (by omega)
  | axiomNode name ty framework ih =>
    exact congrArg (Nameless.axiomNode name · framework) (ih cutoff env env' lifted)

theorem eval_scope_lift (t : CoreTerm) (hb : List String) (n : Nat) :
    levels.eval (scope hb) t (hb.length + n) = (t.nameless hb).lift 0 n := by
  rw [nameless_eq_eval]
  apply eval_lift t hb.length n 0
  intro y i _
  unfold scope
  cases found : hb.idxOf? y with
  | none => rfl
  | some j =>
    have hin : j < hb.length := by
      rw [List.idxOf?_eq_some_iff] at found
      exact found.1
    simp only [Nameless.lift]
    rw [if_neg (by omega)]
    congr 1
    omega

theorem eval_substitute_names (t : CoreTerm) (σ : String → Nameless) (depth : Nat)
    (env env' : String → Nat → Nameless)
    (replaced : ∀ y d, env' y d = (env y d).substitute σ d) :
    levels.eval env' t depth = (levels.eval env t depth).substitute σ depth := by
  induction t generalizing depth env env' with
  | var name => exact replaced name depth
  | node f args ih =>
    exact congrArg (Nameless.node f) (funext fun i => ih i depth env env' replaced)
  | bind k binder domain body ihDomain ihBody =>
    apply congrArg₂ (Nameless.bind k) (ihDomain depth env env' replaced)
    apply ihBody
    intro y d
    by_cases eq : y = binder
    · rw [eq, update_self, update_self]
      rfl
    · rw [update_of_ne eq, update_of_ne eq]
      exact replaced y d
  | axiomNode name ty framework ih =>
    exact congrArg (Nameless.axiomNode name · framework) (ih depth env env' replaced)

end Kernel
