import Mathlib.Tactic.FinCases
import Verum.Kernel.Normalization
import Verum.Kernel.SubstitutionExact

namespace Kernel

open Function

namespace Nameless

/-- The contraction of a binder: index `depth` becomes the value, deeper ones move down. -/
def instantiate : Nameless → Nameless → Nat → Nameless
  | .bvar i, value, depth =>
    if i < depth then .bvar i else if i = depth then value.lift 0 depth else .bvar (i - 1)
  | .fvar name, _, _ => .fvar name
  | .node f args, value, depth => .node f fun i => (args i).instantiate value depth
  | .bind k domain body, value, depth =>
    .bind k (domain.instantiate value depth) (body.instantiate value (depth + 1))
  | .axiomNode name ty framework, value, depth =>
    .axiomNode name (ty.instantiate value depth) framework

def app (f a : Nameless) : Nameless := .node .app ![f, a]

def pathTy (carrier lhs rhs : Nameless) : Nameless := .node .pathTy ![carrier, lhs, rhs]

def PointReduct (r : Registries) (cases : Nat) (args : Fin (2 + cases) → Nameless)
    (reduct : Nameless) : Prop :=
  ∃ owner name params fields parts ctorIdx recursive branch,
    args (Fin.castAdd cases 0) = .node (.constructor owner name params fields) parts ∧
    r.pointRule owner name params fields cases = some (ctorIdx, recursive) ∧
    (List.ofFn fun i => args (Fin.natAdd 2 i))[ctorIdx]? = some branch ∧
    reduct = recursorChain app
      (fun field => .node (.elim cases) (update args (Fin.castAdd cases 0) field)) branch
      ((List.ofFn fun i => parts (Fin.natAdd params i)).zip recursive)

end Nameless

/-- The least congruence containing the reduction rules; renaming of binders is built into the
    nameless reading. -/
inductive Convertible (r : Registries) : Nameless → Nameless → Prop where
  | refl (a) : Convertible r a a
  | symm {a b} : Convertible r a b → Convertible r b a
  | trans {a b c} : Convertible r a b → Convertible r b c → Convertible r a c
  | node (f : Former) {as bs : Fin f.arity → Nameless} :
      (∀ i, Convertible r (as i) (bs i)) → Convertible r (.node f as) (.node f bs)
  | bind (k) {a b c d} : Convertible r a c → Convertible r b d →
      Convertible r (.bind k a b) (.bind k c d)
  | axiomNode (name framework) {a b} : Convertible r a b →
      Convertible r (.axiomNode name a framework) (.axiomNode name b framework)
  | beta (args : Fin 2 → Nameless) {domain body} : args 0 = .bind .lam domain body →
      Convertible r (.node .app args) (body.instantiate (args 1) 0)
  | fst (args : Fin 1 → Nameless) {parts : Fin 2 → Nameless} : args 0 = .node .pair parts →
      Convertible r (.node .fst args) (parts 0)
  | snd (args : Fin 1 → Nameless) {parts : Fin 2 → Nameless} : args 0 = .node .pair parts →
      Convertible r (.node .snd args) (parts 1)
  | quotElim (args : Fin 4 → Nameless) {parts : Fin 3 → Nameless} :
      args 0 = .node .quotIntro parts →
      Convertible r (.node .quotElim args) (.app (args 2) (parts 0))
  | pathOver (args : Fin 4 → Nameless) {point : Fin 1 → Nameless} : args 1 = .node .refl point →
      Convertible r (.node .pathOver args) (.pathTy (.app (args 0) (point 0)) (args 2) (args 3))
  | transport (args : Fin 2 → Nameless) {point : Fin 1 → Nameless} : args 0 = .node .refl point →
      Convertible r (.node .transport args) (args 1)
  | unfold {name body} (ty framework) : r.definition name = some body →
      Convertible r (.axiomNode name ty framework) (body.nameless [])
  | point {cases} (args : Fin (2 + cases) → Nameless) {reduct} :
      Nameless.PointReduct r cases args reduct →
      Convertible r (.node (.elim cases) args) reduct

namespace CoreTerm

theorem eval_instantiate (t : CoreTerm) (value : Nameless) (base depth : Nat)
    (env env' : String → Nat → Nameless)
    (opened : ∀ y i, depth ≤ i → env' y (base + i) = (env y (base + i + 1)).instantiate value i) :
    levels.eval env' t (base + depth) =
      (levels.eval env t (base + depth + 1)).instantiate value depth := by
  induction t generalizing depth env env' with
  | var name => exact opened name depth le_rfl
  | node f args ih =>
    exact congrArg (Nameless.node f) (funext fun i => ih i depth env env' opened)
  | bind k binder domain body ihDomain ihBody =>
    apply congrArg₂ (Nameless.bind k) (ihDomain depth env env' opened)
    apply ihBody (depth + 1)
    intro y i deep
    by_cases eq : y = binder
    · rw [eq, update_self, update_self, Nameless.instantiate,
        if_pos (by omega)]
      congr 1
      omega
    · rw [update_of_ne eq, update_of_ne eq]
      exact opened y i (by omega)
  | axiomNode name ty framework ih =>
    exact congrArg (Nameless.axiomNode name · framework) (ih depth env env' opened)

theorem nameless_substitute_body {body : CoreTerm} (hc : body.AxiomsClosed)
    (binder : String) (arg : CoreTerm) (hb : List String) :
    (body.substitute binder arg).nameless hb =
      (body.nameless (binder :: hb)).instantiate (arg.nameless hb) 0 := by
  rw [nameless_eq_eval, nameless_eq_eval body,
    levels.eval_substitute (levels.axiomsFixed_of_closed hc), scope_cons]
  apply eval_instantiate body _ hb.length 0
  intro y i _
  by_cases eq : y = binder
  · subst eq
    rw [update_self, update_self, eval_scope_lift, Nameless.instantiate,
      if_neg (by omega), if_pos (by omega)]
  · rw [update_of_ne eq, update_of_ne eq]
    unfold scope
    cases hit : hb.idxOf? y with
    | none => rfl
    | some j =>
      have hin : j < hb.length := by
        rw [List.idxOf?_eq_some_iff] at hit
        exact hit.1
      simp only [Nameless.instantiate]
      rw [if_neg (by omega), if_neg (by omega)]
      congr 1
      omega

theorem nameless_append (t : CoreTerm) (hb more : List String)
    (ne : ∀ y, t.Free y → y ∉ hb → y ∉ more) :
    t.nameless (hb ++ more) = t.nameless hb := by
  induction t generalizing hb with
  | var name =>
    unfold nameless
    have inner := ne name (by simp)
    cases hit : hb.idxOf? name with
    | some i =>
      have whole : (hb ++ more).idxOf? name = some i := by
        rw [List.idxOf?_eq_some_iff] at hit ⊢
        rcases hit with ⟨hin, here, pre⟩
        refine ⟨by rw [List.length_append]; omega, ?_, ?_⟩
        · rw [List.getElem_append_left hin]
          exact here
        · intro j low
          rw [List.getElem_append_left (by omega)]
          exact pre j low
      rw [whole]
    | none =>
      have outside := List.idxOf?_eq_none_iff.mp hit
      have whole : (hb ++ more).idxOf? name = none := by
        rw [List.idxOf?_eq_none_iff, List.mem_append, not_or]
        exact ⟨outside, inner outside⟩
      rw [whole]
  | node f args ih =>
    exact congrArg (Nameless.node f) (funext fun i =>
      ih i hb fun y free => ne y ((free_node f args y).mpr ⟨i, free⟩))
  | bind k binder domain body ihDomain ihBody =>
    apply congrArg₂ (Nameless.bind k)
    · exact ihDomain hb fun y free => ne y ((free_bind ..).mpr (.inl free))
    · apply ihBody (binder :: hb)
      intro y free outside
      rcases not_or.mp (mt List.mem_cons.mpr outside) with ⟨notBinder, notBound⟩
      exact ne y ((free_bind ..).mpr (.inr ⟨Ne.symm notBinder, free⟩)) notBound
  | axiomNode name ty framework ih =>
    exact congrArg (Nameless.axiomNode name · framework) (ih hb ne)

theorem nameless_of_closed {t : CoreTerm} (hc : t.freeVars = ∅) (hb : List String) :
    t.nameless hb = t.nameless [] :=
  nameless_append t [] hb fun y free => absurd free (not_free_of_freeVars_empty hc y)

theorem nameless_app (f a : CoreTerm) (hb : List String) :
    (app f a).nameless hb = .app (f.nameless hb) (a.nameless hb) := by
  apply congrArg (Nameless.node .app)
  funext i
  fin_cases i <;> rfl

theorem nameless_pathTy (carrier lhs rhs : CoreTerm) (hb : List String) :
    (pathTy carrier lhs rhs).nameless hb =
      .pathTy (carrier.nameless hb) (lhs.nameless hb) (rhs.nameless hb) := by
  apply congrArg (Nameless.node .pathTy)
  funext i
  fin_cases i <;> rfl

/-- Every axiom node, also inside the type of another one, carries a closed type. -/
def AxiomsDeeplyClosed : CoreTerm → Prop
  | .var _ => True
  | .node _ args => ∀ i, (args i).AxiomsDeeplyClosed
  | .bind _ _ domain body => domain.AxiomsDeeplyClosed ∧ body.AxiomsDeeplyClosed
  | .axiomNode _ ty _ => ty.freeVars = ∅ ∧ ty.AxiomsDeeplyClosed

theorem axiomsDeeplyClosed_iff (t : CoreTerm) : t.AxiomsDeeplyClosed ↔
    t.AllAxioms fun _ ty _ => ty.freeVars = ∅ ∧ ty.AxiomsDeeplyClosed := by
  induction t with
  | var name | axiomNode name ty framework ih => exact Iff.rfl
  | node f args ih => exact forall_congr' ih
  | bind k binder domain body ihDomain ihBody => exact and_congr ihDomain ihBody

theorem AxiomsDeeplyClosed.axiomsClosed {t : CoreTerm} (hc : t.AxiomsDeeplyClosed) :
    t.AxiomsClosed :=
  ((axiomsDeeplyClosed_iff t).mp hc).imp fun _ _ _ both => both.1

theorem AxiomsDeeplyClosed.substitute {t v : CoreTerm} (hc : t.AxiomsDeeplyClosed) (x : String)
    (closedValue : v.AxiomsDeeplyClosed) : (t.substitute x v).AxiomsDeeplyClosed := by
  rw [axiomsDeeplyClosed_iff] at *
  exact AllAxioms.substitute hc x closedValue

end CoreTerm

end Kernel
