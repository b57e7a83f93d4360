import Verum.Kernel.Substitution

namespace Kernel

open Function

/-- A meaning for every construct over a carrier `D`; a binder acts on a function of the bound
    value, and an axiom may use the meaning of the type it carries. -/
structure Interpretation (D : Type u) where
  node : (f : Former) → (Fin f.arity → D) → D
  bind : Binding → D → (D → D) → D
  axiomNode : String → FrameworkId → D → D

namespace Interpretation

variable {D : Type u} (I : Interpretation D)

def eval (env : String → D) : CoreTerm → D
  | .var name => env name
  | .node f args => I.node f fun i => eval env (args i)
  | .bind k binder domain body =>
    I.bind k (eval env domain) fun d => eval (update env binder d) body
  | .axiomNode name ty framework => I.axiomNode name framework (eval env ty)

variable {t : CoreTerm} {env env' : String → D}

theorem eval_congr (agree : ∀ y, t.Free y → env y = env' y) : I.eval env t = I.eval env' t := by
  induction t generalizing env env' with
  | var name => exact agree name (by simp)
  | node f args ih =>
    unfold eval
    congr 1
    funext i
    apply ih i
    intro y free
    exact agree y ((CoreTerm.free_node f args y).mpr ⟨i, free⟩)
  | bind k binder domain body ihDomain ihBody =>
    unfold eval
    congr 1
    · exact ihDomain fun y free => agree y ((CoreTerm.free_bind ..).mpr (.inl free))
    · funext d
      apply ihBody
      intro y free
      by_cases eq : y = binder
      · rw [eq, update_self, update_self]
      · rw [update_of_ne eq, update_of_ne eq]
        exact agree y ((CoreTerm.free_bind ..).mpr (.inr ⟨Ne.symm eq, free⟩))
  | axiomNode name ty framework ih =>
    unfold eval
    congr 1
    exact ih agree

theorem eval_update_of_not_free {x : String} (ha : ¬ t.Free x) (env : String → D) (d : D) :
    I.eval (update env x d) t = I.eval env t := by
  apply I.eval_congr
  intro y free
  have ne : y ≠ x := by rintro rfl; exact ha free
  exact update_of_ne ne d env

/-- The axiom nodes outside axiom types mean the same in every environment. -/
def AxiomsFixed (t : CoreTerm) : Prop :=
  t.AllAxioms fun name ty framework => ∀ env env', I.axiomNode name framework (I.eval env ty) =
    I.axiomNode name framework (I.eval env' ty)

theorem axiomsFixed_of_closed (hc : t.AxiomsClosed) : I.AxiomsFixed t := by
  apply hc.imp
  intro name ty framework typeClosed env env'
  rw [I.eval_congr fun y free => absurd free (CoreTerm.not_free_of_freeVars_empty typeClosed y)]

theorem axiomsFixed_of_constant (constant : ∀ n fw d d', I.axiomNode n fw d = I.axiomNode n fw d')
    (t : CoreTerm) : I.AxiomsFixed t := by
  unfold AxiomsFixed
  induction t with
  | var name => trivial
  | node f args ih => exact ih
  | bind k binder domain body ihDomain ihBody => exact ⟨ihDomain, ihBody⟩
  | axiomNode name ty framework ih => exact fun env env' => constant _ _ _ _

theorem eval_substitute (fixed : I.AxiomsFixed t) (env : String → D) (x : String) (v : CoreTerm) :
    I.eval env (t.substitute x v) = I.eval (update env x (I.eval env v)) t := by
  generalize hb : t.size = n
  induction n using Nat.strong_induction_on generalizing t env x v with
  | _ n ih =>
    subst hb
    by_cases free : t.Free x
    · cases t with
      | var name =>
        have eq := (CoreTerm.free_var name x).mp free
        subst eq
        rw [CoreTerm.substitute_var_same]
        exact (update_self name (I.eval env v) env).symm
      | axiomNode name ty framework =>
        rw [CoreTerm.substitute_axiomNode]
        exact fixed _ _
      | node f args =>
        rw [CoreTerm.substitute_node]
        unfold eval
        congr 1
        funext i
        exact ih _ (CoreTerm.size_arg_lt f args i) (fixed i) env x v rfl
      | bind k binder domain body =>
        have smaller : domain.size < (CoreTerm.bind k binder domain body).size ∧
            body.size < (CoreTerm.bind k binder domain body).size := by
          simp only [CoreTerm.size]; omega
        rw [CoreTerm.substitute_bind free]
        unfold eval
        congr 1
        · exact ih _ smaller.1 fixed.1 env x v rfl
        · funext d
          unfold CoreTerm.substBinderBody
          split
          · rename_i shadowed
            rw [shadowed, update_idem]
          · rename_i ne
            split
            · -- the binder is free in the value: the body is renamed, then substituted into
              have hf := CoreTerm.freshBinderName_fresh binder v body x
              generalize CoreTerm.freshBinderName binder v body x = z at hf ⊢
              dsimp only
              have shrunk : (body.substitute binder (.var z)).size = body.size :=
                CoreTerm.size_substitute_var body binder z
              rw [ih _ (shrunk ▸ smaller.2) (fixed.2.substitute binder (v := .var z) trivial) _ x v rfl,
                I.eval_update_of_not_free hf.2.1,
                ih _ smaller.2 fixed.2 _ binder (.var z) rfl]
              have hb : I.eval (update (update env z d) x (I.eval env v))
                  (.var z) = d := by
                unfold eval
                rw [update_of_ne hf.1, update_self]
              rw [hb, update_comm hf.1]
              apply I.eval_congr
              intro y hin
              have nd : y ≠ z := by rintro rfl; exact hf.2.2 hin
              by_cases eq : y = binder
              · rw [eq, update_self, update_self]
              · rw [update_of_ne eq, update_of_ne eq,
                  update_of_ne nd]
            · rename_i harmless
              have apartValue : ¬ v.Free binder := by simpa [CoreTerm.Free] using harmless
              rw [ih _ smaller.2 fixed.2 _ x v rfl, I.eval_update_of_not_free apartValue,
                update_comm ne]
    · rw [CoreTerm.substitute_of_not_free free, I.eval_update_of_not_free free]

/-- A postulate is a constant: the type written at its node does not take part in its meaning. -/
def AxiomsConstant : Prop :=
  ∀ name framework d d', I.axiomNode name framework d = I.axiomNode name framework d'

variable {I}

theorem AxiomsConstant.fixed (constant : I.AxiomsConstant) (t : CoreTerm) : I.AxiomsFixed t :=
  I.axiomsFixed_of_constant constant t

theorem AxiomsConstant.eval_congr (constant : I.AxiomsConstant) (agree : ∀ y, t.Mentions y → env y = env' y) :
    I.eval env t = I.eval env' t := by
  induction t generalizing env env' with
  | var name => exact agree name rfl
  | node f args ih =>
    unfold eval
    congr 1
    funext i
    exact ih i fun y mentioned => agree y ⟨i, mentioned⟩
  | bind k binder domain body ihDomain ihBody =>
    unfold eval
    congr 1
    · exact ihDomain fun y mentioned => agree y (.inl mentioned)
    · funext d
      apply ihBody
      intro y mentioned
      by_cases eq : y = binder
      · rw [eq, update_self, update_self]
      · rw [update_of_ne eq, update_of_ne eq]
        exact agree y (.inr ⟨Ne.symm eq, mentioned⟩)
  | axiomNode name ty framework ih => exact constant ..

end Interpretation

end Kernel
