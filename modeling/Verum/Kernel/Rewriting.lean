import Mathlib.Tactic.FinCases
import Verum.Kernel.Normalization

namespace Kernel

open Function

theorem recursorChain_map {T S : Type} {appT : T → T → T} {appS : S → S → S} (recT : T → T)
    (recS : S → S) (h : T → S) (onApp : ∀ f a, h (appT f a) = appS (h f) (h a))
    (onRec : ∀ field, h (recT field) = recS (h field)) (beta : T) (fs : List (T × Bool)) :
    h (recursorChain appT recT beta fs) =
      recursorChain appS recS (h beta) (fs.map (Prod.map h id)) := by
  induction fs generalizing beta with
  | nil => rfl
  | cons fst rest ih =>
    rcases fst with ⟨field, recursive⟩
    show h (recursorChain appT recT _ rest) = recursorChain appS recS _ (rest.map _)
    rw [ih]
    cases recursive with
    | false => exact congrArg (recursorChain appS recS · _) (onApp beta field)
    | true =>
      apply congrArg (recursorChain appS recS · _)
      simp only [if_true, id, onApp, onRec]

theorem recursorChain_invariant {T : Type} {app : T → T → T} {recCall : T → T} (P : T → Prop)
    (onApp : ∀ f a, P f → P a → P (app f a)) (onRec : ∀ field, P field → P (recCall field))
    (beta : T) (fs : List (T × Bool)) (start : P beta) (all : ∀ e ∈ fs, P e.1) :
    P (recursorChain app recCall beta fs) := by
  induction fs generalizing beta with
  | nil => exact start
  | cons fst rest ih =>
    have here := all fst (.head _)
    have applied := onApp beta fst.1 start here
    apply ih
    · split
      · exact onApp _ _ applied (onRec _ here)
      · exact applied
    · exact fun e mem => all e (List.mem_cons_of_mem fst mem)

namespace CoreTerm

variable {r : Registries}

theorem pointReduct_cases {cases : Nat} {args : Fin (2 + cases) → CoreTerm}
    {scrut beta : CoreTerm} (hit : pointReduct r cases args scrut = some beta) :
    ∃ owner name ps fs parts ctorIdx recursive branch,
      scrut = .node (.constructor owner name ps fs) parts ∧
      r.pointRule owner name ps fs cases = some (ctorIdx, recursive) ∧
      (List.ofFn fun i => args (Fin.natAdd 2 i))[ctorIdx]? = some branch ∧
      beta = recursorChain app
        (fun field => .node (.elim cases) (update args (Fin.castAdd cases 0) field)) branch
        ((List.ofFn fun i => parts (Fin.natAdd ps i)).zip recursive) := by
  unfold pointReduct at hit
  split at hit
  · rename_i owner name ps fs parts
    rcases Option.bind_eq_some_iff.mp hit with ⟨⟨ctorIdx, recursive⟩, rule, hit⟩
    rcases Option.bind_eq_some_iff.mp hit with ⟨branch, chosen, hit⟩
    exact ⟨owner, name, ps, fs, parts, ctorIdx, recursive, branch, rfl, rule, chosen,
      (Option.some.inj hit).symm⟩
  · cases hit

theorem pointReduct_update {cases : Nat} (args : Fin (2 + cases) → CoreTerm)
    (first scrutinee : CoreTerm) :
    pointReduct r cases (update args (Fin.castAdd cases 0) first) scrutinee =
      pointReduct r cases args scrutinee := by
  have branches (i : Fin cases) :
      update args (Fin.castAdd cases 0) first (Fin.natAdd 2 i) = args (Fin.natAdd 2 i) := by
    apply update_of_ne
    intro same
    have vs := congrArg Fin.val same
    simp at vs
  unfold pointReduct
  simp only [branches]
  cases scrutinee with
  | node f parts =>
    cases f <;> first | rfl | skip
    dsimp only
    congr 1
    funext rule
    congr 1
    funext branch
    congr 2
    funext field
    exact congrArg (CoreTerm.node (.elim cases)) (update_idem ..)
  | _ => rfl

/-- A relation closed under the formers and containing every rule the normaliser fires. -/
structure Rewriting (r : Registries) (R : CoreTerm → CoreTerm → Prop) : Prop where
  refl (t) : R t t
  trans {t u w} : R t u → R u w → R t w
  node (f : Former) {as bs : Fin f.arity → CoreTerm} :
    (∀ i, R (as i) (bs i)) → R (.node f as) (.node f bs)
  bind (k binder) {a b c d} : R a c → R b d → R (.bind k binder a b) (.bind k binder c d)
  axiomNode (name framework) {a b} : R a b → R (.axiomNode name a framework) (.axiomNode name b framework)
  beta (args : Fin 2 → CoreTerm) {binder domain body} : args 0 = .bind .lam binder domain body →
    R (.node .app args) (body.substitute binder (args 1))
  fst (args : Fin 1 → CoreTerm) {parts : Fin 2 → CoreTerm} : args 0 = .node .pair parts →
    R (.node .fst args) (parts 0)
  snd (args : Fin 1 → CoreTerm) {parts : Fin 2 → CoreTerm} : args 0 = .node .pair parts →
    R (.node .snd args) (parts 1)
  quotElim (args : Fin 4 → CoreTerm) {parts : Fin 3 → CoreTerm} :
    args 0 = .node .quotIntro parts → R (.node .quotElim args) (.app (args 2) (parts 0))
  pathOver (args : Fin 4 → CoreTerm) {point : Fin 1 → CoreTerm} : args 1 = .node .refl point →
    R (.node .pathOver args) (.pathTy (.app (args 0) (point 0)) (args 2) (args 3))
  transport (args : Fin 2 → CoreTerm) {point : Fin 1 → CoreTerm} : args 0 = .node .refl point →
    R (.node .transport args) (args 1)
  unfold {name body} (ty framework) : r.definition name = some body →
    R (.axiomNode name ty framework) body
  point {cases} (args : Fin (2 + cases) → CoreTerm) {beta} :
    pointReduct r cases args (args (Fin.castAdd cases 0)) = some beta →
    R (.node (.elim cases) args) beta

variable {R : CoreTerm → CoreTerm → Prop}

theorem Rewriting.app (rules : Rewriting r R) {f g a b : CoreTerm} (function : R f g)
    (argument : R a b) : R (.app f a) (.app g b) := by
  apply rules.node .app
  intro i
  fin_cases i
  · exact function
  · exact argument

def Follows (R : CoreTerm → CoreTerm → Prop) (recurse : CoreTerm → Nat → CoreTerm × Nat) : Prop :=
  ∀ term budget, R term (recurse term budget).1

theorem normalizeAll_follows {recurse : CoreTerm → Nat → CoreTerm × Nat}
    (follows : Follows R recurse) (n : Nat) (args : Fin n → CoreTerm) (budget : Nat) (i : Fin n) :
    R (args i) ((normalizeAll recurse n args budget).1 i) := by
  induction n generalizing budget with
  | zero => exact i.elim0
  | succ n ih =>
    unfold normalizeAll
    refine Fin.cases ?_ (fun j => ?_) i
    · exact follows (args 0) budget
    · exact ih (fun i => args i.succ) _ j

theorem normalizeStep_generic (rules : Rewriting r R)
    {recurse : CoreTerm → Nat → CoreTerm × Nat} (follows : Follows R recurse)
    (f : Former) (args : Fin f.arity → CoreTerm) (budget : Nat) :
    R (.node f args) (.node f (normalizeAll recurse f.arity args budget).1) :=
  rules.node f (normalizeAll_follows follows f.arity args budget)

theorem normalizeStep_app (rules : Rewriting r R)
    {recurse : CoreTerm → Nat → CoreTerm × Nat} (follows : Follows R recurse)
    (args : Fin Former.app.arity → CoreTerm) (budget : Nat) :
    R (.node .app args) (normalizeStep r recurse (.node .app args) budget).1 := by
  unfold normalizeStep
  dsimp only
  have function := follows (args 0) budget
  generalize recurse (args 0) budget = fst at function ⊢
  have argument := follows (args 1) fst.2
  generalize recurse (args 1) fst.2 = snd at argument ⊢
  have parts : R (.node .app args) (app fst.1 snd.1) := by
    apply rules.node .app
    intro i
    fin_cases i
    · exact function
    · exact argument
  split
  · rename_i binder domain body head
    exact rules.trans (rules.trans parts (rules.beta _ head)) (follows _ _)
  · exact parts

theorem normalizeStep_fst (rules : Rewriting r R)
    {recurse : CoreTerm → Nat → CoreTerm × Nat} (follows : Follows R recurse)
    (args : Fin Former.fst.arity → CoreTerm) (budget : Nat) :
    R (.node .fst args) (normalizeStep r recurse (.node .fst args) budget).1 := by
  unfold normalizeStep
  dsimp only
  have pair := follows (args 0) budget
  generalize recurse (args 0) budget = first at pair ⊢
  have parts : R (.node .fst args) (fst first.1) := by
    apply rules.node .fst
    intro i
    fin_cases i
    exact pair
  split
  · rename_i components head
    exact rules.trans (rules.trans parts (rules.fst _ head)) (follows _ _)
  · exact parts

theorem normalizeStep_snd (rules : Rewriting r R)
    {recurse : CoreTerm → Nat → CoreTerm × Nat} (follows : Follows R recurse)
    (args : Fin Former.snd.arity → CoreTerm) (budget : Nat) :
    R (.node .snd args) (normalizeStep r recurse (.node .snd args) budget).1 := by
  unfold normalizeStep
  dsimp only
  have pair := follows (args 0) budget
  generalize recurse (args 0) budget = fst at pair ⊢
  have parts : R (.node .snd args) (snd fst.1) := by
    apply rules.node .snd
    intro i
    fin_cases i
    exact pair
  split
  · rename_i components head
    exact rules.trans (rules.trans parts (rules.snd _ head)) (follows _ _)
  · exact parts

theorem normalizeStep_pathOver (rules : Rewriting r R)
    {recurse : CoreTerm → Nat → CoreTerm × Nat} (follows : Follows R recurse) (args : Fin Former.pathOver.arity → CoreTerm) (budget : Nat) :
    R (.node .pathOver args) (normalizeStep r recurse (.node .pathOver args) budget).1 := by
  unfold normalizeStep
  dsimp only
  have left := follows (args 2) budget
  generalize recurse (args 2) budget = fst at left ⊢
  have right := follows (args 3) fst.2
  generalize recurse (args 3) fst.2 = snd at right ⊢
  have evidence := follows (args 1) snd.2
  generalize recurse (args 1) snd.2 = third at evidence ⊢
  have family := follows (args 0) third.2
  generalize recurse (args 0) third.2 = fourth at family ⊢
  have parts : R (.node .pathOver args) (pathOver fourth.1 third.1 fst.1 snd.1) := by
    apply rules.node .pathOver
    intro i
    fin_cases i
    · exact family
    · exact evidence
    · exact left
    · exact right
  split
  · rename_i point head
    have reduct := rules.trans parts
      (rules.pathOver ![fourth.1, third.1, fst.1, snd.1] head)
    apply rules.trans reduct
    apply rules.node .pathTy
    intro i
    fin_cases i
    · exact follows _ _
    · exact rules.refl _
    · exact rules.refl _
  · exact parts

theorem normalizeStep_transport (rules : Rewriting r R)
    {recurse : CoreTerm → Nat → CoreTerm × Nat} (follows : Follows R recurse) (args : Fin Former.transport.arity → CoreTerm) (budget : Nat) :
    R (.node .transport args)
      (normalizeStep r recurse (.node .transport args) budget).1 := by
  unfold normalizeStep
  dsimp only
  have evidence := follows (args 0) budget
  generalize recurse (args 0) budget = fst at evidence ⊢
  have src := follows (args 1) fst.2
  generalize recurse (args 1) fst.2 = snd at src ⊢
  have parts : R (.node .transport args) (transport fst.1 snd.1) := by
    apply rules.node .transport
    intro i
    fin_cases i
    · exact evidence
    · exact src
  split
  · rename_i point head
    exact rules.trans parts (rules.transport ![fst.1, snd.1] head)
  · exact parts

theorem normalizeStep_quotElim (rules : Rewriting r R)
    {recurse : CoreTerm → Nat → CoreTerm × Nat} (follows : Follows R recurse) (args : Fin Former.quotElim.arity → CoreTerm) (budget : Nat) :
    R (.node .quotElim args) (normalizeStep r recurse (.node .quotElim args) budget).1 := by
  unfold normalizeStep
  dsimp only
  have tgt := follows (args 0) budget
  generalize recurse (args 0) budget = fst at tgt ⊢
  split
  · rename_i components head
    have parts : R (.node .quotElim args) (quotElim fst.1 (args 1) (args 2) (args 3)) := by
      apply rules.node .quotElim
      intro i
      fin_cases i
      · exact tgt
      · exact rules.refl _
      · exact rules.refl _
      · exact rules.refl _
    have contracted := rules.trans parts
      (rules.quotElim ![fst.1, args 1, args 2, args 3] head)
    apply rules.trans contracted
    exact rules.trans (rules.app (follows _ _) (follows _ _)) (follows _ _)
  · apply rules.node .quotElim
    intro i
    fin_cases i
    · exact tgt
    · exact follows _ _
    · exact follows _ _
    · exact follows _ _

theorem normalizeStep_elim (rules : Rewriting r R)
    {recurse : CoreTerm → Nat → CoreTerm × Nat} (follows : Follows R recurse)
    (cases : Nat) (args : Fin (Former.elim cases).arity → CoreTerm) (budget : Nat) :
    R (.node (.elim cases) args)
      (normalizeStep r recurse (.node (.elim cases) args) budget).1 := by
  unfold normalizeStep
  dsimp only
  have tgt := follows (args (Fin.castAdd cases 0)) budget
  generalize recurse (args (Fin.castAdd cases 0)) budget = fst at tgt ⊢
  split
  · rename_i beta hit
    have parts : R (.node (.elim cases) args)
        (.node (.elim cases) (update args (Fin.castAdd cases 0) fst.1)) := by
      apply rules.node (.elim cases)
      intro i
      by_cases isFirst : i = Fin.castAdd cases 0
      · rw [isFirst, update_self]
        exact tgt
      · rw [update_of_ne isFirst]
        exact rules.refl _
    apply rules.trans (rules.trans parts (rules.point _ _)) (follows beta fst.2)
    rw [pointReduct_update, update_self]
    exact hit
  · have branches := normalizeAll_follows follows cases (fun i => args (Fin.natAdd 2 i)) fst.2
    generalize normalizeAll recurse cases (fun i => args (Fin.natAdd 2 i)) fst.2 = rest at branches ⊢
    apply rules.node (.elim cases)
    intro i
    refine Fin.addCases (fun j => ?_) (fun j => ?_) i
    · rw [Fin.append_left]
      fin_cases j
      · exact tgt
      · exact follows _ _
    · rw [Fin.append_right]
      exact branches j

theorem normalizeStep_follows (rules : Rewriting r R)
    {recurse : CoreTerm → Nat → CoreTerm × Nat} (follows : Follows R recurse) : Follows R (normalizeStep r recurse) := by
  intro term budget
  cases term with
  | var name => exact rules.refl _
  | bind k binder domain body => exact rules.bind k binder (follows _ _) (follows _ _)
  | axiomNode name ty framework =>
    unfold normalizeStep
    dsimp only
    split
    · rename_i body defined
      exact rules.trans (rules.unfold ty framework defined) (follows _ _)
    · exact rules.axiomNode name framework (follows _ _)
  | node f args =>
    cases f with
    | app => exact normalizeStep_app rules follows args budget
    | fst => exact normalizeStep_fst rules follows args budget
    | snd => exact normalizeStep_snd rules follows args budget
    | pathOver => exact normalizeStep_pathOver rules follows args budget
    | transport => exact normalizeStep_transport rules follows args budget
    | quotElim => exact normalizeStep_quotElim rules follows args budget
    | elim cases => exact normalizeStep_elim rules follows cases args budget
    | _ => exact normalizeStep_generic rules follows _ args budget

theorem normalizeWithin_follows (rules : Rewriting r R) (fuel : Nat) :
    Follows R (normalizeWithin r fuel) := by
  induction fuel with
  | zero =>
    intro term budget
    cases budget <;> exact rules.refl _
  | succ fuel ih =>
    intro term budget
    cases budget with
    | zero => exact rules.refl _
    | succ budget => exact normalizeStep_follows rules ih term budget

end CoreTerm

end Kernel
