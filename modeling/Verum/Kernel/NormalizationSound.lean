import Verum.Kernel.Conversion
import Verum.Kernel.Rewriting

namespace Kernel

open Function

/-- Definitions are registered only after their bodies check in the empty context. -/
def Registries.Closed (r : Registries) : Prop :=
  ∀ name body, r.definition name = some body → body.freeVars = ∅ ∧ body.AxiomsDeeplyClosed

namespace CoreTerm

/-- From `t` to `u`: convertible below all binders, with no new free name or open axiom type. -/
def Reduces (r : Registries) (t u : CoreTerm) : Prop :=
  t.AxiomsDeeplyClosed → u.AxiomsDeeplyClosed ∧
    (∀ bound, Convertible r (t.nameless bound) (u.nameless bound)) ∧ ∀ y, u.Free y → t.Free y

namespace Reduces

variable {r : Registries}

theorem refl (t : CoreTerm) : Reduces r t t := fun hc =>
  ⟨hc, fun _ => .refl _, fun _ free => free⟩

theorem trans {t u w : CoreTerm} (fst : Reduces r t u) (snd : Reduces r u w) :
    Reduces r t w := by
  intro hc
  have left := fst hc
  have right := snd left.1
  exact ⟨right.1, fun hb => (left.2.1 hb).trans (right.2.1 hb),
    fun y free => left.2.2 y (right.2.2 y free)⟩

theorem node (f : Former) {as bs : Fin f.arity → CoreTerm} (parts : ∀ i, Reduces r (as i) (bs i)) :
    Reduces r (.node f as) (.node f bs) := by
  intro hc
  refine ⟨fun i => (parts i (hc i)).1, fun hb => ?_, fun y free => ?_⟩
  · exact .node f fun i => (parts i (hc i)).2.1 hb
  · rcases (free_node f bs y).mp free with ⟨i, hin⟩
    exact (free_node f as y).mpr ⟨i, (parts i (hc i)).2.2 y hin⟩

theorem bind (k : Binding) (binder : String) {a b c d : CoreTerm} (domain : Reduces r a c)
    (body : Reduces r b d) : Reduces r (.bind k binder a b) (.bind k binder c d) := by
  intro hc
  have left := domain hc.1
  have right := body hc.2
  refine ⟨⟨left.1, right.1⟩, fun hb => .bind k (left.2.1 hb) (right.2.1 _), fun y free => ?_⟩
  rcases (free_bind ..).mp free with inDomain | ⟨ne, inBody⟩
  · exact (free_bind ..).mpr (.inl (left.2.2 y inDomain))
  · exact (free_bind ..).mpr (.inr ⟨ne, right.2.2 y inBody⟩)

theorem axiomNode (name : String) (framework : FrameworkId) {a b : CoreTerm}
    (ty : Reduces r a b) :
    Reduces r (.axiomNode name a framework) (.axiomNode name b framework) := by
  intro hc
  have inner := ty hc.2
  refine ⟨⟨?_, inner.1⟩, fun hb => .axiomNode name framework (inner.2.1 hb), inner.2.2⟩
  apply Finset.eq_empty_of_forall_notMem
  intro y mem
  have free := inner.2.2 y ((mem_freeVars b y).mp mem)
  exact not_free_of_freeVars_empty hc.1 y free

theorem of_rule {t u : CoreTerm} (hk : t.AxiomsDeeplyClosed → u.AxiomsDeeplyClosed)
    (rule : ∀ hb, Convertible r (t.nameless hb) (u.nameless hb))
    (ns : ∀ y, u.Free y → t.Free y) : Reduces r t u :=
  fun hc => ⟨hk hc, rule, ns⟩

theorem beta {args : Fin 2 → CoreTerm} {binder : String} {domain body : CoreTerm}
    (head : args 0 = .bind .lam binder domain body) :
    Reduces r (.node .app args) (body.substitute binder (args 1)) := by
  intro hc
  have parts : domain.AxiomsDeeplyClosed ∧ body.AxiomsDeeplyClosed := by
    have fst := hc 0
    rwa [head] at fst
  refine ⟨parts.2.substitute binder (hc 1), fun hb => ?_, fun y free => ?_⟩
  · rw [nameless_substitute_body parts.2.axiomsClosed]
    exact .beta (fun i => (args i).nameless hb) (by simp only [head]; rfl)
  · rcases (free_substitute parts.2.axiomsClosed binder (args 1) y).mp free with
      ⟨inBody, ne⟩ | ⟨_, inArg⟩
    · refine (free_node _ _ y).mpr ⟨0, ?_⟩
      rw [head]
      exact (free_bind ..).mpr (.inr ⟨Ne.symm ne, inBody⟩)
    · exact (free_node _ _ y).mpr ⟨1, inArg⟩

theorem fst {args : Fin 1 → CoreTerm} {parts : Fin 2 → CoreTerm}
    (head : args 0 = .node .pair parts) : Reduces r (.node .fst args) (parts 0) := by
  apply of_rule
  · intro hc
    have first := hc 0
    rw [head] at first
    exact first 0
  · intro hb
    exact .fst (fun i => (args i).nameless hb) (by simp only [head]; rfl)
  · intro y free
    refine (free_node _ _ y).mpr ⟨0, ?_⟩
    rw [head]
    exact (free_node _ _ y).mpr ⟨0, free⟩

theorem snd {args : Fin 1 → CoreTerm} {parts : Fin 2 → CoreTerm}
    (head : args 0 = .node .pair parts) : Reduces r (.node .snd args) (parts 1) := by
  apply of_rule
  · intro hc
    have fst := hc 0
    rw [head] at fst
    exact fst 1
  · intro hb
    exact .snd (fun i => (args i).nameless hb) (by simp only [head]; rfl)
  · intro y free
    refine (free_node _ _ y).mpr ⟨0, ?_⟩
    rw [head]
    exact (free_node _ _ y).mpr ⟨1, free⟩

theorem closed_app {f a : CoreTerm} (function : f.AxiomsDeeplyClosed)
    (argument : a.AxiomsDeeplyClosed) : (CoreTerm.app f a).AxiomsDeeplyClosed := by
  intro i
  fin_cases i
  · exact function
  · exact argument

theorem free_app {f a : CoreTerm} {y : String} :
    (CoreTerm.app f a).Free y ↔ f.Free y ∨ a.Free y := by
  unfold CoreTerm.app
  rw [free_node]
  simp [Fin.exists_fin_two]

theorem quotElim {args : Fin 4 → CoreTerm} {parts : Fin 3 → CoreTerm}
    (head : args 0 = .node .quotIntro parts) :
    Reduces r (.node .quotElim args) (.app (args 2) (parts 0)) := by
  apply of_rule
  · intro hc
    have fst := hc 0
    rw [head] at fst
    exact closed_app (hc 2) (fst 0)
  · intro hb
    rw [nameless_app]
    exact @Convertible.quotElim r (fun i => (args i).nameless hb)
      (fun i => (parts i).nameless hb) (by simp only [head]; rfl)
  · intro y free
    rcases free_app.mp free with inCase | inValue
    · exact (free_node _ _ y).mpr ⟨2, inCase⟩
    · refine (free_node _ _ y).mpr ⟨0, ?_⟩
      rw [head]
      exact (free_node _ _ y).mpr ⟨0, inValue⟩

theorem pathOver {args : Fin 4 → CoreTerm} {point : Fin 1 → CoreTerm}
    (head : args 1 = .node .refl point) :
    Reduces r (.node .pathOver args)
      (.pathTy (.app (args 0) (point 0)) (args 2) (args 3)) := by
  apply of_rule
  · intro hc i
    have evidence := hc 1
    rw [head] at evidence
    fin_cases i
    · exact closed_app (hc 0) (evidence 0)
    · exact hc 2
    · exact hc 3
  · intro hb
    rw [nameless_pathTy, nameless_app]
    exact @Convertible.pathOver r (fun i => (args i).nameless hb)
      (fun i => (point i).nameless hb) (by simp only [head]; rfl)
  · intro y free
    rcases (free_node _ _ y).mp free with ⟨i, hin⟩
    fin_cases i
    · rcases free_app.mp hin with inMotive | inPoint
      · exact (free_node _ _ y).mpr ⟨0, inMotive⟩
      · refine (free_node _ _ y).mpr ⟨1, ?_⟩
        rw [head]
        exact (free_node _ _ y).mpr ⟨0, inPoint⟩
    · exact (free_node _ _ y).mpr ⟨2, hin⟩
    · exact (free_node _ _ y).mpr ⟨3, hin⟩

theorem transport {args : Fin 2 → CoreTerm} {point : Fin 1 → CoreTerm}
    (head : args 0 = .node .refl point) : Reduces r (.node .transport args) (args 1) := by
  apply of_rule
  · exact fun hc => hc 1
  · intro hb
    exact @Convertible.transport r (fun i => (args i).nameless hb)
      (fun i => (point i).nameless hb) (by simp only [head]; rfl)
  · exact fun y free => (free_node _ _ y).mpr ⟨1, free⟩

theorem unfold (hc : r.Closed) {name : String} {body : CoreTerm} (ty : CoreTerm)
    (framework : FrameworkId) (defined : r.definition name = some body) :
    Reduces r (.axiomNode name ty framework) body := by
  have checked := hc name body defined
  apply of_rule
  · exact fun _ => checked.2
  · intro hb
    rw [nameless_of_closed checked.1]
    exact .unfold _ framework defined
  · exact fun y free => absurd free (not_free_of_freeVars_empty checked.1 y)

end Reduces

end CoreTerm

namespace CoreTerm

variable {r : Registries}

theorem Reduces.point {cases : Nat} {args : Fin (2 + cases) → CoreTerm} {beta : CoreTerm}
    (hit : pointReduct r cases args (args (Fin.castAdd cases 0)) = some beta) :
    Reduces r (.node (.elim cases) args) beta := by
  rcases pointReduct_cases hit with
    ⟨owner, name, ps, fs, parts, ctorIdx, recursive, branch, head, rule, chosen, rfl⟩
  have isBranch : ∃ i, args (Fin.natAdd 2 i) = branch := by
    have mem := List.mem_of_getElem? chosen
    rcases (List.mem_ofFn' _ _).mp mem with ⟨i, here⟩
    exact ⟨i, here⟩
  have isField (e) (mem : e ∈ (List.ofFn fun i => parts (Fin.natAdd ps i)).zip
      recursive) : ∃ i, parts (Fin.natAdd ps i) = e.1 := by
    have inFields := (@List.of_mem_zip _ _ e.1 e.2 _ _ mem).1
    rcases (List.mem_ofFn' _ _).mp inFields with ⟨i, here⟩
    exact ⟨i, here⟩
  apply of_rule
  · intro hc
    have fst := hc (Fin.castAdd cases 0)
    rw [head] at fst
    apply recursorChain_invariant AxiomsDeeplyClosed
    · exact fun f a function argument => closed_app function argument
    · intro field closedField i
      by_cases isFirst : i = Fin.castAdd cases 0
      · rw [isFirst, update_self]
        exact closedField
      · rw [update_of_ne isFirst]
        exact hc i
    · rcases isBranch with ⟨i, rfl⟩
      exact hc _
    · intro e mem
      rcases isField e mem with ⟨i, here⟩
      rw [← here]
      exact fst _
  · intro hb
    apply Convertible.point
    refine ⟨owner, name, ps, fs, fun i => (parts i).nameless hb, ctorIdx, recursive,
      branch.nameless hb, ?_, rule, ?_, ?_⟩
    · simp only [head]
      rfl
    · have mapped := congrArg (Option.map (nameless hb)) chosen
      rwa [← List.getElem?_map, List.map_ofFn] at mapped
    · have onRec (field : CoreTerm) :
          (CoreTerm.node (.elim cases)
            (update args (Fin.castAdd cases 0) field)).nameless hb =
          Nameless.node (.elim cases) (update (fun i => (args i).nameless hb)
            (Fin.castAdd cases 0) (field.nameless hb)) := by
        apply congrArg (Nameless.node (.elim cases))
        funext i
        by_cases isFirst : i = Fin.castAdd cases 0
        · rw [isFirst, update_self, update_self]
        · rw [update_of_ne isFirst, update_of_ne isFirst]
      have image := recursorChain_map
        (fun field => .node (.elim cases) (update args (Fin.castAdd cases 0) field))
        (fun field => Nameless.node (.elim cases)
          (update (fun i => (args i).nameless hb) (Fin.castAdd cases 0) field))
        (nameless hb) (fun f a => nameless_app f a hb) onRec branch
        ((List.ofFn fun i => parts (Fin.natAdd ps i)).zip recursive)
      rw [image, ← List.zip_map_left, List.map_ofFn]
      rfl
  · intro y
    apply recursorChain_invariant fun u : CoreTerm => u.Free y → (CoreTerm.node (.elim cases) args).Free y
    · intro f a function argument free
      rcases free_app.mp free with inFunction | inArgument
      · exact function inFunction
      · exact argument inArgument
    · intro field inField free
      rcases (free_node _ _ y).mp free with ⟨i, hin⟩
      by_cases isFirst : i = Fin.castAdd cases 0
      · rw [isFirst, update_self] at hin
        exact inField hin
      · rw [update_of_ne isFirst] at hin
        exact (free_node _ _ y).mpr ⟨i, hin⟩
    · rcases isBranch with ⟨i, rfl⟩
      exact fun free => (free_node _ _ y).mpr ⟨_, free⟩
    · intro e mem free
      rcases isField e mem with ⟨i, here⟩
      rw [← here] at free
      refine (free_node _ _ y).mpr ⟨Fin.castAdd cases 0, ?_⟩
      rw [head]
      exact (free_node _ _ y).mpr ⟨_, free⟩

theorem compare_sound (left right : CoreTerm) (hb : List (String × String))
    (equal : compare left right hb = true) :
    left.nameless (hb.map Prod.fst) = right.nameless (hb.map Prod.snd) := by
  induction left generalizing right hb with
  | var a =>
    cases right with
    | var b =>
      unfold compare at equal
      unfold nameless
      cases first : (hb.map Prod.fst).idxOf? a <;>
        cases second : (hb.map Prod.snd).idxOf? b <;> simp_all
    | _ => cases equal
  | node f as ih =>
    cases right with
    | node g bs =>
      unfold compare at equal
      split at equal
      · rename_i eq
        subst eq
        apply congrArg (Nameless.node f)
        funext i
        exact ih i (bs i) hb (List.all_eq_true.mp equal i (List.mem_finRange i))
      · cases equal
    | _ => cases equal
  | bind k a ad ab ihDomain ihBody =>
    cases right with
    | bind l b bd bb =>
      unfold compare at equal
      simp only [Bool.and_eq_true, beq_iff_eq] at equal
      rcases equal with ⟨⟨rfl, domains⟩, bodies⟩
      exact congrArg₂ (Nameless.bind k) (ihDomain bd hb domains) (ihBody bb _ bodies)
    | _ => cases equal
  | axiomNode a aty af ih =>
    cases right with
    | axiomNode b bty bf =>
      unfold compare at equal
      simp only [Bool.and_eq_true, beq_iff_eq] at equal
      rcases equal with ⟨⟨rfl, rfl⟩, types⟩
      exact congrArg (Nameless.axiomNode a · af) (ih bty hb types)
    | _ => cases equal

theorem reduces_rewriting (hc : r.Closed) : Rewriting r (Reduces r) where
  refl := Reduces.refl
  trans := Reduces.trans
  node := Reduces.node
  bind := Reduces.bind
  axiomNode := Reduces.axiomNode
  beta _ := Reduces.beta
  fst _ := Reduces.fst
  snd _ := Reduces.snd
  quotElim _ := Reduces.quotElim
  pathOver _ := Reduces.pathOver
  transport _ := Reduces.transport
  unfold ty framework := Reduces.unfold hc ty framework
  point _ := Reduces.point

theorem comparison_convertible (hc : r.Closed) (budget : Nat) {a b : CoreTerm}
    (closedLeft : a.AxiomsDeeplyClosed) (closedRight : b.AxiomsDeeplyClosed)
    (equal : comparison r budget a b = true) :
    Convertible r (a.nameless []) (b.nameless []) := by
  unfold comparison at equal
  rcases Bool.or_eq_true_iff.mp equal with eq | normal
  · rw [of_decide_eq_true eq]
    exact .refl _
  · have left := (normalizeWithin_follows (reduces_rewriting hc) budget a budget closedLeft).2.1 []
    have right := (normalizeWithin_follows (reduces_rewriting hc) budget b budget closedRight).2.1 []
    have mid := compare_sound _ _ [] normal
    exact (left.trans (mid ▸ .refl _)).trans right.symm

end CoreTerm

end Kernel
