import Verum.Kernel.Nameless

open List

namespace Kernel

open Function

/-- The free names themselves as an interpretation: a bound name contributes nothing. -/
def names : Interpretation (Set String) where
  node _ args := ⋃ i, args i
  bind _ domain body := domain ∪ body ∅
  axiomNode _ _ ty := ty

theorem mem_names (t : CoreTerm) (env : String → Set String) (y : String) :
    y ∈ names.eval env t ↔ ∃ x, t.Free x ∧ y ∈ env x := by
  induction t generalizing env with
  | var name => simp [Interpretation.eval]
  | node f args ih =>
    have part (i) := ih i env
    simp only [Interpretation.eval, names, Set.mem_iUnion, CoreTerm.free_node] at part ⊢
    simp only [part]
    constructor
    · rintro ⟨i, x, free, mem⟩
      exact ⟨x, ⟨i, free⟩, mem⟩
    · rintro ⟨x, ⟨i, free⟩, mem⟩
      exact ⟨i, x, free, mem⟩
  | bind k binder domain body ihDomain ihBody =>
    have whole : y ∈ names.eval env (.bind k binder domain body) ↔
        y ∈ names.eval env domain ∨ y ∈ names.eval (update env binder ∅) body := Iff.rfl
    rw [whole, ihDomain, ihBody]
    constructor
    · rintro (⟨x, free, mem⟩ | ⟨x, free, mem⟩)
      · exact ⟨x, (CoreTerm.free_bind ..).mpr (.inl free), mem⟩
      · by_cases eq : x = binder
        · rw [eq, update_self] at mem
          exact mem.elim
        · rw [update_of_ne eq] at mem
          exact ⟨x, (CoreTerm.free_bind ..).mpr (.inr ⟨Ne.symm eq, free⟩), mem⟩
    · rintro ⟨x, free, mem⟩
      rcases (CoreTerm.free_bind ..).mp free with inDomain | ⟨ne, inBody⟩
      · exact .inl ⟨x, inDomain, mem⟩
      · apply Or.inr
        refine ⟨x, inBody, ?_⟩
        rwa [update_of_ne (Ne.symm ne)]
  | axiomNode name ty framework ih => exact ih env

theorem free_iff_names (t : CoreTerm) (y : String) :
    t.Free y ↔ y ∈ names.eval (fun x => {x}) t := by
  rw [mem_names]
  simp

namespace CoreTerm

variable {t : CoreTerm}

theorem free_substitute (hc : t.AxiomsClosed) (x : String) (v : CoreTerm) (y : String) :
    (t.substitute x v).Free y ↔ t.Free y ∧ y ≠ x ∨ t.Free x ∧ v.Free y := by
  rw [free_iff_names, names.eval_substitute (names.axiomsFixed_of_closed hc), mem_names]
  constructor
  · rintro ⟨z, free, mem⟩
    by_cases eq : z = x
    · subst eq
      rw [update_self] at mem
      exact .inr ⟨free, (free_iff_names v y).mpr mem⟩
    · rw [update_of_ne eq] at mem
      cases Set.mem_singleton_iff.mp mem
      exact .inl ⟨free, eq⟩
  · rintro (⟨free, ne⟩ | ⟨free, inValue⟩)
    · refine ⟨y, free, ?_⟩
      rw [update_of_ne ne]
      exact Set.mem_singleton y
    · refine ⟨x, free, ?_⟩
      rw [update_self]
      exact (free_iff_names v y).mp inValue

theorem freeVars_substitute (hc : t.AxiomsClosed) (x : String) (v : CoreTerm) : (t.substitute x v).freeVars =
      t.freeVars \ {x} ∪ if x ∈ t.freeVars then v.freeVars else ∅ := by
  ext y
  rw [mem_freeVars, free_substitute hc, Finset.mem_union, Finset.mem_sdiff,
    Finset.mem_singleton, mem_freeVars]
  split <;> simp_all

theorem eval_scope_nil_update (σ : String → Nameless) (x : String) (v : CoreTerm)
    (sent : σ x = v.nameless []) (others : ∀ y, y ≠ x → σ y = .fvar y) (y : String) (d : Nat) :
    update (scope []) x (levels.eval (scope []) v) y d =
      (scope [] y d).substitute σ d := by
  have free : (scope [] y d).substitute σ d = (σ y).lift 0 d := rfl
  rw [free]
  by_cases eq : y = x
  · subst eq
    rw [update_self, sent, ← eval_scope_lift v [] d]
    simp
  · rw [update_of_ne eq, others y eq]
    rfl

theorem nameless_substitute (hc : t.AxiomsClosed) (x : String) (v : CoreTerm) : (t.substitute x v).nameless [] =
      (t.nameless []).substitute (update Nameless.fvar x (v.nameless [])) 0 := by
  rw [nameless_eq_eval, nameless_eq_eval t,
    levels.eval_substitute (levels.axiomsFixed_of_closed hc)]
  apply eval_substitute_names
  intro y d
  apply eval_scope_nil_update
  · exact update_self ..
  · intro z ne
    exact update_of_ne ne ..

theorem stageNames_avoid (replacements : List (String × CoreTerm)) (used : Finset String)
    (res : CoreTerm) :
    ∀ e ∈ (stageNames replacements used res).2,
      e.1 ∉ used ∧ ∃ name, (name, e.2) ∈ replacements := by
  induction replacements generalizing used res with
  | nil => exact fun e mem => absurd mem not_mem_nil
  | cons fst rest ih =>
    intro e mem
    unfold stageNames at mem
    rcases mem_cons.mp mem with rfl | hl
    · have untaken := firstFresh_untaken _ (suffixed_injective (fst.1 ++ "_subst"))
        (fun candidate => decide (candidate ∈ used)) used (by simp) used.card le_rfl
      exact ⟨by simpa using untaken, fst.1, .head _⟩
    · have deeper := ih _ _ e hl
      refine ⟨fun hin => deeper.1 (Finset.mem_insert_of_mem hin), ?_⟩
      exact deeper.2.imp fun _ => mem_cons_of_mem _

theorem stageNames_closed (replacements : List (String × CoreTerm)) (used : Finset String)
    {res : CoreTerm} (hc : res.AxiomsClosed) :
    (stageNames replacements used res).1.AxiomsClosed := by
  induction replacements generalizing used res with
  | nil => exact hc
  | cons fst rest ih => exact ih _ (hc.substitute fst.1 (v := .var _) trivial)

end CoreTerm

namespace Interpretation

variable {D : Type u} (I : Interpretation D)

/-- The environment in which the first replacement of a name, if any, gives its meaning. -/
def assign (env : String → D) (replacements : List (String × CoreTerm)) (y : String) : D :=
  match replacements.lookup y with
  | some value => I.eval env value
  | none => env y

theorem assign_cons (env : String → D) (x : String) (v : CoreTerm)
    (rest : List (String × CoreTerm)) :
    I.assign env ((x, v) :: rest) = update (I.assign env rest) x (I.eval env v) := by
  funext y
  unfold assign
  by_cases eq : y = x
  · subst eq
    simp
  · rw [update_of_ne eq, lookup_cons, beq_false_of_ne eq]

variable {replacements : List (String × CoreTerm)}

theorem assign_of_not_mem (env : String → D) {y : String} (ha : ∀ e ∈ replacements, e.1 ≠ y) :
    I.assign env replacements y = env y := by
  have missing : replacements.lookup y = none := by
    rw [lookup_eq_none_iff]
    intro e mem
    simpa using Ne.symm (ha e mem)
  rw [assign, missing]

theorem mem_of_lookup {y : String} {v : CoreTerm} (hit : replacements.lookup y = some v) :
    (y, v) ∈ replacements := by
  rcases lookup_eq_some_iff.mp hit with ⟨pre, after, split, _⟩
  rw [split]
  exact mem_append_right pre (.head _)

theorem eval_foldl_substitute (staged : List (String × CoreTerm)) (res : CoreTerm)
    (env : String → D) (fixed : I.AxiomsFixed res)
    (vs : ∀ e ∈ staged, I.AxiomsFixed e.2)
    (ne : ∀ e ∈ staged, ∀ other ∈ staged, ¬ other.2.Free e.1) :
    I.eval env (staged.foldl (fun res e => res.substitute e.1 e.2) res) =
      I.eval (I.assign env staged) res := by
  induction staged generalizing res with
  | nil => rfl
  | cons fst rest ih =>
    rw [foldl_cons,
      ih _ (fixed.substitute fst.1 (vs _ mem_cons_self))
        (fun e mem => vs _ (.tail _ mem))
        (fun e mem other hin =>
          ne _ (.tail _ mem) _ (.tail _ hin)),
      I.eval_substitute fixed, assign_cons]
    congr 2
    apply I.eval_congr
    intro y free
    apply I.assign_of_not_mem
    rintro e mem rfl
    exact ne e (.tail _ mem) fst (.head _) free

theorem eval_stageNames (replacements : List (String × CoreTerm)) (used : Finset String)
    (res : CoreTerm) (env : String → D) (hc : res.AxiomsClosed)
    (freeUsed : ∀ y, res.Free y → y ∈ used)
    (namesUsed : ∀ e ∈ replacements, e.1 ∈ used)
    (valuesUsed : ∀ e ∈ replacements, ∀ y, e.2.Free y → y ∈ used) :
    I.eval (I.assign env (CoreTerm.stageNames replacements used res).2)
        (CoreTerm.stageNames replacements used res).1 =
      I.eval (I.assign env replacements) res := by
  induction replacements generalizing used res env with
  | nil => rfl
  | cons fst rest ih =>
    rcases fst with ⟨x, v⟩
    have avoid := CoreTerm.stageNames_avoid ((x, v) :: rest) used res
    unfold CoreTerm.stageNames at avoid ⊢
    dsimp only at avoid ⊢
    generalize firstFresh _ _ _ _ = hf at avoid ⊢
    have freshUnused : hf ∉ used := (avoid _ mem_cons_self).1
    have laterAvoid := CoreTerm.stageNames_avoid rest (insert hf used)
      (res.substitute x (.var hf))
    have unchanged (w) (inRest : ∃ name, (name, w) ∈ rest) (d : D) :
        I.eval (update env hf d) w = I.eval env w := by
      rcases inRest with ⟨name, mem⟩
      apply I.eval_update_of_not_free
      intro free
      exact freshUnused (valuesUsed _ (.tail _ mem) _ free)
    -- the value of the first replacement is stored under its intermediate name
    have stored : I.assign env ((hf, v) ::
          (CoreTerm.stageNames rest (insert hf used) (res.substitute x (.var hf))).2) =
        I.assign (update env hf (I.eval env v))
          (CoreTerm.stageNames rest (insert hf used) (res.substitute x (.var hf))).2 := by
      rw [assign_cons]
      funext y
      unfold assign
      by_cases eq : y = hf
      · subst eq
        have missing : (CoreTerm.stageNames rest (insert y used)
            (res.substitute x (.var y))).2.lookup y = none := by
          rw [lookup_eq_none_iff]
          intro e mem
          have outside := (laterAvoid e mem).1
          apply bne_iff_ne.mpr
          rintro rfl
          exact outside (Finset.mem_insert_self ..)
        rw [missing]
        simp
      · rw [update_of_ne eq]
        cases hit : List.lookup y (CoreTerm.stageNames rest (insert hf used)
            (res.substitute x (.var hf))).2 with
        | none => exact (update_of_ne eq ..).symm
        | some w =>
          have mem := mem_of_lookup hit
          exact (unchanged w (laterAvoid _ mem).2 _).symm
    rw [stored, ih (insert hf used) _ _ (CoreTerm.AllAxioms.substitute hc x (v := .var hf) trivial) ?_ ?_ ?_,
      I.eval_substitute (I.axiomsFixed_of_closed hc), assign_cons]
    · have atFresh : I.assign (update env hf (I.eval env v)) rest hf =
          I.eval env v := by
        rw [I.assign_of_not_mem, update_self]
        rintro e mem rfl
        exact freshUnused (namesUsed _ (.tail _ mem))
      rw [show I.eval (I.assign (update env hf (I.eval env v)) rest) (.var hf) = _
        from atFresh]
      apply I.eval_congr
      intro y free
      by_cases eq : y = x
      · rw [eq, update_self, update_self]
      · rw [update_of_ne eq, update_of_ne eq]
        unfold assign
        cases hit : rest.lookup y with
        | none =>
          apply update_of_ne
          rintro rfl
          exact freshUnused (freeUsed _ free)
        | some w => exact unchanged w ⟨y, mem_of_lookup hit⟩ _
    · intro y free
      rcases (CoreTerm.free_substitute hc x (.var hf) y).mp free with ⟨hin, _⟩ | ⟨_, isFresh⟩
      · exact Finset.mem_insert_of_mem (freeUsed y hin)
      · rw [(CoreTerm.free_var hf y).mp isFresh]
        exact Finset.mem_insert_self ..
    · exact fun e mem =>
        Finset.mem_insert_of_mem (namesUsed _ (.tail _ mem))
    · exact fun e mem y free =>
        Finset.mem_insert_of_mem (valuesUsed _ (.tail _ mem) y free)

end Interpretation

namespace CoreTerm

theorem mem_usedNames (term : CoreTerm) (replacements : List (String × CoreTerm)) (y : String) :
    y ∈ usedNames term replacements ↔
      term.Free y ∨ ∃ e ∈ replacements, e.1 = y ∨ e.2.Free y := by
  have grows := mem_foldl_union (fun e used => insert e.1 used ∪ e.2.freeVars)
    (fun (e : String × CoreTerm) y => e.1 = y ∨ e.2.Free y)
    (by intro e used y; simp only [Finset.mem_union, Finset.mem_insert, mem_freeVars]; tauto)
    replacements term.freeVars y
  rwa [mem_freeVars] at grows

variable {term : CoreTerm} {replacements : List (String × CoreTerm)}

theorem eval_substituteAll {D : Type u} (I : Interpretation D) (env : String → D) (hc : term.AxiomsClosed)
    (closedValues : ∀ e ∈ replacements, e.2.AxiomsClosed) :
    I.eval env (term.substituteAll replacements) = I.eval (I.assign env replacements) term := by
  have used (y) := mem_usedNames term replacements y
  have avoid := stageNames_avoid replacements (usedNames term replacements) term
  have staged := I.eval_stageNames replacements (usedNames term replacements) term env hc
    (fun y free => (used y).mpr (.inl free))
    (fun e mem => (used _).mpr (.inr ⟨e, mem, .inl rfl⟩))
    (fun e mem y free => (used y).mpr (.inr ⟨e, mem, .inr free⟩))
  have closedStaged : (stageNames replacements (usedNames term replacements) term).1.AxiomsClosed :=
    stageNames_closed replacements _ hc
  rw [← staged]
  apply I.eval_foldl_substitute
  · exact I.axiomsFixed_of_closed closedStaged
  · intro e mem
    rcases (avoid e mem).2 with ⟨name, original⟩
    exact I.axiomsFixed_of_closed (closedValues (name, e.2) original)
  · intro e mem other hin free
    rcases (avoid other hin).2 with ⟨name, original⟩
    exact (avoid e mem).1 ((used _).mpr (.inr ⟨_, original, .inr free⟩))

/-- The simultaneous replacement a list stands for, its first entry for a name deciding. -/
def replacing (replacements : List (String × CoreTerm)) (name : String) : Nameless :=
  match replacements.lookup name with
  | some value => value.nameless []
  | none => .fvar name

theorem nameless_substituteAll (hc : term.AxiomsClosed)
    (closedValues : ∀ e ∈ replacements, e.2.AxiomsClosed) : (term.substituteAll replacements).nameless [] =
      (term.nameless []).substitute (replacing replacements) 0 := by
  rw [nameless_eq_eval, nameless_eq_eval term, eval_substituteAll levels _ hc closedValues]
  apply eval_substitute_names
  intro y d
  have free : (scope [] y d).substitute (replacing replacements) d =
      (replacing replacements y).lift 0 d := rfl
  rw [free]
  unfold Interpretation.assign replacing
  cases replacements.lookup y with
  | none => rfl
  | some v =>
    dsimp only
    rw [← eval_scope_lift v [] d]
    simp

/-- Named substitution eliminates its variable and captures nothing, and a list of replacements
    acts at once. -/
theorem substitute_exact (term value : CoreTerm) (name : String)
    (replacements : List (String × CoreTerm)) (closed : term.AxiomsClosed)
    (closedValues : ∀ entry ∈ replacements, entry.2.AxiomsClosed) :
    (term.substitute name value).freeVars =
        term.freeVars \ {name} ∪ (if name ∈ term.freeVars then value.freeVars else ∅) ∧
      (term.substitute name value).nameless [] =
        (term.nameless []).substitute (Function.update Nameless.fvar name (value.nameless [])) 0 ∧
      (term.substituteAll replacements).nameless [] =
        (term.nameless []).substitute (replacing replacements) 0 :=
  ⟨freeVars_substitute closed name value, nameless_substitute closed name value,
    nameless_substituteAll closed closedValues⟩

theorem substitute_exact_capture :
    (lam "x" (var "A") (app (var "f") (var "x"))).AxiomsClosed ∧
      ((lam "x" (var "A") (app (var "f") (var "x"))).substitute "f" (var "x")).freeVars =
        {"A", "x"} := by
  have closed : (lam "x" (var "A") (app (var "f") (var "x"))).AxiomsClosed := by decide
  have exact := (substitute_exact (lam "x" (var "A") (app (var "f") (var "x"))) (var "x") "f" []
    closed (by simp)).1
  refine ⟨closed, exact.trans ?_⟩
  decide

/-- An axiom node with an open type keeps the variable that was to be eliminated. -/
theorem substitute_keeps_axiom_type :
    ¬ ∀ (term value : CoreTerm) (name : String), (term.substitute name value).freeVars =
      term.freeVars \ {name} ∪ (if name ∈ term.freeVars then value.freeVars else ∅) := by
  intro eliminates
  have here := eliminates (axiomNode "choice" (var "x") ⟨"zfc", "AC"⟩) (var "y") "x"
  rw [substitute_axiomNode] at here
  exact absurd here (by decide)

end CoreTerm

end Kernel
