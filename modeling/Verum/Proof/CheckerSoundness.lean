import Verum.Proof.ConversionSoundness
import Verum.Proof.Telescope

namespace Proof

def Context.entries (ctx : Context) : List Entry :=
  ctx.bindings.map fun binding => ⟨binding.ty, binding.definition⟩

/-- A derivation in the declarative system of the context's foundation. -/
def Typed (ctx : Context) (term ty : Term) : Prop := HasType ctx.foundation ctx.entries term ty

theorem definitionsOf_entries (ctx : Context) : definitionsOf ctx.entries = ctx.conversion.definition := by
  funext idx
  simp only [definitionsOf, Context.entries, Conversion.definition, Context.conversion,
    Context.definitionUnder, List.getElem?_map]
  cases ctx.bindings[idx]? <;> simp

variable {ctx : Context} {term ty res : Term} {idx : Nat} {level : Level} {defs : Definitions}
  {values : List Term} {checker : Checker} {field : DataField}

theorem Typed.conv {ty' : Term} (typed : Typed ctx term ty) (eq : Conv ctx.conversion.definition ty ty') :
    Typed ctx term ty' := by
  rw [← definitionsOf_entries] at eq
  exact HasType.conv typed eq

theorem lookup_typed (hit : ctx.lookup idx = some ty) : Typed ctx (.var idx) ty := by
  simp only [Context.lookup, Option.map_eq_some_iff] at hit
  obtain ⟨binding, hb, viewed⟩ := hit
  have lifted : shiftUp binding.ty (idx + 1) 0 = ty := by
    rw [← viewed]
    split
    · next hc =>
      rw [binding.closed_eq, Bool.not_eq_true'] at hc
      exact shiftUp_closed hc _
    · rfl
  have e : ctx.entries[idx]? = some ⟨binding.ty, binding.definition⟩ := by
    simp [Context.entries, hb]
  rw [← lifted]
  exact HasType.var e

theorem definition_typed {v : Term} (defined : ctx.definition idx = some v) (typed : Typed ctx v ty) :
    Typed ctx (.var idx) ty := by
  have transparent : definitionsOf ctx.entries idx = some v := by
    rw [definitionsOf_entries]
    simpa [Conversion.definition, Context.conversion, Context.definition] using defined
  exact HasType.varDefinition transparent typed

theorem expectUniverse_conv {conv : Conversion}
    (expected : conv.expectUniverse term = pure (some level)) :
    Conv conv.definition term (.universe level) := by
  simp only [Conversion.expectUniverse, Run.bind_eq_pure] at expected
  obtain ⟨head, reduced, expected⟩ := expected
  split at expected
  · next hit =>
    simp only [Run.pure_eq_pure, Option.some.injEq] at expected
    subst expected
    have normal : Conv conv.definition (.universe hit) (.universe hit.normalize) :=
      .symm (.universe (normalize_equiv hit))
    exact .trans (whnf_conv reduced) normal
  · simp at expected

theorem applyTerms_conv {head head' : Term} (eq : Conv defs head head') (args : List Term) :
    Conv defs (applyTerms head args) (applyTerms head' args) := by
  induction args generalizing head head' with
  | nil => exact eq
  | cons argument rest ih => exact ih (.app eq .refl)

theorem splitFamily_conv {hb : Nat} {declaration : Term} {hl : List Term}
    (split : splitFamily ctx hb term hl = pure (some (declaration, values))) :
    Conv ctx.conversion.definition (applyTerms term hl) (applyTerms declaration values) ∧
      ∃ name level idxs ctors, declaration = .data name level idxs ctors ∧
        idxs.length = values.length := by
  induction hb generalizing term hl with
  | zero => simp [splitFamily] at split
  | succ hb ih =>
    cases term with
    | app head argument =>
      simp only [splitFamily, Run.bind_eq_pure] at split
      obtain ⟨reduct, reduced, split⟩ := split
      obtain ⟨eq, family⟩ := ih split
      have step : Conv ctx.conversion.definition (.app head argument) (.app reduct argument) :=
        .app (whnf_conv reduced) .refl
      exact ⟨.trans (applyTerms_conv step hl) eq, family⟩
    | data name level idxs ctors =>
      simp only [splitFamily, Run.pure_eq_pure] at split
      split at split
      · next saturated =>
        cases split
        exact ⟨.refl, name, level, idxs, ctors, rfl, saturated⟩
      · cases split
    | _ => simp [splitFamily] at split

theorem checkEach_eq_pure {α : Type} {check : α → Run Unit} {xs : List α} :
    checkEach check xs = pure () ↔ ∀ item ∈ xs, check item = pure () := by
  induction xs with
  | nil => simp [checkEach]
  | cons item rest ih =>
    simp only [checkEach, Run.bind_eq_pure, ih, List.forall_mem_cons]
    constructor
    · rintro ⟨_, fst, others⟩
      exact ⟨fst, others⟩
    · rintro ⟨fst, others⟩
      exact ⟨(), fst, others⟩

theorem checkEach_zipIdx {α β : Type} {check : (α × β) × Nat → Run Unit} {as : List α} {bs : List β}
    (checked : checkEach check (as.zip bs).zipIdx = pure ()) {pos : Nat} {a : α} {b : β}
    (left : as[pos]? = some a) (right : bs[pos]? = some b) : check ((a, b), pos) = pure () := by
  rw [checkEach_eq_pure] at checked
  apply checked
  have zipped : (as.zip bs)[pos]? = some (a, b) := by
    simp [List.getElem?_zip_eq_some, left, right]
  exact List.mem_zipIdx_iff_getElem?.mpr zipped

theorem checkDomain_eq_pure {expected : Term} (checked : checkDomain checker ctx term expected = pure ()) :
    checker.checkAgainst ctx term expected = pure () := by
  unfold checkDomain at checked
  match run : checker.checkAgainst ctx term expected, checked with
  | some (.ok v), _ => rfl
  | some (.error error), checked => cases error <;> cases checked
  | none, checked => cases checked

theorem fieldDomain_value (data : Term) (n : Nat) (nonrecursive : recursiveIndices field = none) :
    ∃ ty, fieldValueType field n = some ty ∧ fieldDomain data field n = ty := by
  cases field with
  | value ty | dependent ty => exact ⟨_, rfl, rfl⟩
  | recursive | recursiveAt idxs => cases nonrecursive

theorem fieldDomain_recursive {data : Term} {n : Nat} (occurrence : recursiveIndices field = some values) :
    fieldDomain data field n = applyTerms (shiftUp data n 0) values := by
  cases field with
  | value ty | dependent ty => cases occurrence
  | recursive | recursiveAt idxs =>
    cases occurrence
    rfl

theorem level_le {fieldLevel : Level} (small : levelEq (fieldLevel.maxWith level) level = true)
    (val : String → Nat) : fieldLevel.denote val ≤ level.denote val := by
  have eq := levelEq_sound small val
  rw [denote_maxWith] at eq
  omega

theorem max_equiv (n m : Level) : (Level.max n m).Equiv (n.maxWith m) :=
  fun val => (denote_maxWith val n m).symm

theorem foldr_pi_conv {a b : Term} (eq : ∀ defs, Conv defs a b) (domains : List Term) :
    Conv defs (domains.foldr Term.pi a) (domains.foldr Term.pi b) := by
  induction domains generalizing defs with
  | nil => exact eq defs
  | cons domain rest ih => exact .pi .refl ih

/-- The recursive calls of a checker only answer what has a derivation. -/
structure Checker.Sound (checker : Checker) : Prop where
  infer : ∀ {ctx term ty}, checker.infer ctx term = pure ty → Typed ctx term ty
  checkAgainst : ∀ {ctx term expected}, checker.checkAgainst ctx term expected = pure () →
    Typed ctx term expected

theorem pathResult_conv {motive lhs codomain : Term}
    (opened : pathResult checker ctx motive ty lhs codomain = pure res) :
    Conv (Definitions.under ctx.conversion.definition 1) codomain
      (.pi (.id (shiftUp ty 1 0) (shiftUp lhs 1 0) (.var 0)) res) := by
  simp only [pathResult, Run.bind_eq_pure] at opened
  obtain ⟨head, reduced, opened⟩ := opened
  have unfolded := whnf_conv reduced
  rw [definition_under] at unfolded
  split at opened
  · next domain codomain =>
    simp only [Run.bind_eq_pure] at opened
    obtain ⟨eq, compared, opened⟩ := opened
    cases eq with
    | false => simp at opened
    | true =>
      simp only [if_true, Run.pure_eq_pure] at opened
      subst opened
      have domains := (defEq_sound checker.depth).under compared
      exact .trans unfolded (.pi domains .refl)
  · simp at opened

theorem motiveFamily_conv {kind family : Term} {idxs : List Term}
    (stripped : motiveFamily checker ctx kind idx idxs = pure family)
    (eq : Conv (ctx.conversion.under (idx + idxs.length)).definition family res) :
    Conv (ctx.conversion.under idx).definition kind (idxs.foldr Term.pi res) := by
  induction idxs generalizing kind idx with
  | nil =>
    simp only [motiveFamily, Run.pure_eq_pure] at stripped
    subst stripped
    exact eq
  | cons ty rest ih =>
    simp only [motiveFamily, Run.bind_eq_pure] at stripped
    obtain ⟨head, reduced, stripped⟩ := stripped
    split at stripped
    · next domain codomain =>
      simp only [Run.bind_eq_pure] at stripped
      obtain ⟨equal, compared, stripped⟩ := stripped
      cases equal with
      | false => simp at stripped
      | true =>
        have total : idx + (ty :: rest).length = idx + 1 + rest.length := by
          simp only [List.length_cons]
          omega
        rw [total] at eq
        have tail := ih stripped eq
        rw [definition_under_succ] at tail
        exact .trans (whnf_conv reduced) (.pi (defEq_sound checker.depth _ _ _ compared) tail)
    · simp at stripped

section Step

variable {checker : Checker} (hs : checker.Sound) {ctx : Context}

include hs

variable {term expected ty data motive scrut : Term} {level : Level} {idxs : List Term}

theorem checkDomain_typed (checked : checkDomain checker ctx term expected = pure ()) : Typed ctx term expected :=
  hs.checkAgainst (checkDomain_eq_pure checked)

theorem inferUniverse_typed (inf : inferUniverse checker ctx ty = pure level) :
    Typed ctx ty (.universe level) := by
  simp only [inferUniverse, Run.bind_eq_pure] at inf
  obtain ⟨kind, kinded, hit, expected, inf⟩ := inf
  cases hit with
  | none => simp at inf
  | some level' =>
    simp only [Run.pure_eq_pure] at inf
    subst inf
    exact (hs.infer kinded).conv (expectUniverse_conv expected)

theorem checkIndices_typed {telescope args : List Term} {ambient : Nat}
    (checked : checkIndices checker ctx telescope args ambient = pure ()) :
    ArgumentsTyped ctx.foundation ctx.entries telescope args ambient := by
  simp only [checkIndices] at checked
  split at checked
  · simp at checked
  · next length =>
    rw [ne_eq, not_not] at length
    apply ArgumentsTyped.intro length
    intro pos ty argument mem given
    have typed := hs.checkAgainst (checkEach_zipIdx checked mem given)
    have hb : pos < args.length := (List.getElem?_eq_some_iff.mp given).1
    have taken : (args.take pos).length = pos := by simp; omega
    have shifted := instantiateFields_shiftUp ty (args.take pos) ambient
    rw [taken] at shifted
    rw [shifted] at typed
    exact typed

theorem checkTelescope_typed (checked : checkTelescope checker ctx idxs = pure ()) :
    TelescopeTyped ctx.foundation ctx.entries idxs := by
  induction idxs generalizing ctx with
  | nil => exact .nil
  | cons ty rest ih =>
    simp only [checkTelescope, Run.bind_eq_pure] at checked
    obtain ⟨level, inf, checked⟩ := checked
    exact .cons (inferUniverse_typed hs inf) (ih checked)

theorem checkFields_typed {res : List Term} {fs : List DataField} {idx : Nat} {inner : Context}
    (entered : checkFields checker data level idxs ctx idx fs = pure inner)
    (checked : checkIndices checker inner idxs res (idx + fs.length) = pure ()) :
    ConstructorTyped ctx.foundation data level idxs ctx.entries idx fs res := by
  induction fs generalizing ctx idx with
  | nil =>
    simp only [checkFields, Run.pure_eq_pure] at entered
    subst entered
    exact .result (checkIndices_typed hs checked)
  | cons field rest ih =>
    have total : idx + (field :: rest).length = idx + 1 + rest.length := by
      simp only [List.length_cons]
      omega
    rw [total] at checked
    simp only [checkFields] at entered
    cases occurrence : recursiveIndices field with
    | some values =>
      simp only [occurrence, Run.bind_eq_pure] at entered
      obtain ⟨_, args, entered⟩ := entered
      have tail := ih entered checked
      rw [fieldDomain_recursive occurrence] at tail
      exact .recursive occurrence (checkIndices_typed hs args) tail
    | none =>
      obtain ⟨ty, viewed, domain⟩ := fieldDomain_value data idx occurrence
      simp only [occurrence, Run.bind_eq_pure, domain] at entered
      obtain ⟨fieldLevel, inf, entered⟩ := entered
      split at entered
      · simp at entered
      · next small =>
        have hlt := level_le (by simpa using small)
        exact .value viewed (inferUniverse_typed hs inf) hlt (ih entered checked)

theorem inferElim_typed {dependent : Bool} {base : Term}
    (inf : inferElim checker ctx dependent motive base scrut = pure ty) :
    Typed ctx (if dependent then .idElim motive base scrut else .j motive base scrut) ty := by
  simp only [inferElim, Run.bind_eq_pure] at inf
  obtain ⟨path, scrutinized, head, reduced, inf⟩ := inf
  split at inf
  · next carrier lhs rhs =>
    have identity := (hs.infer scrutinized).conv (whnf_conv reduced)
    simp only [Run.bind_eq_pure] at inf
    obtain ⟨kind, kinded, family, unfolded, inf⟩ := inf
    have motiveTyped := (hs.infer kinded).conv (whnf_conv unfolded)
    split at inf
    · next domain codomain =>
      simp only [Run.bind_eq_pure] at inf
      obtain ⟨eq, compared, inf⟩ := inf
      cases eq with
      | false => simp at inf
      | true =>
        have domains := defEq_sound checker.depth _ _ _ compared
        simp only [if_true, Run.bind_eq_pure] at inf
        obtain ⟨res, opened, hit, expected, inf⟩ := inf
        cases hit with
        | none => simp at inf
        | some level =>
          have universes := expectUniverse_conv expected
          simp only [Run.bind_eq_pure, Run.pure_eq_pure] at inf
          obtain ⟨_, based, inf⟩ := inf
          have baseTyped := checkDomain_typed hs based
          subst inf
          cases dependent with
          | false =>
            simp only [motiveResult, Bool.false_eq_true, if_false, Run.pure_eq_pure]
              at opened universes baseTyped ⊢
            subst opened
            rw [definition_under] at universes
            exact HasType.j identity (motiveTyped.conv (.pi domains universes)) baseTyped
          | true =>
            simp only [motiveResult, if_true] at opened universes baseTyped ⊢
            have inner := pathResult_conv opened
            rw [definition_under_succ, definition_under] at universes
            have family := Conv.pi domains (.trans inner (.pi .refl universes))
            exact HasType.idElim identity (motiveTyped.conv family) baseTyped
    · simp at inf
  · simp at inf

theorem inferFunExt_typed {functionType lhs rhs pointwise : Term}
    (inf : inferFunExt checker ctx functionType lhs rhs pointwise = pure ty) :
    Typed ctx (.funExt functionType lhs rhs pointwise) ty := by
  simp only [inferFunExt] at inf
  split at inf
  · simp at inf
  · next admitted =>
    rw [ne_eq, not_not] at admitted
    simp only [Run.bind_eq_pure] at inf
    obtain ⟨level, wf, head, reduced, inf⟩ := inf
    split at inf
    · next domain codomain =>
      simp only [Run.bind_eq_pure, Run.pure_eq_pure] at inf
      obtain ⟨_, left, _, right, _, premise, res⟩ := inf
      subst res
      have function := whnf_conv reduced
      rw [← definitionsOf_entries] at function
      exact HasType.funExt admitted (inferUniverse_typed hs wf) function (hs.checkAgainst left)
        (hs.checkAgainst right) (hs.checkAgainst premise)
    · simp at inf

theorem inferConstruct_typed {constructor : Nat} {args : List Term}
    (inf : inferConstruct checker ctx data constructor args = pure ty) :
    Typed ctx (.construct data constructor args) ty := by
  simp only [inferConstruct, Run.bind_eq_pure] at inf
  obtain ⟨kind, wf, head, reduced, inf⟩ := inf
  split at inf
  · next name level idxs ctors =>
    have owner := whnf_conv reduced
    rw [← definitionsOf_entries] at owner
    split at inf
    · next signature hit =>
      split at inf
      · simp at inf
      · next arity =>
        rw [ne_eq, not_not] at arity
        simp only [Run.bind_eq_pure, Run.pure_eq_pure] at inf
        obtain ⟨_, checked, res⟩ := inf
        simp only [instantiateFields_eq] at checked res
        subst res
        apply HasType.construct (hs.infer wf) owner hit arity
        intro pos field argument mem given
        exact hs.checkAgainst (checkEach_zipIdx checked mem given)
    · simp at inf
  · simp at inf

theorem checkMotive_typed {declaration : Term}
    (checked : checkMotive checker ctx declaration motive idxs = pure ()) :
    ∃ level, Typed ctx motive (idxs.foldr Term.pi
      (.pi (applyTerms (shiftUp declaration idxs.length 0)
        ((List.range idxs.length).reverse.map Term.var)) (.universe level))) := by
  simp only [checkMotive, Run.bind_eq_pure] at checked
  obtain ⟨kind, kinded, family, stripped, head, reduced, checked⟩ := checked
  split at checked
  · next domain res =>
    simp only [Run.bind_eq_pure] at checked
    obtain ⟨eq, compared, checked⟩ := checked
    cases eq with
    | false => simp at checked
    | true =>
      simp only [if_true, Run.bind_eq_pure] at checked
      obtain ⟨hit, expected, checked⟩ := checked
      cases hit with
      | none => simp at checked
      | some level =>
        have universes := expectUniverse_conv expected
        rw [definition_under_succ] at universes
        have inner := Conv.trans (whnf_conv reduced)
          (.pi (defEq_sound checker.depth _ _ _ compared) universes)
        rw [← Nat.zero_add idxs.length] at inner
        have whole := motiveFamily_conv stripped inner
        rw [Nat.zero_add] at whole
        exact ⟨level, (hs.infer kinded).conv whole⟩
  · simp at checked

theorem inferInduct_typed {cases : List Term}
    (inf : inferInduct checker ctx scrut motive cases = pure ty) :
    Typed ctx (.induct scrut motive cases) ty := by
  simp only [inferInduct, Run.bind_eq_pure] at inf
  obtain ⟨actual, scrutinized, head, reduced, hit, splitted, inf⟩ := inf
  split at inf
  · next name level idxs ctors values =>
    simp only [Run.bind_eq_pure] at inf
    obtain ⟨_, motived, inf⟩ := inf
    split at inf
    · simp at inf
    · next n =>
      rw [ne_eq, not_not] at n
      simp only [Run.bind_eq_pure, Run.pure_eq_pure] at inf
      obtain ⟨_, checked, res⟩ := inf
      subst res
      obtain ⟨family, _, _, _, _, data, saturated⟩ := splitFamily_conv splitted
      cases data
      obtain ⟨level, motiveTyped⟩ := checkMotive_typed hs motived
      have scrutineeTyped := (hs.infer scrutinized).conv (.trans (whnf_conv reduced) family)
      apply HasType.induct scrutineeTyped saturated motiveTyped n
      intro idx constructor case owner branch
      have typed := hs.checkAgainst (checkEach_zipIdx checked owner branch)
      rw [inductionCaseType_eq] at typed
      exact typed
  · simp at inf

theorem inferStep_typed (inf : inferStep checker ctx term = pure ty) : Typed ctx term ty := by
  cases term with
  | data name level idxs ctors =>
    simp only [inferStep, Run.bind_eq_pure, Run.pure_eq_pure] at inf
    obtain ⟨_, telescope, _, checked, res⟩ := inf
    subst res
    rw [checkEach_eq_pure] at checked
    have wf : Typed ctx (.data name level idxs ctors)
        (idxs.foldr Term.pi (.universe level)) := by
      apply HasType.data (checkTelescope_typed hs telescope)
      intro constructor mem
      have constructed := checked constructor mem
      simp only [checkConstructor, Run.bind_eq_pure] at constructed
      obtain ⟨inner, entered, arguments⟩ := constructed
      rw [← Nat.zero_add constructor.fields.length] at arguments
      exact checkFields_typed hs entered arguments
    have normal : ∀ defs, Conv defs (.universe level) (.universe level.normalize) :=
      fun defs => .symm (.universe (normalize_equiv level))
    exact wf.conv (foldr_pi_conv normal idxs)
  | construct data constructor args => exact inferConstruct_typed hs inf
  | induct scrut motive cases => exact inferInduct_typed hs inf
  | letIn v body =>
    simp only [inferStep, Run.bind_eq_pure, Run.pure_eq_pure] at inf
    obtain ⟨valueTy, valued, bodyTy, bodied, res⟩ := inf
    subst res
    exact HasType.letIn (hs.infer valued) (hs.infer bodied)
  | var idx =>
    simp only [inferStep] at inf
    split at inf
    · next hit =>
      simp only [Run.pure_eq_pure] at inf
      subst inf
      exact lookup_typed hit
    · simp at inf
  | «universe» level =>
    simp only [inferStep, Run.pure_eq_pure] at inf
    subst inf
    have next : (Level.succ level).Equiv level.normalize.successor := by
      intro val
      rw [denote_successor, denote_normalize]
      rfl
    exact HasType.conv .univ (.universe next)
  | pi a b | sigma a b =>
    simp only [inferStep, Run.bind_eq_pure, Run.pure_eq_pure] at inf
    obtain ⟨n, domain, m, codomain, res⟩ := inf
    subst res
    refine .conv ?_ (.universe (max_equiv n m))
    first
    | exact .pi (inferUniverse_typed hs domain) (inferUniverse_typed hs codomain)
    | exact .sigma (inferUniverse_typed hs domain) (inferUniverse_typed hs codomain)
  | lam domain body =>
    simp only [inferStep, Run.bind_eq_pure, Run.pure_eq_pure] at inf
    obtain ⟨level, wf, bodyTy, bodied, res⟩ := inf
    subst res
    exact HasType.lam (inferUniverse_typed hs wf) (hs.infer bodied)
  | app f x =>
    simp only [inferStep, Run.bind_eq_pure] at inf
    obtain ⟨functionTy, function, head, reduced, inf⟩ := inf
    have functional := (hs.infer function).conv (whnf_conv reduced)
    split at inf
    · simp only [Run.bind_eq_pure, Run.pure_eq_pure] at inf
      obtain ⟨_, argument, res⟩ := inf
      subst res
      exact HasType.app functional (checkDomain_typed hs argument)
    · simp at inf
  | pair a b =>
    simp only [inferStep, Run.bind_eq_pure, Run.pure_eq_pure] at inf
    obtain ⟨aTy, first, bTy, second, res⟩ := inf
    subst res
    have secondTyped := hs.infer second
    rw [← subst_shiftUp bTy a] at secondTyped
    exact HasType.pair (hs.infer first) secondTyped
  | fst p | snd p =>
    simp only [inferStep, Run.bind_eq_pure] at inf
    obtain ⟨pairTy, paired, head, reduced, inf⟩ := inf
    have pairTyped := (hs.infer paired).conv (whnf_conv reduced)
    split at inf
    · simp only [Run.pure_eq_pure] at inf
      subst inf
      first
      | exact .fst pairTyped
      | exact .snd pairTyped
    · simp at inf
  | id carrier lhs rhs =>
    simp only [inferStep, Run.bind_eq_pure, Run.pure_eq_pure] at inf
    obtain ⟨level, wf, _, left, _, right, res⟩ := inf
    subst res
    exact HasType.id (inferUniverse_typed hs wf) (checkDomain_typed hs left)
      (checkDomain_typed hs right)
  | refl v =>
    simp only [inferStep, Run.bind_eq_pure, Run.pure_eq_pure] at inf
    obtain ⟨valueTy, valued, res⟩ := inf
    subst res
    exact HasType.refl (hs.infer valued)
  | j motive base scrut | idElim motive base scrut => exact inferElim_typed hs inf
  | funExt functionType lhs rhs pointwise => exact inferFunExt_typed hs inf

theorem infer_conv_typed {d : Nat}
    (checked : (do
      let inf ← checker.infer ctx term
      if ← Conversion.defEq d ctx.conversion inf expected then pure ()
      else throw (.typeMismatch expected inf) : Run Unit) = pure ()) : Typed ctx term expected := by
  simp only [Run.bind_eq_pure] at checked
  obtain ⟨inf, actual, eq, compared, checked⟩ := checked
  cases eq with
  | false => simp at checked
  | true => exact (hs.infer actual).conv (defEq_sound d _ _ _ compared)

theorem checkIntroduction_typed (checked : checkIntroduction checker ctx term expected = pure ()) :
    Typed ctx term expected := by
  simp only [checkIntroduction, Run.bind_eq_pure] at checked
  obtain ⟨head, reduced, checked⟩ := checked
  have unfolded := Conv.symm (whnf_conv reduced)
  split at checked
  · next domain body expectedDomain codomain =>
    simp only [Run.bind_eq_pure] at checked
    obtain ⟨level, wf, eq, compared, checked⟩ := checked
    cases eq with
    | false => simp at checked
    | true =>
      have function : Typed ctx (.lam domain body) (.pi domain codomain) :=
        HasType.lam (inferUniverse_typed hs wf) (hs.checkAgainst checked)
      have domains := defEq_sound checker.depth _ _ _ compared
      exact function.conv (.trans (.pi domains .refl) unfolded)
  · simp only [Run.bind_eq_pure] at checked
    obtain ⟨_, fst, snd⟩ := checked
    have paired := HasType.pair (hs.checkAgainst fst) (hs.checkAgainst snd)
    exact Typed.conv paired unfolded
  · next v ty lhs rhs =>
    simp only [Run.bind_eq_pure] at checked
    obtain ⟨_, valued, eq, compared, checked⟩ := checked
    cases eq with
    | false => simp at checked
    | true =>
      rw [both_eq_true] at compared
      have reflexive : Typed ctx (.refl v) (.id ty v v) :=
        HasType.refl (checkDomain_typed hs valued)
      have left := defEq_sound checker.depth _ _ _ compared.1
      have right := defEq_sound checker.depth _ _ _ compared.2
      exact reflexive.conv (.trans (.id .refl left right) unfolded)
  · exact infer_conv_typed hs checked

theorem checkAgainstStep_typed (checked : checkAgainstStep checker ctx term expected = pure ()) :
    Typed ctx term expected := by
  simp only [checkAgainstStep] at checked
  split at checked
  · next v body =>
    simp only [Run.bind_eq_pure] at checked
    obtain ⟨ty, valued, bodied⟩ := checked
    have whole := HasType.letIn (hs.infer valued) (hs.checkAgainst bodied)
    rw [subst_shiftUp] at whole
    exact whole
  · next idx =>
    split at checked
    · simp at checked
    · next actual hit =>
      simp only [Run.bind_eq_pure] at checked
      obtain ⟨eq, compared, checked⟩ := checked
      cases eq with
      | true => exact (lookup_typed hit).conv (defEq_sound checker.depth _ _ _ compared)
      | false =>
        simp only [Bool.false_eq_true, if_false] at checked
        split at checked
        · next src defined => exact definition_typed defined (hs.checkAgainst checked)
        · exact checkIntroduction_typed hs checked
  · exact checkIntroduction_typed hs checked

end Step

theorem checkerAt_sound (d : Nat) : (checkerAt d).Sound := by
  induction d with
  | zero => exact ⟨fun inf => (Run.unfinished_ne_pure inf).elim,
      fun checked => (Run.unfinished_ne_pure checked).elim⟩
  | succ d ih => exact ⟨inferStep_typed ih, checkAgainstStep_typed ih⟩

end Proof
