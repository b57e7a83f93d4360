import Verum.Proof.Declarative
import Verum.Proof.Whnf

namespace Proof

theorem definition_under (conversion : Conversion) (binders : Nat) :
    (conversion.under binders).definition = Definitions.under conversion.definition binders := by
  funext idx
  simp only [Conversion.definition, Conversion.under, Definitions.under, Context.definitionUnder]
  by_cases hw : binders ≤ idx
  · by_cases inner : conversion.binders ≤ idx - binders
    · have both : conversion.binders + binders ≤ idx := by omega
      have eq : idx - (conversion.binders + binders) = idx - binders - conversion.binders := by omega
      simp only [hw, inner, both, eq, if_true]
      cases conversion.context.bindings[idx - binders - conversion.binders]? with
      | none => rfl
      | some binding =>
        cases hit : binding.definition with
        | none => simp [hit]
        | some v => simp [hit, shiftUp_add, Nat.add_assoc]
    · have outside : ¬conversion.binders + binders ≤ idx := by omega
      simp [hw, inner, outside]
  · have outside : ¬conversion.binders + binders ≤ idx := by omega
    simp [hw, outside]

theorem definition_under_succ (conversion : Conversion) (binders : Nat) :
    (conversion.under (binders + 1)).definition =
      Definitions.under (conversion.under binders).definition 1 := by
  rw [← definition_under]
  rfl

variable {defs : Definitions} {conversion : Conversion} {term res : Term}

theorem selectCase_conv {declaration motive reduct : Term} {constructor : Nat} {args cases : List Term}
    (selected : selectCase declaration constructor args motive cases = some reduct) :
    Conv defs (.induct (.construct declaration constructor args) motive cases) reduct := by
  cases declaration with
  | data name lvl idxs ctors =>
    simp only [selectCase, Option.bind_eq_bind, Option.bind_eq_some_iff] at selected
    obtain ⟨signature, owner, case, branch, saturated⟩ := selected
    split at saturated
    · next arity =>
      cases saturated
      exact .inductConstruct owner branch arity
    · cases saturated
  | _ => cases selected

theorem ConvTerms.refl (terms : List Term) : ConvTerms defs terms terms := by
  induction terms with
  | nil => exact .nil
  | cons term rest ih => exact .cons .refl ih

theorem Conv.scrutinee {scrut scrutinee' : Term} (motive : Term) (cases : List Term)
    (eq : Conv defs scrut scrutinee') :
    Conv defs (.induct scrut motive cases) (.induct scrutinee' motive cases) :=
  .induct eq .refl (.refl cases)

theorem Reduces.conv {used : Nat} (reduces : Reduces conversion term res used) :
    Conv conversion.definition term res := by
  induction reduces with
  | canonical _ | neutral _ => exact .refl
  | delta defined _ ih => exact .trans (.delta defined) ih
  | zeta _ ih => exact .trans .zeta ih
  | beta _ _ head rest => exact .trans (.app head .refl) (.trans .beta rest)
  | app _ _ head => exact .app head .refl
  | fstPair _ _ head rest => exact .trans (.fst head) (.trans .fstPair rest)
  | fst _ _ head => exact .fst head
  | sndPair _ _ head rest => exact .trans (.snd head) (.trans .sndPair rest)
  | snd _ _ head => exact .snd head
  | jRefl _ _ head rest => exact .trans (.j .refl .refl head) (.trans .jRefl rest)
  | j _ _ head => exact .j .refl .refl head
  | idElimRefl _ _ head rest => exact .trans (.idElim .refl .refl head) (.trans .idElimRefl rest)
  | idElim _ _ head => exact .idElim .refl .refl head
  | @iota _ motive cases data idx args declaration _ _ _ _ _ _ _ selected _ head owner rest =>
    have unfolded : Conv conversion.definition (.construct data idx args)
        (.construct declaration idx args) := .construct owner (.refl args)
    exact .trans (head.scrutinee motive cases)
      (.trans (unfolded.scrutinee motive cases) (.trans (selectCase_conv selected) rest))
  | @induct _ motive cases _ _ _ _ _ _ _ _ _ head _ | @inductStuck _ motive cases _ _ _ _ head =>
    exact head.scrutinee motive cases

theorem whnf_conv (reduced : conversion.whnf term = pure res) : Conv conversion.definition term res := by
  obtain ⟨used, _, reduces⟩ := whnf_eq_pure.mp reduced
  exact reduces.conv

section DefEq

/-- A comparison that only identifies declaratively convertible terms. -/
def ConvSound (compare : Conversion → Term → Term → Run Bool) : Prop :=
  ∀ conversion a b, compare conversion a b = pure true → Conv conversion.definition a b

variable {compare : Conversion → Term → Term → Run Bool} (hs : ConvSound compare)

include hs

variable {conversion : Conversion} {other : Term}

theorem ConvSound.under {binders : Nat} {a b : Term} (eq : compare (conversion.under binders) a b = pure true) :
    Conv (Definitions.under conversion.definition binders) a b := by
  rw [← definition_under]
  exact hs _ _ _ eq

theorem termsDefEq_conv {as bs : List Term} (eq : termsDefEq compare conversion as bs = pure true) :
    ConvTerms conversion.definition as bs := by
  simp only [termsDefEq] at eq
  split at eq
  · next length =>
    rw [allChecked_eq_true] at eq
    induction as generalizing bs with
    | nil =>
      cases bs with
      | nil => exact .nil
      | cons b bs => cases length
    | cons a as ih =>
      cases bs with
      | nil => cases length
      | cons b bs =>
        simp only [List.zip_cons_cons, List.forall_mem_cons] at eq
        exact .cons (hs _ _ _ eq.1) (ih (Nat.succ.inj length) eq.2)
  · simp at eq

theorem telescopeDefEq_conv {as bs : List Term} (length : as.length = bs.length)
    (eq : telescopeDefEq compare conversion as bs = pure true) :
    ConvTelescope conversion.definition 0 as bs := by
  rw [telescopeDefEq, allChecked_eq_true] at eq
  generalize 0 = idx at eq ⊢
  induction as generalizing bs idx with
  | nil =>
    cases bs with
    | nil => exact .nil
    | cons b bs => cases length
  | cons a as ih =>
    cases bs with
    | nil => cases length
    | cons b bs =>
      simp only [List.zip_cons_cons, List.zipIdx_cons, List.forall_mem_cons] at eq
      exact .cons (hs.under eq.1) (ih (Nat.succ.inj length) (idx + 1) eq.2)

theorem fieldsDefEq_conv {as bs : List DataField} (length : as.length = bs.length)
    (eq : allChecked (fun ((a, b), idx) => fieldDefEq compare conversion idx a b) (as.zip bs).zipIdx =
      pure true) : ConvFields conversion.definition 0 as bs := by
  rw [allChecked_eq_true] at eq
  generalize 0 = idx at eq ⊢
  induction as generalizing bs idx with
  | nil =>
    cases bs with
    | nil => exact .nil
    | cons b bs => cases length
  | cons a as ih =>
    cases bs with
    | nil => cases length
    | cons b bs =>
      simp only [List.zip_cons_cons, List.zipIdx_cons, List.forall_mem_cons] at eq
      obtain ⟨head, tail⟩ := eq
      have rest := ih (Nat.succ.inj length) (idx + 1) tail
      simp only [fieldDefEq] at head
      split at head
      · next left right =>
        have terms := termsDefEq_conv hs head
        rw [definition_under] at terms
        exact .recursive left right terms rest
      · split at head
        · next left right => exact .value left right (hs.under head) rest
        · simp at head
      · simp at head

theorem constructorsDefEq_conv {cs ds : List DataConstructor} (length : cs.length = ds.length)
    (eq : allChecked (fun (a, b) => constructorDefEq compare conversion a b) (cs.zip ds) = pure true) :
    ConvConstructors conversion.definition cs ds := by
  rw [allChecked_eq_true] at eq
  induction cs generalizing ds with
  | nil =>
    cases ds with
    | nil => exact .nil
    | cons d ds => cases length
  | cons c cs ih =>
    cases ds with
    | nil => cases length
    | cons d ds =>
      simp only [List.zip_cons_cons, List.forall_mem_cons] at eq
      obtain ⟨head, tail⟩ := eq
      simp only [constructorDefEq, both_eq_true, Run.pure_eq_pure, decide_eq_true_eq] at head
      obtain ⟨arity, idxs, fs⟩ := head
      have terms := termsDefEq_conv hs idxs
      rw [definition_under] at terms
      exact .cons (fieldsDefEq_conv hs arity fs) terms (ih (Nat.succ.inj length) tail)

theorem etaMatch_conv {domain body : Term} (eq : etaMatch compare conversion body other = pure true) :
    Conv conversion.definition (.lam domain body) other := by
  simp only [etaMatch, Run.bind_eq_pure] at eq
  obtain ⟨reduct, reduced, eq⟩ := eq
  have unfolded := whnf_conv reduced
  rw [definition_under] at unfolded
  split at eq
  · next f x =>
    simp only [Run.bind_eq_pure] at eq
    obtain ⟨argument, variable', eq⟩ := eq
    have atVariable := whnf_conv variable'
    rw [definition_under] at atVariable
    split at eq
    · simp at eq
    · next hb =>
      split at eq
      · simp at eq
      · next ha =>
        rw [ne_eq, not_not] at hb
        rw [hb] at atVariable
        have lowered := shiftUp_shiftDown (Bool.eq_false_of_not_eq_true ha)
        have expanded : Conv conversion.definition (.lam domain body)
            (.lam domain (.app (shiftUp (shiftDown f 1 0) 1 0) (.var 0))) := by
          rw [lowered]
          exact .lam .refl (.trans unfolded (.app .refl atVariable))
        exact .trans expanded (.trans .etaLam (hs _ _ _ eq))
  · simp at eq

theorem etaPair_conv {first second : Term} (left : compare conversion first (.fst other) = pure true)
    (right : compare conversion second (.snd other) = pure true) :
    Conv conversion.definition (.pair first second) other :=
  .trans (.pair (hs _ _ _ left) (hs _ _ _ right)) .etaPair

theorem defEqWhnf_conv {a b : Term} (equal : defEqWhnf compare (etaMatch compare) conversion a b = pure true) :
    Conv conversion.definition a b := by
  unfold defEqWhnf at equal
  split at equal
  · next an al ai ac bn bl bi bc =>
    simp only [both_eq_true, Run.pure_eq_pure, Bool.and_eq_true, decide_eq_true_eq] at equal
    obtain ⟨⟨⟨eq, ls⟩, length⟩, idxs, n, ctors⟩ := equal
    subst eq
    exact .data (levelEq_sound ls) (telescopeDefEq_conv hs length idxs)
      (constructorsDefEq_conv hs n ctors)
  · simp only [both_eq_true, Run.pure_eq_pure, decide_eq_true_eq] at equal
    obtain ⟨eq, owner, args⟩ := equal
    subst eq
    exact .construct (hs _ _ _ owner) (termsDefEq_conv hs args)
  · simp only [both_eq_true] at equal
    exact .induct (hs _ _ _ equal.1) (hs _ _ _ equal.2.1) (termsDefEq_conv hs equal.2.2)
  · simp only [Run.pure_eq_pure, decide_eq_true_eq] at equal
    subst equal
    exact .refl
  · simp only [Run.pure_eq_pure] at equal
    exact .universe (levelEq_sound equal)
  · simp only [both_eq_true] at equal
    exact .pi (hs _ _ _ equal.1) (hs.under equal.2)
  · simp only [both_eq_true] at equal
    exact .lam (hs _ _ _ equal.1) (hs.under equal.2)
  · simp only [both_eq_true] at equal
    exact .app (hs _ _ _ equal.1) (hs _ _ _ equal.2)
  · simp only [both_eq_true] at equal
    exact .sigma (hs _ _ _ equal.1) (hs.under equal.2)
  · simp only [both_eq_true] at equal
    exact .pair (hs _ _ _ equal.1) (hs _ _ _ equal.2)
  · simp only [both_eq_true] at equal
    exact etaPair_conv hs equal.1 equal.2
  · simp only [both_eq_true] at equal
    exact .symm (etaPair_conv hs equal.1 equal.2)
  · exact .fst (hs _ _ _ equal)
  · exact .snd (hs _ _ _ equal)
  · simp only [both_eq_true] at equal
    exact .id (hs _ _ _ equal.1) (hs _ _ _ equal.2.1) (hs _ _ _ equal.2.2)
  · exact .reflTerm (hs _ _ _ equal)
  · simp only [both_eq_true] at equal
    exact .j (hs _ _ _ equal.1) (hs _ _ _ equal.2.1) (hs _ _ _ equal.2.2)
  · simp only [both_eq_true] at equal
    exact .idElim (hs _ _ _ equal.1) (hs _ _ _ equal.2.1) (hs _ _ _ equal.2.2)
  · simp only [both_eq_true] at equal
    exact .funExt (hs _ _ _ equal.1) (hs _ _ _ equal.2.1) (hs _ _ _ equal.2.2.1)
      (hs _ _ _ equal.2.2.2)
  · exact etaMatch_conv hs equal
  · exact .symm (etaMatch_conv hs equal)
  · simp at equal

end DefEq

theorem defEq_sound (d : Nat) : ConvSound (Conversion.defEq d) := by
  induction d with
  | zero =>
    intro conversion a b equal
    simp [Conversion.defEq] at equal
  | succ d ih =>
    intro conversion a b equal
    simp only [Conversion.defEq] at equal
    split at equal
    · next eq =>
      subst eq
      exact .refl
    · simp only [Run.bind_eq_pure] at equal
      obtain ⟨left, reducedLeft, right, reducedRight, equal⟩ := equal
      have heads := defEqWhnf_conv ih equal
      exact .trans (whnf_conv reducedLeft) (.trans heads (.symm (whnf_conv reducedRight)))

end Proof
