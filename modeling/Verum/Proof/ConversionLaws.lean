import Verum.Proof.Whnf
import Mathlib.Data.List.Zip

namespace Proof

/-- `defEq` with the function-eta arms answering false: the comparisons that reach no `etaMatch`. -/
def Conversion.defEqWithoutEta : Nat → Conversion → Term → Term → Run Bool
  | 0, _, _, _ => Run.unfinished
  | depth + 1, conversion, a, b =>
    if a = b then pure true
    else do
      let a ← conversion.whnf a
      let b ← conversion.whnf b
      defEqWhnf (Conversion.defEqWithoutEta depth) (fun _ _ _ => pure false) conversion a b

section Symmetry

theorem allChecked_map {α β : Type} (check : β → Run Bool) (f : α → β) (xs : List α) :
    allChecked check (xs.map f) = allChecked (fun item => check (f item)) xs := by
  induction xs with
  | nil => rfl
  | cons item rest ih => simp [allChecked, ih]

theorem levelEq_comm (a b : Level) : levelEq a b = levelEq b a := by
  simp [levelEq, eq_comm]

/-- A comparison that does not care about the order of its arguments. -/
def OrderFree (compare : Conversion → Term → Term → Run Bool) : Prop :=
  ∀ conversion a b, compare conversion a b = compare conversion b a

variable {compare : Conversion → Term → Term → Run Bool} (free : OrderFree compare)

include free

theorem termsDefEq_comm (conversion : Conversion) (as bs : List Term) :
    termsDefEq compare conversion as bs = termsDefEq compare conversion bs as := by
  simp only [termsDefEq, eq_comm (a := as.length)]
  rw [← List.zip_swap bs as, allChecked_map]
  simp only [Prod.fst_swap, Prod.snd_swap, free conversion _ _]

theorem telescopeDefEq_comm (conversion : Conversion) (as bs : List Term) :
    telescopeDefEq compare conversion as bs = telescopeDefEq compare conversion bs as := by
  simp only [telescopeDefEq]
  rw [← List.zip_swap bs as, List.zipIdx_map, allChecked_map]
  simp only [Prod.map_fst, Prod.map_snd, Prod.fst_swap, Prod.snd_swap, id_eq]
  congr 1
  funext ⟨⟨b, a⟩, idx⟩
  exact free _ _ _

theorem fieldDefEq_comm (conversion : Conversion) (idx : Nat) (a b : DataField) :
    fieldDefEq compare conversion idx a b = fieldDefEq compare conversion idx b a := by
  simp only [fieldDefEq]
  cases recursiveIndices a with
  | some as =>
    cases recursiveIndices b with
    | some bs => exact termsDefEq_comm free _ _ _
    | none => rfl
  | none =>
    cases recursiveIndices b with
    | some bs => rfl
    | none =>
      cases fieldValueType a idx with
      | none => cases fieldValueType b idx <;> rfl
      | some left =>
        cases fieldValueType b idx with
        | none => rfl
        | some right => exact free _ _ _

theorem constructorDefEq_comm (conversion : Conversion) (a b : DataConstructor) :
    constructorDefEq compare conversion a b = constructorDefEq compare conversion b a := by
  simp only [constructorDefEq]
  by_cases arity : a.fields.length = b.fields.length
  · rw [arity, termsDefEq_comm free, ← List.zip_swap b.fields a.fields, List.zipIdx_map, allChecked_map]
    simp only [Prod.map_fst, Prod.map_snd, Prod.fst_swap, Prod.snd_swap, id_eq, fieldDefEq_comm free]
  · have other : ¬b.fields.length = a.fields.length := fun eq => arity eq.symm
    simp [both, arity, other]

theorem defEqWhnf_comm (etaMatch : Conversion → Term → Term → Run Bool) (conversion : Conversion)
    (a b : Term) :
    defEqWhnf compare etaMatch conversion a b = defEqWhnf compare etaMatch conversion b a := by
  have terms := termsDefEq_comm free conversion
  have both := free conversion
  have under := free (conversion.under 1)
  cases a with
  | data an al ai ac =>
    cases b with
    | data bn bl bi bc =>
      simp only [defEqWhnf]
      rw [telescopeDefEq_comm free, ← List.zip_swap bc ac, allChecked_map, levelEq_comm]
      simp only [Prod.fst_swap, Prod.snd_swap, constructorDefEq_comm free, eq_comm]
    | _ => rfl
  | construct data idx args =>
    cases b with
    | construct data' index' args' => simp only [defEqWhnf, both data, terms args, eq_comm]
    | _ => rfl
  | induct scrut motive cases =>
    cases b with
    | induct scrutinee' motive' cases' => simp only [defEqWhnf, both scrut, both motive, terms cases]
    | _ => rfl
  | letIn v body => cases b <;> rfl
  | var idx =>
    cases b with
    | var index' => simp only [defEqWhnf, eq_comm]
    | _ => rfl
  | «universe» lvl =>
    cases b with
    | «universe» level' => simp only [defEqWhnf, levelEq_comm lvl]
    | _ => rfl
  | pi domain body | lam domain body | sigma domain body =>
    cases b with
    | pi domain' body' | lam domain' body' | sigma domain' body' => simp only [defEqWhnf, both domain, under body]
    | _ => rfl
  | app f x | pair f x =>
    cases b with
    | app f' x' | pair f' x' => simp only [defEqWhnf, both f, both x]
    | _ => rfl
  | fst p | snd p | refl p =>
    cases b with
    | fst p' | snd p' | refl p' => simp only [defEqWhnf, both p]
    | _ => rfl
  | id x y z | j x y z | idElim x y z =>
    cases b with
    | id x' y' z' | j x' y' z' | idElim x' y' z' => simp only [defEqWhnf, both x, both y, both z]
    | _ => rfl
  | funExt functionType lhs rhs pointwise =>
    cases b with
    | funExt functionType' lhs' rhs' pointwise' =>
      simp only [defEqWhnf, both functionType, both lhs, both rhs, both pointwise]
    | _ => rfl

end Symmetry

theorem throw_bind {α β : Type} (error : CheckError) (next : α → Run β) :
    ((throw error : Run α) >>= next) = throw error := rfl

theorem pure_bind' {α β : Type} (a : α) (next : α → Run β) : ((pure a : Run α) >>= next) = next a := rfl

theorem whnf_swap {compare : Conversion → Term → Term → Run Bool} (free : OrderFree compare)
    (conversion : Conversion) (a b : Term) :
    (conversion.whnf a >>= fun a => conversion.whnf b >>= fun b => compare conversion a b) =
      conversion.whnf b >>= fun b => conversion.whnf a >>= fun a => compare conversion b a := by
  rcases whnf_outcome conversion a with ⟨left, reducedLeft⟩ | failedLeft <;>
    rcases whnf_outcome conversion b with ⟨right, reducedRight⟩ | failedRight
  · simp only [reducedLeft, reducedRight, pure_bind', free conversion left]
  · simp only [reducedLeft, failedRight, pure_bind', throw_bind]
  · simp only [failedLeft, reducedRight, pure_bind', throw_bind]
  · simp only [failedLeft, failedRight, throw_bind]

theorem defEq_comm (d : Nat) : OrderFree (Conversion.defEq d) := by
  induction d with
  | zero =>
    intro conversion a b
    rfl
  | succ d ih =>
    intro conversion a b
    simp only [Conversion.defEq, eq_comm (a := a)]
    rw [whnf_swap (defEqWhnf_comm ih _)]

theorem defEqWithoutEta_comm (d : Nat) : OrderFree (Conversion.defEqWithoutEta d) := by
  induction d with
  | zero =>
    intro conversion a b
    rfl
  | succ d ih =>
    intro conversion a b
    simp only [Conversion.defEqWithoutEta, eq_comm (a := a)]
    rw [whnf_swap (defEqWhnf_comm ih _)]

/-- The answer of a comparison that holds, or that could not be finished for want of fuel. -/
def Accepts (run : Run Bool) : Prop := run = pure true ∨ run = throw .fuelExhausted

/-- `later` repeats what `run` accepts. -/
def Follows (run later : Run Bool) : Prop :=
  (run = pure true → later = pure true) ∧ (run = throw .fuelExhausted → later = throw .fuelExhausted)

theorem Follows.refl (run : Run Bool) : Follows run run := ⟨id, id⟩

theorem Follows.trans {fst snd third : Run Bool} (one : Follows fst snd)
    (two : Follows snd third) : Follows fst third :=
  ⟨fun done => two.1 (one.1 done), fun failed => two.2 (one.2 failed)⟩

theorem Follows.of_false (hl : Run Bool) : Follows (pure false) hl := ⟨nofun, nofun⟩

theorem Follows.accepts {run hl : Run Bool} (follows : Follows run hl) (accepted : Accepts run) :
    Accepts hl :=
  accepted.imp follows.1 follows.2

theorem both_eq_throw {fst snd : Run Bool} {error : CheckError} :
    both fst snd = throw error ↔
      fst = throw error ∨ fst = pure true ∧ snd = throw error := by
  constructor
  · intro failed
    match fst, failed with
    | some (.ok true), failed => exact .inr ⟨rfl, failed⟩
    | some (.error hit), failed => exact .inl failed
  · rintro (failed | ⟨hh, failed⟩)
    · rw [failed]
      rfl
    · rw [hh, failed]
      rfl

theorem Follows.both {a a' b b' : Run Bool} (fst : Follows a a') (snd : Follows b b') :
    Follows (both a b) (both a' b') := by
  constructor
  · intro hh
    rw [both_eq_true] at hh ⊢
    exact ⟨fst.1 hh.1, snd.1 hh.2⟩
  · intro failed
    rw [both_eq_throw] at failed ⊢
    exact failed.imp fst.2 fun hl => ⟨fst.1 hl.1, snd.2 hl.2⟩

theorem Follows.allChecked {α : Type} {check check' : α → Run Bool}
    (each : ∀ item, Follows (check item) (check' item)) (xs : List α) :
    Follows (allChecked check xs) (allChecked check' xs) := by
  induction xs with
  | nil => exact .refl _
  | cons item rest ih => exact .both (each item) ih

theorem Accepts.both {a b : Run Bool} (fst : Accepts a) (snd : Accepts b) : Accepts (both a b) := by
  rcases fst with hh | failed
  · rcases snd with holds' | failed
    · exact .inl (both_eq_true.mpr ⟨hh, holds'⟩)
    · exact .inr (both_eq_throw.mpr (.inr ⟨hh, failed⟩))
  · exact .inr (both_eq_throw.mpr (.inl failed))

section Follows

variable {compare compare' : Conversion → Term → Term → Run Bool}
  (each : ∀ conversion a b, Follows (compare conversion a b) (compare' conversion a b))

include each

theorem termsDefEq_follows (conversion : Conversion) (as bs : List Term) :
    Follows (termsDefEq compare conversion as bs) (termsDefEq compare' conversion as bs) := by
  simp only [termsDefEq]
  split
  · exact .allChecked (fun _ => each _ _ _) _
  · exact .refl _

theorem fieldDefEq_follows (conversion : Conversion) (idx : Nat) (a b : DataField) :
    Follows (fieldDefEq compare conversion idx a b) (fieldDefEq compare' conversion idx a b) := by
  simp only [fieldDefEq]
  split
  · exact termsDefEq_follows each _ _ _
  · split
    · exact each _ _ _
    · exact .refl _
  · exact .refl _

theorem constructorDefEq_follows (conversion : Conversion) (a b : DataConstructor) :
    Follows (constructorDefEq compare conversion a b) (constructorDefEq compare' conversion a b) :=
  .both (.refl _)
    (.both (termsDefEq_follows each _ _ _) (.allChecked (fun _ => fieldDefEq_follows each _ _ _ _) _))

theorem defEqWhnf_follows {eta eta' : Conversion → Term → Term → Run Bool}
    (etas : ∀ conversion a b, Follows (eta conversion a b) (eta' conversion a b))
    (conversion : Conversion) (a b : Term) :
    Follows (defEqWhnf compare eta conversion a b) (defEqWhnf compare' eta' conversion a b) := by
  have terms := termsDefEq_follows each conversion
  have here := each conversion
  have under := each (conversion.under 1)
  unfold defEqWhnf
  split
  · exact .both (.refl _) (.both (.allChecked (fun _ => each _ _ _) _)
      (.both (.refl _) (.allChecked (fun _ => constructorDefEq_follows each _ _ _) _)))
  · exact .both (.refl _) (.both (here _ _) (terms _ _))
  · exact .both (here _ _) (.both (here _ _) (terms _ _))
  · exact .refl _
  · exact .refl _
  · exact .both (here _ _) (under _ _)
  · exact .both (here _ _) (under _ _)
  · exact .both (here _ _) (here _ _)
  · exact .both (here _ _) (under _ _)
  · exact .both (here _ _) (here _ _)
  · exact .both (here _ _) (here _ _)
  · exact .both (here _ _) (here _ _)
  · exact here _ _
  · exact here _ _
  · exact .both (here _ _) (.both (here _ _) (here _ _))
  · exact here _ _
  · exact .both (here _ _) (.both (here _ _) (here _ _))
  · exact .both (here _ _) (.both (here _ _) (here _ _))
  · exact .both (here _ _) (.both (here _ _) (.both (here _ _) (here _ _)))
  · exact etas _ _ _
  · exact etas _ _ _
  · exact .refl _

end Follows

theorem bind_follows {α : Type} {run : Run α} {next next' : α → Run Bool}
    (each : ∀ a, Follows (next a) (next' a)) : Follows (run >>= next) (run >>= next') := by
  match run with
  | some (.ok a) => exact each a
  | some (.error error) => exact .refl _
  | none => exact .refl _

theorem defEqWithoutEta_follows (d : Nat) (conversion : Conversion) (a b : Term) :
    Follows (Conversion.defEqWithoutEta d conversion a b)
      (Conversion.defEqWithoutEta (d + 1) conversion a b) := by
  induction d generalizing conversion a b with
  | zero => exact ⟨nofun, nofun⟩
  | succ d ih =>
    rw [Conversion.defEqWithoutEta, Conversion.defEqWithoutEta]
    split
    · exact .refl _
    · exact bind_follows fun _ => bind_follows fun _ => defEqWhnf_follows ih (fun _ _ _ => .refl _) _ _ _

theorem defEqWithoutEta_le {d hl : Nat} (le : d ≤ hl) (conversion : Conversion) (a b : Term) :
    Follows (Conversion.defEqWithoutEta d conversion a b)
      (Conversion.defEqWithoutEta hl conversion a b) := by
  induction hl, le using Nat.le_induction with
  | base => exact .refl _
  | succ hl _ ih => exact ih.trans (defEqWithoutEta_follows hl conversion a b)

theorem defEq_follows (d : Nat) (conversion : Conversion) (a b : Term) :
    Follows (Conversion.defEqWithoutEta d conversion a b) (Conversion.defEq d conversion a b) := by
  induction d generalizing conversion a b with
  | zero => exact .refl _
  | succ d ih =>
    rw [Conversion.defEqWithoutEta, Conversion.defEq]
    split
    · exact .refl _
    · exact bind_follows fun _ => bind_follows fun _ =>
        defEqWhnf_follows ih (fun _ _ _ => .of_false _) _ _ _

end Proof
