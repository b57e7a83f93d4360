import Verum.Proof.Substitution

namespace Proof

section Occurrence

variable {map : Nat → Nat → Term} {wanted : Nat → Nat → Bool}

mutual

theorem Term.anyVariable_absent (absent : ∀ idx d, (map idx d).anyVariable wanted d = false) (d : Nat) :
    (term : Term) → (term.mapVariables map d).anyVariable wanted d = false
  | .data _ _ idxs ctors => by
    simp only [Term.mapVariables, Term.anyVariable, anyTerm_absent absent d 1 idxs,
      anyConstructor_absent absent d ctors, Bool.or_self]
  | .construct data _ args => by
    simp only [Term.mapVariables, Term.anyVariable, data.anyVariable_absent absent d, anyTerm_absent absent d 0 args,
      Bool.or_self]
  | .induct scrut motive cases => by
    simp only [Term.mapVariables, Term.anyVariable, scrut.anyVariable_absent absent d,
      motive.anyVariable_absent absent d, anyTerm_absent absent d 0 cases, Bool.or_self]
  | .var idx => absent idx d
  | .universe _ => rfl
  | .letIn a body | .pi a body | .lam a body | .sigma a body => by
    simp only [Term.mapVariables, Term.anyVariable, a.anyVariable_absent absent d,
      body.anyVariable_absent absent (d + 1), Bool.or_self]
  | .app a b | .pair a b => by
    simp only [Term.mapVariables, Term.anyVariable, a.anyVariable_absent absent d, b.anyVariable_absent absent d,
      Bool.or_self]
  | .fst p | .snd p | .refl p => by simp only [Term.mapVariables, Term.anyVariable, p.anyVariable_absent absent d]
  | .id a b c | .j a b c | .idElim a b c => by
    simp only [Term.mapVariables, Term.anyVariable, a.anyVariable_absent absent d, b.anyVariable_absent absent d,
      c.anyVariable_absent absent d, Bool.or_self]
  | .funExt functionType lhs rhs pointwise => by
    simp only [Term.mapVariables, Term.anyVariable, functionType.anyVariable_absent absent d,
      lhs.anyVariable_absent absent d, rhs.anyVariable_absent absent d,
      pointwise.anyVariable_absent absent d, Bool.or_self]

theorem anyTerm_absent (absent : ∀ idx d, (map idx d).anyVariable wanted d = false) (d step : Nat) :
    (terms : List Term) → anyTerm wanted d step (mapTerms map d step terms) = false
  | [] => rfl
  | term :: rest => by
    simp only [mapTerms, anyTerm, term.anyVariable_absent absent d, anyTerm_absent absent (d + step) step rest,
      Bool.or_self]

theorem DataField.anyVariable_absent (absent : ∀ idx d, (map idx d).anyVariable wanted d = false) (d idx : Nat) :
    (field : DataField) → (field.mapVariables map d idx).anyVariable wanted d idx = false
  | .value ty => ty.anyVariable_absent absent d
  | .dependent ty => ty.anyVariable_absent absent (d + idx)
  | .recursive => rfl
  | .recursiveAt idxs => anyTerm_absent absent (d + idx) 0 idxs

theorem anyField_absent (absent : ∀ idx d, (map idx d).anyVariable wanted d = false) (d idx : Nat) :
    (fs : List DataField) → anyField wanted d idx (mapFields map d idx fs) = false
  | [] => rfl
  | field :: rest => by
    simp only [mapFields, anyField, field.anyVariable_absent absent d idx, anyField_absent absent d (idx + 1) rest,
      Bool.or_self]

theorem DataConstructor.anyVariable_absent (absent : ∀ idx d, (map idx d).anyVariable wanted d = false) (d : Nat) :
    (constructor : DataConstructor) → (constructor.mapVariables map d).anyVariable wanted d = false
  | .mk fs idxs => by
    simp only [DataConstructor.mapVariables, DataConstructor.anyVariable, length_mapFields,
      anyField_absent absent d 0 fs, anyTerm_absent absent (d + fs.length) 0 idxs, Bool.or_self]

theorem anyConstructor_absent (absent : ∀ idx d, (map idx d).anyVariable wanted d = false) (d : Nat) :
    (ctors : List DataConstructor) → anyConstructor wanted d (mapConstructors map d ctors) = false
  | [] => rfl
  | constructor :: rest => by
    simp only [mapConstructors, anyConstructor, constructor.anyVariable_absent absent d,
      anyConstructor_absent absent d rest, Bool.or_self]

end

end Occurrence

/-- The variable `d + i` is free in no term but those that a shift makes room for it in. -/
theorem containsFree_iff_shifted (term : Term) (d i : Nat) :
    containsFree term d (some i) = false ↔ ∃ source, term = shiftUp source 1 (d + i) := by
  constructor
  · intro absent
    refine ⟨shiftDown term 1 (d + i), ?_⟩
    rw [shiftUp, shiftDown, mapVariables_mapVariables fun _ _ => rfl, Nat.add_comm d i,
      mapVariables_offset (fun _ _ => rfl)]
    refine (term.mapVariables_keep ?_ d absent).symm
    intro idx depth other
    have differ : idx ≠ i + depth := by
      rintro rfl
      simp at other
    dsimp only
    split_ifs with above
    · have within : i + depth ≤ idx - 1 := by omega
      have back : idx - 1 + 1 = idx := by omega
      simp [Term.mapVariables, within, back]
    · have below : ¬i + depth ≤ idx := by omega
      simp [Term.mapVariables, below]
  · rintro ⟨source, rfl⟩
    rw [shiftUp, Nat.add_comm d i, mapVariables_offset (fun _ _ => rfl)]
    refine Term.anyVariable_absent ?_ d source
    intro idx depth
    split_ifs with above
    · simp only [Term.anyVariable, Option.all_some, Bool.and_eq_false_imp, decide_eq_true_eq, decide_eq_false_iff_not]
      omega
    · simp only [Term.anyVariable, Option.all_some, Bool.and_eq_false_imp, decide_eq_true_eq, decide_eq_false_iff_not]
      omega

theorem shiftDown_shiftUp (term : Term) (n cutoff : Nat) : shiftDown (shiftUp term n cutoff) n cutoff = term := by
  rw [shiftUp, shiftDown, mapVariables_mapVariables fun _ _ => rfl]
  refine mapVariables_var ?_ cutoff term
  intro idx d
  split_ifs with above
  · simp [Term.mapVariables, above]
  · have below : ¬d + n ≤ idx := by omega
    simp [Term.mapVariables, below]

def substitution (target : Nat) (replacement : Term) (index : Nat) : Term :=
  if index < target then .var index
  else if index = target then shiftUp replacement target 0
  else .var (index - 1)

theorem subst_eq_substitution (term repl : Term) (target : Nat) :
    subst term target repl = term.substitute (substitution target repl) := by
  apply mapVariables_offset _ 0 term
  intro idx d
  rcases Nat.lt_or_ge idx d with inner | outer
  · have differ : idx ≠ target + d := by omega
    have below : ¬target + d < idx := by omega
    simp [placed, inner, differ, below]
  · obtain ⟨idx, rfl⟩ := Nat.exists_eq_add_of_le outer
    rw [placed, if_neg (Nat.not_lt_of_le outer), Nat.add_sub_cancel_left]
    unfold substitution
    rcases Nat.lt_trichotomy idx target with below | rfl | above
    · rw [if_neg (by omega), if_neg (by omega), if_pos below]
      simp [shiftUp, Term.mapVariables, Nat.add_comm]
    · rw [if_pos (Nat.add_comm d idx), if_neg (Nat.lt_irrefl idx), if_pos rfl, shiftUp_add]
    · have back : d + idx - 1 = idx - 1 + d := by omega
      rw [if_neg (by omega), if_pos (by omega), if_neg above.not_gt, if_neg above.ne', back]
      simp [shiftUp, Term.mapVariables]

theorem substitution_of_lt {idx target : Nat} (below : idx < target) (repl : Term) :
    substitution target repl idx = .var idx := if_pos below

@[simp] theorem substitution_self (target : Nat) (repl : Term) :
    substitution target repl target = shiftUp repl target 0 := by
  simp [substitution]

theorem substitution_of_gt {idx target : Nat} (above : target < idx) (repl : Term) :
    substitution target repl idx = .var (idx - 1) := by
  simp [substitution, above.not_gt, above.ne']

theorem subst_var (idx target : Nat) (repl : Term) : subst (.var idx) target repl = substitution target repl idx := by
  rw [subst_eq_substitution, substitute_var]

/-- Simultaneous substitutions agree where they do on every variable. -/
theorem substitute_congr {fst snd : Nat → Term} (term : Term) (same : ∀ idx, fst idx = snd idx) :
    term.substitute fst = term.substitute snd := by
  rw [funext same]

theorem shiftUp_var (idx n cutoff : Nat) :
    shiftUp (.var idx) n cutoff = if cutoff ≤ idx then .var (idx + n) else .var idx := rfl

theorem shiftUp_shiftUp_inner (term : Term) (n : Nat) {k c : Nat} (inner : c ≤ k) :
    shiftUp (shiftUp term k 0) n c = shiftUp term (k + n) 0 := by
  simp only [shiftUp_eq_substitute, substitute_substitute, substitute_var, Nat.not_lt_zero, if_false]
  refine substitute_congr term fun idx => ?_
  rw [if_neg (by omega), Nat.add_assoc]

theorem shiftUp_shiftUp_outer (term : Term) (n k c : Nat) :
    shiftUp (shiftUp term k 0) n (k + c) = shiftUp (shiftUp term n c) k 0 := by
  simp only [shiftUp_eq_substitute, substitute_substitute]
  refine substitute_congr term fun idx => ?_
  rw [if_neg (Nat.not_lt_zero idx), substitute_var]
  split_ifs with below under
  · rw [substitute_var, if_neg (Nat.not_lt_zero _)]
  · omega
  · omega
  · rw [substitute_var, if_neg (Nat.not_lt_zero _), Nat.add_right_comm]

theorem subst_shiftUp_cancel (term repl : Term) (k : Nat) : subst (shiftUp term 1 k) k repl = term := by
  rw [subst_eq_substitution, shiftUp_eq_substitute, substitute_substitute]
  refine (substitute_congr term fun idx => ?_).trans (substitute_identity term)
  split_ifs with below
  · rw [substitute_var, substitution_of_lt below]
  · rw [substitute_var, substitution_of_gt (by omega), Nat.add_sub_cancel]

/-- A variable that the shift skipped is not there to be replaced. -/
theorem subst_shiftUp_skip (term repl : Term) {k j : Nat} (inner : j ≤ k) :
    subst (shiftUp term (k + 1) 0) j repl = shiftUp term k 0 := by
  rw [← shiftUp_shiftUp_inner term 1 inner, subst_shiftUp_cancel]

theorem shiftUp_subst_below (term repl : Term) (n : Nat) {k c : Nat} (inner : c ≤ k) :
    shiftUp (subst term k repl) n c = subst (shiftUp term n c) (k + n) repl := by
  simp only [subst_eq_substitution, shiftUp_eq_substitute, substitute_substitute]
  refine substitute_congr term fun idx => ?_
  simp only [← shiftUp_eq_substitute]
  rcases Nat.lt_trichotomy idx k with below | rfl | above
  · rw [substitution_of_lt below, shiftUp_var]
    split_ifs with under cut
    · omega
    · rw [substitute_var, substitution_of_lt (by omega)]
    · rw [substitute_var, substitution_of_lt (by omega)]
    · omega
  · rw [substitution_self, if_neg (by omega), substitute_var, substitution_self, shiftUp_shiftUp_inner repl n inner]
  · rw [substitution_of_gt above, shiftUp_var, if_pos (by omega), if_neg (by omega), substitute_var,
      substitution_of_gt (by omega)]
    congr 1
    omega

theorem shiftUp_subst_above (term repl : Term) (n k c : Nat) :
    shiftUp (subst term k repl) n (k + c) = subst (shiftUp term n (k + c + 1)) k (shiftUp repl n c) := by
  simp only [subst_eq_substitution]
  simp only [shiftUp_eq_substitute term, shiftUp_eq_substitute (Term.substitute _ _), substitute_substitute]
  refine substitute_congr term fun idx => ?_
  simp only [← shiftUp_eq_substitute]
  rcases Nat.lt_trichotomy idx k with below | rfl | above
  · rw [substitution_of_lt below, shiftUp_var, if_neg (by omega), if_pos (by omega), substitute_var,
      substitution_of_lt below]
  · rw [substitution_self, if_pos (by omega), substitute_var, substitution_self, shiftUp_shiftUp_outer]
  · rw [substitution_of_gt above, shiftUp_var]
    split_ifs with cut under
    · omega
    · rw [substitute_var, substitution_of_gt (by omega)]
      congr 1
      omega
    · rw [substitute_var, substitution_of_gt above]
    · omega

theorem subst_subst_outer (term fst snd : Term) (j c : Nat) :
    subst (subst term j fst) (j + c) snd = subst (subst term (j + c + 1) snd) j (subst fst c snd) := by
  simp only [subst_eq_substitution term, subst_eq_substitution (Term.substitute _ _), substitute_substitute]
  refine substitute_congr term fun idx => ?_
  simp only [← subst_eq_substitution]
  rcases Nat.lt_trichotomy idx j with below | rfl | above
  · rw [substitution_of_lt below, substitution_of_lt (by omega), subst_var, subst_var, substitution_of_lt below,
      substitution_of_lt (by omega)]
  · rw [substitution_self, substitution_of_lt (by omega), subst_var, substitution_self,
    shiftUp_subst_below fst snd idx
      (Nat.zero_le c), Nat.add_comm idx]
  · rw [substitution_of_gt above, subst_var]
    rcases Nat.lt_trichotomy idx (j + c + 1) with under | rfl | past
    · rw [substitution_of_lt under, substitution_of_lt (by omega), subst_var, substitution_of_gt above]
    · rw [substitution_self, Nat.add_sub_cancel, substitution_self, subst_shiftUp_skip snd _ (Nat.le_add_right j c)]
    · rw [substitution_of_gt past, substitution_of_gt (by omega), subst_var, substitution_of_gt (by omega)]

theorem subst_subst_inner (term fst snd : Term) (k c : Nat) :
    subst (subst term (k + c + 1) fst) k snd = subst (subst term k (shiftUp snd 1 c)) (k + c) fst := by
  simp only [subst_eq_substitution term, subst_eq_substitution (Term.substitute _ _), substitute_substitute]
  refine substitute_congr term fun idx => ?_
  simp only [← subst_eq_substitution]
  rcases Nat.lt_trichotomy idx k with below | rfl | above
  · rw [substitution_of_lt below, substitution_of_lt (by omega), subst_var, subst_var, substitution_of_lt below,
      substitution_of_lt (by omega)]
  · rw [substitution_self, substitution_of_lt (by omega), subst_var, substitution_self, ← shiftUp_shiftUp_outer,
      subst_shiftUp_cancel]
  · rw [substitution_of_gt above, subst_var]
    rcases Nat.lt_trichotomy idx (k + c + 1) with under | rfl | past
    · rw [substitution_of_lt under, substitution_of_lt (by omega), subst_var, substitution_of_gt above]
    · rw [substitution_self, Nat.add_sub_cancel, substitution_self, subst_shiftUp_skip fst _ (Nat.le_add_right k c)]
    · rw [substitution_of_gt past, substitution_of_gt (by omega), subst_var, substitution_of_gt (by omega)]

end Proof
