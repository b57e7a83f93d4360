import Verum.Proof.Term

namespace Proof

open Bool

def shiftUp (term : Term) (amount cutoff : Nat) : Term :=
  term.mapVariables (fun index depth => if depth ≤ index then .var (index + amount) else .var index) cutoff

def subst (term : Term) (target : Nat) (replacement : Term) : Term :=
  term.mapVariables
    (fun index depth =>
      if index = depth then shiftUp replacement depth 0
      else if depth < index then .var (index - 1)
      else .var index)
    target

def shiftDown (term : Term) (amount cutoff : Nat) : Term :=
  term.mapVariables
    (fun index depth => if depth + amount ≤ index then .var (index - amount) else .var index) cutoff

/-- `none` asks whether the term is open at all; `some` selects one ambient index. -/
def containsFree (term : Term) (depth : Nat) (wanted : Option Nat) : Bool :=
  term.anyVariable (fun index depth => depth ≤ index && wanted.all (· = index - depth)) depth

def isFreeIn (term : Term) (target : Nat) : Bool := containsFree term 0 (some target)

/-- Mapping with `map`, and with `after` under `offset` binders more, is mapping with `fused`. -/
def Fuses (offset : Nat) (map after fused : Nat → Nat → Term) : Prop :=
  ∀ index depth, (map index depth).mapVariables after (offset + depth) = fused index depth

section Fusion

variable {offset : Nat} {map after fused : Nat → Nat → Term}

mutual

theorem Term.mapVariables_fuse (fuse : Fuses offset map after fused) (d : Nat) : (term : Term) →
    (term.mapVariables map d).mapVariables after (offset + d) = term.mapVariables fused d
  | .data name lvl idxs ctors => by
    simp only [Term.mapVariables, mapTerms_fuse fuse d 1 idxs,
      mapConstructors_fuse fuse d ctors]
  | .construct data constructor args => by
    simp only [Term.mapVariables, data.mapVariables_fuse fuse d,
      mapTerms_fuse fuse d 0 args]
  | .induct scrut motive cases => by
    simp only [Term.mapVariables, scrut.mapVariables_fuse fuse d,
      motive.mapVariables_fuse fuse d, mapTerms_fuse fuse d 0 cases]
  | .letIn v body | .pi v body | .lam v body | .sigma v body => by
    simp only [Term.mapVariables, Nat.add_assoc, v.mapVariables_fuse fuse d,
      body.mapVariables_fuse fuse (d + 1)]
  | .var idx => fuse idx d
  | .universe lvl => rfl
  | .app f x | .pair f x => by
    simp only [Term.mapVariables, f.mapVariables_fuse fuse d,
      x.mapVariables_fuse fuse d]
  | .fst p | .snd p | .refl p => by
    simp only [Term.mapVariables, p.mapVariables_fuse fuse d]
  | .id ty lhs rhs | .j ty lhs rhs | .idElim ty lhs rhs => by
    simp only [Term.mapVariables, ty.mapVariables_fuse fuse d,
      lhs.mapVariables_fuse fuse d, rhs.mapVariables_fuse fuse d]
  | .funExt functionType lhs rhs pointwise => by
    simp only [Term.mapVariables, functionType.mapVariables_fuse fuse d,
      lhs.mapVariables_fuse fuse d, rhs.mapVariables_fuse fuse d,
      pointwise.mapVariables_fuse fuse d]

theorem mapTerms_fuse (fuse : Fuses offset map after fused) (d step : Nat) : (terms : List Term) →
    mapTerms after (offset + d) step (mapTerms map d step terms) = mapTerms fused d step terms
  | [] => rfl
  | term :: rest => by
    simp only [mapTerms, Nat.add_assoc, term.mapVariables_fuse fuse d,
      mapTerms_fuse fuse (d + step) step rest]

theorem DataField.mapVariables_fuse (fuse : Fuses offset map after fused) (d idx : Nat) :
    (field : DataField) →
      (field.mapVariables map d idx).mapVariables after (offset + d) idx =
        field.mapVariables fused d idx
  | .value ty => by simp only [DataField.mapVariables, ty.mapVariables_fuse fuse d]
  | .dependent ty => by
    simp only [DataField.mapVariables, Nat.add_assoc, ty.mapVariables_fuse fuse (d + idx)]
  | .recursive => rfl
  | .recursiveAt idxs => by
    simp only [DataField.mapVariables, Nat.add_assoc, mapTerms_fuse fuse (d + idx) 0 idxs]

theorem mapFields_fuse (fuse : Fuses offset map after fused) (d idx : Nat) :
    (fs : List DataField) →
      mapFields after (offset + d) idx (mapFields map d idx fs) =
        mapFields fused d idx fs
  | [] => rfl
  | field :: rest => by
    simp only [mapFields, field.mapVariables_fuse fuse d idx,
      mapFields_fuse fuse d (idx + 1) rest]

theorem DataConstructor.mapVariables_fuse (fuse : Fuses offset map after fused) (d : Nat) :
    (constructor : DataConstructor) →
      (constructor.mapVariables map d).mapVariables after (offset + d) =
        constructor.mapVariables fused d
  | .mk fs idxs => by
    simp only [DataConstructor.mapVariables, Nat.add_assoc, length_mapFields,
      mapFields_fuse fuse d 0 fs, mapTerms_fuse fuse (d + fs.length) 0 idxs]

theorem mapConstructors_fuse (fuse : Fuses offset map after fused) (d : Nat) :
    (ctors : List DataConstructor) →
      mapConstructors after (offset + d) (mapConstructors map d ctors) =
        mapConstructors fused d ctors
  | [] => rfl
  | constructor :: rest => by
    simp only [mapConstructors, constructor.mapVariables_fuse fuse d,
      mapConstructors_fuse fuse d rest]

end

end Fusion

/-- `map` keeps every variable that `wanted` does not select. -/
def Keeps (map : Nat → Nat → Term) (wanted : Nat → Nat → Bool) : Prop :=
  ∀ index depth, wanted index depth = false → map index depth = .var index

section Identity

variable {map : Nat → Nat → Term} {wanted : Nat → Nat → Bool}

mutual

theorem Term.mapVariables_keep (keep : Keeps map wanted) (d : Nat) : (term : Term) →
    term.anyVariable wanted d = false → term.mapVariables map d = term
  | .data name lvl idxs ctors, ha => by
    simp only [Term.anyVariable, or_eq_false_iff] at ha
    simp only [Term.mapVariables, mapTerms_keep keep d 1 idxs ha.1,
      mapConstructors_keep keep d ctors ha.2]
  | .construct data constructor args, ha => by
    simp only [Term.anyVariable, or_eq_false_iff] at ha
    simp only [Term.mapVariables, data.mapVariables_keep keep d ha.1,
      mapTerms_keep keep d 0 args ha.2]
  | .induct scrut motive cases, ha => by
    simp only [Term.anyVariable, or_eq_false_iff] at ha
    simp only [Term.mapVariables, scrut.mapVariables_keep keep d ha.1.1,
      motive.mapVariables_keep keep d ha.1.2, mapTerms_keep keep d 0 cases ha.2]
  | .letIn v body, ha | .pi v body, ha | .lam v body, ha | .sigma v body, ha => by
    simp only [Term.anyVariable, or_eq_false_iff] at ha
    simp only [Term.mapVariables, v.mapVariables_keep keep d ha.1,
      body.mapVariables_keep keep (d + 1) ha.2]
  | .var idx, ha => keep idx d ha
  | .universe lvl, _ => rfl
  | .app f x, ha | .pair f x, ha => by
    simp only [Term.anyVariable, or_eq_false_iff] at ha
    simp only [Term.mapVariables, f.mapVariables_keep keep d ha.1,
      x.mapVariables_keep keep d ha.2]
  | .fst p, ha | .snd p, ha | .refl p, ha => by simp only [Term.mapVariables, p.mapVariables_keep keep d ha]
  | .id ty lhs rhs, ha | .j ty lhs rhs, ha | .idElim ty lhs rhs, ha => by
    simp only [Term.anyVariable, or_eq_false_iff] at ha
    simp only [Term.mapVariables, ty.mapVariables_keep keep d ha.1.1,
      lhs.mapVariables_keep keep d ha.1.2, rhs.mapVariables_keep keep d ha.2]
  | .funExt functionType lhs rhs pointwise, ha => by
    simp only [Term.anyVariable, or_eq_false_iff] at ha
    simp only [Term.mapVariables, functionType.mapVariables_keep keep d ha.1.1.1,
      lhs.mapVariables_keep keep d ha.1.1.2, rhs.mapVariables_keep keep d ha.1.2,
      pointwise.mapVariables_keep keep d ha.2]

theorem mapTerms_keep (keep : Keeps map wanted) (d step : Nat) : (terms : List Term) →
    anyTerm wanted d step terms = false → mapTerms map d step terms = terms
  | [], _ => rfl
  | term :: rest, ha => by
    simp only [anyTerm, or_eq_false_iff] at ha
    simp only [mapTerms, term.mapVariables_keep keep d ha.1,
      mapTerms_keep keep (d + step) step rest ha.2]

theorem DataField.mapVariables_keep (keep : Keeps map wanted) (d idx : Nat) : (field : DataField) →
    field.anyVariable wanted d idx = false → field.mapVariables map d idx = field
  | .value ty, ha => by simp only [DataField.mapVariables, ty.mapVariables_keep keep d ha]
  | .dependent ty, ha => by
    simp only [DataField.mapVariables, ty.mapVariables_keep keep (d + idx) ha]
  | .recursive, _ => rfl
  | .recursiveAt idxs, ha => by
    simp only [DataField.mapVariables, mapTerms_keep keep (d + idx) 0 idxs ha]

theorem mapFields_keep (keep : Keeps map wanted) (d idx : Nat) : (fs : List DataField) →
    anyField wanted d idx fs = false → mapFields map d idx fs = fs
  | [], _ => rfl
  | field :: rest, ha => by
    simp only [anyField, or_eq_false_iff] at ha
    simp only [mapFields, field.mapVariables_keep keep d idx ha.1,
      mapFields_keep keep d (idx + 1) rest ha.2]

theorem DataConstructor.mapVariables_keep (keep : Keeps map wanted) (d : Nat) :
    (constructor : DataConstructor) → constructor.anyVariable wanted d = false →
      constructor.mapVariables map d = constructor
  | .mk fs idxs, ha => by
    simp only [DataConstructor.anyVariable, or_eq_false_iff] at ha
    simp only [DataConstructor.mapVariables, mapFields_keep keep d 0 fs ha.2,
      mapTerms_keep keep (d + fs.length) 0 idxs ha.1]

theorem mapConstructors_keep (keep : Keeps map wanted) (d : Nat) : (ctors : List DataConstructor) →
    anyConstructor wanted d ctors = false → mapConstructors map d ctors = ctors
  | [], _ => rfl
  | constructor :: rest, ha => by
    simp only [anyConstructor, or_eq_false_iff] at ha
    simp only [mapConstructors, constructor.mapVariables_keep keep d ha.1,
      mapConstructors_keep keep d rest ha.2]

end

end Identity

mutual

theorem Term.anyVariable_never (d : Nat) : (term : Term) →
    term.anyVariable (fun _ _ => false) d = false
  | .data _ _ idxs ctors => by
    simp [Term.anyVariable, anyTerm_never d 1 idxs, anyConstructor_never d ctors]
  | .construct data _ args => by
    simp [Term.anyVariable, data.anyVariable_never d, anyTerm_never d 0 args]
  | .induct scrut motive cases => by
    simp [Term.anyVariable, scrut.anyVariable_never d, motive.anyVariable_never d,
      anyTerm_never d 0 cases]
  | .letIn v body | .pi v body | .lam v body | .sigma v body => by
    simp [Term.anyVariable, v.anyVariable_never d, body.anyVariable_never (d + 1)]
  | .var _ | .universe _ => rfl
  | .app a b | .pair a b => by simp [Term.anyVariable, a.anyVariable_never d, b.anyVariable_never d]
  | .fst p | .snd p | .refl p => by simp [Term.anyVariable, p.anyVariable_never d]
  | .id a b c | .j a b c | .idElim a b c => by
    simp [Term.anyVariable, a.anyVariable_never d, b.anyVariable_never d, c.anyVariable_never d]
  | .funExt functionType lhs rhs pointwise => by
    simp [Term.anyVariable, functionType.anyVariable_never d, lhs.anyVariable_never d,
      rhs.anyVariable_never d, pointwise.anyVariable_never d]

theorem anyTerm_never (d step : Nat) : (terms : List Term) →
    anyTerm (fun _ _ => false) d step terms = false
  | [] => rfl
  | term :: rest => by simp [anyTerm, term.anyVariable_never d, anyTerm_never (d + step) step rest]

theorem DataField.anyVariable_never (d idx : Nat) : (field : DataField) →
    field.anyVariable (fun _ _ => false) d idx = false
  | .value ty => ty.anyVariable_never d
  | .dependent ty => ty.anyVariable_never (d + idx)
  | .recursive => rfl
  | .recursiveAt idxs => anyTerm_never (d + idx) 0 idxs

theorem anyField_never (d idx : Nat) : (fs : List DataField) →
    anyField (fun _ _ => false) d idx fs = false
  | [] => rfl
  | field :: rest => by
    simp [anyField, field.anyVariable_never d idx, anyField_never d (idx + 1) rest]

theorem DataConstructor.anyVariable_never (d : Nat) : (constructor : DataConstructor) →
    constructor.anyVariable (fun _ _ => false) d = false
  | .mk fs idxs => by
    simp [DataConstructor.anyVariable, anyField_never d 0 fs,
      anyTerm_never (d + fs.length) 0 idxs]

theorem anyConstructor_never (d : Nat) : (ctors : List DataConstructor) →
    anyConstructor (fun _ _ => false) d ctors = false
  | [] => rfl
  | constructor :: rest => by
    simp [anyConstructor, constructor.anyVariable_never d, anyConstructor_never d rest]

end

theorem mapVariables_var {map : Nat → Nat → Term} (identity : ∀ idx d, map idx d = .var idx)
    (d : Nat) (term : Term) : term.mapVariables map d = term := by
  have keep : Keeps map (fun _ _ => false) := fun idx d _ => identity idx d
  exact term.mapVariables_keep keep d (term.anyVariable_never d)

theorem mapVariables_mapVariables {map after fused : Nat → Nat → Term}
    (fuse : ∀ idx d, (map idx d).mapVariables after d = fused idx d)
    (d : Nat) (term : Term) :
    (term.mapVariables map d).mapVariables after d = term.mapVariables fused d := by
  have plain : Fuses 0 map after fused := by
    intro idx d
    rw [Nat.zero_add, fuse]
  simpa using term.mapVariables_fuse plain d

theorem mapVariables_offset {offset : Nat} {map fused : Nat → Nat → Term}
    (eq : ∀ idx d, map idx (offset + d) = fused idx d) (d : Nat) (term : Term) :
    term.mapVariables map (offset + d) = term.mapVariables fused d := by
  have fuse : Fuses offset (fun idx _ => .var idx) map fused := eq
  rw [← term.mapVariables_fuse fuse d, mapVariables_var fun _ _ => rfl]

theorem shiftUp_zero (term : Term) (cutoff : Nat) : shiftUp term 0 cutoff = term := by
  apply mapVariables_var
  intro idx d
  simp

theorem shiftUp_shiftUp (term : Term) (fst snd cutoff : Nat) :
    shiftUp (shiftUp term fst cutoff) snd (fst + cutoff) = shiftUp term (fst + snd) cutoff := by
  apply term.mapVariables_fuse
  intro idx d
  dsimp only
  split
  · simp [Term.mapVariables, Nat.add_comm fst, Nat.add_assoc, *]
  · next hlt =>
    have outside : ¬fst + d ≤ idx := by omega
    simp [Term.mapVariables, outside]

theorem shiftUp_closed {term : Term} (hc : containsFree term 0 none = false) (n : Nat) :
    shiftUp term n 0 = term := by
  apply term.mapVariables_keep _ 0 hc
  intro idx d ha
  have hlt : idx < d := by simpa using ha
  simp [Nat.not_le_of_lt hlt]

theorem shiftUp_shiftDown {term : Term} (ha : isFreeIn term 0 = false) :
    shiftUp (shiftDown term 1 0) 1 0 = term := by
  rw [shiftUp, shiftDown, mapVariables_mapVariables fun _ _ => rfl]
  apply term.mapVariables_keep _ 0 ha
  intro idx d other
  have ne : idx ≠ d := by
    intro eq
    simp [eq] at other
  dsimp only
  split
  · next le =>
    have hw : d ≤ idx - 1 := by omega
    have back : idx - 1 + 1 = idx := by omega
    simp [Term.mapVariables, hw, back]
  · next lt =>
    have hlt : ¬d ≤ idx := by omega
    simp [Term.mapVariables, hlt]

section Substitute

def placed (assignment : Nat → Term) (index depth : Nat) : Term :=
  if index < depth then .var index else shiftUp (assignment (index - depth)) depth 0

def Term.substitute (assignment : Nat → Term) (term : Term) : Term := term.mapVariables (placed assignment) 0

theorem placed_shiftUp (asg : Nat → Term) (term : Term) (n cutoff : Nat) :
    (shiftUp term n cutoff).mapVariables (placed asg) (n + cutoff) =
      shiftUp (term.mapVariables (placed asg) cutoff) n cutoff := by
  have outer : (shiftUp (term.mapVariables (placed asg) cutoff) n cutoff) =
      term.mapVariables (fun idx d => shiftUp (placed asg idx d) n d) cutoff :=
    mapVariables_mapVariables (fun _ _ => rfl) cutoff term
  rw [outer]
  apply term.mapVariables_fuse
  intro idx d
  dsimp only
  split
  · next hw =>
    have hin : ¬idx < d := by omega
    have beyond : ¬idx + n < n + d := by omega
    have eq : idx + n - (n + d) = idx - d := by omega
    have shifted := shiftUp_shiftUp (asg (idx - d)) d n 0
    simp only [Nat.add_zero] at shifted
    simp only [Term.mapVariables, placed, hin, beyond, eq, if_false, shifted]
    rw [Nat.add_comm]
  · next hlt =>
    have hin : idx < d := by omega
    have beyond : idx < n + d := by omega
    simp [Term.mapVariables, placed, hin, beyond, shiftUp, Nat.not_le_of_lt hin]

theorem substitute_substitute (fst snd : Nat → Term) (term : Term) :
    (term.substitute fst).substitute snd =
      term.substitute fun idx => (fst idx).substitute snd := by
  apply mapVariables_mapVariables
  intro idx d
  by_cases hlt : idx < d
  · simp [placed, Term.mapVariables, hlt]
  · have shifted := placed_shiftUp snd (fst (idx - d)) d 0
    simpa [placed, hlt, Term.substitute] using shifted

@[simp] theorem substitute_var (asg : Nat → Term) (idx : Nat) :
    (Term.var idx).substitute asg = asg idx := by
  simp [Term.substitute, Term.mapVariables, placed, shiftUp_zero]

theorem substitute_identity (term : Term) : term.substitute Term.var = term := by
  apply mapVariables_var
  intro idx d
  by_cases hlt : idx < d
  · simp [placed, hlt]
  · simp [placed, hlt, shiftUp, Term.mapVariables]
    omega

theorem shiftUp_eq_substitute (term : Term) (n cutoff : Nat) :
    shiftUp term n cutoff =
      term.substitute fun idx => if idx < cutoff then .var idx else .var (idx + n) := by
  apply mapVariables_offset _ 0 term
  intro idx d
  by_cases hin : idx < d
  · have hlt : ¬cutoff + d ≤ idx := by omega
    simp [placed, hin, hlt]
  · by_cases hlt : idx < cutoff + d
    · have early : idx - d < cutoff := by omega
      simp [placed, hin, early, Nat.not_le_of_lt hlt, shiftUp, Term.mapVariables]
      omega
    · have late : ¬idx - d < cutoff := by omega
      simp [placed, hin, late, Nat.le_of_not_lt hlt, shiftUp, Term.mapVariables]
      omega

theorem shiftUp_add (term : Term) (fst snd : Nat) :
    shiftUp (shiftUp term fst 0) snd 0 = shiftUp term (fst + snd) 0 := by
  rw [shiftUp_eq_substitute, shiftUp_eq_substitute term, substitute_substitute, shiftUp_eq_substitute]
  simp [Nat.add_assoc]

theorem subst_eq_substitute (term repl : Term) :
    subst term 0 repl =
      term.substitute fun idx => if idx = 0 then repl else .var (idx - 1) := by
  apply mapVariables_offset _ 0 term
  intro idx d
  rw [Nat.zero_add]
  rcases Nat.lt_trichotomy idx d with hlt | eq | above
  · simp [placed, hlt, Nat.ne_of_lt hlt, Nat.le_of_lt hlt]
  · simp [placed, eq]
  · have beyond : ¬idx < d := by omega
    have nz : idx - d ≠ 0 := by omega
    have hl : idx - d - 1 + d = idx - 1 := by omega
    simp [placed, beyond, nz, above, above.ne', shiftUp, Term.mapVariables, hl]

theorem subst_shiftUp (term repl : Term) : subst (shiftUp term 1 0) 0 repl = term := by
  rw [subst_eq_substitute, shiftUp_eq_substitute, substitute_substitute]
  simpa using substitute_identity term

end Substitute

end Proof
