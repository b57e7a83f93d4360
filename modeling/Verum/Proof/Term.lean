import Verum.Proof.Level

namespace Proof

mutual

/-- A constructor field: a type outside the field telescope, a type inside it, or a recursive occurrence. -/
inductive DataField where
  | value (ty : Term)
  | dependent (ty : Term)
  | recursive
  | recursiveAt (indices : List Term)

inductive DataConstructor where
  | mk (fields : List DataField) (indices : List Term)

/-- A proof term, with de Bruijn variables; types are terms. -/
inductive Term where
  | data (name : String) (level : Level) (indices : List Term) (constructors : List DataConstructor)
  | construct (data : Term) (constructor : Nat) (args : List Term)
  | induct (scrutinee motive : Term) (cases : List Term)
  | letIn (value body : Term)
  | var (index : Nat)
  | universe (level : Level)
  | pi (domain body : Term)
  | lam (domain body : Term)
  | app (f x : Term)
  | sigma (domain body : Term)
  | pair (first second : Term)
  | fst (p : Term)
  | snd (p : Term)
  | id (ty lhs rhs : Term)
  | refl (value : Term)
  | j (motive base scrutinee : Term)
  | idElim (motive base scrutinee : Term)
  | funExt (functionType lhs rhs pointwise : Term)

end

def DataConstructor.fields : DataConstructor → List DataField
  | .mk fields _ => fields

def DataConstructor.indices : DataConstructor → List Term
  | .mk _ indices => indices

mutual

def DataField.beq : DataField → DataField → Bool
  | .value a, .value b => a.beq b
  | .dependent a, .dependent b => a.beq b
  | .recursive, .recursive => true
  | .recursiveAt as, .recursiveAt bs => beqTerms as bs
  | _, _ => false
termination_by structural a => a

def DataConstructor.beq : DataConstructor → DataConstructor → Bool
  | .mk fields indices, .mk fields' indices' => beqFields fields fields' && beqTerms indices indices'
termination_by structural a => a

def Term.beq : Term → Term → Bool
  | .data name level indices constructors, .data name' level' indices' constructors' =>
    name = name' && level = level' && beqTerms indices indices' && beqConstructors constructors constructors'
  | .construct data constructor args, .construct data' constructor' args' =>
    data.beq data' && constructor = constructor' && beqTerms args args'
  | .induct scrutinee motive cases, .induct scrutinee' motive' cases' =>
    scrutinee.beq scrutinee' && motive.beq motive' && beqTerms cases cases'
  | .letIn value body, .letIn value' body' => value.beq value' && body.beq body'
  | .var index, .var index' => index = index'
  | .universe level, .universe level' => level = level'
  | .pi domain body, .pi domain' body' => domain.beq domain' && body.beq body'
  | .lam domain body, .lam domain' body' => domain.beq domain' && body.beq body'
  | .app f x, .app f' x' => f.beq f' && x.beq x'
  | .sigma domain body, .sigma domain' body' => domain.beq domain' && body.beq body'
  | .pair first second, .pair first' second' => first.beq first' && second.beq second'
  | .fst p, .fst p' => p.beq p'
  | .snd p, .snd p' => p.beq p'
  | .id ty lhs rhs, .id ty' lhs' rhs' => ty.beq ty' && lhs.beq lhs' && rhs.beq rhs'
  | .refl value, .refl value' => value.beq value'
  | .j motive base scrutinee, .j motive' base' scrutinee' =>
    motive.beq motive' && base.beq base' && scrutinee.beq scrutinee'
  | .idElim motive base scrutinee, .idElim motive' base' scrutinee' =>
    motive.beq motive' && base.beq base' && scrutinee.beq scrutinee'
  | .funExt functionType lhs rhs pointwise, .funExt functionType' lhs' rhs' pointwise' =>
    functionType.beq functionType' && lhs.beq lhs' && rhs.beq rhs' && pointwise.beq pointwise'
  | _, _ => false
termination_by structural a => a

def beqTerms : List Term → List Term → Bool
  | [], [] => true
  | a :: as, b :: bs => a.beq b && beqTerms as bs
  | _, _ => false
termination_by structural a => a

def beqFields : List DataField → List DataField → Bool
  | [], [] => true
  | a :: as, b :: bs => a.beq b && beqFields as bs
  | _, _ => false
termination_by structural a => a

def beqConstructors : List DataConstructor → List DataConstructor → Bool
  | [], [] => true
  | a :: as, b :: bs => a.beq b && beqConstructors as bs
  | _, _ => false
termination_by structural a => a

end

mutual

theorem DataField.beq_iff : (a b : DataField) → (a.beq b = true ↔ a = b)
  | .value ty, b | .dependent ty, b => by cases b <;> simp [DataField.beq, ty.beq_iff]
  | .recursive, b => by cases b <;> simp [DataField.beq]
  | .recursiveAt idxs, b => by cases b <;> simp [DataField.beq, beqTerms_iff idxs]

theorem DataConstructor.beq_iff : (a b : DataConstructor) → (a.beq b = true ↔ a = b)
  | .mk fs idxs, b => by
    cases b
    simp [DataConstructor.beq, beqFields_iff fs, beqTerms_iff idxs]

theorem Term.beq_iff : (a b : Term) → (a.beq b = true ↔ a = b)
  | .data name lvl idxs ctors, b => by
    cases b <;> simp [Term.beq, beqTerms_iff idxs, beqConstructors_iff ctors, and_assoc]
  | .construct data constructor args, b => by
    cases b <;> simp [Term.beq, data.beq_iff, beqTerms_iff args, and_assoc]
  | .induct scrut motive cases, b => by
    cases b <;> simp [Term.beq, scrut.beq_iff, motive.beq_iff, beqTerms_iff cases, and_assoc]
  | .letIn v body, b | .pi v body, b | .lam v body, b | .app v body, b | .sigma v body, b | .pair v body, b =>
    by cases b <;> simp [Term.beq, v.beq_iff, body.beq_iff]
  | .var _, b | .universe _, b => by cases b <;> simp [Term.beq]
  | .fst p, b | .snd p, b | .refl p, b => by cases b <;> simp [Term.beq, p.beq_iff]
  | .id ty lhs rhs, b | .j ty lhs rhs, b | .idElim ty lhs rhs, b =>
    by cases b <;> simp [Term.beq, ty.beq_iff, lhs.beq_iff, rhs.beq_iff, and_assoc]
  | .funExt functionType lhs rhs pointwise, b => by
    cases b <;>
      simp [Term.beq, functionType.beq_iff, lhs.beq_iff, rhs.beq_iff, pointwise.beq_iff, and_assoc]

theorem beqTerms_iff : (as bs : List Term) → (beqTerms as bs = true ↔ as = bs)
  | [], bs => by cases bs <;> simp [beqTerms]
  | a :: as, bs => by cases bs <;> simp [beqTerms, a.beq_iff, beqTerms_iff as]

theorem beqFields_iff : (as bs : List DataField) → (beqFields as bs = true ↔ as = bs)
  | [], bs => by cases bs <;> simp [beqFields]
  | a :: as, bs => by cases bs <;> simp [beqFields, a.beq_iff, beqFields_iff as]

theorem beqConstructors_iff : (as bs : List DataConstructor) → (beqConstructors as bs = true ↔ as = bs)
  | [], bs => by cases bs <;> simp [beqConstructors]
  | a :: as, bs => by cases bs <;> simp [beqConstructors, a.beq_iff, beqConstructors_iff as]

end

instance : DecidableEq Term := fun a b => decidable_of_iff _ (Term.beq_iff a b)

mutual

/-- Replaces every variable, given its index and the number of binders above it. -/
def Term.mapVariables (map : Nat → Nat → Term) (depth : Nat) : Term → Term
  | .data name level indices constructors =>
    .data name level (mapTerms map depth 1 indices) (mapConstructors map depth constructors)
  | .construct data constructor args =>
    .construct (data.mapVariables map depth) constructor (mapTerms map depth 0 args)
  | .induct scrutinee motive cases =>
    .induct (scrutinee.mapVariables map depth) (motive.mapVariables map depth) (mapTerms map depth 0 cases)
  | .letIn value body => .letIn (value.mapVariables map depth) (body.mapVariables map (depth + 1))
  | .var index => map index depth
  | .universe level => .universe level
  | .pi domain body => .pi (domain.mapVariables map depth) (body.mapVariables map (depth + 1))
  | .lam domain body => .lam (domain.mapVariables map depth) (body.mapVariables map (depth + 1))
  | .app f x => .app (f.mapVariables map depth) (x.mapVariables map depth)
  | .sigma domain body => .sigma (domain.mapVariables map depth) (body.mapVariables map (depth + 1))
  | .pair first second => .pair (first.mapVariables map depth) (second.mapVariables map depth)
  | .fst p => .fst (p.mapVariables map depth)
  | .snd p => .snd (p.mapVariables map depth)
  | .id ty lhs rhs =>
    .id (ty.mapVariables map depth) (lhs.mapVariables map depth) (rhs.mapVariables map depth)
  | .refl value => .refl (value.mapVariables map depth)
  | .j motive base scrutinee =>
    .j (motive.mapVariables map depth) (base.mapVariables map depth) (scrutinee.mapVariables map depth)
  | .idElim motive base scrutinee =>
    .idElim (motive.mapVariables map depth) (base.mapVariables map depth) (scrutinee.mapVariables map depth)
  | .funExt functionType lhs rhs pointwise =>
    .funExt (functionType.mapVariables map depth) (lhs.mapVariables map depth)
      (rhs.mapVariables map depth) (pointwise.mapVariables map depth)

/-- Each term is under `step` binders more than the one before it. -/
def mapTerms (map : Nat → Nat → Term) (depth step : Nat) : List Term → List Term
  | [] => []
  | term :: rest => term.mapVariables map depth :: mapTerms map (depth + step) step rest

def DataField.mapVariables (map : Nat → Nat → Term) (depth index : Nat) : DataField → DataField
  | .value ty => .value (ty.mapVariables map depth)
  | .dependent ty => .dependent (ty.mapVariables map (depth + index))
  | .recursive => .recursive
  | .recursiveAt indices => .recursiveAt (mapTerms map (depth + index) 0 indices)

def mapFields (map : Nat → Nat → Term) (depth index : Nat) : List DataField → List DataField
  | [] => []
  | field :: rest => field.mapVariables map depth index :: mapFields map depth (index + 1) rest

def DataConstructor.mapVariables (map : Nat → Nat → Term) (depth : Nat) :
    DataConstructor → DataConstructor
  | .mk fields indices => .mk (mapFields map depth 0 fields) (mapTerms map (depth + fields.length) 0 indices)

def mapConstructors (map : Nat → Nat → Term) (depth : Nat) : List DataConstructor → List DataConstructor
  | [] => []
  | constructor :: rest => constructor.mapVariables map depth :: mapConstructors map depth rest

end

@[simp] theorem length_mapFields (map : Nat → Nat → Term) (d idx : Nat) (fs : List DataField) :
    (mapFields map d idx fs).length = fs.length := by
  induction fs generalizing idx with
  | nil => rfl
  | cons field rest ih => simp [mapFields, ih]

mutual

def Term.anyVariable (wanted : Nat → Nat → Bool) (depth : Nat) : Term → Bool
  | .data _ _ indices constructors =>
    anyTerm wanted depth 1 indices || anyConstructor wanted depth constructors
  | .construct data _ args => data.anyVariable wanted depth || anyTerm wanted depth 0 args
  | .induct scrutinee motive cases =>
    scrutinee.anyVariable wanted depth || motive.anyVariable wanted depth || anyTerm wanted depth 0 cases
  | .letIn value body => value.anyVariable wanted depth || body.anyVariable wanted (depth + 1)
  | .var index => wanted index depth
  | .universe _ => false
  | .pi domain body | .lam domain body | .sigma domain body =>
    domain.anyVariable wanted depth || body.anyVariable wanted (depth + 1)
  | .app a b | .pair a b => a.anyVariable wanted depth || b.anyVariable wanted depth
  | .fst term | .snd term | .refl term => term.anyVariable wanted depth
  | .id a b c | .j a b c | .idElim a b c =>
    a.anyVariable wanted depth || b.anyVariable wanted depth || c.anyVariable wanted depth
  | .funExt functionType lhs rhs pointwise =>
    functionType.anyVariable wanted depth || lhs.anyVariable wanted depth || rhs.anyVariable wanted depth ||
      pointwise.anyVariable wanted depth

def anyTerm (wanted : Nat → Nat → Bool) (depth step : Nat) : List Term → Bool
  | [] => false
  | term :: rest => term.anyVariable wanted depth || anyTerm wanted (depth + step) step rest

def DataField.anyVariable (wanted : Nat → Nat → Bool) (depth index : Nat) : DataField → Bool
  | .value ty => ty.anyVariable wanted depth
  | .dependent ty => ty.anyVariable wanted (depth + index)
  | .recursive => false
  | .recursiveAt indices => anyTerm wanted (depth + index) 0 indices

def anyField (wanted : Nat → Nat → Bool) (depth index : Nat) : List DataField → Bool
  | [] => false
  | field :: rest => field.anyVariable wanted depth index || anyField wanted depth (index + 1) rest

def DataConstructor.anyVariable (wanted : Nat → Nat → Bool) (depth : Nat) : DataConstructor → Bool
  | .mk fields indices => anyTerm wanted (depth + fields.length) 0 indices || anyField wanted depth 0 fields

def anyConstructor (wanted : Nat → Nat → Bool) (depth : Nat) : List DataConstructor → Bool
  | [] => false
  | constructor :: rest => constructor.anyVariable wanted depth || anyConstructor wanted depth rest

end

end Proof
