import Verum.Mono.Specializer

namespace Mono

open Vbc

theorem findSome?_range_eq_some_iff {α : Type} {f : Nat → Option α} {n : Nat} {b : α} :
    (List.range n).findSome? f = some b ↔ ∃ q < n, f q = some b ∧ ∀ r < q, f r = none := by
  induction n with
  | zero => simp
  | succ n ih =>
    rw [List.range_succ, List.findSome?_append, Option.or_eq_some_iff, ih, List.findSome?_eq_none_iff]
    simp only [List.mem_range, List.findSome?_cons, List.findSome?_nil]
    constructor
    · rintro (⟨q, hin, hit, fst⟩ | ⟨none, last⟩)
      · exact ⟨q, Nat.lt_succ_of_lt hin, hit, fst⟩
      · cases hit : f n with
        | none =>
          rw [hit] at last
          cases last
        | some a =>
          rw [hit] at last
          exact ⟨n, Nat.lt_succ_self n, hit.trans last, none⟩
    · rintro ⟨q, hin, hit, fst⟩
      rcases Nat.lt_succ_iff_lt_or_eq.mp hin with pre | rfl
      · exact .inl ⟨q, pre, hit, fst⟩
      · exact .inr ⟨fst, by rw [hit]⟩

/-- The first of sixteen parameters whose image is a concrete type of a kind. -/
def TypeSubstitution.First (s : TypeSubstitution) (kind : TypeId → Bool) (id : TypeId) : Prop :=
  ∃ q < 16, s ⟨UInt16.ofNat q⟩ = some (.concrete id) ∧ kind id = true ∧
    ∀ r < q, ∀ other, s ⟨UInt16.ofNat r⟩ = some (.concrete other) → kind other = false

variable {s : TypeSubstitution} {kind : TypeId → Bool}

theorem TypeSubstitution.First.unique {fst snd : TypeId} (isFirst : s.First kind fst)
    (isSecond : s.First kind snd) : fst = snd := by
  rcases isFirst with ⟨q, -, image, hf, pre⟩
  rcases isSecond with ⟨r, -, image', fits', before'⟩
  rcases Nat.lt_trichotomy q r with lt | eq | greater
  · rw [before' q lt fst image] at hf
    cases hf
  · subst eq
    rw [image] at image'
    cases image'
    rfl
  · rw [pre r greater snd image'] at fits'
    cases fits'

theorem TypeSubstitution.First.numeric {id : TypeId} (fst : s.First kind id) : kind id = true := by
  rcases fst with ⟨_, _, _, hf, _⟩
  exact hf

def TypeSubstitution.MapsTo (s : TypeSubstitution) (p : TypeParamId) (kind : TypeId → Bool) : Prop :=
  ∃ id, s p = some (.concrete id) ∧ kind id = true

/-- Generic arithmetic, or generic equality, on operands of a parameter's type. -/
def OperandsTyped (typing : Reg → TypeRef) (p : TypeParamId) : Instruction → Prop
  | .binaryG _ _ a b _ => typing a = .generic p ∧ typing b = .generic p
  | .cmpG true _ a b _ => typing a = .generic p ∧ typing b = .generic p
  | _ => False

def integerForm : Instruction → Bool
  | .binaryI .. => true
  | .cmpI .. => true
  | _ => false

def floatForm : Instruction → Bool
  | .binaryF .. => true
  | .cmpF .. => true
  | _ => false

/-- The types whose values an integer form handles: the integers, and Bool for equality. -/
def integral : Instruction → TypeId → Bool
  | .cmpG .., id => id.isInteger || id == TypeId.bool
  | _, id => id.isInteger

namespace BytecodeSpecializer

variable {self : BytecodeSpecializer} {p : TypeParamId}

/-- The form chosen fits what the parameter stands for, and without one that fits the instruction stays. -/
def RespectsOperands (self : BytecodeSpecializer) (p : TypeParamId) (instr : Instruction) : Prop :=
  ∀ stats, ∃ result later, self.specializeInstrValue stats instr = .ok (result, later) ∧
    (integerForm result = true → self.substitution.MapsTo p (integral instr)) ∧
    (floatForm result = true → self.substitution.MapsTo p TypeId.isFloat) ∧
    (¬ self.substitution.MapsTo p (integral instr) → ¬ self.substitution.MapsTo p TypeId.isFloat → result = instr)

/-- The type the whole substitution suggests is of the parameter's own kind. -/
def Suggests (self : BytecodeSpecializer) (p : TypeParamId) (instr : Instruction) : Prop :=
  (∀ id, self.substitution.First TypeId.isNumeric id →
    (id.isInteger = true → self.substitution.MapsTo p (integral instr)) ∧
    (id.isFloat = true → self.substitution.MapsTo p TypeId.isFloat)) ∧
  ((∀ id, ¬ self.substitution.First TypeId.isNumeric id) → self.substitution.First (fun _ => true) TypeId.bool →
    integral instr TypeId.bool = true → self.substitution.MapsTo p (integral instr))

variable {kind : TypeId → Bool} {id : TypeId}

theorem concreteImage_eq_some_iff {param : Nat} {type : TypeRef} : self.concreteImage kind param = some type ↔
      ∃ id, type = .concrete id ∧ self.substitution ⟨UInt16.ofNat param⟩ = some (.concrete id) ∧ kind id = true := by
  unfold concreteImage
  split
  · rename_i id image
    rw [image]
    split
    · rename_i hf
      constructor
      · intro eq
        exact ⟨id, (Option.some.inj eq).symm, rfl, hf⟩
      · rintro ⟨other, rfl, eq, -⟩
        exact eq
    · rename_i misses
      constructor
      · exact nofun
      · rintro ⟨other, rfl, eq, hf⟩
        cases eq
        exact absurd hf misses
  · rename_i other
    constructor
    · exact nofun
    · rintro ⟨id, rfl, image, -⟩
      exact absurd image (other id)

theorem findSome?_concreteImage_iff :
    (List.range 16).findSome? (self.concreteImage kind) = some (.concrete id) ↔ self.substitution.First kind id := by
  rw [findSome?_range_eq_some_iff]
  unfold TypeSubstitution.First
  constructor
  · rintro ⟨q, hin, hit, fst⟩
    rcases concreteImage_eq_some_iff.mp hit with ⟨eq, isSame, image, hf⟩
    cases isSame
    refine ⟨q, hin, image, hf, ?_⟩
    intro r pre other isOther
    cases kinds : kind other with
    | false => rfl
    | true =>
      have none := fst r pre
      rw [concreteImage_eq_some_iff.mpr ⟨other, rfl, isOther, kinds⟩] at none
      cases none
  · rintro ⟨q, hin, image, hf, fst⟩
    refine ⟨q, hin, concreteImage_eq_some_iff.mpr ⟨id, rfl, image, hf⟩, ?_⟩
    intro r pre
    cases hit : self.concreteImage kind r with
    | none => rfl
    | some type =>
      rcases concreteImage_eq_some_iff.mp hit with ⟨other, rfl, isOther, kinds⟩
      rw [fst r pre other isOther] at kinds
      cases kinds

theorem findSome?_concreteImage_cases (kind : TypeId → Bool) :
    (∃ id, (List.range 16).findSome? (self.concreteImage kind) = some (.concrete id) ∧
      self.substitution.First kind id) ∨
    ((List.range 16).findSome? (self.concreteImage kind) = none ∧ ∀ id, ¬ self.substitution.First kind id) := by
  cases hit : (List.range 16).findSome? (self.concreteImage kind) with
  | none =>
    refine .inr ⟨rfl, ?_⟩
    intro id fst
    rw [findSome?_concreteImage_iff.mpr fst] at hit
    cases hit
  | some type =>
    rcases findSome?_range_eq_some_iff.mp hit with ⟨q, -, image, -⟩
    rcases concreteImage_eq_some_iff.mp image with ⟨id, rfl, -⟩
    exact .inl ⟨id, rfl, findSome?_concreteImage_iff.mp hit⟩

theorem inferOperandTypeFromContext_cases :
    (∃ id, self.inferOperandTypeFromContext = some (.concrete id) ∧ self.substitution.First TypeId.isNumeric id) ∨
    ((∀ id, ¬ self.substitution.First TypeId.isNumeric id) ∧
      ((∃ id, self.inferOperandTypeFromContext = some (.concrete id) ∧ self.substitution.First (fun _ => true) id) ∨
        (self.inferOperandTypeFromContext = none ∧ ∀ id, ¬ self.substitution.First (fun _ => true) id))) := by
  unfold inferOperandTypeFromContext
  rcases @findSome?_concreteImage_cases self TypeId.isNumeric with ⟨id, hit, fst⟩ | ⟨none, no⟩
  · rw [hit]
    exact .inl ⟨id, rfl, fst⟩
  · rw [none]
    exact .inr ⟨no, findSome?_concreteImage_cases fun _ => true⟩

theorem isNumeric_cases (numeric : id.isNumeric = true) :
    (id.isInteger = true ∧ id.isFloat = false) ∨ (id.isInteger = false ∧ id.isFloat = true) := by
  rcases id with ⟨id⟩
  have listed : id ∈ [2, 3, 6, 7, 8, 9, 10, 11, 12, 13, 17, 18] := List.contains_iff_mem.mp numeric
  have all : ([2, 3, 6, 7, 8, 9, 10, 11, 12, 13, 17, 18] : List UInt32).all fun n =>
      (⟨n⟩ : TypeId).isInteger != (⟨n⟩ : TypeId).isFloat := by
    decide
  have ne := List.all_eq_true.mp all id listed
  revert ne
  cases (⟨id⟩ : TypeId).isInteger <;> cases (⟨id⟩ : TypeId).isFloat <;> simp

theorem isNumeric_of_kind (kind : id.isInteger = true ∨ id.isFloat = true) : id.isNumeric = true := by
  rcases id with ⟨id⟩
  have integers : ([2, 6, 7, 8, 9, 10, 11, 12, 17, 18] : List UInt32).all fun n => (⟨n⟩ : TypeId).isNumeric := by
    decide
  have floats : ([3, 13] : List UInt32).all fun n => (⟨n⟩ : TypeId).isNumeric := by
    decide
  rcases kind with integer | float
  · exact List.all_eq_true.mp integers id (List.contains_iff_mem.mp integer)
  · exact List.all_eq_true.mp floats id (List.contains_iff_mem.mp float)

variable {instr : Instruction}

theorem respects_integer (res : Instruction) (form : integerForm res = true)
    (run : ∀ stats, ∃ hl, self.specializeInstrValue stats instr = .ok (res, hl)) :
    self.RespectsOperands p instr ↔ self.substitution.MapsTo p (integral instr) := by
  have other : floatForm res = false := by
    cases res with
    | binaryI | cmpI => rfl
    | _ => cases form
  constructor
  · intro respects
    rcases respects ⟨0, 0, 0⟩ with ⟨actual, hl, ran, integer, -⟩
    rcases run ⟨0, 0, 0⟩ with ⟨expected, runs⟩
    rw [ran] at runs
    cases runs
    exact integer form
  · intro maps stats
    rcases run stats with ⟨hl, ran⟩
    exact ⟨res, hl, ran, fun _ => maps, fun float => by simp [other] at float, fun none => absurd maps none⟩

theorem respects_float (res : Instruction) (form : floatForm res = true)
    (run : ∀ stats, ∃ hl, self.specializeInstrValue stats instr = .ok (res, hl)) :
    self.RespectsOperands p instr ↔ self.substitution.MapsTo p TypeId.isFloat := by
  have other : integerForm res = false := by
    cases res with
    | binaryF | cmpF => rfl
    | _ => cases form
  constructor
  · intro respects
    rcases respects ⟨0, 0, 0⟩ with ⟨actual, hl, ran, -, float, -⟩
    rcases run ⟨0, 0, 0⟩ with ⟨expected, runs⟩
    rw [ran] at runs
    cases runs
    exact float form
  · intro maps stats
    rcases run stats with ⟨hl, ran⟩
    exact ⟨res, hl, ran, fun integer => by simp [other] at integer, fun _ => maps,
      fun _ none => absurd maps none⟩

theorem respects_same (integer : integerForm instr = false) (float : floatForm instr = false)
    (run : ∀ stats, ∃ hl, self.specializeInstrValue stats instr = .ok (instr, hl)) :
    self.RespectsOperands p instr := by
  intro stats
  rcases run stats with ⟨hl, ran⟩
  exact ⟨instr, hl, ran, fun form => by simp [integer] at form, fun form => by simp [float] at form,
    fun _ _ => rfl⟩

theorem suggests_integer (fst : self.substitution.First TypeId.isNumeric id) (integer : id.isInteger = true)
    (notFloat : id.isFloat = false) : self.Suggests p instr ↔ self.substitution.MapsTo p (integral instr) := by
  constructor
  · exact fun suggests => (suggests.1 id fst).1 integer
  · intro maps
    refine ⟨?_, fun none => absurd fst (none id)⟩
    intro other isOther
    cases TypeSubstitution.First.unique fst isOther
    exact ⟨fun _ => maps, fun float => by simp [notFloat] at float⟩

theorem suggests_float (fst : self.substitution.First TypeId.isNumeric id) (notInteger : id.isInteger = false)
    (float : id.isFloat = true) : self.Suggests p instr ↔ self.substitution.MapsTo p TypeId.isFloat := by
  constructor
  · exact fun suggests => (suggests.1 id fst).2 float
  · intro maps
    refine ⟨?_, fun none => absurd fst (none id)⟩
    intro other isOther
    cases TypeSubstitution.First.unique fst isOther
    exact ⟨fun integer => by simp [notInteger] at integer, fun _ => maps⟩

theorem suggests_bool (none : ∀ id, ¬ self.substitution.First TypeId.isNumeric id)
    (fst : self.substitution.First (fun _ => true) TypeId.bool) (equality : integral instr TypeId.bool = true) :
    self.Suggests p instr ↔ self.substitution.MapsTo p (integral instr) :=
  ⟨fun suggests => suggests.2 none fst equality, fun maps => ⟨fun id fst => absurd fst (none id),
    fun _ _ _ => maps⟩⟩

theorem suggests_nothing (none : ∀ id, ¬ self.substitution.First TypeId.isNumeric id)
    (other : self.substitution.First (fun _ => true) TypeId.bool → integral instr TypeId.bool = false) :
    self.Suggests p instr :=
  ⟨fun id fst => absurd fst (none id), fun _ fst equality => by simp [other fst] at equality⟩

theorem not_numeric (none : ∀ id, ¬ self.substitution.First TypeId.isNumeric id)
    (fst : self.substitution.First (fun _ => true) id) : id.isInteger = false ∧ id.isFloat = false := by
  rcases fst with ⟨q, hin, image, -, pre⟩
  have plain : ¬ id.isNumeric = true := by
    intro numeric
    refine none id ⟨q, hin, image, numeric, ?_⟩
    intro r earlier other isOther
    cases pre r earlier other isOther
  constructor
  · cases integer : id.isInteger with
    | false => rfl
    | true => exact absurd (isNumeric_of_kind (.inl integer)) plain
  · cases float : id.isFloat with
    | false => rfl
    | true => exact absurd (isNumeric_of_kind (.inr float)) plain

theorem or_beq_of_imp {kind : Bool} {id named : UInt32} (imp : id = named → kind = true) :
    (kind || id == named) = kind := by
  cases kind with
  | true => rfl
  | false =>
    rw [Bool.false_or]
    exact beq_eq_false_iff_ne.mpr fun eq => nomatch imp eq

theorem isInteger_or_int (id : TypeId) : (id.isInteger || id.id == TypeId.int.id) = id.isInteger := by
  rcases id with ⟨id⟩
  apply or_beq_of_imp
  intro eq
  change id = _ at eq
  rw [eq]
  rfl

theorem isFloat_or_float (id : TypeId) : (id.isFloat || id.id == TypeId.float.id) = id.isFloat := by
  rcases id with ⟨id⟩
  apply or_beq_of_imp
  intro eq
  change id = _ at eq
  rw [eq]
  rfl

theorem arithmetic_concrete (id : TypeId) : arithmetic (some (.concrete id)) =
    if id.isInteger then some false else if id.isFloat then some true else none := by
  unfold arithmetic
  dsimp only
  rw [isInteger_or_int, isFloat_or_float]

theorem specializeInstrValue_binaryG (stats : SpecializerStats) (op : BinaryGenericOp) (dst a b : Reg)
    (protocolId : UInt32) : self.specializeInstrValue stats (.binaryG op dst a b protocolId) =
      match arithmetic self.inferOperandTypeFromContext with
      | some true =>
        .ok (.binaryF (floatOp op) dst a b, { stats with arithGSpecialized := stats.arithGSpecialized + 1 })
      | some false =>
        .ok (.binaryI (intOp op) dst a b, { stats with arithGSpecialized := stats.arithGSpecialized + 1 })
      | none => .ok (.binaryG op dst a b protocolId, stats) := rfl

theorem respects_binaryG_iff (op : BinaryGenericOp) (dst a b : Reg) (protocolId : UInt32) :
    self.RespectsOperands p (.binaryG op dst a b protocolId) ↔ self.Suggests p (.binaryG op dst a b protocolId) := by
  rcases @inferOperandTypeFromContext_cases self with ⟨id, context, fst⟩ | ⟨none, rest⟩
  · rcases isNumeric_cases fst.numeric with ⟨integer, notFloat⟩ | ⟨notInteger, float⟩
    · rw [suggests_integer fst integer notFloat]
      apply respects_integer (.binaryI (intOp op) dst a b) rfl
      intro stats
      rw [specializeInstrValue_binaryG, context, arithmetic_concrete, if_pos integer]
      exact ⟨_, rfl⟩
    · rw [suggests_float fst notInteger float]
      apply respects_float (.binaryF (floatOp op) dst a b) rfl
      intro stats
      rw [specializeInstrValue_binaryG, context, arithmetic_concrete, notInteger, if_neg Bool.false_ne_true, if_pos float]
      exact ⟨_, rfl⟩
  · have stays : arithmetic self.inferOperandTypeFromContext = Option.none := by
      rcases rest with ⟨id, context, fst⟩ | ⟨context, -⟩
      · have plain := not_numeric none fst
        rw [context, arithmetic_concrete, plain.1, plain.2]
        rfl
      · rw [context]
        rfl
    apply iff_of_true
    · apply respects_same rfl rfl
      intro stats
      rw [specializeInstrValue_binaryG, stays]
      exact ⟨_, rfl⟩
    · exact suggests_nothing none fun _ => rfl

theorem specializeInstrValue_cmpG (stats : SpecializerStats) (dst a b : Reg) (protocolId : UInt32) :
    self.specializeInstrValue stats (.cmpG true dst a b protocolId) =
      match self.inferOperandTypeFromContext with
      | some (.concrete id) =>
        if id.isInteger || id.id == TypeId.int.id || id.id == TypeId.bool.id then
          .ok (.cmpI .eq dst a b, { stats with cmpGSpecialized := stats.cmpGSpecialized + 1 })
        else if id.isFloat then
          .ok (.cmpF .eq dst a b, { stats with cmpGSpecialized := stats.cmpGSpecialized + 1 })
        else .ok (.cmpG true dst a b protocolId, stats)
      | _ => .ok (.cmpG true dst a b protocolId, stats) := rfl

theorem respects_cmpG_iff (dst a b : Reg) (protocolId : UInt32) :
    self.RespectsOperands p (.cmpG true dst a b protocolId) ↔ self.Suggests p (.cmpG true dst a b protocolId) := by
  rcases @inferOperandTypeFromContext_cases self with ⟨id, context, fst⟩ | ⟨none, rest⟩
  · rcases isNumeric_cases fst.numeric with ⟨integer, notFloat⟩ | ⟨notInteger, float⟩
    · rw [suggests_integer fst integer notFloat]
      apply respects_integer (.cmpI .eq dst a b) rfl
      intro stats
      rw [specializeInstrValue_cmpG, context]
      exact ⟨_, if_pos (by rw [integer]; rfl)⟩
    · rw [suggests_float fst notInteger float]
      apply respects_float (.cmpF .eq dst a b) rfl
      intro stats
      have other : (id.id == TypeId.bool.id) = false := by
        apply beq_eq_false_iff_ne.mpr
        intro same
        rcases id with ⟨id⟩
        cases same
        cases float
      rw [specializeInstrValue_cmpG, context]
      dsimp only
      rw [isInteger_or_int, notInteger, other, if_neg (by decide), if_pos float]
      exact ⟨_, rfl⟩
  · rcases rest with ⟨id, context, fst⟩ | ⟨context, ha⟩
    · have plain := not_numeric none fst
      by_cases isBool : id = TypeId.bool
      · subst isBool
        rw [suggests_bool none fst rfl]
        apply respects_integer (.cmpI .eq dst a b) rfl
        intro stats
        rw [specializeInstrValue_cmpG, context]
        exact ⟨_, rfl⟩
      · have other : (id.id == TypeId.bool.id) = false := by
          apply beq_eq_false_iff_ne.mpr
          intro same
          rcases id with ⟨id⟩
          exact isBool (congrArg TypeId.mk same)
        apply iff_of_true
        · apply respects_same rfl rfl
          intro stats
          rw [specializeInstrValue_cmpG, context]
          dsimp only
          rw [isInteger_or_int, plain.1, other, if_neg (by decide), plain.2, if_neg (by decide)]
          exact ⟨_, rfl⟩
        · exact suggests_nothing none fun isFirst => absurd (TypeSubstitution.First.unique fst isFirst) isBool
    · apply iff_of_true
      · apply respects_same rfl rfl
        intro stats
        rw [specializeInstrValue_cmpG, context]
        exact ⟨_, rfl⟩
      · exact suggests_nothing none fun isFirst => absurd isFirst (ha TypeId.bool)

/-- Each typed generic instruction of a body is specialized by its own operands' type exactly when the type the
    whole substitution suggests is of the same kind. -/
theorem respectsOperands_iff (self : BytecodeSpecializer) (typing : Reg → TypeRef) (body : List Instruction) :
    (∀ instr ∈ body, ∀ p, OperandsTyped typing p instr → self.RespectsOperands p instr) ↔
      ∀ instr ∈ body, ∀ p, OperandsTyped typing p instr → self.Suggests p instr := by
  have each : ∀ instr p, OperandsTyped typing p instr → (self.RespectsOperands p instr ↔ self.Suggests p instr) := by
    intro instr p typed
    cases instr with
    | binaryG op dst a b protocolId => exact respects_binaryG_iff op dst a b protocolId
    | cmpG eq dst a b protocolId =>
      cases eq with
      | true => exact respects_cmpG_iff dst a b protocolId
      | false => cases typed
    | _ => cases typed
  constructor
  · intro respects instr member p typed
    exact (each instr p typed).mp (respects instr member p typed)
  · intro suggests instr member p typed
    exact (each instr p typed).mpr (suggests instr member p typed)

/-- With a float for the first parameter, an addition of integers of the second becomes a float addition. -/
theorem specializeInstrValue_wrong_operand :
    let self : BytecodeSpecializer :=
      ⟨fun p => if p = ⟨0⟩ then some (.concrete TypeId.float) else if p = ⟨1⟩ then some (.concrete TypeId.int) else none,
        .new, fun _ _ => 0⟩
    let add : Instruction := .binaryG .add ⟨2⟩ ⟨0⟩ ⟨1⟩ 0
    OperandsTyped (fun _ => .generic ⟨1⟩) ⟨1⟩ add ∧ ¬ self.RespectsOperands ⟨1⟩ add := by
  refine ⟨⟨rfl, rfl⟩, ?_⟩
  intro respects
  rcases respects ⟨0, 0, 0⟩ with ⟨result, later, run, -, float, -⟩
  cases run
  rcases float rfl with ⟨id, image, isFloat⟩
  cases image
  cases isFloat

end BytecodeSpecializer

end Mono
