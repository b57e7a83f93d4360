import Verum.Cubical.Antichain
import Verum.Cubical.DeMorgan
import Mathlib.Data.String.Basic
import Mathlib.Data.Prod.Lex

namespace Cubical

/-- `endpoint = false` is the face `var = 0`. -/
@[ext]
structure FaceLit where
  var : String
  endpoint : Bool
  deriving DecidableEq

namespace FaceLit

instance : LinearOrder FaceLit :=
  LinearOrder.lift' (fun lit => toLex (lit.var, lit.endpoint)) (by
    rintro ⟨var, endpoint⟩ ⟨var', endpoint'⟩ equal
    simpa using equal)

def opposite (lit : FaceLit) : FaceLit := ⟨lit.var, !lit.endpoint⟩

@[simp]
theorem opposite_opposite (lit : FaceLit) : lit.opposite.opposite = lit := by
  simp [opposite]

end FaceLit

def Consistent (lits : Finset FaceLit) : Prop := ∀ lit ∈ lits, lit.opposite ∉ lits

instance (lits : Finset FaceLit) : Decidable (Consistent lits) :=
  inferInstanceAs (Decidable (∀ lit ∈ lits, lit.opposite ∉ lits))

/-- A conjunction of face literals; the empty one is always true. -/
@[ext]
structure Clause where
  lits : BTreeSet FaceLit
  consistent : Consistent lits.toFinset

/-- The loop of `Clause::and` over the literals of the other clause. -/
def mergeLits : List FaceLit → Finset FaceLit → Option (Finset FaceLit)
  | [], merged => some merged
  | lit :: lits, merged => if lit.opposite ∈ merged then none else mergeLits lits (insert lit merged)

theorem consistent_insert {lit : FaceLit} {lits : Finset FaceLit} (con : Consistent lits)
    (free : lit.opposite ∉ lits) : Consistent (insert lit lits) := by
  intro other has opposed
  rw [Finset.mem_insert] at has opposed
  rcases has with rfl | old
  · rcases opposed with eq | contra
    · cases other
      simp [FaceLit.opposite] at eq
    · exact free contra
  · rcases opposed with eq | contra
    · apply free
      rw [← eq, FaceLit.opposite_opposite]
      exact old
    · exact con other old contra

theorem mergeLits_eq (lits : List FaceLit) (merged : Finset FaceLit) (con : Consistent merged) :
    mergeLits lits merged =
      if Consistent (merged ∪ lits.toFinset) then some (merged ∪ lits.toFinset) else none := by
  induction lits generalizing merged with
  | nil => simp [mergeLits, con]
  | cons lit lits ih =>
    have union : merged ∪ (lit :: lits).toFinset = insert lit merged ∪ lits.toFinset := by
      rw [List.toFinset_cons, Finset.union_insert, Finset.insert_union]
    rw [mergeLits, union]
    split
    · rename_i clash
      rw [if_neg]
      intro contradiction
      exact contradiction lit (by simp) (by simp [clash])
    · rename_i free
      exact ih _ (consistent_insert con free)

namespace Clause

instance : LinearOrder Clause := LinearOrder.lift' Clause.lits fun _ _ => Clause.ext

def empty : Clause := ⟨⟨∅⟩, by simp [Consistent]⟩

def singleton (lit : FaceLit) : Clause :=
  ⟨⟨{lit}⟩, by
    intro other present opposed
    rw [Finset.mem_singleton] at present opposed
    rw [present] at opposed
    simpa [FaceLit.opposite] using congrArg FaceLit.endpoint opposed⟩

theorem mergeLits_consistent {lits : List FaceLit} {merged union : Finset FaceLit}
    (con : Consistent merged) (merges : mergeLits lits merged = some union) : Consistent union := by
  rw [mergeLits_eq _ _ con] at merges
  split at merges
  · rename_i both
    rwa [← Option.some.inj merges]
  · simp at merges

def and (clause other : Clause) : Option Clause :=
  match merges : mergeLits other.lits.iter clause.lits.toFinset with
  | some union => some ⟨⟨union⟩, mergeLits_consistent clause.consistent merges⟩
  | none => none

def implies (clause other : Clause) : Bool := decide (other.lits.toFinset ⊆ clause.lits.toFinset)

@[simp]
theorem implies_iff (c other : Clause) :
    c.implies other = true ↔ other.lits.toFinset ⊆ c.lits.toFinset := by
  simp [implies]

theorem implies_refl (c : Clause) : c.implies c = true := by simp

theorem implies_trans (a b c : Clause) (ab : a.implies b = true) (bc : b.implies c = true) :
    a.implies c = true := by
  rw [implies_iff] at *
  exact bc.trans ab

theorem implies_antisymm (a b : Clause) (ab : a.implies b = true) (ba : b.implies a = true) : a = b := by
  rw [implies_iff] at *
  exact Clause.ext (BTreeSet.ext (ba.antisymm ab))

/-- The literals of the other dimensions, unless the clause has the other endpoint. -/
def restrict (clause : Clause) (var : String) (endpoint : Bool) : Option Clause :=
  if clause.lits.iter.any fun lit => lit.var == var && lit.endpoint != endpoint then none
  else some ⟨⟨clause.lits.toFinset.filter (·.var ≠ var)⟩, by
    intro lit present opposed
    exact clause.consistent lit (Finset.mem_of_mem_filter _ present) (Finset.mem_of_mem_filter _ opposed)⟩

end Clause

/-- A sorted, minimal disjunctive normal form. -/
@[ext]
structure FaceFormula where
  clauses : List Clause
  canonical : Antichain.Canonical Clause.implies clauses

namespace FaceFormula

def bottom : FaceFormula := ⟨[], Antichain.Canonical.nil _⟩

def top : FaceFormula := ⟨[Clause.empty], Antichain.Canonical.singleton _ _⟩

def lit (l : FaceLit) : FaceFormula := ⟨[Clause.singleton l], Antichain.Canonical.singleton _ _⟩

def atZero (var : String) : FaceFormula := lit ⟨var, false⟩

def atOne (var : String) : FaceFormula := lit ⟨var, true⟩

def isBottom (formula : FaceFormula) : Bool := formula.clauses.isEmpty

def isTop (formula : FaceFormula) : Bool := formula.clauses.any fun clause => clause.lits.iter.isEmpty

def fromClauses (clauses : List Clause) : FaceFormula :=
  ⟨Antichain.minimal Clause.implies clauses, Antichain.minimal_canonical Clause.implies_refl clauses⟩

def or (formula other : FaceFormula) : FaceFormula := fromClauses (formula.clauses ++ other.clauses)

def and (formula other : FaceFormula) : FaceFormula :=
  fromClauses (formula.clauses.flatMap fun left => other.clauses.filterMap left.and)

def restrict (formula : FaceFormula) (var : String) (endpoint : Bool) : FaceFormula :=
  fromClauses (formula.clauses.filterMap fun clause => clause.restrict var endpoint)

def implies (formula other : FaceFormula) : Bool :=
  if formula.isBottom then true
  else if other.isTop then true
  else formula.clauses.all fun c₁ => other.clauses.any c₁.implies

end FaceFormula

abbrev Assignment := String → Point

/-- An atom holds only at its endpoint. -/
def FaceLit.Holds (assignment : Assignment) (lit : FaceLit) : Prop :=
  assignment lit.var = Point.endpoint lit.endpoint

def Clause.Holds (assignment : Assignment) (clause : Clause) : Prop :=
  ∀ lit ∈ clause.lits.toFinset, lit.Holds assignment

def FaceFormula.Holds (assignment : Assignment) (formula : FaceFormula) : Prop :=
  ∃ clause ∈ formula.clauses, clause.Holds assignment

theorem FaceLit.not_holds_opposite {assignment : Assignment} {lit : FaceLit} (hh : lit.Holds assignment) :
    ¬ lit.opposite.Holds assignment := by
  unfold FaceLit.Holds at *
  rw [FaceLit.opposite, hh]
  cases lit.endpoint <;> simp [Point.endpoint]

namespace Clause

theorem Holds.of_implies {assignment : Assignment} {c other : Clause} (hh : c.Holds assignment)
    (implied : c.implies other = true) : other.Holds assignment := by
  intro lit has
  exact hh lit ((implies_iff _ _).mp implied has)

@[simp]
theorem holds_empty (assignment : Assignment) : empty.Holds assignment := by
  simp [Holds, empty]

@[simp]
theorem holds_singleton (assignment : Assignment) (lit : FaceLit) :
    (singleton lit).Holds assignment ↔ lit.Holds assignment := by
  simp [Holds, singleton]

theorem exists_and_holds (assignment : Assignment) (c other : Clause) :
    (∃ both, c.and other = some both ∧ both.Holds assignment) ↔
      c.Holds assignment ∧ other.Holds assignment := by
  have merge := mergeLits_eq other.lits.iter c.lits.toFinset c.consistent
  have union : c.lits.toFinset ∪ other.lits.iter.toFinset =
      c.lits.toFinset ∪ other.lits.toFinset := by
    ext lit
    simp
  rw [union] at merge
  unfold Clause.and
  split
  · rename_i res merges
    rw [merge] at merges
    split at merges
    · rename_i con
      cases merges
      simp [Holds, or_imp, forall_and]
    · simp at merges
  · rename_i merges
    rw [merge] at merges
    split at merges
    · simp at merges
    · rename_i inconsistent
      simp only [reduceCtorEq, false_and, exists_false, false_iff, not_and]
      intro clauseHolds otherHolds
      apply inconsistent
      intro lit has opposed
      have hh {l : FaceLit} (mem : l ∈ c.lits.toFinset ∪ other.lits.toFinset) :
          l.Holds assignment := by
        rcases Finset.mem_union.mp mem with left | right
        · exact clauseHolds l left
        · exact otherHolds l right
      exact FaceLit.not_holds_opposite (hh has) (hh opposed)

theorem exists_restrict_holds (assignment : Assignment) (c : Clause) (var : String) (endpoint : Bool) :
    (∃ rest, c.restrict var endpoint = some rest ∧ rest.Holds assignment) ↔
      c.Holds (Function.update assignment var (Point.endpoint endpoint)) := by
  unfold Clause.restrict
  split
  · rename_i clash
    simp only [List.any_eq_true, BTreeSet.mem_iter, Bool.and_eq_true, beq_iff_eq, bne_iff_ne] at clash
    obtain ⟨lit, has, rfl, differs⟩ := clash
    simp only [reduceCtorEq, false_and, exists_false, false_iff]
    intro hh
    have atLit := hh lit has
    unfold FaceLit.Holds at atLit
    rw [Function.update_self] at atLit
    revert atLit differs
    cases lit.endpoint <;> cases endpoint <;> simp [Point.endpoint]
  · rename_i free
    simp only [List.any_eq_true, BTreeSet.mem_iter, Bool.and_eq_true, beq_iff_eq, bne_iff_ne, not_exists, not_and,
      not_not] at free
    simp only [Option.some.injEq, exists_eq_left', Holds, Finset.mem_filter, and_imp]
    refine forall₂_congr fun lit has => ?_
    by_cases eq : lit.var = var
    · have agree := free lit has eq
      simp [FaceLit.Holds, eq, agree]
    · simp [FaceLit.Holds, eq]

/-- The least constrained assignment at which a clause holds: the free dimensions are interior. -/
def point (clause : Clause) : Assignment := fun var =>
  if ⟨var, false⟩ ∈ clause.lits.toFinset then .zero
  else if ⟨var, true⟩ ∈ clause.lits.toFinset then .one else .interior

theorem holds_point_iff (c : Clause) (lit : FaceLit) :
    lit.Holds c.point ↔ lit ∈ c.lits.toFinset := by
  obtain ⟨var, endpoint⟩ := lit
  have exclusive := c.consistent ⟨var, false⟩
  unfold FaceLit.Holds point
  simp only [FaceLit.opposite, Bool.not_false] at exclusive
  cases endpoint <;> grind [Point.endpoint]

end Clause

namespace FaceFormula

variable (assignment : Assignment)

theorem holds_fromClauses (cs : List Clause) :
    (fromClauses cs).Holds assignment ↔ ∃ c ∈ cs, c.Holds assignment := by
  constructor
  · rintro ⟨c, has, hh⟩
    exact ⟨c, Antichain.mem_of_mem_minimal has, hh⟩
  · rintro ⟨c, has, hh⟩
    obtain ⟨weaker, kept, implied⟩ :=
      Antichain.exists_minimal_implied Clause.implies_refl Clause.implies_trans has
    exact ⟨weaker, kept, hh.of_implies implied⟩

@[simp]
theorem not_holds_bottom : ¬ bottom.Holds assignment := by
  simp [Holds, bottom]

@[simp]
theorem holds_top : top.Holds assignment := by
  simp [Holds, top]

@[simp]
theorem holds_lit (l : FaceLit) : (lit l).Holds assignment ↔ l.Holds assignment := by
  simp [Holds, lit]

@[simp]
theorem holds_or (formula other : FaceFormula) :
    (formula.or other).Holds assignment ↔ formula.Holds assignment ∨ other.Holds assignment := by
  rw [FaceFormula.or, holds_fromClauses]
  simp [Holds, or_and_right, exists_or]

@[simp]
theorem holds_and (formula other : FaceFormula) :
    (formula.and other).Holds assignment ↔ formula.Holds assignment ∧ other.Holds assignment := by
  rw [FaceFormula.and, holds_fromClauses]
  constructor
  · rintro ⟨both, has, hh⟩
    obtain ⟨left, leftMem, rest⟩ := List.mem_flatMap.mp has
    obtain ⟨right, rightMem, conjunction⟩ := List.mem_filterMap.mp rest
    have halves := (Clause.exists_and_holds assignment left right).mp ⟨both, conjunction, hh⟩
    exact ⟨⟨left, leftMem, halves.1⟩, ⟨right, rightMem, halves.2⟩⟩
  · rintro ⟨⟨left, leftMem, leftHolds⟩, ⟨right, rightMem, rightHolds⟩⟩
    obtain ⟨both, conjunction, hh⟩ :=
      (Clause.exists_and_holds assignment left right).mpr ⟨leftHolds, rightHolds⟩
    refine ⟨both, List.mem_flatMap.mpr ⟨left, leftMem, ?_⟩, hh⟩
    exact List.mem_filterMap.mpr ⟨right, rightMem, conjunction⟩

@[simp]
theorem holds_restrict (formula : FaceFormula) (var : String) (endpoint : Bool) :
    (formula.restrict var endpoint).Holds assignment ↔
      formula.Holds (Function.update assignment var (Point.endpoint endpoint)) := by
  rw [FaceFormula.restrict, holds_fromClauses]
  simp only [List.mem_filterMap, Holds, ← Clause.exists_restrict_holds]
  constructor
  · rintro ⟨rest, ⟨c, has, restricts⟩, hh⟩
    exact ⟨c, has, rest, restricts, hh⟩
  · rintro ⟨c, has, rest, restricts, hh⟩
    exact ⟨rest, ⟨c, has, restricts⟩, hh⟩

end FaceFormula

namespace FaceFormula

theorem implies_eq_all (formula other : FaceFormula) :
    formula.implies other = formula.clauses.all fun c₁ => other.clauses.any c₁.implies := by
  unfold implies
  split
  · rename_i bottom
    rw [isBottom, List.isEmpty_iff] at bottom
    simp [bottom]
  · split
    · rename_i top
      obtain ⟨c, has, free⟩ := List.any_eq_true.mp top
      symm
      rw [List.all_eq_true]
      intro c₁ _
      refine List.any_eq_true.mpr ⟨c, has, ?_⟩
      rw [Clause.implies_iff]
      intro lit litMem
      rw [← BTreeSet.mem_iter, List.isEmpty_iff.mp free] at litMem
      simp at litMem
    · rfl

theorem implies_iff_exists (formula other : FaceFormula) :
    formula.implies other = true ↔ ∀ c₁ ∈ formula.clauses, ∃ c₂ ∈ other.clauses, c₁.implies c₂ = true := by
  rw [implies_eq_all, List.all_eq_true]
  simp only [List.any_eq_true]

theorem implies_iff (formula other : FaceFormula) :
    formula.implies other = true ↔ ∀ assignment, formula.Holds assignment → other.Holds assignment := by
  rw [implies_iff_exists]
  constructor
  · rintro implied assignment ⟨c, has, hh⟩
    obtain ⟨weaker, weakerMem, weaker_implied⟩ := implied c has
    exact ⟨weaker, weakerMem, hh.of_implies weaker_implied⟩
  · intro entails c has
    have atPoint : c.Holds c.point := fun lit mem => (c.holds_point_iff lit).mpr mem
    obtain ⟨weaker, weakerMem, hh⟩ := entails c.point ⟨c, has, atPoint⟩
    refine ⟨weaker, weakerMem, ?_⟩
    rw [Clause.implies_iff]
    intro lit mem
    exact (c.holds_point_iff lit).mp (hh lit mem)

theorem eq_iff (formula other : FaceFormula) :
    formula = other ↔ ∀ assignment, formula.Holds assignment ↔ other.Holds assignment := by
  constructor
  · rintro rfl assignment
    rfl
  · intro eq
    have forth := (implies_iff formula other).mpr fun assignment => (eq assignment).mp
    have back := (implies_iff other formula).mpr fun assignment => (eq assignment).mpr
    rw [implies_iff_exists] at forth back
    exact FaceFormula.ext (formula.canonical.eq_of_implied Clause.implies_antisymm Clause.implies_trans
      other.canonical forth back)

instance : DistribLattice FaceFormula where
  le formula other := formula.implies other = true
  le_refl formula := (implies_iff _ _).mpr fun _ holds => holds
  le_trans _ _ _ first second :=
    (implies_iff _ _).mpr fun _ holds => (implies_iff _ _).mp second _ ((implies_iff _ _).mp first _ holds)
  le_antisymm _ _ first second :=
    (eq_iff _ _).mpr fun _ => ⟨(implies_iff _ _).mp first _, (implies_iff _ _).mp second _⟩
  sup := FaceFormula.or
  le_sup_left _ _ := (implies_iff _ _).mpr fun _ holds => (holds_or _ _ _).mpr (.inl holds)
  le_sup_right _ _ := (implies_iff _ _).mpr fun _ holds => (holds_or _ _ _).mpr (.inr holds)
  sup_le _ _ _ first second := (implies_iff _ _).mpr fun _ holds =>
    ((holds_or _ _ _).mp holds).elim ((implies_iff _ _).mp first _) ((implies_iff _ _).mp second _)
  inf := FaceFormula.and
  inf_le_left _ _ := (implies_iff _ _).mpr fun _ holds => ((holds_and _ _ _).mp holds).1
  inf_le_right _ _ := (implies_iff _ _).mpr fun _ holds => ((holds_and _ _ _).mp holds).2
  le_inf _ _ _ first second := (implies_iff _ _).mpr fun _ holds =>
    (holds_and _ _ _).mpr ⟨(implies_iff _ _).mp first _ holds, (implies_iff _ _).mp second _ holds⟩
  le_sup_inf formula left right := by
    refine (implies_iff ((formula.or left).and (formula.or right)) (formula.or (left.and right))).mpr ?_
    intro assignment holds
    simp only [holds_and, holds_or] at holds ⊢
    exact or_and_left.mpr holds

end FaceFormula

theorem faceFormula_canonical (φ ψ χ : FaceFormula) :
    (φ = ψ ↔ ∀ assignment, φ.Holds assignment ↔ ψ.Holds assignment) ∧
    (φ.implies ψ = true ↔ ∀ assignment, φ.Holds assignment → ψ.Holds assignment) ∧
    (∀ assignment,
      ¬ FaceFormula.bottom.Holds assignment ∧ FaceFormula.top.Holds assignment ∧
      (∀ var, (FaceFormula.atZero var).Holds assignment ↔ assignment var = .zero) ∧
      (∀ var, (FaceFormula.atOne var).Holds assignment ↔ assignment var = .one) ∧
      ((φ.or ψ).Holds assignment ↔ φ.Holds assignment ∨ ψ.Holds assignment) ∧
      ((φ.and ψ).Holds assignment ↔ φ.Holds assignment ∧ ψ.Holds assignment) ∧
      ∀ var endpoint, (φ.restrict var endpoint).Holds assignment ↔
        φ.Holds (Function.update assignment var (Point.endpoint endpoint))) ∧
    φ.or (ψ.or χ) = (φ.or ψ).or χ ∧ φ.and (ψ.and χ) = (φ.and ψ).and χ ∧
    φ.or ψ = ψ.or φ ∧ φ.and ψ = ψ.and φ ∧
    φ.or φ = φ ∧ φ.and φ = φ ∧
    φ.or (φ.and ψ) = φ ∧ φ.and (φ.or ψ) = φ ∧
    φ.and (ψ.or χ) = (φ.and ψ).or (φ.and χ) ∧ φ.or (ψ.and χ) = (φ.or ψ).and (φ.or χ) := by
  refine ⟨FaceFormula.eq_iff φ ψ, FaceFormula.implies_iff φ ψ, ?_, ?_⟩
  · intro assignment
    refine ⟨FaceFormula.not_holds_bottom _, FaceFormula.holds_top _, ?_, ?_, FaceFormula.holds_or _ _ _,
      FaceFormula.holds_and _ _ _, FaceFormula.holds_restrict _ _⟩
    · intro var
      exact FaceFormula.holds_lit _ _
    · intro var
      exact FaceFormula.holds_lit _ _
  · exact ⟨(sup_assoc φ ψ χ).symm, (inf_assoc φ ψ χ).symm, sup_comm φ ψ, inf_comm φ ψ, sup_idem φ, inf_idem φ,
      sup_inf_self, inf_sup_self, inf_sup_left φ ψ χ, sup_inf_left φ ψ χ⟩

end Cubical
