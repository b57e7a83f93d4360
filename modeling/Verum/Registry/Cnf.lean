import Mathlib.Data.List.Nodup

namespace Cnf

open Function

structure Literal (Var : Type) where
  var : Var
  positive : Bool
  deriving DecidableEq

abbrev Clause (Var : Type) := List (Literal Var)

section Semantics

variable {Var : Type}

def Literal.Holds (valuation : Var → Bool) (literal : Literal Var) : Prop :=
  valuation literal.var = literal.positive

def Satisfies (valuation : Var → Bool) (clauses : List (Clause Var)) : Prop :=
  ∀ clause ∈ clauses, ∃ literal ∈ clause, literal.Holds valuation

instance (valuation : Var → Bool) (clauses : List (Clause Var)) : Decidable (Satisfies valuation clauses) :=
  inferInstanceAs (Decidable (∀ clause ∈ clauses, ∃ literal ∈ clause, valuation literal.var = literal.positive))

def Satisfiable (clauses : List (Clause Var)) : Prop := ∃ valuation, Satisfies valuation clauses

@[simp] theorem satisfies_append {val : Var → Bool} {pre after : List (Clause Var)} :
    Satisfies val (pre ++ after) ↔ Satisfies val pre ∧ Satisfies val after := by
  simp only [Satisfies, List.mem_append, or_imp, forall_and]

@[simp] theorem satisfies_singleton {val : Var → Bool} {c : Clause Var} :
    Satisfies val [c] ↔ ∃ lit ∈ c, lit.Holds val := by
  simp [Satisfies]

/-- A partial assignment; `none` leaves the variable open. -/
abbrev Partial (Var : Type) := Var → Option Bool

def Literal.IsTrue (assigned : Partial Var) (literal : Literal Var) : Prop :=
  assigned literal.var = some literal.positive

def Literal.IsFalse (assigned : Partial Var) (literal : Literal Var) : Prop :=
  assigned literal.var = some (!literal.positive)

def Literal.IsOpen (assigned : Partial Var) (literal : Literal Var) : Prop := assigned literal.var = none

theorem Literal.cases (assigned : Partial Var) (lit : Literal Var) :
    lit.IsTrue assigned ∨ lit.IsFalse assigned ∨ lit.IsOpen assigned := by
  simp only [Literal.IsTrue, Literal.IsFalse, Literal.IsOpen]
  cases assigned lit.var with
  | none => simp
  | some v => cases v <;> cases lit.positive <;> simp

def Falsified (assigned : Partial Var) (clause : Clause Var) : Prop :=
  ∀ literal ∈ clause, literal.IsFalse assigned

def Consistent (assigned : Partial Var) (clauses : List (Clause Var)) : Prop :=
  ∀ clause ∈ clauses, ¬ Falsified assigned clause

def Extends (valuation : Var → Bool) (assigned : Partial Var) : Prop :=
  ∀ var value, assigned var = some value → valuation var = value

def SatisfiableUnder (assigned : Partial Var) (clauses : List (Clause Var)) : Prop :=
  ∃ valuation, Extends valuation assigned ∧ Satisfies valuation clauses

theorem Satisfiable.under {clauses : List (Clause Var)} (satisfiable : Satisfiable clauses) :
    SatisfiableUnder (fun _ => none) clauses := by
  obtain ⟨val, satisfies⟩ := satisfiable
  exact ⟨val, nofun, satisfies⟩

theorem SatisfiableUnder.consistent {assigned : Partial Var} {clauses : List (Clause Var)}
    (under : SatisfiableUnder assigned clauses) : Consistent assigned clauses := by
  obtain ⟨val, extension, satisfies⟩ := under
  intro c mem falsified
  obtain ⟨lit, hin, hh⟩ := satisfies c mem
  have opposite := extension _ _ (falsified lit hin)
  rw [hh] at opposite
  simp at opposite

theorem Consistent.satisfies {assigned : Partial Var} {clauses : List (Clause Var)}
    (con : Consistent assigned clauses)
    (total : ∀ c ∈ clauses, ∀ lit ∈ c, ¬ lit.IsOpen assigned) :
    Satisfies (fun var => assigned var == some true) clauses := by
  intro c mem
  have unfalsified := con c mem
  simp only [Falsified, not_forall] at unfalsified
  obtain ⟨lit, hin, unfalse⟩ := unfalsified
  refine ⟨lit, hin, ?_⟩
  rcases lit.cases assigned with hh | falsehood | opened
  · simp only [Literal.Holds, Literal.IsTrue] at hh ⊢
    rw [hh]
    cases lit.positive <;> rfl
  · exact absurd falsehood unfalse
  · exact absurd opened (total c mem lit hin)

end Semantics

section Steps

variable {Var : Type} [DecidableEq Var] {assigned : Partial Var} {clauses : List (Clause Var)}

theorem Extends.update {val : Var → Bool} {var : Var} {v : Bool}
    (extension : Extends val assigned) (eq : val var = v) :
    Extends val (update assigned var (some v)) := by
  intro other hit hb
  by_cases equal : other = var
  · subst equal
    rw [update_self, Option.some.injEq] at hb
    rw [eq, hb]
  · rw [update_of_ne equal] at hb
    exact extension other hit hb

theorem SatisfiableUnder.unit {c : Clause Var} (lit : Literal Var) (mem : c ∈ clauses)
    (rest : ∀ other ∈ c, other = lit ∨ other.IsFalse assigned)
    (under : SatisfiableUnder assigned clauses) :
    SatisfiableUnder (update assigned lit.var (some lit.positive)) clauses := by
  obtain ⟨val, extension, satisfies⟩ := under
  obtain ⟨other, hin, hh⟩ := satisfies c mem
  rcases rest other hin with eq | falsehood
  · subst eq
    exact ⟨val, extension.update hh, satisfies⟩
  · have opposite := extension _ _ falsehood
    rw [hh] at opposite
    simp at opposite

def Pure (clauses : List (Clause Var)) (var : Var) (value : Bool) : Prop :=
  ∀ clause ∈ clauses, ∀ literal ∈ clause, literal.var = var → literal.positive = value

theorem SatisfiableUnder.pure {var : Var} {v : Bool} (opened : assigned var = none)
    (pure : Pure clauses var v) (under : SatisfiableUnder assigned clauses) :
    SatisfiableUnder (update assigned var (some v)) clauses := by
  obtain ⟨val, extension, satisfies⟩ := under
  refine ⟨update val var v, ?_, ?_⟩
  · apply Extends.update
    · intro other hit hb
      have ne : other ≠ var := by
        intro eq
        rw [eq, opened] at hb
        cases hb
      rw [update_of_ne ne]
      exact extension other hit hb
    · exact update_self ..
  · intro c mem
    obtain ⟨lit, hin, hh⟩ := satisfies c mem
    refine ⟨lit, hin, ?_⟩
    by_cases eq : lit.var = var
    · rw [Literal.Holds, eq, update_self]
      exact (pure c mem lit hin eq).symm
    · rw [Literal.Holds, update_of_ne eq]
      exact hh

theorem Consistent.pure {var : Var} {v : Bool} (pure : Pure clauses var v)
    (con : Consistent assigned clauses) :
    Consistent (update assigned var (some v)) clauses := by
  intro c mem falsified
  apply con c mem
  intro lit hin
  have falsehood := falsified lit hin
  by_cases eq : lit.var = var
  · rw [Literal.IsFalse, eq, update_self, pure c mem lit hin eq] at falsehood
    cases v <;> simp at falsehood
  · rw [Literal.IsFalse, update_of_ne eq] at falsehood
    exact falsehood

theorem Consistent.decision {var : Var} {v : Bool} (opened : assigned var = none)
    (slack : ∀ c ∈ clauses, (∃ lit ∈ c, lit.IsTrue assigned) ∨
      ∃ one ∈ c, ∃ other ∈ c, one ≠ other ∧ one.IsOpen assigned ∧ other.IsOpen assigned) :
    Consistent (update assigned var (some v)) clauses := by
  intro c mem falsified
  rcases slack c mem with
    ⟨lit, hin, hh⟩ | ⟨one, inOne, other, inOther, ne, openOne, openOther⟩
  · have falsehood := falsified lit hin
    have elsewhere : lit.var ≠ var := by
      intro eq
      rw [Literal.IsTrue, eq, opened] at hh
      cases hh
    rw [Literal.IsFalse, update_of_ne elsewhere, hh] at falsehood
    simp at falsehood
  · have falsehood {lit : Literal Var} (hin : lit ∈ c) (free : lit.IsOpen assigned) :
        lit.var = var ∧ v = !lit.positive := by
      have hb := falsified lit hin
      by_cases eq : lit.var = var
      · rw [Literal.IsFalse, eq, update_self, Option.some.injEq] at hb
        exact ⟨eq, hb⟩
      · rw [Literal.IsFalse, update_of_ne eq, free] at hb
        cases hb
    have fst := falsehood inOne openOne
    have snd := falsehood inOther openOther
    apply ne
    cases one with
    | mk oneVar onePositive =>
      cases other with
      | mk otherVar otherPositive =>
        simp only [Literal.mk.injEq] at fst snd ⊢
        have signs : (!onePositive) = !otherPositive := fst.2.symm.trans snd.2
        exact ⟨fst.1.trans snd.1.symm, Bool.not_inj signs⟩

end Steps

end Cnf
