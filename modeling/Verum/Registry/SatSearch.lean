import Mathlib.Data.Finset.Card
import Verum.Registry.SatResolver

open List

namespace Registry.SatResolver

open Cnf

variable {Version : Type} [DecidableEq Version]

def assigned (resolver : SatResolver Version) : Partial (CogVar Version) := fun var => (resolver.get var).join

structure WellFormed (resolver : SatResolver Version) : Prop where
  known : ∀ clause ∈ resolver.clauses, ∀ literal ∈ clause, literal.var ∈ resolver.assignments
  nonempty : ∀ clause ∈ resolver.clauses, clause ≠ []
  nodup : ∀ clause ∈ resolver.clauses, clause.Nodup

/-- The later resolver has the same variables and clauses and keeps every value. -/
structure Extension (before after : SatResolver Version) : Prop where
  clauses : after.clauses = before.clauses
  metadataCache : after.metadataCache = before.metadataCache
  vars : ∀ var, var ∈ after.assignments ↔ var ∈ before.assignments
  kept : ∀ var value, before.assigned var = some value → after.assigned var = some value

theorem Extension.refl (resolver : SatResolver Version) : Extension resolver resolver :=
  ⟨rfl, rfl, fun _ => .rfl, fun _ _ hb => hb⟩

theorem Extension.trans {fst snd third : SatResolver Version} (one : Extension fst snd)
    (two : Extension snd third) : Extension fst third where
  clauses := two.clauses.trans one.clauses
  metadataCache := two.metadataCache.trans one.metadataCache
  vars var := (two.vars var).trans (one.vars var)
  kept var value hb := two.kept var value (one.kept var value hb)

variable {before after resolver : SatResolver Version} {var : CogVar Version}

theorem Extension.wellFormed (extension : Extension before after) (wf : before.WellFormed) :
    after.WellFormed where
  known clause mem literal hin := by
    rw [extension.clauses] at mem
    exact (extension.vars _).mpr (wf.known clause mem literal hin)
  nonempty clause mem := wf.nonempty clause (extension.clauses ▸ mem)
  nodup clause mem := wf.nodup clause (extension.clauses ▸ mem)

theorem get_eq_assigned (known : var ∈ resolver.assignments) : resolver.get var = some (resolver.assigned var) := by
  have hit := AList.lookup_isSome.mpr known
  obtain ⟨value, hb⟩ := Option.isSome_iff_exists.mp hit
  simp [assigned, get, hb]

@[simp] theorem get_eq_some_none :
    resolver.get var = some none ↔ var ∈ resolver.assignments ∧ resolver.assigned var = none := by
  constructor
  · intro hb
    have known : var ∈ resolver.assignments := by
      rw [← AList.lookup_isSome, ← get, hb]
      rfl
    exact ⟨known, by simp [assigned, hb]⟩
  · intro ⟨known, hb⟩
    rw [get_eq_assigned known, hb]

@[simp] theorem assigned_assign (resolver : SatResolver Version) (var : CogVar Version) (value : Bool) :
    (resolver.assign var value).assigned = Function.update resolver.assigned var (some value) := by
  funext other
  by_cases eq : other = var
  · subst eq
    simp [assigned, get, assign]
  · simp [assigned, get, assign, eq, AList.lookup_insert_ne]

@[simp] theorem mem_assign {other : CogVar Version} {value : Bool} :
    other ∈ (resolver.assign var value).assignments ↔ other = var ∨ other ∈ resolver.assignments := by
  simp [assign]

theorem assign_extension (value : Bool) (opened : resolver.get var = some none) :
    Extension resolver (resolver.assign var value) := by
  rw [get_eq_some_none] at opened
  refine ⟨rfl, rfl, ?_, ?_⟩
  · intro other
    rw [mem_assign]
    constructor
    · rintro (eq | mem)
      · exact eq ▸ opened.1
      · exact mem
    · exact .inr
  · intro other hb hit
    have ne : other ≠ var := by
      intro eq
      rw [eq, opened.2] at hit
      cases hit
    rw [assigned_assign, Function.update_of_ne ne]
    exact hit

/-- The unassigned variables; every call of the search assigns one of them. -/
def openSet (resolver : SatResolver Version) : Finset (CogVar Version) :=
  resolver.assignments.keys.toFinset.filter fun var => resolver.assigned var = none

@[simp] theorem mem_openSet : var ∈ resolver.openSet ↔ resolver.get var = some none := by
  simp [openSet, AList.mem_keys]

theorem Extension.openSet (extension : Extension before after) : after.openSet ⊆ before.openSet := by
  intro var
  simp only [mem_openSet, get_eq_some_none, extension.vars]
  intro ⟨known, opened⟩
  refine ⟨known, ?_⟩
  cases hb : before.assigned var with
  | none => rfl
  | some value =>
    rw [extension.kept var value hb] at opened
    cases opened

theorem openSet_assign (value : Bool) (opened : resolver.get var = some none) :
    (resolver.assign var value).openSet.card < resolver.openSet.card := by
  apply Finset.card_lt_card
  rw [Finset.ssubset_iff_of_subset (assign_extension value opened).openSet]
  refine ⟨var, mem_openSet.mpr opened, ?_⟩
  simp

section Unit

variable {resolver : SatResolver Version}
variable {clause : Clause (CogVar Version)} {unassigned : Option (CogVar Version × Bool)}

theorem scanClause_eq_some {lit : Literal (CogVar Version)}
    (known : ∀ other ∈ clause, other.var ∈ resolver.assignments)
    (hit : resolver.scanClause unassigned clause = some (lit.var, lit.positive)) :
    (unassigned = some (lit.var, lit.positive) ∧ Falsified resolver.assigned clause) ∨
      (unassigned = none ∧ lit ∈ clause ∧ lit.IsOpen resolver.assigned ∧
        ∀ other ∈ clause, other = lit ∨ other.IsFalse resolver.assigned) := by
  induction clause generalizing unassigned with
  | nil => exact .inl ⟨hit, nofun⟩
  | cons head rest ih =>
    rw [forall_mem_cons] at known
    rw [scanClause, get_eq_assigned known.1] at hit
    cases hb : resolver.assigned head.var with
    | none =>
      simp only [hb] at hit
      split at hit
      · cases hit
      · next free =>
        rcases ih known.2 hit with ⟨eq, falsified⟩ | ⟨impossible, _⟩
        · obtain ⟨sameVar, samePositive⟩ := Prod.mk.inj (Option.some.inj eq)
          have eq : head = lit := by
            cases head
            cases lit
            simp_all
          subst eq
          refine .inr ⟨Option.not_isSome_iff_eq_none.mp free, by simp, hb, ?_⟩
          intro other hin
          rcases mem_cons.mp hin with eq | hin
          · exact .inl eq
          · exact .inr (falsified other hin)
        · cases impossible
    | some value =>
      simp only [hb] at hit
      split at hit
      · cases hit
      · next ne =>
        have falsehood : head.IsFalse resolver.assigned := by
          rw [Literal.IsFalse, hb, Option.some.injEq]
          exact Bool.eq_not_of_ne ne
        rcases ih known.2 hit with ⟨eq, falsified⟩ | ⟨eq, hin, opened, others⟩
        · exact .inl ⟨eq, forall_mem_cons.mpr ⟨falsehood, falsified⟩⟩
        · exact .inr ⟨eq, .tail _ hin, opened,
            forall_mem_cons.mpr ⟨.inr falsehood, others⟩⟩

theorem scanClause_eq_none (known : ∀ other ∈ clause, other.var ∈ resolver.assignments) (nodup : clause.Nodup)
    (missed : resolver.scanClause unassigned clause = none) :
    (∃ lit ∈ clause, lit.IsTrue resolver.assigned) ∨
      (unassigned ≠ none ∧ ∃ lit ∈ clause, lit.IsOpen resolver.assigned) ∨
      (unassigned = none ∧ Falsified resolver.assigned clause) ∨
      ∃ one ∈ clause, ∃ other ∈ clause, one ≠ other ∧ one.IsOpen resolver.assigned ∧
        other.IsOpen resolver.assigned := by
  induction clause generalizing unassigned with
  | nil => exact .inr (.inr (.inl ⟨missed, nofun⟩))
  | cons head rest ih =>
    rw [forall_mem_cons] at known
    rw [nodup_cons] at nodup
    rw [scanClause, get_eq_assigned known.1] at missed
    cases hb : resolver.assigned head.var with
    | none =>
      simp only [hb] at missed
      split at missed
      · next pending =>
        refine .inr (.inl ⟨?_, head, by simp, hb⟩)
        intro free
        simp [free] at pending
      · rcases ih known.2 nodup.2 missed with
          ⟨lit, hin, hh⟩ | ⟨_, lit, hin, opened⟩ | ⟨impossible, _⟩ |
            ⟨one, inOne, other, inOther, ne⟩
        · exact .inl ⟨lit, .tail _ hin, hh⟩
        · refine .inr (.inr (.inr ⟨head, by simp, lit, .tail _ hin, ?_, hb, opened⟩))
          intro eq
          exact nodup.1 (eq ▸ hin)
        · cases impossible
        · exact .inr (.inr (.inr ⟨one, .tail _ inOne, other, .tail _ inOther,
            ne⟩))
    | some value =>
      simp only [hb] at missed
      split at missed
      · next eq => exact .inl ⟨head, by simp, by rw [Literal.IsTrue, hb, eq]⟩
      · next ne =>
        have falsehood : head.IsFalse resolver.assigned := by
          rw [Literal.IsFalse, hb, Option.some.injEq]
          exact Bool.eq_not_of_ne ne
        rcases ih known.2 nodup.2 missed with
          ⟨lit, hin, hh⟩ | ⟨pending, lit, hin, opened⟩ | ⟨free, falsified⟩ |
            ⟨one, inOne, other, inOther, ne⟩
        · exact .inl ⟨lit, .tail _ hin, hh⟩
        · exact .inr (.inl ⟨pending, lit, .tail _ hin, opened⟩)
        · exact .inr (.inr (.inl ⟨free, forall_mem_cons.mpr ⟨falsehood, falsified⟩⟩))
        · exact .inr (.inr (.inr ⟨one, .tail _ inOne, other, .tail _ inOther,
            ne⟩))

theorem findUnitClause_eq_some (lit : Literal (CogVar Version)) (wf : resolver.WellFormed)
    (hit : resolver.findUnitClause = some (lit.var, lit.positive)) :
    ∃ clause ∈ resolver.clauses, lit ∈ clause ∧ lit.IsOpen resolver.assigned ∧
      ∀ other ∈ clause, other = lit ∨ other.IsFalse resolver.assigned := by
  obtain ⟨clause, mem, scanned⟩ := exists_of_findSome?_eq_some hit
  rcases scanClause_eq_some (wf.known clause mem) scanned with ⟨impossible, _⟩ | ⟨_, unit⟩
  · cases impossible
  · exact ⟨clause, mem, unit⟩

theorem findUnitClause_eq_none (wf : resolver.WellFormed)
    (con : Consistent resolver.assigned resolver.clauses) (missed : resolver.findUnitClause = none) :
    ∀ clause ∈ resolver.clauses, (∃ lit ∈ clause, lit.IsTrue resolver.assigned) ∨
      ∃ one ∈ clause, ∃ other ∈ clause, one ≠ other ∧ one.IsOpen resolver.assigned ∧
        other.IsOpen resolver.assigned := by
  intro clause mem
  have scanned := List.findSome?_eq_none_iff.mp missed clause mem
  rcases scanClause_eq_none (wf.known clause mem) (wf.nodup clause mem) scanned with
    hh | ⟨impossible, _⟩ | ⟨_, falsified⟩ | slack
  · exact .inl hh
  · exact absurd rfl impossible
  · exact absurd falsified (con clause mem)
  · exact .inr slack

theorem clauseConflicts_iff (known : ∀ other ∈ clause, other.var ∈ resolver.assignments) :
    resolver.clauseConflicts clause = true ↔ Falsified resolver.assigned clause := by
  simp only [clauseConflicts, Bool.and_eq_true, Bool.not_eq_true', all_eq_true, any_eq_false,
    decide_eq_true_eq]
  constructor
  · intro ⟨filled, unsatisfied⟩ lit hin
    have has := get_eq_assigned (known lit hin)
    have unopened := filled lit hin
    have untrue := unsatisfied lit hin
    rw [has] at unopened untrue
    rcases lit.cases resolver.assigned with hh | falsehood | opened
    · exact absurd (congrArg some hh) untrue
    · exact falsehood
    · exact absurd (congrArg some opened) unopened
  · intro falsified
    constructor
    · intro lit hin
      rw [get_eq_assigned (known lit hin), falsified lit hin]
      simp
    · intro lit hin
      rw [get_eq_assigned (known lit hin), falsified lit hin]
      simp

theorem hasConflict_eq_false (wf : resolver.WellFormed) :
    resolver.hasConflict = false ↔ Consistent resolver.assigned resolver.clauses := by
  simp only [hasConflict, any_eq_false, Consistent]
  constructor
  · intro quiet clause mem falsified
    exact quiet clause mem ((clauseConflicts_iff (wf.known clause mem)).mpr falsified)
  · intro con clause mem conflict
    exact con clause mem ((clauseConflicts_iff (wf.known clause mem)).mp conflict)

end Unit

section Propagation

variable {resolver after : SatResolver Version}

/-- What the propagation loop keeps and what its answer says. -/
structure Propagated (before after : SatResolver Version) (consistent : Bool) : Prop where
  extension : Extension before after
  decisionStack : after.decisionStack = before.decisionStack
  satisfiable : SatisfiableUnder before.assigned before.clauses →
    SatisfiableUnder after.assigned after.clauses
  quiet : consistent = true → Consistent before.assigned before.clauses →
    Consistent after.assigned after.clauses ∧ after.findUnitClause = none
  conflict : consistent = false → ¬ Consistent after.assigned after.clauses ∧ after.openSet ⊂ before.openSet

variable {fuel : Nat}

theorem propagate_spec {con : Bool} (wf : resolver.WellFormed)
    (done : propagate fuel resolver = some (con, after)) : Propagated resolver after con := by
  induction fuel generalizing resolver with
  | zero => cases done
  | succ fuel ih =>
    rw [propagate] at done
    split at done
    · next var value found =>
      let literal : Literal (CogVar Version) := { var, positive := value }
      obtain ⟨clause, mem, hin, opened, others⟩ := findUnitClause_eq_some literal wf found
      have known := wf.known clause mem literal hin
      have unset : resolver.get var = some none := get_eq_some_none.mpr ⟨known, opened⟩
      have extension := assign_extension value unset
      have formed' := extension.wellFormed wf
      have satisfiable : SatisfiableUnder resolver.assigned resolver.clauses →
          SatisfiableUnder (resolver.assign var value).assigned (resolver.assign var value).clauses := by
        intro under
        rw [assigned_assign]
        exact SatisfiableUnder.unit literal mem others under
      have smaller : (resolver.assign var value).openSet ⊂ resolver.openSet := by
        rw [Finset.ssubset_iff_of_subset extension.openSet]
        exact ⟨var, mem_openSet.mpr unset, by simp⟩
      dsimp only at done
      split at done
      · next conflict =>
        cases done
        refine ⟨extension, rfl, satisfiable, nofun, fun _ => ⟨?_, smaller⟩⟩
        rw [← hasConflict_eq_false formed', conflict]
        simp
      · next quiet =>
        rw [Bool.not_eq_true, hasConflict_eq_false formed'] at quiet
        have rest := ih formed' done
        exact ⟨extension.trans rest.extension, rest.decisionStack, fun under => rest.satisfiable (satisfiable under),
          fun answer _ => rest.quiet answer quiet,
          fun answer => ⟨(rest.conflict answer).1, (rest.conflict answer).2.trans smaller⟩⟩
    · next missed =>
      cases done
      exact ⟨.refl _, rfl, id, fun _ con => ⟨con, missed⟩, nofun⟩

theorem propagate_total (wf : resolver.WellFormed) (he : resolver.openSet.card < fuel) :
    ∃ res, propagate fuel resolver = some res := by
  induction fuel generalizing resolver with
  | zero => omega
  | succ fuel ih =>
    rw [propagate]
    split
    · next var value found =>
      obtain ⟨clause, mem, hin, opened, _⟩ :=
        findUnitClause_eq_some { var, positive := value } wf found
      have known := wf.known clause mem _ hin
      have unset : resolver.get var = some none := get_eq_some_none.mpr ⟨known, opened⟩
      have fewer := openSet_assign value unset
      dsimp only
      split
      · exact ⟨_, rfl⟩
      · exact ih ((assign_extension value unset).wellFormed wf) (by omega)
    · exact ⟨_, rfl⟩

end Propagation

section Stage

variable {iteration : Iteration} {resolver after : SatResolver Version}
variable {var : CogVar Version} {value : Bool} {fuel : Nat}

theorem mem_openVars {sign : Bool} : var ∈ resolver.openVars sign ↔ resolver.get var = some none ∧
      ∃ clause ∈ resolver.clauses, ∃ lit ∈ clause, lit.var = var ∧ lit.positive = sign := by
  simp only [openVars, mem_dedup, mem_map, mem_filter, mem_flatten, Bool.and_eq_true,
    decide_eq_true_eq]
  constructor
  · intro ⟨lit, ⟨⟨clause, mem, hin⟩, opened, signed⟩, eq⟩
    exact ⟨eq ▸ opened, clause, mem, lit, hin, eq, signed⟩
  · intro ⟨opened, clause, mem, lit, hin, eq, signed⟩
    exact ⟨lit, ⟨⟨clause, mem, hin⟩, eq ▸ opened, signed⟩, eq⟩

theorem pure_of_openVars (hin : var ∈ resolver.openVars value) (outside : var ∉ resolver.openVars (!value)) :
    resolver.get var = some none ∧ Pure resolver.clauses var value := by
  have opened := (mem_openVars.mp hin).1
  refine ⟨opened, ?_⟩
  intro clause mem lit occurs eq
  by_contra ne
  exact outside (mem_openVars.mpr ⟨opened, clause, mem, lit, occurs, eq, Bool.eq_not_of_ne ne⟩)

theorem findPureLiteral_eq_some (hit : resolver.findPureLiteral iteration = some (var, value)) :
    resolver.get var = some none ∧ Pure resolver.clauses var value := by
  simp only [findPureLiteral] at hit
  split at hit
  · next candidate fst =>
    cases hit
    have mem := (iteration.perm _ _).mem_iff.mp (mem_of_find?_eq_some fst)
    have outside := List.find?_some fst
    simp only [decide_eq_true_eq] at outside
    exact pure_of_openVars mem outside
  · rw [Option.map_eq_some_iff] at hit
    obtain ⟨candidate, snd, eq⟩ := hit
    cases eq
    have mem := (iteration.perm _ _).mem_iff.mp (mem_of_find?_eq_some snd)
    have outside := List.find?_some snd
    simp only [decide_eq_true_eq] at outside
    exact pure_of_openVars mem outside

theorem mem_unassignedVars : var ∈ resolver.unassignedVars ↔ resolver.get var = some none := by
  simp only [unassignedVars, mem_filter, decide_eq_true_eq, and_iff_right_iff_imp]
  intro opened
  exact (get_eq_some_none.mp opened).1

theorem allAssigned_iff : resolver.allAssigned = true ↔ ∀ var, resolver.get var ≠ some none := by
  simp only [allAssigned, all_eq_true, decide_eq_true_eq]
  constructor
  · intro filled var opened
    exact filled var (get_eq_some_none.mp opened).1 opened
  · intro filled var _
    exact filled var

theorem visited_extension (n : Nat) : Extension resolver (resolver.visited n) :=
  ⟨rfl, rfl, fun _ => .rfl, fun _ _ hb => hb⟩

variable [Ord Version]

theorem chooseVariable_eq_some (chosen : resolver.chooseVariable iteration = some var) :
    resolver.get var = some none := by
  rw [chooseVariable] at chosen
  have mem := mem_of_head? chosen
  rw [mem_insertionSort, (iteration.perm _ _).mem_iff] at mem
  exact mem_unassignedVars.mp mem

theorem chooseVariable_eq_none (missed : resolver.chooseVariable iteration = none) :
    resolver.allAssigned = true := by
  rw [chooseVariable, List.head?_eq_none_iff] at missed
  have empty := (perm_insertionSort _ _).symm.trans (.of_eq missed)
  have none := (iteration.perm _ _).symm.trans empty
  rw [allAssigned_iff]
  intro var opened
  have mem := mem_unassignedVars.mpr opened
  rw [List.Perm.eq_nil none] at mem
  cases mem

/-- What one call of `dpll` does before its recursive calls. -/
inductive Stage (Version : Type) where
  | conflict
  | solved
  | settle (var : CogVar Version) (value : Bool)
  | choice (var : CogVar Version)
  | stuck

def stage (iteration : Iteration) (fuel : Nat) (resolver : SatResolver Version) :
    Option (Stage Version × SatResolver Version) := do
  let (consistent, resolver) ← propagate fuel resolver
  if !consistent then return (.conflict, resolver)
  if resolver.allAssigned then return (.solved, resolver)
  match resolver.findPureLiteral iteration with
  | some (var, value) => return (.settle var value, resolver.visited 2)
  | none =>
    match (resolver.visited 2).chooseVariable iteration with
    | some var => return (.choice var, (resolver.visited 2).visited 1)
    | none => return (.stuck, (resolver.visited 2).visited 1)

theorem dpll_succ (fuel level : Nat) : dpll iteration (fuel + 1) level resolver = (do
    let (stage, resolver) ← stage iteration (fuel + 1) resolver
    match stage with
    | .conflict => return (false, resolver)
    | .solved => return (true, resolver)
    | .settle var value => dpll iteration fuel level (resolver.assign var value)
    | .choice var =>
      let (solved, resolver) ← dpll iteration fuel (level + 1) (resolver.takeDecision var true (level + 1))
      if solved then return (true, resolver)
      let resolver := resolver.backtrack level
      let (solved, resolver) ← dpll iteration fuel (level + 1) (resolver.takeDecision var false (level + 1))
      if solved then return (true, resolver)
      return (false, resolver.backtrack level)
    | .stuck => return (false, resolver)) := by
  rw [dpll, stage]
  cases propagate (fuel + 1) resolver with
  | none => rfl
  | some res =>
    obtain ⟨con, res⟩ := res
    cases con with
    | false => rfl
    | true =>
      simp only [Option.bind_eq_bind, Option.bind_some, Bool.not_true, Bool.false_eq_true, if_false]
      cases res.allAssigned with
      | true => rfl
      | false =>
        simp only [Bool.false_eq_true, if_false]
        cases res.findPureLiteral iteration with
        | some lit => rfl
        | none =>
          simp only
          cases (res.visited 2).chooseVariable iteration <;> rfl

def Stage.Spec (before after : SatResolver Version) : Stage Version → Prop
  | .conflict => ¬ Consistent after.assigned after.clauses ∧ after.openSet ⊂ before.openSet
  | .solved => (∀ var, after.get var ≠ some none) ∧
      (Consistent before.assigned before.clauses → Consistent after.assigned after.clauses)
  | .settle var value => after.get var = some none ∧ Pure after.clauses var value ∧
      (Consistent before.assigned before.clauses → Consistent after.assigned after.clauses)
  | .choice var => after.get var = some none ∧ (Consistent before.assigned before.clauses →
      ∀ value, Consistent (after.assign var value).assigned after.clauses)
  | .stuck => False

/-- The spec of a stage: its frame, and what its outcome says of the clauses. -/
structure Staged (before after : SatResolver Version) (stage : Stage Version) : Prop where
  extension : Extension before after
  decisionStack : after.decisionStack = before.decisionStack
  satisfiable : SatisfiableUnder before.assigned before.clauses →
    SatisfiableUnder after.assigned after.clauses
  outcome : stage.Spec before after

theorem stage_spec {next : Stage Version} (wf : resolver.WellFormed)
    (done : stage iteration fuel resolver = some (next, after)) : Staged resolver after next := by
  simp only [stage, Option.bind_eq_bind, Option.bind_eq_some_iff] at done
  obtain ⟨⟨con, res⟩, propagated, done⟩ := done
  have spec := propagate_spec wf propagated
  cases con with
  | false =>
    cases done
    exact ⟨spec.extension, spec.decisionStack, spec.satisfiable, spec.conflict rfl⟩
  | true =>
    have formed' := spec.extension.wellFormed wf
    simp only [Bool.not_true, Bool.false_eq_true, if_false] at done
    split at done
    · next filled =>
      cases done
      exact ⟨spec.extension, spec.decisionStack, spec.satisfiable, allAssigned_iff.mp filled,
        fun con => (spec.quiet rfl con).1⟩
    · next unfilled =>
      split at done
      · next var value hit =>
        cases done
        have pure := findPureLiteral_eq_some hit
        exact ⟨spec.extension.trans (visited_extension 2), spec.decisionStack, spec.satisfiable, pure.1, pure.2,
          fun con => (spec.quiet rfl con).1⟩
      · split at done
        · next var chosen =>
          cases done
          have opened := chooseVariable_eq_some chosen
          refine ⟨(spec.extension.trans (visited_extension 2)).trans (visited_extension 1), spec.decisionStack,
            spec.satisfiable, opened, ?_⟩
          intro con value
          obtain ⟨consistent', missed⟩ := spec.quiet rfl con
          have slack := findUnitClause_eq_none formed' consistent' missed
          rw [assigned_assign]
          exact Consistent.decision (get_eq_some_none.mp opened).2 slack
        · next missed => exact absurd (chooseVariable_eq_none missed) unfilled

theorem stage_total (iteration : Iteration) (wf : resolver.WellFormed) (he : resolver.openSet.card < fuel) :
    ∃ res, stage iteration fuel resolver = some res := by
  obtain ⟨⟨con, res⟩, propagated⟩ := propagate_total wf he
  simp only [stage, propagated, Option.bind_eq_bind, Option.bind_some]
  split
  · exact ⟨_, rfl⟩
  · split
    · exact ⟨_, rfl⟩
    · split
      · exact ⟨_, rfl⟩
      · split <;> exact ⟨_, rfl⟩

end Stage

section Backtrack

variable {resolver after : SatResolver Version}

/-- The state that a failed call leaves: a value assigned by propagation always stays behind. -/
structure Refuted (before after : SatResolver Version) : Prop where
  extension : Extension before after
  decisionStack : after.decisionStack = before.decisionStack
  stale : after.openSet ⊂ before.openSet

variable {var : CogVar Version} {value : Bool} {level : Nat}

theorem takeDecision_extension (value : Bool) (level : Nat) (opened : resolver.get var = some none) :
    Extension resolver (resolver.takeDecision var value level) := by
  obtain ⟨cs, metadataCache, vars, kept⟩ := assign_extension value opened
  exact ⟨cs, metadataCache, vars, kept⟩

theorem openSet_takeDecision (value : Bool) (level : Nat) (opened : resolver.get var = some none) :
    (resolver.takeDecision var value level).openSet.card < resolver.openSet.card :=
  openSet_assign value opened

theorem takeDecision_levels (ls : ∀ earlier ∈ resolver.decisionStack, earlier.level ≤ level) :
    ∀ earlier ∈ (resolver.takeDecision var value (level + 1)).decisionStack, earlier.level ≤ level + 1 := by
  intro earlier mem
  rcases mem_cons.mp mem with eq | mem
  · rw [eq]
  · have bounded := ls earlier mem
    omega

theorem backtrack_eq {decision : Decision Version} {rest : List (Decision Version)}
    (stack : after.decisionStack = decision :: rest) (above : level < decision.level)
    (ls : ∀ earlier ∈ rest, earlier.level ≤ level) : after.backtrack level =
      { after with assignments := after.assignments.insert decision.var none, decisionStack := rest } := by
  have settled (assignments : AList fun _ : CogVar Version => Option Bool) :
      undo level assignments rest = (assignments, rest) := by
    cases rest with
    | nil => rfl
    | cons earlier _ => rw [undo, if_pos (ls earlier mem_cons_self)]
  rw [backtrack, stack, undo, if_neg (by omega), settled]

theorem assigned_insert_none (var : CogVar Version) (rest : List (Decision Version)) :
    ({ resolver with assignments := resolver.assignments.insert var none, decisionStack := rest } :
      SatResolver Version).assigned = Function.update resolver.assigned var none := by
  funext other
  by_cases eq : other = var
  · subst eq
    simp [assigned, get]
  · simp [assigned, get, eq, AList.lookup_insert_ne]

theorem Refuted.backtrack (opened : resolver.get var = some none)
    (ls : ∀ earlier ∈ resolver.decisionStack, earlier.level ≤ level)
    (refuted : Refuted (resolver.takeDecision var value (level + 1)) after) :
    Refuted resolver (after.backtrack level) ∧ (after.backtrack level).get var = some none := by
  have unset := get_eq_some_none.mp opened
  have reset := backtrack_eq refuted.decisionStack (Nat.lt_succ_self level) ls
  have reopened : (after.backtrack level).assigned = Function.update after.assigned var none := by
    rw [reset]
    exact assigned_insert_none var _
  have vars (other : CogVar Version) :
      other ∈ (after.backtrack level).assignments ↔ other ∈ resolver.assignments := by
    have eq := refuted.extension.vars other
    rw [(takeDecision_extension value (level + 1) opened).vars] at eq
    rw [reset, AList.mem_insert, eq]
    constructor
    · rintro (rfl | mem)
      · exact unset.1
      · exact mem
    · exact .inr
  have extension : Extension resolver (after.backtrack level) := by
    refine ⟨?_, ?_, vars, ?_⟩
    · rw [reset]
      exact refuted.extension.clauses
    · rw [reset]
      exact refuted.extension.metadataCache
    · intro other hb hit
      have ne : other ≠ var := by
        intro eq
        rw [eq, unset.2] at hit
        cases hit
      rw [reopened, Function.update_of_ne ne]
      exact refuted.extension.kept other hb ((takeDecision_extension value (level + 1) opened).kept _ _ hit)
  have free : (after.backtrack level).get var = some none := by
    rw [get_eq_some_none, vars, reopened, Function.update_self]
    exact ⟨unset.1, rfl⟩
  have stack : (after.backtrack level).decisionStack = resolver.decisionStack := by
    rw [reset]
    rfl
  refine ⟨⟨extension, stack, ?_⟩, free⟩
  rw [Finset.ssubset_iff_of_subset extension.openSet]
  obtain ⟨other, hin, outside⟩ := (Finset.ssubset_iff_of_subset refuted.extension.openSet).mp refuted.stale
  refine ⟨other, (takeDecision_extension value (level + 1) opened).openSet hin, ?_⟩
  have ne : other ≠ var := by
    intro eq
    rw [eq, mem_openSet, get_eq_some_none] at hin
    simp [takeDecision, push, assigned, get, assign] at hin
  intro still
  apply outside
  rw [mem_openSet, get_eq_some_none] at still ⊢
  rw [reopened, Function.update_of_ne ne] at still
  refine ⟨?_, still.2⟩
  rw [refuted.extension.vars, (takeDecision_extension value (level + 1) opened).vars, ← vars]
  exact still.1

end Backtrack

section Search

variable [Ord Version] {iteration : Iteration} {resolver after : SatResolver Version}
variable {fuel level deepest : Nat}

theorem dpll_refuted (wf : resolver.WellFormed)
    (ls : ∀ earlier ∈ resolver.decisionStack, earlier.level ≤ level)
    (failed : dpll iteration fuel level resolver = some (false, after)) : Refuted resolver after := by
  induction fuel generalizing level resolver after with
  | zero => cases failed
  | succ fuel ih =>
    rw [dpll_succ, Option.bind_eq_bind, Option.bind_eq_some_iff] at failed
    obtain ⟨⟨stage, staged⟩, reached, failed⟩ := failed
    obtain ⟨extension, stack, _, out⟩ := stage_spec wf reached
    have formed' := extension.wellFormed wf
    rw [← stack] at ls
    cases stage with
    | conflict =>
      cases failed
      exact ⟨extension, stack, out.2⟩
    | solved => cases failed
    | settle var value =>
      have grown := assign_extension value out.1
      have rest := ih (grown.wellFormed formed') ls failed
      have larger : Extension resolver (staged.assign var value) := extension.trans grown
      exact ⟨larger.trans rest.extension, rest.decisionStack.trans stack, rest.stale.trans_subset larger.openSet⟩
    | stuck => exact out.elim
    | choice var =>
      simp only [Option.bind_eq_bind, Option.bind_eq_some_iff] at failed
      obtain ⟨⟨solved, fst⟩, tried, failed⟩ := failed
      cases solved with
      | true => cases failed
      | false =>
        have grown := (takeDecision_extension true (level + 1) out.1).wellFormed formed'
        have one := ih grown (takeDecision_levels ls) tried
        obtain ⟨back, reopened⟩ := one.backtrack out.1 ls
        simp only [Bool.false_eq_true, if_false, Option.bind_eq_some_iff] at failed
        obtain ⟨⟨solved, snd⟩, retried, failed⟩ := failed
        cases solved with
        | true => cases failed
        | false =>
          cases failed
          have formed'' := back.extension.wellFormed formed'
          have again := (takeDecision_extension false (level + 1) reopened).wellFormed formed''
          have levels' := ls
          rw [← back.decisionStack] at levels'
          have two := ih again (takeDecision_levels levels') retried
          obtain ⟨final, _⟩ := two.backtrack reopened levels'
          exact ⟨(extension.trans back.extension).trans final.extension,
            (final.decisionStack.trans back.decisionStack).trans stack,
            final.stale.trans (back.stale.trans_subset extension.openSet)⟩

/-- The search up to its first conflict, with the number of decisions it has made by then. -/
def firstDescent (iteration : Iteration) : Nat → Nat → SatResolver Version → Option (Bool × Nat)
  | 0, _, _ => none
  | fuel + 1, level, resolver => do
    let (stage, resolver) ← stage iteration (fuel + 1) resolver
    match stage with
    | .conflict | .stuck => return (false, level)
    | .solved => return (true, level)
    | .settle var value => firstDescent iteration fuel level (resolver.assign var value)
    | .choice var => firstDescent iteration fuel (level + 1) (resolver.takeDecision var true (level + 1))

theorem firstDescent_total (iteration : Iteration) (level : Nat) (wf : resolver.WellFormed)
    (he : resolver.openSet.card < fuel) :
    ∃ res, firstDescent iteration fuel level resolver = some res := by
  induction fuel generalizing level resolver with
  | zero => omega
  | succ fuel ih =>
    obtain ⟨⟨stage, staged⟩, reached⟩ := stage_total iteration wf he
    obtain ⟨extension, _, _, out⟩ := stage_spec wf reached
    have formed' := extension.wellFormed wf
    have fewer := Finset.card_le_card extension.openSet
    simp only [firstDescent, reached, Option.bind_eq_bind, Option.bind_some]
    cases stage with
    | conflict | solved | stuck => exact ⟨_, rfl⟩
    | settle var value =>
      have smaller := openSet_assign value out.1
      exact ih _ ((assign_extension value out.1).wellFormed formed') (by omega)
    | choice var =>
      have smaller := openSet_takeDecision true (level + 1) out.1
      exact ih _ ((takeDecision_extension true (level + 1) out.1).wellFormed formed') (by omega)

theorem firstDescent_solved (wf : resolver.WellFormed)
    (con : Consistent resolver.assigned resolver.clauses)
    (descended : firstDescent iteration fuel level resolver = some (true, deepest)) :
    ∃ after, dpll iteration fuel level resolver = some (true, after) ∧ Extension resolver after ∧
      Consistent after.assigned after.clauses ∧ ∀ var, after.get var ≠ some none := by
  induction fuel generalizing level resolver with
  | zero => cases descended
  | succ fuel ih =>
    simp only [firstDescent, Option.bind_eq_bind, Option.bind_eq_some_iff] at descended
    obtain ⟨⟨stage, staged⟩, reached, descended⟩ := descended
    obtain ⟨extension, _, _, out⟩ := stage_spec wf reached
    have formed' := extension.wellFormed wf
    rw [dpll_succ, reached]
    cases stage with
    | conflict | stuck => cases descended
    | solved => exact ⟨staged, rfl, extension, out.2 con, out.1⟩
    | settle var value =>
      have grown := assign_extension value out.1
      have consistent' : Consistent (staged.assign var value).assigned (staged.assign var value).clauses := by
        rw [assigned_assign]
        exact (out.2.2 con).pure out.2.1
      obtain ⟨after, solved, rest, model⟩ := ih (grown.wellFormed formed') consistent' descended
      exact ⟨after, solved, (extension.trans grown).trans rest, model⟩
    | choice var =>
      have grown := takeDecision_extension true (level + 1) out.1
      obtain ⟨after, solved, rest, model⟩ :=
        ih (grown.wellFormed formed') (out.2 con true) descended
      refine ⟨after, ?_, (extension.trans grown).trans rest, model⟩
      simp [solved]

theorem firstDescent_conflict (wf : resolver.WellFormed)
    (descended : firstDescent iteration fuel level resolver = some (false, deepest)) :
    level ≤ deepest ∧ (deepest = level →
      (∃ after, dpll iteration fuel level resolver = some (false, after)) ∧
      ¬ SatisfiableUnder resolver.assigned resolver.clauses) := by
  induction fuel generalizing level resolver with
  | zero => cases descended
  | succ fuel ih =>
    simp only [firstDescent, Option.bind_eq_bind, Option.bind_eq_some_iff] at descended
    obtain ⟨⟨stage, staged⟩, reached, descended⟩ := descended
    obtain ⟨extension, _, satisfiable, out⟩ := stage_spec wf reached
    have formed' := extension.wellFormed wf
    rw [dpll_succ, reached]
    cases stage with
    | conflict =>
      cases descended
      refine ⟨Nat.le_refl _, fun _ => ⟨⟨staged, rfl⟩, ?_⟩⟩
      intro under
      exact out.1 (satisfiable under).consistent
    | stuck => exact out.elim
    | solved => cases descended
    | settle var value =>
      have grown := assign_extension value out.1
      obtain ⟨le, eq⟩ := ih (grown.wellFormed formed') descended
      refine ⟨le, fun shallow => ⟨(eq shallow).1, ?_⟩⟩
      intro under
      apply (eq shallow).2
      rw [assigned_assign]
      exact (satisfiable under).pure (get_eq_some_none.mp out.1).2 out.2.1
    | choice var =>
      have grown := takeDecision_extension true (level + 1) out.1
      obtain ⟨le, _⟩ := ih (grown.wellFormed formed') descended
      exact ⟨by omega, fun shallow => by omega⟩

end Search

end Registry.SatResolver
