import Mathlib.Data.List.Basic

namespace Sqlite.Session

inductive Conflict where
  | dataMismatch
  | notFound
  | conflict
  | constraint
  | foreignKey
  | replaceFailed
  deriving DecidableEq

inductive ConflictResolution where
  | skip
  | replace
  | abort
  | omit
  deriving DecidableEq

structure ApplyReport where
  applied : Nat
  skipped : Nat
  replaced : Nat
  aborted : Bool
  abortReason : Option Conflict
  deriving DecidableEq

def reportZero : ApplyReport := ⟨0, 0, 0, false, none⟩

inductive ApplyDecision (Change : Type) where
  | applied (change : Change)
  | skipped (change : Change) (k : Conflict)
  | replaced (change : Change)
  | omitted (change : Change) (k : Conflict)
  | aborted (change : Change) (k : Conflict)
  deriving DecidableEq

/-- A resolver with its own state. -/
structure ConflictResolver (Change : Type) where
  State : Type
  resolve : State → Change → Conflict → State × ConflictResolution

def abortAlways (Change : Type) : ConflictResolver Change := ⟨Unit, fun _ _ _ => ((), .abort)⟩

/-- The storage adapter: `check` reads the store, and `apply` gives the changed store unless the storage
rejects the change. -/
structure Target (Store Change : Type) where
  check : Store → Change → Option Conflict
  apply : Store → Change → Option Store

section Engine

variable {Store Change : Type} (target : Target Store Change) (resolver : ConflictResolver Change)

/-- The resolver decides about a change; a replacement that the storage rejects aborts the run. -/
def arbitrate (store : Store) (state : resolver.State) (cur : Change) (k : Conflict) :
    Store × resolver.State × ApplyDecision Change :=
  let (state, resolution) := resolver.resolve state cur k
  match resolution with
  | .skip => (store, state, .skipped cur k)
  | .replace =>
    match target.apply store cur with
    | some store => (store, state, .replaced cur)
    | none => (store, state, .aborted cur .replaceFailed)
  | .omit => (store, state, .omitted cur k)
  | .abort => (store, state, .aborted cur k)

def applyOne (store : Store) (state : resolver.State) (cur : Change) :
    Store × resolver.State × ApplyDecision Change :=
  match target.check store cur with
  | none =>
    match target.apply store cur with
    | some store => (store, state, .applied cur)
    | none => arbitrate target resolver store state cur .replaceFailed
  | some k => arbitrate target resolver store state cur k

def ApplyReport.record (report : ApplyReport) : ApplyDecision Change → ApplyReport
  | .applied _ => { report with applied := report.applied + 1 }
  | .skipped _ _ => { report with skipped := report.skipped + 1 }
  | .replaced _ => { report with replaced := report.replaced + 1 }
  | .omitted _ _ => report
  | .aborted _ k => { report with aborted := true, abortReason := some k }

def ApplyDecision.isAborted : ApplyDecision Change → Bool
  | .aborted _ _ => true
  | _ => false

def applyLoop : List Change → Store → resolver.State → ApplyReport → List (ApplyDecision Change) →
    Store × ApplyReport × List (ApplyDecision Change)
  | [], store, _, report, decisions => (store, report, decisions)
  | cur :: changes, store, state, report, decisions =>
    let (store, state, decision) := applyOne target resolver store state cur
    let report := report.record decision
    let decisions := decisions ++ [decision]
    if decision.isAborted then (store, report, decisions)
    else applyLoop changes store state report decisions

def apply (changes : List Change) (state : resolver.State) (store : Store) :
    Store × ApplyReport × List (ApplyDecision Change) :=
  applyLoop target resolver changes store state reportZero []

end Engine

section Atomicity

variable {Store Change : Type} (target : Target Store Change) (resolver : ConflictResolver Change)

def persisted : List (ApplyDecision Change) → List Change :=
  List.filterMap fun
    | .applied change => some change
    | .replaced change => some change
    | _ => none

def omissions (decisions : List (ApplyDecision Change)) : Nat :=
  decisions.countP fun
    | .omitted _ _ => true
    | _ => false

def perform (store : Store) (changes : List Change) : Option Store := changes.foldlM target.apply store

/-- An aborted run leaves the store as it was, and another one persists what it reports. -/
def AppliesAtomically (changes : List Change) (state : resolver.State) (store : Store) : Prop :=
  let (store', report, decisions) := apply target resolver changes state store
  (report.aborted = true → store' = store) ∧
    (report.aborted = false → perform target store (persisted decisions) = some store' ∧
      report.applied + report.skipped + report.replaced + omissions decisions = changes.length)

/-- The changes are handled one after the other, and none of them aborts. -/
inductive Passes : Store → resolver.State → List Change → Store → resolver.State → Prop
  | nil (store : Store) (state : resolver.State) : Passes store state [] store state
  | cons {store store' : Store} {state state' : resolver.State} {change : Change} {changes : List Change}
      (goesOn : (applyOne target resolver store state change).2.2.isAborted = false)
      (rest : Passes (applyOne target resolver store state change).1 (applyOne target resolver store state change).2.1
        changes store' state') : Passes store state (change :: changes) store' state'

def AbortsUntouched (changes : List Change) (state : resolver.State) (store : Store) : Prop :=
  ∀ before change after store' state', changes = before ++ change :: after →
    Passes target resolver store state before store' state' →
      (applyOne target resolver store' state' change).2.2.isAborted = true → store' = store

/-- What a round of the loop does to the store, as it reports it. -/
inductive Handled (store : Store) (cur : Change) : Store → ApplyDecision Change → Prop
  | applied {store' : Store} (persists : target.apply store cur = some store') : Handled store cur store' (.applied cur)
  | replaced {store' : Store} (persists : target.apply store cur = some store') : Handled store cur store' (.replaced cur)
  | skipped (k : Conflict) : Handled store cur store (.skipped cur k)
  | omitted (k : Conflict) : Handled store cur store (.omitted cur k)
  | aborted (k : Conflict) : Handled store cur store (.aborted cur k)

theorem arbitrate_handled (store : Store) (state : resolver.State) (cur : Change) (k : Conflict) :
    Handled target store cur (arbitrate target resolver store state cur k).1
      (arbitrate target resolver store state cur k).2.2 := by
  unfold arbitrate
  dsimp only
  split
  · exact .skipped k
  · split
    · next persists => exact .replaced persists
    · exact .aborted .replaceFailed
  · exact .omitted k
  · exact .aborted k

theorem applyOne_handled (store : Store) (state : resolver.State) (cur : Change) :
    Handled target store cur (applyOne target resolver store state cur).1
      (applyOne target resolver store state cur).2.2 := by
  unfold applyOne
  split
  · split
    · next persists => exact .applied persists
    · exact arbitrate_handled target resolver store state cur .replaceFailed
  · exact arbitrate_handled target resolver store state cur _

variable {target resolver}
variable {store store' : Store} {cur : Change} {state : resolver.State} {changes : List Change}
  {report : ApplyReport} {decisions : List (ApplyDecision Change)}

theorem Handled.of_aborted {decision : ApplyDecision Change} (handled : Handled target store cur store' decision)
    (aborts : decision.isAborted = true) : store' = store := by
  cases handled with
  | aborted k => rfl
  | applied | replaced | skipped | omitted => cases aborts

theorem applyLoop_cons : applyLoop target resolver (cur :: changes) store state report decisions =
      if (applyOne target resolver store state cur).2.2.isAborted then
        ((applyOne target resolver store state cur).1, report.record (applyOne target resolver store state cur).2.2,
          decisions ++ [(applyOne target resolver store state cur).2.2])
      else
        applyLoop target resolver changes (applyOne target resolver store state cur).1
          (applyOne target resolver store state cur).2.1 (report.record (applyOne target resolver store state cur).2.2)
          (decisions ++ [(applyOne target resolver store state cur).2.2]) := rfl

theorem applyLoop_aborts {pre : List Change} {change : Change} {state' : resolver.State}
    (passes : Passes target resolver store state pre store' state')
    (aborts : (applyOne target resolver store' state' change).2.2.isAborted = true) (after : List Change)
    (report : ApplyReport) (decisions : List (ApplyDecision Change)) :
    (applyLoop target resolver (pre ++ change :: after) store state report decisions).1 = store' ∧
      (applyLoop target resolver (pre ++ change :: after) store state report decisions).2.1.aborted = true := by
  induction passes generalizing report decisions with
  | nil store state =>
    rw [List.nil_append, applyLoop_cons, if_pos aborts]
    refine ⟨(applyOne_handled target resolver store state change).of_aborted aborts, ?_⟩
    cases isDecision : (applyOne target resolver store state change).2.2 with
    | aborted => rfl
    | applied | skipped | replaced | omitted =>
      rw [isDecision] at aborts
      cases aborts
  | cons goesOn _ ih =>
    rw [List.cons_append, applyLoop_cons, if_neg (by rw [goesOn]; decide)]
    exact ih aborts _ _

theorem exists_abort (started : report.aborted = false)
    (aborted : (applyLoop target resolver changes store state report decisions).2.1.aborted = true) :
    ∃ pre change after store' state', changes = pre ++ change :: after ∧
      Passes target resolver store state pre store' state' ∧
      (applyOne target resolver store' state' change).2.2.isAborted = true := by
  induction changes generalizing store state report decisions with
  | nil =>
    have notAborted : report.aborted = true := aborted
    rw [started] at notAborted
    cases notAborted
  | cons cur changes ih =>
    rw [applyLoop_cons] at aborted
    by_cases stops : (applyOne target resolver store state cur).2.2.isAborted = true
    · exact ⟨[], cur, changes, store, state, rfl, .nil store state, stops⟩
    · rw [if_neg stops] at aborted
      have goesOn := Bool.eq_false_iff.mpr stops
      have still : (report.record (applyOne target resolver store state cur).2.2).aborted = false := by
        cases isDecision : (applyOne target resolver store state cur).2.2 with
        | aborted =>
          rw [isDecision] at goesOn
          cases goesOn
        | applied | skipped | replaced | omitted => exact started
      obtain ⟨pre, change, after, store', state', rfl, passes, aborts⟩ := ih still aborted
      exact ⟨cur :: pre, change, after, store', state', rfl, .cons goesOn passes, aborts⟩

theorem applyLoop_persists
    (finished : (applyLoop target resolver changes store state report decisions).2.1.aborted = false) :
    ∃ new, (applyLoop target resolver changes store state report decisions).2.2 = decisions ++ new ∧
      perform target store (persisted new) =
        some (applyLoop target resolver changes store state report decisions).1 ∧
      (applyLoop target resolver changes store state report decisions).2.1.applied +
          (applyLoop target resolver changes store state report decisions).2.1.skipped +
          (applyLoop target resolver changes store state report decisions).2.1.replaced + omissions new =
        report.applied + report.skipped + report.replaced + changes.length := by
  induction changes generalizing store state report decisions with
  | nil => exact ⟨[], (List.append_nil _).symm, rfl, rfl⟩
  | cons cur changes ih =>
    rw [applyLoop_cons] at finished ⊢
    have handled := applyOne_handled target resolver store state cur
    generalize applyOne target resolver store state cur = res at finished handled ⊢
    obtain ⟨store', state', decision⟩ := res
    dsimp only at finished handled ⊢
    have goesOn : ¬ decision.isAborted = true := by
      intro aborts
      cases handled with
      | aborted k => cases finished
      | applied | replaced | skipped | omitted => cases aborts
    rw [if_neg goesOn] at finished ⊢
    obtain ⟨new, isNew, performs, counts⟩ := ih finished
    refine ⟨decision :: new, by rw [isNew, List.append_assoc]; rfl, ?_, ?_⟩
    · rw [← performs]
      cases handled with
      | applied persists | replaced persists => simp [perform, persisted, persists]
      | skipped | omitted | aborted => rfl
    · rw [List.length_cons]
      cases handled with
      | aborted k => exact absurd rfl goesOn
      | applied | replaced | skipped | omitted =>
        simp only [ApplyReport.record, omissions, List.countP_cons, Bool.false_eq_true, if_false, if_true] at counts ⊢
        omega

end Atomicity

/-- Numbers are inserted into a list, and one that is present conflicts. -/
def numbers : Target (List Nat) Nat :=
  ⟨fun store change => if change ∈ store then some .conflict else none, fun store change => some (change :: store)⟩

end Sqlite.Session
