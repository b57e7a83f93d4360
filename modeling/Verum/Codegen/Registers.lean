import Verum.Vbc.TypeRef
import Mathlib.Data.List.AList

namespace Codegen

open Vbc

inductive ResourceDiscipline where
  | unknown
  | unrestricted
  | affine
  | linear
  deriving DecidableEq

structure BindingFact where
  id : UInt32
  declarationType : Option TypeRef
  discipline : ResourceDiscipline

/-- The facts the allocator keeps through the recorder: the active and the forwarded ones. -/
structure ValueUseRecorder where
  nextBinding : UInt32
  active : Reg → Option BindingFact
  forwarded : Reg → Option BindingFact

namespace ValueUseRecorder

def empty : ValueUseRecorder := ⟨0, fun _ => none, fun _ => none⟩

def allocate (uses : ValueUseRecorder) (reg : Reg) : UInt32 × ValueUseRecorder :=
  let id := uses.nextBinding
  (id, { uses with
    nextBinding := if id = UInt32.ofNat (2 ^ 32 - 1) then id else id + 1
    active := Function.update uses.active reg (some ⟨id, none, .unknown⟩) })

def forget (uses : ValueUseRecorder) (reg : Reg) : Option BindingFact × ValueUseRecorder :=
  (uses.active reg, { uses with
    active := Function.update uses.active reg none
    forwarded := Function.update uses.forwarded reg none })

end ValueUseRecorder

inductive RegisterKind where
  | parameter
  | «local»
  | temporary
  | captured
  deriving DecidableEq

structure RegisterInfo where
  bindingId : UInt32
  reg : Reg
  isMutable : Bool
  isInitialized : Bool
  declaredUninit : Bool
  scopeLevel : Nat
  kind : RegisterKind
  isCell : Bool
  isPatternAlias : Bool
  deriving DecidableEq

/-- What a scope remembers: the names bound in it, in order, and what they shadowed. -/
structure ScopeMarker (Hints : Type) where
  scopeVars : List String
  shadowedVars : List (String × RegisterInfo × Option Hints)
  shadowedValueFacts : List (Reg × BindingFact)

def ScopeMarker.empty {Hints : Type} : ScopeMarker Hints := ⟨[], [], []⟩

/-- The innermost scope stands first, and so does the register freed last. -/
structure RegisterAllocator (Hints : Type) where
  nextReg : UInt16
  vars : AList fun _ : String => RegisterInfo
  scopeStack : List (ScopeMarker Hints)
  peakUsage : UInt16
  freeList : List Reg
  recycleTemps : Bool
  valueUses : ValueUseRecorder

namespace RegisterAllocator

variable {Hints : Type}

def new : RegisterAllocator Hints where
  nextReg := 0
  vars := ∅
  scopeStack := [.empty]
  peakUsage := 0
  freeList := []
  recycleTemps := true
  valueUses := .empty

def lookup (alloc : RegisterAllocator Hints) (name : String) : Option RegisterInfo := alloc.vars.lookup name

def getReg (alloc : RegisterAllocator Hints) (name : String) : Option Reg := (alloc.lookup name).map (·.reg)

/-- A register that is never recycled. -/
def allocFresh (alloc : RegisterAllocator Hints) : Reg × RegisterAllocator Hints :=
  (⟨alloc.nextReg⟩, { alloc with
    nextReg := alloc.nextReg + 1
    peakUsage := max alloc.peakUsage (alloc.nextReg + 1) })

def allocTemp (alloc : RegisterAllocator Hints) : Reg × RegisterAllocator Hints :=
  match alloc.recycleTemps, alloc.freeList with
  | true, reg :: rest =>
    (reg, { alloc with freeList := rest, valueUses := (alloc.valueUses.forget reg).2 })
  | _, _ => alloc.allocFresh

/-- Only a register that no variable has is released. -/
def freeTemp (alloc : RegisterAllocator Hints) (reg : Reg) : RegisterAllocator Hints :=
  if alloc.recycleTemps && !alloc.vars.entries.any (fun entry => entry.2.reg == reg) then
    { alloc with
      freeList := reg :: alloc.freeList
      valueUses := (alloc.valueUses.forget reg).2 }
  else alloc

def shadow (alloc : RegisterAllocator Hints) (name : String) (hints : Option Hints) (scope : ScopeMarker Hints) :
    ScopeMarker Hints :=
  match alloc.lookup name with
  | none => scope
  | some old => { scope with
      shadowedVars := scope.shadowedVars ++ [(name, old, hints)]
      shadowedValueFacts := match alloc.valueUses.active old.reg with
        | some fact => scope.shadowedValueFacts ++ [(old.reg, fact)]
        | none => scope.shadowedValueFacts }

def allocLocalWithHints (alloc : RegisterAllocator Hints) (name : String) (isMutable : Bool)
    (hints : Option Hints) : Reg × RegisterAllocator Hints :=
  let (reg, alloc) := alloc.allocFresh
  let (bindingId, valueUses) := alloc.valueUses.allocate reg
  let alloc := { alloc with valueUses := valueUses }
  let scopeLevel := alloc.scopeStack.length - 1
  let scopeStack := match alloc.scopeStack with
    | [] => []
    | scope :: outer =>
      let scope := alloc.shadow name hints scope
      { scope with scopeVars := scope.scopeVars ++ [name] } :: outer
  (reg, { alloc with
    scopeStack := scopeStack
    vars := alloc.vars.insert name
      { bindingId, reg, isMutable, scopeLevel
        isInitialized := true
        declaredUninit := false
        kind := .«local»
        isCell := false
        isPatternAlias := false } })

def allocLocal (alloc : RegisterAllocator Hints) (name : String) (isMutable : Bool) :
    Reg × RegisterAllocator Hints :=
  alloc.allocLocalWithHints name isMutable none

def enterScope (alloc : RegisterAllocator Hints) : RegisterAllocator Hints :=
  { alloc with scopeStack := .empty :: alloc.scopeStack }

/-- Remove the variables of a scope, reporting each with its register and declared type. -/
def removeVars : List String → RegisterAllocator Hints →
    List (String × Reg × Option TypeRef) × RegisterAllocator Hints
  | [], alloc => ([], alloc)
  | name :: names, alloc =>
    match alloc.lookup name with
    | none => removeVars names alloc
    | some info =>
      let (fact, valueUses) := alloc.valueUses.forget info.reg
      let (removed, alloc) := removeVars names { alloc with
        vars := alloc.vars.erase name
        valueUses := valueUses
        freeList := if alloc.recycleTemps && info.kind == .«local» then info.reg :: alloc.freeList
          else alloc.freeList }
      ((name, info.reg, fact.bind (·.declarationType)) :: removed, alloc)

def restoreVars (shadowed : List (String × RegisterInfo × Option Hints))
    (vars : AList fun _ : String => RegisterInfo) : AList fun _ : String => RegisterInfo :=
  shadowed.reverse.foldl (fun vars entry => vars.insert entry.1 entry.2.1) vars

def restoreFacts (facts : List (Reg × BindingFact)) (uses : ValueUseRecorder) : ValueUseRecorder :=
  { uses with active := facts.reverse.foldl (fun active entry =>
      Function.update active entry.1 (some entry.2)) uses.active }

/-- The variables removed, and the hints handed back for the bindings restored. -/
def exitScopeWithHints (alloc : RegisterAllocator Hints) :
    List (String × Reg × Option TypeRef) × List (String × Hints) × RegisterAllocator Hints :=
  match alloc.scopeStack with
  | [] => ([], [], alloc)
  | scope :: outer =>
    let (removed, alloc) := removeVars scope.scopeVars { alloc with scopeStack := outer }
    let hints := scope.shadowedVars.reverse.filterMap fun entry => entry.2.2.map (entry.1, ·)
    (removed, hints, { alloc with
      valueUses := restoreFacts scope.shadowedValueFacts alloc.valueUses
      vars := restoreVars scope.shadowedVars alloc.vars })

def exitScope (alloc : RegisterAllocator Hints) : List (String × Reg) × RegisterAllocator Hints :=
  let (removed, _, alloc) := alloc.exitScopeWithHints
  (removed.map fun entry => (entry.1, entry.2.1), alloc)

def reset (alloc : RegisterAllocator Hints) : RegisterAllocator Hints :=
  { (new : RegisterAllocator Hints) with recycleTemps := alloc.recycleTemps }

def bindParameters (alloc : RegisterAllocator Hints) (index : Nat) :
    List (String × Bool) → List Reg × RegisterAllocator Hints
  | [] => ([], alloc)
  | (name, isMutable) :: params =>
    let reg : Reg := ⟨UInt16.ofNat index⟩
    let (bindingId, valueUses) := alloc.valueUses.allocate reg
    let (regs, alloc) := bindParameters { alloc with
      valueUses := valueUses
      vars := alloc.vars.insert name
        { bindingId, reg, isMutable
          isInitialized := true
          declaredUninit := false
          scopeLevel := 0
          kind := .parameter
          isCell := false
          isPatternAlias := false } } (index + 1) params
    (reg :: regs, alloc)

def allocParameters (alloc : RegisterAllocator Hints) (params : List (String × Bool)) :
    List Reg × RegisterAllocator Hints :=
  let (regs, alloc) := alloc.bindParameters 0 params
  (regs, { alloc with
    nextReg := UInt16.ofNat params.length
    peakUsage := max alloc.peakUsage (UInt16.ofNat params.length) })

def reserve (alloc : RegisterAllocator Hints) (count : UInt16) : Reg × RegisterAllocator Hints :=
  (⟨alloc.nextReg⟩, { alloc with
    nextReg := alloc.nextReg + count
    peakUsage := max alloc.peakUsage (alloc.nextReg + count) })

def registerCount (alloc : RegisterAllocator Hints) : UInt16 := alloc.peakUsage

end RegisterAllocator

/-- The calls between an entry and its exit. -/
inductive Call where
  | allocLocal (name : String) (isMutable : Bool)
  | allocTemp
  | freeTemp (reg : Reg)
  | enterScope
  | exitScope
  deriving DecidableEq

/-- A balanced sequence of calls. -/
inductive Body where
  | done
  | allocLocal (name : String) (isMutable : Bool) (rest : Body)
  | allocTemp (rest : Body)
  | freeTemp (reg : Reg) (rest : Body)
  | scope (inner rest : Body)
  deriving DecidableEq

namespace Body

def calls : Body → List Call
  | done => []
  | allocLocal name isMutable rest => .allocLocal name isMutable :: rest.calls
  | allocTemp rest => .allocTemp :: rest.calls
  | freeTemp reg rest => .freeTemp reg :: rest.calls
  | scope inner rest => .enterScope :: (inner.calls ++ .exitScope :: rest.calls)

def names : Body → List String
  | done => []
  | allocLocal name _ rest => name :: rest.names
  | allocTemp rest => rest.names
  | freeTemp _ rest => rest.names
  | scope _ rest => rest.names

end Body

namespace RegisterAllocator

variable {Hints : Type}

def call (alloc : RegisterAllocator Hints) : Call → RegisterAllocator Hints
  | .allocLocal name isMutable => (alloc.allocLocal name isMutable).2
  | .allocTemp => alloc.allocTemp.2
  | .freeTemp reg => alloc.freeTemp reg
  | .enterScope => alloc.enterScope
  | .exitScope => alloc.exitScope.2

def run (alloc : RegisterAllocator Hints) (calls : List Call) : RegisterAllocator Hints :=
  calls.foldl call alloc

/-- The bindings the calls introduce in the scope itself, each with the register it was given. -/
def introduced (alloc : RegisterAllocator Hints) : Body → List (String × Reg)
  | .done => []
  | .allocLocal name isMutable rest =>
    (name, (alloc.allocLocal name isMutable).1) :: (alloc.allocLocal name isMutable).2.introduced rest
  | .allocTemp rest => alloc.allocTemp.2.introduced rest
  | .freeTemp reg rest => (alloc.freeTemp reg).introduced rest
  | .scope inner rest => (alloc.run (.enterScope :: (inner.calls ++ [.exitScope]))).introduced rest

end RegisterAllocator

end Codegen
