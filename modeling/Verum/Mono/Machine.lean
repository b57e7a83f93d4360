import Verum.Mono.Optimizer

namespace Mono

open Wire Vbc

/-- The registers, and all that the other instructions read and write. -/
structure Store (World : Type) where
  regs : UInt16 → Int64
  world : World

variable {World : Type}

namespace Store

def get (store : Store World) (reg : Reg) : Int64 := store.regs reg.index

def set (store : Store World) (reg : Reg) (value : Int64) : Store World :=
  { store with regs := Function.update store.regs reg.index value }

end Store

/-- What the instructions without a fixed meaning do; `none` is a fault. -/
structure Semantics (World : Type) where
  effect : Instruction → Store World → Option (Store World)
  otherBinop : BinaryIntOp → Int64 → Int64 → Option Int64

/-- Wrapping `i64` arithmetic; a division by zero is a fault. -/
def Semantics.intBinop (semantics : Semantics World) (op : BinaryIntOp) (a b : Int64) : Option Int64 :=
  match op with
  | .add => some (a + b)
  | .sub => some (a - b)
  | .mul => some (a * b)
  | .div => if b = 0 then none else some (a / b)
  | .mod => if b = 0 then none else some (a % b)
  | op => semantics.otherBinop op a b

/-- The offset of a jump has no effect on the store. -/
def execute (semantics : Semantics World) (instr : Instruction) (store : Store World) : Option (Store World) :=
  match instr with
  | .loadI dst value => some (store.set dst value)
  | .loadSmallI dst value => some (store.set dst value.toInt64)
  | .binaryI op dst a b => (semantics.intBinop op (store.get a) (store.get b)).map (store.set dst)
  | instr => semantics.effect (setJumpOffset 0 instr) store

def transfers : Instruction → List (Option Int32)
  | .jmp offset => [some offset]
  | .jmpIf _ offset => [none, some offset]
  | .jmpNot _ offset => [none, some offset]
  | .jmpCmp _ _ _ offset => [none, some offset]
  | .ctxProvide _ _ bodyOffset => [none, some bodyOffset]
  | .tryBegin handlerOffset => [none, some handlerOffset]
  | .switch _ defaultOffset cases => some defaultOffset :: cases.map fun case => some case.2
  | .ret _ => []
  | .retV => []
  | _ => [none]

structure State (World : Type) where
  pc : Nat
  store : Store World

/-- One instruction; `choice` picks the branch. `none` is a fault, a return, or the end of the code. -/
def step (semantics : Semantics World) (code : Slice) (choice : Nat) (state : State World) : Option (State World) :=
  if state.pc < code.length then
    match decodeInstruction code state.pc with
    | .ok instr after => do
      let store ← execute semantics instr state.store
      match ← (transfers instr)[choice]? with
      | none => some ⟨after, store⟩
      | some offset =>
        let target : Int := after + offset.toInt
        if 0 ≤ target then some ⟨target.toNat, store⟩ else none
    | _ => none
  else none

def run (semantics : Semantics World) (code : Slice) : List Nat → State World → Option (State World)
  | [], state => some state
  | choice :: path, state => (step semantics code choice state).bind (run semantics code path)

def jumps (code : Slice) (choice : Nat) (state : State World) : Bool :=
  match decodeInstruction code state.pc with
  | .ok instr _ => ((transfers instr)[choice]?.join).isSome
  | _ => false

/-- The constants that the linear scan tracks in front of instruction `index`. -/
def constsAt (instrs : List Instruction) (index : Nat) : Consts :=
  (instrs.take index).foldl (fun consts instr => (foldOne consts instr).1) .empty

def foldReads (consts : Consts) (instr : Instruction) (reg : UInt16) : Bool :=
  match (foldOne consts instr).2.2, instr with
  | true, .binaryI _ _ a b => reg = a.index || reg = b.index
  | _, _ => false

/-- The register that the pass knows the instruction to write; at `none` it drops all constants. -/
def writtenReg : Instruction → Option Reg
  | .loadI dst _ => some dst
  | .loadSmallI dst _ => some dst
  | .binaryI _ dst _ _ => some dst
  | _ => none

/-- A later fold uses the constant that is tracked for the register now. -/
def needed (consts : Consts) : List Instruction → UInt16 → Bool
  | [], _ => false
  | instr :: instrs, reg => foldReads consts instr reg ||
    match writtenReg instr with
    | some dst => decide (reg ≠ dst.index) && needed (foldOne consts instr).1 instrs reg
    | none => false

/-- The tracked constants that later folds use are what the registers hold. -/
def ConstsHold (consts : Consts) (instrs : List Instruction) (regs : UInt16 → Int64) : Prop :=
  ∀ reg value, needed consts instrs reg = true → consts reg = some value → regs reg = value

/-- Every jump of the run lands where the tracked constants that later folds use are what the registers hold. -/
def JumpsAgree (semantics : Semantics World) (code : Slice) (instrs : List Instruction) (starts : List Nat) :
    List Nat → State World → Prop
  | [], _ => True
  | choice :: path, state => ∀ next, step semantics code choice state = some next →
      (jumps code choice state = true → ∀ index, starts[index]? = some next.pc →
        ConstsHold (constsAt instrs index) (instrs.drop index) next.store.regs) ∧
      JumpsAgree semantics code instrs starts path next

section Folding

variable {semantics : Semantics World} {consts : Consts} {instr : Instruction} {store store' : Store World}

theorem foldOne_cases (consts : Consts) (instr : Instruction) :
    (foldOne consts instr).2 = (instr, false) ∨
      ∃ op dst a b va vb folded, instr = .binaryI op dst a b ∧ consts a.index = some va ∧
        consts b.index = some vb ∧ foldIntBinop op va vb = some folded ∧
        foldOne consts instr = (consts.insert dst folded, .loadI dst folded, true) := by
  fun_cases foldOne consts instr
  case case4 op dst a b va vb snd fst folded res plain =>
    exact .inr ⟨op, dst, a, b, va, vb, folded, rfl, fst, snd, res, rfl⟩
  all_goals exact .inl rfl

theorem intBinop_of_foldIntBinop {op : BinaryIntOp} {a b folded : Int64}
    (res : foldIntBinop op a b = some folded) : semantics.intBinop op a b = some folded := by
  cases op with
  | div | mod =>
    by_cases zero : b = 0
    · simp [foldIntBinop, zero] at res
    · simpa [foldIntBinop, Semantics.intBinop, zero] using res
  | pow | uDiv | uMod => cases res
  | add | sub | mul => exact res

theorem execute_foldOne {instrs : List Instruction} (hold : ConstsHold consts (instr :: instrs) store.regs) :
    execute semantics (foldOne consts instr).2.1 store = execute semantics instr store := by
  rcases foldOne_cases consts instr with kept | ⟨op, dst, a, b, va, vb, folded, rfl, fst, snd, res, eq⟩
  · rw [kept]
  · have left : store.get a = va := hold _ _ (by simp [needed, foldReads, eq]) fst
    have right : store.get b = vb := hold _ _ (by simp [needed, foldReads, eq]) snd
    rw [eq, execute, execute, left, right, intBinop_of_foldIntBinop res, Option.map_some]

theorem foldOne_written (semantics : Semantics World) {dst : Reg} (consts : Consts) (writes : writtenReg instr = some dst) :
    ∃ e, (foldOne consts instr).1 = Function.update consts dst.index e ∧
      ∀ store store' : Store World, execute semantics (foldOne consts instr).2.1 store = some store' →
        ∃ v, store' = store.set dst v ∧ (e = none ∨ e = some v) := by
  unfold writtenReg at writes
  split at writes
  case h_1 tgt v =>
    cases writes
    exact ⟨some v, rfl, fun store store' executed => by
      cases executed
      exact ⟨v, rfl, .inr rfl⟩⟩
  case h_2 tgt v =>
    cases writes
    exact ⟨some v.toInt64, rfl, fun store store' executed => by
      cases executed
      exact ⟨v.toInt64, rfl, .inr rfl⟩⟩
  case h_3 op tgt a b =>
    cases writes
    have out : foldOne consts (.binaryI op dst a b) = (consts.remove dst, .binaryI op dst a b, false) ∨
        ∃ folded, foldOne consts (.binaryI op dst a b) = (consts.insert dst folded, .loadI dst folded, true) := by
      simp only [foldOne, jumpOffset, isReturn, Option.isSome_none, Bool.or_self, Bool.false_eq_true, if_false]
      split
      · split
        · exact .inr ⟨_, rfl⟩
        · exact .inl rfl
      · exact .inl rfl
    rcases out with kept | ⟨folded, eq⟩
    · rw [kept]
      refine ⟨none, rfl, fun store store' executed => ?_⟩
      obtain ⟨v, _, rfl⟩ := Option.map_eq_some_iff.mp executed
      exact ⟨v, rfl, .inl rfl⟩
    · rw [eq]
      refine ⟨some folded, rfl, fun store store' executed => ?_⟩
      cases executed
      exact ⟨folded, rfl, .inr rfl⟩
  case h_4 => cases writes

theorem foldOne_dropped (consts : Consts) (writes : writtenReg instr = none) :
    (foldOne consts instr).1 = .empty := by
  fun_cases foldOne consts instr
  case case1 => rfl
  case case7 => rfl
  all_goals cases writes

theorem ConstsHold.step {instrs : List Instruction} (hold : ConstsHold consts (instr :: instrs) store.regs)
    (executed : execute semantics instr store = some store') :
    ConstsHold (foldOne consts instr).1 instrs store'.regs := by
  intro reg v isNeeded known
  cases writes : writtenReg instr with
  | none =>
    rw [foldOne_dropped consts writes] at known
    cases known
  | some dst =>
    obtain ⟨e, entryEq, written⟩ := foldOne_written semantics consts writes
    rw [← execute_foldOne hold] at executed
    obtain ⟨res, rfl, entryKnown⟩ := written store store' executed
    by_cases same : reg = dst.index
    · subst same
      rw [entryEq, Function.update_self] at known
      rcases entryKnown with rfl | rfl
      · cases known
      · cases known
        simp [Store.set]
    · have earlier : needed consts (instr :: instrs) reg = true := by
        simp [needed, writes, same, isNeeded]
      rw [entryEq, Function.update_of_ne same] at known
      simpa [Store.set, same] using hold reg v earlier known

theorem transfers_foldOne : transfers (foldOne consts instr).2.1 = transfers instr := by
  rcases foldOne_cases consts instr with kept | ⟨op, dst, a, b, va, vb, folded, rfl, _, _, _, eq⟩
  · rw [kept]
  · rw [eq]
    rfl

end Folding

end Mono
