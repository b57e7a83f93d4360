import Verum.Layout.Relaxation
import Verum.Vbc.InstructionRoundTrip

open List

namespace Vbc

def jumpOffset : Instruction → Option Int32
  | .jmp offset => some offset
  | .jmpIf _ offset => some offset
  | .jmpNot _ offset => some offset
  | .jmpCmp _ _ _ offset => some offset
  | .ctxProvide _ _ bodyOffset => some bodyOffset
  | .tryBegin handlerOffset => some handlerOffset
  | _ => none

def setJumpOffset (offset : Int32) : Instruction → Instruction
  | .jmp _ => .jmp offset
  | .jmpIf cond _ => .jmpIf cond offset
  | .jmpNot cond _ => .jmpNot cond offset
  | .jmpCmp op a b _ => .jmpCmp op a b offset
  | .ctxProvide ctxType value _ => .ctxProvide ctxType value offset
  | .tryBegin _ => .tryBegin offset
  | instr => instr

/-- `Some((idx as i32 + *offset) as usize)` for every jump. -/
def jumpTargets (instructions : List Instruction) : List (Option Nat) :=
  instructions.mapIdx fun idx instr =>
    (jumpOffset instr).map fun offset => (Int32.ofNat idx + offset).toInt64.toUInt64.toNat

/-- The running sum of the instruction sizes, with the end position last. -/
def byteOffsetsFrom (current : Nat) : List Instruction → List Nat
  | [] => [current]
  | instr :: rest => current :: byteOffsetsFrom (current + instructionSize instr) rest

def byteOffsets (instructions : List Instruction) : List Nat := byteOffsetsFrom 0 instructions

def fixupOne (offsets : List Nat) (target : Option Nat) (idx : Nat) (instr : Instruction) : Instruction × Bool :=
  match target.bind (offsets[·]?) with
  | none => (instr, false)
  | some targetByte =>
    let instrEndByte := offsets.getD idx 0 + instructionSize instr
    let newOffset := Int32.ofNat targetByte - Int32.ofNat instrEndByte
    match jumpOffset instr with
    | none => (instr, false)
    | some offset => if offset ≠ newOffset then (setJumpOffset newOffset instr, true) else (instr, false)

def fixupRound (targets : List (Option Nat)) (instructions : List Instruction) : List Instruction × Bool :=
  let results := instructions.mapIdx fun idx instr =>
    fixupOne (byteOffsets instructions) (targets.getD idx none) idx instr
  (results.map Prod.fst, results.any Prod.snd)

/-- `for iteration in 0..rounds`, left when nothing changed. -/
def fixupRounds (targets : List (Option Nat)) : Nat → List Instruction → List Instruction
  | 0, instructions => instructions
  | rounds + 1, instructions =>
    if (fixupRound targets instructions).2 then fixupRounds targets rounds (fixupRound targets instructions).1
    else (fixupRound targets instructions).1

def fixupJumpOffsets (instructions : List Instruction) : List Instruction :=
  fixupRounds (jumpTargets instructions) 10 instructions

def encodeInstructionsWithFixup (instructions : List Instruction) : List UInt8 :=
  encodeInstructions (fixupJumpOffsets instructions)

section Arithmetic

theorem int32_sub_toInt {a b : Nat} (left : a < 2 ^ 31) (right : b < 2 ^ 31) :
    (Int32.ofNat a - Int32.ofNat b).toInt = (a : Int) - b := by
  rw [Int32.toInt_sub, Int32.toInt_ofNat_of_lt left, Int32.toInt_ofNat_of_lt right]
  exact Int.bmod_eq_of_le (by omega) (by omega)

theorem target_index {idx length : Nat} {offset : Int32} (few : length < 2 ^ 31) (hin : idx < length)
    (lower : 0 ≤ idx + offset.toInt) (upper : idx + offset.toInt ≤ length) :
    (Int32.ofNat idx + offset).toInt64.toUInt64.toNat = (idx + offset.toInt).toNat := by
  have small : idx < 2 ^ 31 := by omega
  have sum : (Int32.ofNat idx + offset).toInt = idx + offset.toInt := by
    rw [Int32.toInt_add, Int32.toInt_ofNat_of_lt small]
    exact Int.bmod_eq_of_le (by omega) (by omega)
  have wide : (Int32.ofNat idx + offset).toInt64.toInt = idx + offset.toInt := by
    rw [Int32.toInt_toInt64, sum]
  have nonneg : (0 : Int64) ≤ (Int32.ofNat idx + offset).toInt64 := by
    rw [Int64.le_iff_toInt_le, wide]
    exact lower
  rw [Int64.toNat_toUInt64_of_le nonneg, Int64.toNatClampNeg, wide]

end Arithmetic

section Shape

def offsetWidth (offset : Int) : Nat := (encodeSignedVarint (Int64.ofInt offset)).length

def fixedSize (instr : Instruction) : Nat :=
  match jumpOffset instr with
  | some offset => instructionSize instr - offsetWidth offset.toInt
  | none => instructionSize instr

variable {instr : Instruction} {offset : Int32}

theorem jumpOffset_cases (hit : jumpOffset instr = some offset) :
    instr = .jmp offset ∨ (∃ cond, instr = .jmpIf cond offset) ∨ (∃ cond, instr = .jmpNot cond offset) ∨
      (∃ op a b, instr = .jmpCmp op a b offset) ∨ (∃ ctxType v, instr = .ctxProvide ctxType v offset) ∨
        instr = .tryBegin offset := by
  unfold jumpOffset at hit
  split at hit
  all_goals cases hit
  · exact .inl rfl
  · exact .inr (.inl ⟨_, rfl⟩)
  · exact .inr (.inr (.inl ⟨_, rfl⟩))
  · exact .inr (.inr (.inr (.inl ⟨_, _, _, rfl⟩)))
  · exact .inr (.inr (.inr (.inr (.inl ⟨_, _, rfl⟩))))
  · exact .inr (.inr (.inr (.inr (.inr rfl))))

theorem jumpOffset_setJumpOffset (hit : jumpOffset instr = some offset) (new : Int32) :
    jumpOffset (setJumpOffset new instr) = some new := by
  rcases jumpOffset_cases hit with rfl | ⟨_, rfl⟩ | ⟨_, rfl⟩ | ⟨_, _, _, rfl⟩ | ⟨_, _, rfl⟩ | rfl
  all_goals rfl

theorem setJumpOffset_none (found : jumpOffset instr = none) (new : Int32) : setJumpOffset new instr = instr := by
  unfold setJumpOffset
  split
  all_goals first
    | rfl
    | cases found

theorem setJumpOffset_setJumpOffset (fst snd : Int32) (instr : Instruction) :
    setJumpOffset snd (setJumpOffset fst instr) = setJumpOffset snd instr := by
  cases hit : jumpOffset instr with
  | none => rw [setJumpOffset_none hit]
  | some offset =>
    rcases jumpOffset_cases hit with rfl | ⟨_, rfl⟩ | ⟨_, rfl⟩ | ⟨_, _, _, rfl⟩ | ⟨_, _, rfl⟩ | rfl
    all_goals rfl

theorem offsetWidth_toInt (offset : Int32) : offsetWidth offset.toInt = (encodeSignedVarint offset.toInt64).length := by
  unfold offsetWidth
  rw [← Int32.toInt_toInt64, Int64.ofInt_toInt]

theorem emit_concat (opcode : Opcode) (fs : List (List UInt8)) (last : List UInt8) :
    emit opcode (fs ++ [last]) = emit opcode fs ++ last := by
  simp [emit]

theorem encodeInstruction_jump (hit : jumpOffset instr = some offset) :
    ∃ head, ∀ new : Int32, encodeInstruction (setJumpOffset new instr) = head ++ encodeSignedVarint new.toInt64 := by
  rcases jumpOffset_cases hit with rfl | ⟨cond, rfl⟩ | ⟨cond, rfl⟩ | ⟨op, a, b, rfl⟩ | ⟨ctxType, v, rfl⟩ | rfl
  · exact ⟨_, fun _ => emit_concat .jmp [] _⟩
  · exact ⟨_, fun _ => emit_concat .jmpIf [encodeReg cond] _⟩
  · exact ⟨_, fun _ => emit_concat .jmpNot [encodeReg cond] _⟩
  · exact ⟨_, fun _ => emit_concat (jmpCmpOpToOpcode op) [encodeReg a, encodeReg b] _⟩
  · exact ⟨_, fun _ => emit_concat .ctxProvide [encodeVarint ctxType.toNat, encodeReg v] _⟩
  · exact ⟨_, fun _ => emit_concat .tryBegin [] _⟩

theorem setJumpOffset_self (hit : jumpOffset instr = some offset) : setJumpOffset offset instr = instr := by
  rcases jumpOffset_cases hit with rfl | ⟨_, rfl⟩ | ⟨_, rfl⟩ | ⟨_, _, _, rfl⟩ | ⟨_, _, rfl⟩ | rfl
  all_goals rfl

theorem instructionSize_setJumpOffset (hit : jumpOffset instr = some offset) (new : Int32) :
    instructionSize (setJumpOffset new instr) = fixedSize instr + offsetWidth new.toInt := by
  obtain ⟨head, layout⟩ := encodeInstruction_jump hit
  have own := layout offset
  rw [setJumpOffset_self hit] at own
  simp only [fixedSize, hit, instructionSize, layout, own, length_append, offsetWidth_toInt]
  omega

theorem fixedSize_setJumpOffset (new : Int32) (instr : Instruction) :
    fixedSize (setJumpOffset new instr) = fixedSize instr := by
  cases hit : jumpOffset instr with
  | none => rw [setJumpOffset_none hit]
  | some offset =>
    have moved := instructionSize_setJumpOffset hit new
    have eq := jumpOffset_setJumpOffset hit new
    rw [fixedSize, eq]
    simp only
    omega

theorem jumpOffset_isSome_setJumpOffset (new : Int32) (instr : Instruction) :
    (jumpOffset (setJumpOffset new instr)).isSome = (jumpOffset instr).isSome := by
  cases hit : jumpOffset instr with
  | none => rw [setJumpOffset_none hit, hit]
  | some offset => rw [jumpOffset_setJumpOffset hit]; rfl

end Shape

section Refinement

/-- The jumps of a function as branches: every target is an instruction index. -/
def jumpBranches (source : List Instruction) : Layout.Branches where
  fixed index := (source[index]?.map fixedSize).getD 0
  target index := source[index]?.bind fun instr =>
    (jumpOffset instr).map fun offset => ((index : Int) + offset.toInt).toNat
  width := offsetWidth

def storedOffsets (instructions : List Instruction) (index : Nat) : Int :=
  ((instructions[index]?.bind jumpOffset).map Int32.toInt).getD 0

/-- The two sequences differ in jump offsets only. -/
def SameShape (source instructions : List Instruction) : Prop :=
  instructions.map (setJumpOffset 0) = source.map (setJumpOffset 0)

variable {source instructions : List Instruction}

theorem SameShape.length (eq : SameShape source instructions) : instructions.length = source.length := by
  have lengths := congrArg List.length eq
  simpa using lengths

theorem SameShape.getElem? (eq : SameShape source instructions) (index : Nat) :
    instructions[index]?.map (setJumpOffset 0) = source[index]?.map (setJumpOffset 0) := by
  have es := congrArg (fun es : List Instruction => es[index]?) eq
  simpa using es

variable {index : Nat} {instr : Instruction} {offsets : List Nat} {offset : Int32}

theorem SameShape.get (eq : SameShape source instructions) (hit : instructions[index]? = some instr) :
    ∃ original, source[index]? = some original ∧ fixedSize instr = fixedSize original ∧
      (jumpOffset instr).isSome = (jumpOffset original).isSome := by
  have e := eq.getElem? index
  rw [hit] at e
  cases origin : source[index]? with
  | none => rw [origin] at e; cases e
  | some original =>
    rw [origin] at e
    simp only [Option.map_some, Option.some.injEq] at e
    refine ⟨original, rfl, ?_, ?_⟩
    · rw [← fixedSize_setJumpOffset 0 instr, e, fixedSize_setJumpOffset]
    · rw [← jumpOffset_isSome_setJumpOffset 0 instr, e, jumpOffset_isSome_setJumpOffset]

theorem instructionSize_eq_size (eq : SameShape source instructions) (hit : instructions[index]? = some instr) :
    instructionSize instr = (jumpBranches source).size (storedOffsets instructions) index := by
  obtain ⟨original, origin, sizes, jumps⟩ := eq.get hit
  simp only [Layout.Branches.size, jumpBranches, storedOffsets, origin, hit, Option.map_some, Option.getD_some,
    Option.bind_some]
  cases held : jumpOffset instr with
  | none =>
    rw [held] at jumps
    cases kept : jumpOffset original with
    | some _ => rw [kept] at jumps; cases jumps
    | none =>
      have whole : fixedSize instr = instructionSize instr := by rw [fixedSize, held]
      simp only [Option.map_none, ← sizes, whole, Nat.add_zero]
  | some offset =>
    rw [held] at jumps
    cases kept : jumpOffset original with
    | none => rw [kept] at jumps; cases jumps
    | some _ =>
      have whole := instructionSize_setJumpOffset held offset
      rw [setJumpOffset_self held] at whole
      simp only [Option.map_some, Option.getD_some, ← sizes, whole]

theorem encodeInstructions_append (fst snd : List Instruction) :
    encodeInstructions (fst ++ snd) = encodeInstructions fst ++ encodeInstructions snd :=
  flatMap_append

theorem encodeInstructions_cons (instr : Instruction) (rest : List Instruction) :
    encodeInstructions (instr :: rest) = encodeInstruction instr ++ encodeInstructions rest :=
  flatMap_cons

theorem encodedStart_eq_start (eq : SameShape source instructions) (hin : index ≤ instructions.length) :
    (encodeInstructions (instructions.take index)).length =
      (jumpBranches source).start (storedOffsets instructions) index := by
  induction index with
  | zero => rfl
  | succ index ih =>
    have hb : index < instructions.length := hin
    have hit : instructions[index]? = some instructions[index] := List.getElem?_eq_getElem hb
    rw [Layout.Branches.start_succ, ← ih (by omega), ← instructionSize_eq_size eq hit,
      take_succ_eq_append_getElem hb, encodeInstructions_append, length_append, encodeInstructions_cons,
      length_append]
    rfl

theorem byteOffsetsFrom_getElem? (cur index : Nat) (instructions : List Instruction)
    (hin : index ≤ instructions.length) :
    (byteOffsetsFrom cur instructions)[index]? =
      some (cur + (encodeInstructions (instructions.take index)).length) := by
  induction instructions generalizing cur index with
  | nil =>
    obtain rfl : index = 0 := by simpa using hin
    rfl
  | cons instr rest ih =>
    cases index with
    | zero => rfl
    | succ index =>
      have hl := ih (cur + instructionSize instr) index (by simpa using hin)
      rw [byteOffsetsFrom, List.getElem?_cons_succ, hl, take_succ_cons, encodeInstructions_cons,
        length_append, Nat.add_assoc]
      rfl

theorem byteOffsets_getElem? (eq : SameShape source instructions) (hin : index ≤ instructions.length) :
    (byteOffsets instructions)[index]? =
      some ((jumpBranches source).start (storedOffsets instructions) index) := by
  rw [byteOffsets, byteOffsetsFrom_getElem? 0 index instructions hin, Nat.zero_add, encodedStart_eq_start eq hin]

theorem fixupOne_shape (offsets : List Nat) (tgt : Option Nat) (idx : Nat) (instr : Instruction) :
    setJumpOffset 0 (fixupOne offsets tgt idx instr).1 = setJumpOffset 0 instr := by
  unfold fixupOne
  split
  · rfl
  · dsimp only
    split
    · rfl
    · split
      · exact setJumpOffset_setJumpOffset _ 0 instr
      · rfl

theorem fixupOne_unchanged {tgt : Option Nat} {idx : Nat}
    (eq : (fixupOne offsets tgt idx instr).2 = false) : (fixupOne offsets tgt idx instr).1 = instr := by
  unfold fixupOne at eq ⊢
  split
  · rfl
  · rename_i targetByte hit
    rw [hit] at eq
    dsimp only at eq ⊢
    split
    · rfl
    · rename_i offset held
      rw [held] at eq
      dsimp only at eq ⊢
      split
      · rename_i differs
        rw [if_pos differs] at eq
        cases eq
      · rfl

theorem fixupRound_getElem? (targets : List (Option Nat)) (instructions : List Instruction) (index : Nat) :
    (fixupRound targets instructions).1[index]? =
      instructions[index]?.map fun instr =>
        (fixupOne (byteOffsets instructions) (targets.getD index none) index instr).1 := by
  simp [fixupRound, List.getElem?_mapIdx, Function.comp_def]

theorem fixupRound_shape (targets : List (Option Nat)) (eq : SameShape source instructions) :
    SameShape source (fixupRound targets instructions).1 := by
  refine Eq.trans ?_ eq
  refine ext_getElem? fun index => ?_
  rw [List.getElem?_map, List.getElem?_map, fixupRound_getElem?, Option.map_map]
  refine congrFun (congrArg _ ?_) _
  funext instr
  exact fixupOne_shape _ _ _ _

theorem fixupRound_unchanged {targets : List (Option Nat)} (eq : (fixupRound targets instructions).2 = false) :
    (fixupRound targets instructions).1 = instructions := by
  refine ext_getElem? fun index => ?_
  rw [fixupRound_getElem?]
  cases hit : instructions[index]? with
  | none => rfl
  | some instr =>
    simp only [fixupRound, any_eq_false] at eq
    have mem : fixupOne (byteOffsets instructions) (targets.getD index none) index instr ∈
        instructions.mapIdx fun idx instr => fixupOne (byteOffsets instructions) (targets.getD idx none) idx instr := by
      refine mem_of_getElem? (i := index) ?_
      simp [List.getElem?_mapIdx, hit]
    rw [Option.map_some, fixupOne_unchanged (Bool.eq_false_iff.mpr (eq _ mem))]

/-- Every jump of the source goes to an instruction or to the end of the code. -/
def TargetsInside (source : List Instruction) : Prop :=
  ∀ idx < source.length, ∀ offset ∈ source[idx]?.bind jumpOffset,
    0 ≤ (idx : Int) + offset.toInt ∧ (idx : Int) + offset.toInt ≤ source.length

instance (source : List Instruction) : Decidable (TargetsInside source) :=
  @Nat.decidableBallLT source.length _ fun _ _ => Option.decidableForallMem _

theorem jumpTargets_getD (hin : TargetsInside source) (few : source.length < 2 ^ 31) (idx : Nat) :
    (jumpTargets source).getD idx none = (jumpBranches source).target idx := by
  simp only [jumpTargets, jumpBranches, getD_eq_getElem?_getD, List.getElem?_mapIdx]
  cases hit : source[idx]? with
  | none => rfl
  | some instr =>
    have hb : idx < source.length := (List.getElem?_eq_some_iff.mp hit).1
    simp only [Option.map_some, Option.getD_some, Option.bind_some]
    cases held : jumpOffset instr with
    | none => rfl
    | some offset =>
      have hr := hin idx hb offset (by rw [hit]; exact held)
      rw [Option.map_some, Option.map_some, target_index few hb hr.1 hr.2]

theorem fixupOne_jump {tgt idx targetByte : Nat} (held : jumpOffset instr = some offset)
    (reach : offsets[tgt]? = some targetByte) : jumpOffset (fixupOne offsets (some tgt) idx instr).1 =
      some (Int32.ofNat targetByte - Int32.ofNat (offsets.getD idx 0 + instructionSize instr)) := by
  simp only [fixupOne, Option.bind_some, reach, held]
  split
  · exact jumpOffset_setJumpOffset held _
  · rename_i eq
    rw [held, Classical.not_not.mp eq]

theorem storedOffsets_jump (hit : instructions[index]? = some instr) (held : jumpOffset instr = some offset) :
    storedOffsets instructions index = offset.toInt := by
  simp only [storedOffsets, hit, Option.bind_some, held, Option.map_some, Option.getD_some]

theorem start_lt_of_fits (eq : SameShape source instructions) (hin : index ≤ instructions.length)
    (hf : (encodeInstructions instructions).length < 2 ^ 31) :
    (jumpBranches source).start (storedOffsets instructions) index < 2 ^ 31 := by
  rw [← encodedStart_eq_start eq hin]
  have whole : encodeInstructions instructions =
      encodeInstructions (instructions.take index) ++ encodeInstructions (instructions.drop index) := by
    rw [← encodeInstructions_append, take_append_drop]
  have lengths := congrArg List.length whole
  rw [length_append] at lengths
  omega

theorem fixupRound_relax (eq : SameShape source instructions) (hin : TargetsInside source)
    (hf : (encodeInstructions instructions).length < 2 ^ 31) :
    storedOffsets (fixupRound (jumpTargets source) instructions).1 =
      (jumpBranches source).relax (storedOffsets instructions) := by
  have length := eq.length
  have few : source.length < 2 ^ 31 := by
    have n := length_le_encodeInstructions instructions
    omega
  have rounded := fixupRound_getElem? (jumpTargets source) instructions
  funext index
  have e := rounded index
  rw [jumpTargets_getD hin few] at e
  cases hit : instructions[index]? with
  | none =>
    have missing : source[index]? = none := by
      have shape := eq.getElem? index
      rw [hit] at shape
      exact Option.map_eq_none_iff.mp shape.symm
    rw [hit] at e
    simp only [storedOffsets, e, Layout.Branches.relax, jumpBranches, missing, hit, Option.map_none,
      Option.bind_none]
  | some instr =>
    rw [hit, Option.map_some] at e
    obtain ⟨original, origin, _, jumps⟩ := eq.get hit
    cases held : jumpOffset instr with
    | none =>
      rw [held] at jumps
      have plain : jumpOffset original = none := Option.not_isSome_iff_eq_none.mp (by rw [← jumps]; simp)
      have still : (jumpBranches source).target index = none := by
        simp only [jumpBranches, origin, Option.bind_some, plain, Option.map_none]
      rw [still] at e
      simp only [storedOffsets, e, Layout.Branches.relax, still, hit, Option.bind_some, fixupOne, held,
        Option.bind_none]
    | some offset =>
      rw [held] at jumps
      obtain ⟨fst, jump⟩ := Option.isSome_iff_exists.mp jumps.symm
      have hb : index < instructions.length := (List.getElem?_eq_some_iff.mp hit).1
      have hr := hin index (by omega) fst (by rw [origin]; exact jump)
      have goes : (jumpBranches source).target index = some ((index : Int) + fst.toInt).toNat := by
        simp only [jumpBranches, origin, Option.bind_some, jump, Option.map_some]
      have reach : ((index : Int) + fst.toInt).toNat ≤ instructions.length := by omega
      have finish : (byteOffsets instructions).getD index 0 + instructionSize instr =
          (jumpBranches source).start (storedOffsets instructions) (index + 1) := by
        rw [getD_eq_getElem?_getD, byteOffsets_getElem? eq (by omega), Option.getD_some,
          Layout.Branches.start_succ, instructionSize_eq_size eq hit]
      rw [goes] at e
      have stored := storedOffsets_jump e (fixupOne_jump held (byteOffsets_getElem? eq reach))
      rw [stored, finish, int32_sub_toInt (start_lt_of_fits eq reach hf) (start_lt_of_fits eq hb hf),
        Layout.Branches.relax, goes]

theorem fixupRounds_relax {rounds : Nat} (eq : SameShape source instructions) (hin : TargetsInside source)
    (hf : ∀ done ≤ rounds, (encodeInstructions (fixupRounds (jumpTargets source) done instructions)).length < 2 ^ 31) :
    SameShape source (fixupRounds (jumpTargets source) rounds instructions) ∧
      storedOffsets (fixupRounds (jumpTargets source) rounds instructions) =
        (jumpBranches source).relax^[rounds] (storedOffsets instructions) := by
  induction rounds generalizing instructions with
  | zero => exact ⟨eq, rfl⟩
  | succ rounds ih =>
    have step := fixupRound_relax eq hin (hf 0 (by omega))
    have shape := fixupRound_shape (jumpTargets source) eq
    by_cases changed : (fixupRound (jumpTargets source) instructions).2 = true
    · simp only [fixupRounds, changed, if_true, Function.iterate_succ_apply]
      rw [← step]
      refine ih shape fun done le => ?_
      have hb := hf (done + 1) (by omega)
      simpa only [fixupRounds, changed, if_true] using hb
    · have kept := fixupRound_unchanged (Bool.eq_false_iff.mpr changed)
      rw [kept] at step
      simp only [fixupRounds, changed, if_false, Bool.false_eq_true, kept]
      exact ⟨eq, (Layout.Branches.iterate_relax_eq step.symm _).symm⟩

/-- In `final`, the offset of every jump of `source`, counted from the end of the jump, is the byte position of
    the instruction that the jump of `source` names by its index. -/
def JumpsLand (source final : List Instruction) : Prop :=
  ∀ idx < source.length, ∀ offset ∈ source[idx]?.bind jumpOffset, ∃ landed ∈ final[idx]?.bind jumpOffset,
    ((encodeInstructions (final.take (idx + 1))).length : Int) + landed.toInt =
      (encodeInstructions (final.take ((idx : Int) + offset.toInt).toNat)).length

/-- Ten rounds of relaxation, from the index offsets on, settle the offsets of the jumps. -/
def RelaxesInTen (source : List Instruction) : Prop :=
  (jumpBranches source).relax^[11] (storedOffsets source) = (jumpBranches source).relax^[10] (storedOffsets source)

theorem jumpsLand_iff_lands (eq : SameShape source instructions) (hin : TargetsInside source) :
    JumpsLand source instructions ↔ (jumpBranches source).Lands (storedOffsets instructions) := by
  have length := eq.length
  constructor
  · intro lands index tgt goes
    cases origin : source[index]? with
    | none => simp [jumpBranches, origin] at goes
    | some original =>
      have hb : index < source.length := (List.getElem?_eq_some_iff.mp origin).1
      simp only [jumpBranches, origin, Option.bind_some, Option.map_eq_some_iff] at goes
      obtain ⟨offset, jump, rfl⟩ := goes
      have hr := hin index hb offset (by rw [origin]; exact jump)
      obtain ⟨landed, held, reached⟩ := lands index hb offset (by rw [origin]; exact jump)
      obtain ⟨instr, hit, held⟩ := Option.bind_eq_some_iff.mp held
      rw [storedOffsets_jump hit held, ← encodedStart_eq_start eq (by omega), ← encodedStart_eq_start eq (by omega)]
      exact reached
  · intro lands index hb offset held
    obtain ⟨original, origin, jump⟩ := Option.bind_eq_some_iff.mp held
    have hr := hin index hb offset held
    have goes : (jumpBranches source).target index = some ((index : Int) + offset.toInt).toNat := by
      simp only [jumpBranches, origin, Option.bind_some, jump, Option.map_some]
    have hw : index < instructions.length := by omega
    have hit : instructions[index]? = some instructions[index] := List.getElem?_eq_getElem hw
    obtain ⟨other, origin', _, jumps⟩ := eq.get hit
    rw [origin] at origin'
    cases origin'
    rw [jump] at jumps
    obtain ⟨landed, stored⟩ := Option.isSome_iff_exists.mp jumps
    have reached := lands index _ goes
    rw [storedOffsets_jump hit stored, ← encodedStart_eq_start eq (by omega),
      ← encodedStart_eq_start eq (by omega)] at reached
    exact ⟨landed, by rw [hit]; exact stored, reached⟩

theorem fixupJumpOffsets_relax (hin : TargetsInside source)
    (hf : ∀ rounds ≤ 10, (encodeInstructions (fixupRounds (jumpTargets source) rounds source)).length < 2 ^ 31) :
    SameShape source (fixupJumpOffsets source) ∧ storedOffsets (fixupJumpOffsets source) =
      (jumpBranches source).relax^[10] (storedOffsets source) :=
  fixupRounds_relax (rfl : SameShape source source) hin hf

theorem lands_fixupJumpOffsets_iff (hin : TargetsInside source)
    (hf : ∀ rounds ≤ 10, (encodeInstructions (fixupRounds (jumpTargets source) rounds source)).length < 2 ^ 31) :
    (jumpBranches source).Lands (storedOffsets (fixupJumpOffsets source)) ↔ RelaxesInTen source := by
  have last := Function.iterate_succ_apply' (jumpBranches source).relax 10 (storedOffsets source)
  rw [Layout.Branches.lands_iff_relax_eq, (fixupJumpOffsets_relax hin hf).2, RelaxesInTen, last]

end Refinement

section Samples

def loopBody : List Instruction := [.jmpNot ⟨0⟩ 4, .nop, .nop, .jmp (-3)]

def payload (count : Nat) : Instruction := .memExtended 0 (List.replicate count 0)

/-- Eleven jumps, each of which spans the next: the widths grow one jump a round. -/
def jumpChain : List Instruction :=
  (List.replicate 10 [.jmp 5, payload 17, payload 18]).flatten ++ [.jmp 4, payload 17, payload 18, payload 20]

end Samples

end Vbc
