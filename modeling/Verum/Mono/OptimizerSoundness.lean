import Verum.Mono.Machine

open List

namespace Mono

open Option

open Wire Vbc

variable {World : Type}

section Passes

/-- The constants in front of instruction `index` when the scan starts from `consts`. -/
def scan (consts : Consts) (instrs : List Instruction) (index : Nat) : Consts :=
  (instrs.take index).foldl (fun consts instr => (foldOne consts instr).1) consts
variable {instrs : List Instruction}

theorem constsAt_succ {index : Nat} {instr : Instruction} (hit : instrs[index]? = some instr) :
    constsAt instrs (index + 1) = (foldOne (constsAt instrs index) instr).1 := by
  obtain ⟨hb, rfl⟩ := List.getElem?_eq_some_iff.mp hit
  rw [constsAt, take_succ_eq_append_getElem hb, foldl_append]
  rfl

theorem foldFrom_getElem? (consts : Consts) (instrs : List Instruction) (index : Nat) :
    (foldFrom consts instrs).1[index]? =
      instrs[index]?.map fun instr => (foldOne (scan consts instrs index) instr).2.1 := by
  induction instrs generalizing consts index with
  | nil => rfl
  | cons head instrs ih =>
    cases index with
    | zero => rfl
    | succ index => exact ih (foldOne consts head).1 index

theorem foldOne_again (consts : Consts) (instr : Instruction) :
    foldOne consts (foldOne consts instr).2.1 = ((foldOne consts instr).1, (foldOne consts instr).2.1, false) := by
  rcases foldOne_cases consts instr with kept | ⟨op, dst, a, b, va, vb, folded, rfl, _, _, _, eq⟩
  · rw [kept]
    exact Prod.ext rfl kept
  · rw [eq]
    rfl

theorem foldFrom_again (consts : Consts) (instrs : List Instruction) :
    foldFrom consts (foldFrom consts instrs).1 = ((foldFrom consts instrs).1, 0) := by
  induction instrs generalizing consts with
  | nil => rfl
  | cons head instrs ih =>
    simp only [foldFrom, foldOne_again, ih, Bool.toNat_false]

theorem foldRounds_eq (constantFold : Bool) (rounds : Nat) (instrs : List Instruction) :
    foldRounds constantFold rounds instrs = instrs ∨
      foldRounds constantFold rounds instrs = (foldConstants instrs).1 := by
  cases rounds with
  | zero => exact .inl rfl
  | succ rounds =>
    cases constantFold with
    | false => exact .inl rfl
    | true =>
      right
      simp only [foldRounds, if_true]
      split
      · rfl
      · cases rounds with
        | zero => rfl
        | succ rounds =>
          have again : foldConstants (foldConstants instrs).1 = ((foldConstants instrs).1, 0) :=
            foldFrom_again .empty instrs
          simp only [foldRounds, if_true, again]

theorem foldOne_setJumpOffset (consts : Consts) (off : Int32) (instr : Instruction) :
    (foldOne consts (setJumpOffset off instr)).1 = (foldOne consts instr).1 ∧
      (foldOne consts (setJumpOffset off instr)).2.1 = setJumpOffset off (foldOne consts instr).2.1 := by
  cases held : jumpOffset instr with
  | none =>
    rw [setJumpOffset_none held]
    refine ⟨rfl, (setJumpOffset_none ?_ off).symm⟩
    rcases foldOne_cases consts instr with kept | ⟨op, dst, a, b, va, vb, folded, rfl, _, _, _, eq⟩
    · rw [kept]
      exact held
    · rw [eq]
      rfl
  | some old =>
    have fst : foldOne consts instr = (.empty, instr, false) := by simp [foldOne, held]
    have snd : foldOne consts (setJumpOffset off instr) = (.empty, setJumpOffset off instr, false) := by
      simp [foldOne, jumpOffset_setJumpOffset held]
    rw [fst, snd]
    exact ⟨rfl, rfl⟩

theorem constsAt_sameShape {others : List Instruction} (eq : SameShape instrs others) (index : Nat) :
    constsAt others index = constsAt instrs index := by
  have erase : ∀ list : List Instruction, constsAt list index = constsAt (list.map (setJumpOffset 0)) index := by
    intro list
    unfold constsAt
    rw [← map_take, foldl_map]
    congr 1
    funext consts instr
    exact (foldOne_setJumpOffset consts 0 instr).1.symm
  rw [erase others, eq, ← erase instrs]

end Passes

section Layout

variable {data : Slice} {start : Nat} {instrs : List Instruction} {starts : List Nat}

theorem bodyAt_getElem? (body : BodyAt data start instrs starts) {index : Nat} {instr : Instruction}
    (hit : instrs[index]? = some instr) :
    ∃ fst next, starts[index]? = some fst ∧ starts[index + 1]? = some next ∧ fst < data.length ∧
      decodeInstruction data fst = .ok instr next := by
  induction body generalizing index with
  | done => cases hit
  | @next start mid head instrs starts more run rest ih =>
    cases index with
    | zero =>
      cases hit
      cases rest with
      | done | next => exact ⟨_, _, rfl, rfl, more, run⟩
    | succ index => exact ih hit

theorem bodyAt_first (body : BodyAt data start instrs starts) : starts[0]? = some start := by
  cases body <;> rfl

theorem bodyAt_last (body : BodyAt data start instrs starts) : starts[instrs.length]? = some data.length := by
  induction body with
  | done => rfl
  | next _ _ _ ih => exact ih

theorem bodyAt_of_decodeWithPositionsFuel {fuel after : Nat} {positions : List Nat} (hin : start ≤ data.length)
    (decoded : decodeWithPositionsFuel fuel data start = .ok (instrs, positions) after) :
    BodyAt data start instrs (positions ++ [data.length]) := by
  induction fuel generalizing start instrs positions after with
  | zero => cases decoded
  | succ fuel ih =>
    change (if start < data.length then _ else _ : Decode (List Instruction × List Nat)) data start = _ at decoded
    by_cases more : start < data.length
    · rw [if_pos more] at decoded
      obtain ⟨instr, mid, head, rest⟩ := bind_eq_ok decoded
      obtain ⟨⟨tail, tailPositions⟩, stop, loop, last⟩ := bind_eq_ok rest
      cases last
      have moved := decodeInstruction_advances data start instr mid hin head
      exact .next more head (ih moved.2 loop)
    · rw [if_neg more] at decoded
      cases decoded
      obtain rfl : start = data.length := by omega
      exact .done

end Layout

section Normalization

variable {positions : List Nat} {totalLen : Nat} {instrs normalized : List Instruction}

theorem normalizeJumpTargets_getElem? {start : Nat}
    (accepted : normalizeJumpTargets positions totalLen start instrs = some normalized) :
    normalized.length = instrs.length ∧ ∀ (index : Nat) instr, instrs[index]? = some instr →
      ∃ new, normalized[index]? = some new ∧
        normalizeJumpTarget positions totalLen (start + index) instr = some new := by
  induction instrs generalizing start normalized with
  | nil =>
    cases accepted
    exact ⟨rfl, fun _ _ hit => by cases hit⟩
  | cons head instrs ih =>
    simp only [normalizeJumpTargets, bind_eq_bind, bind_eq_some_iff] at accepted
    obtain ⟨new, fst, news, rest, eq⟩ := accepted
    cases eq
    obtain ⟨length, each⟩ := ih rest
    refine ⟨by simp [length], fun index instr hit => ?_⟩
    cases index with
    | zero =>
      cases hit
      exact ⟨new, rfl, fst⟩
    | succ index =>
      obtain ⟨new', found', each'⟩ := each index instr hit
      refine ⟨new', found', ?_⟩
      rwa [show start + (index + 1) = start + 1 + index by omega]

theorem byteToIdx_eq_some {tgt : Nat} {index : Int32} (hit : byteToIdx positions totalLen tgt = some index) :
    ∃ k ≤ positions.length, index = Int32.ofNat k ∧ (positions ++ [totalLen])[k]? = some tgt := by
  unfold byteToIdx at hit
  split at hit
  · rename_i eq
    cases hit
    exact ⟨positions.length, Nat.le_refl _, rfl, by simp [eq]⟩
  · obtain ⟨k, at_k, rfl⟩ := map_eq_some_iff.mp hit
    obtain ⟨hb, held, _⟩ := List.idxOf?_eq_some_iff.mp at_k
    refine ⟨k, by omega, rfl, ?_⟩
    rw [List.getElem?_append_left hb, List.getElem?_eq_getElem hb, held]

variable {index : Nat} {instr new : Instruction}

theorem normalizeJumpTarget_jump {byteOff : Int32} (few : positions.length < 2 ^ 31)
    (hin : index < positions.length) (held : jumpOffset instr = some byteOff)
    (accepted : normalizeJumpTarget positions totalLen index instr = some new) :
    ∃ off next tgt landed, new = setJumpOffset off instr ∧ tgt ≤ positions.length ∧
      (index : Int) + off.toInt = tgt ∧ (positions ++ [totalLen])[index + 1]? = some next ∧
      (positions ++ [totalLen])[tgt]? = some landed ∧ (next : Int) + byteOff.toInt = landed := by
  have atNext : (positions ++ [totalLen])[index + 1]? = some (positions[index + 1]?.getD totalLen) := by
    by_cases more : index + 1 < positions.length
    · rw [List.getElem?_append_left more, List.getElem?_eq_getElem more]
      rfl
    · have last : index + 1 = positions.length := by omega
      simp [last]
  simp only [normalizeJumpTarget, held] at accepted
  split at accepted
  · cases accepted
  · rename_i nonneg
    obtain ⟨targetIdx, hit, rfl⟩ := map_eq_some_iff.mp accepted
    obtain ⟨tgt, hb, rfl, atTarget⟩ := byteToIdx_eq_some hit
    refine ⟨_, _, tgt, _, rfl, hb, ?_, atNext, atTarget, ?_⟩
    · rw [int32_sub_toInt (by omega) (by omega)]
      omega
    · omega

theorem normalizeJumpTarget_plain (held : jumpOffset instr = none)
    (accepted : normalizeJumpTarget positions totalLen index instr = some new) : new = instr := by
  simp only [normalizeJumpTarget, held, Option.some.injEq] at accepted
  exact accepted.symm

end Normalization

section Simulation

variable {semantics : Semantics World} {code out : Slice} {instrs final : List Instruction}
  {starts starts' : List Nat}

def BranchesMatch (starts starts' : List Nat) (index : Nat) :
    Option (Option Int32) → Option (Option Int32) → Prop
  | none, none => True
  | some none, some none => True
  | some (some offset), some (some offset') => ∃ next next' target landed landed' : Nat,
      starts[index + 1]? = some next ∧ starts'[index + 1]? = some next' ∧ starts[target]? = some landed ∧
        starts'[target]? = some landed' ∧ (next : Int) + offset.toInt = landed ∧
        (next' : Int) + offset'.toInt = landed'
  | _, _ => False

/-- Instruction by instruction, the new code does what the old one does where the tracked constants hold. -/
structure Matched (semantics : Semantics World) (instrs final : List Instruction) (starts starts' : List Nat) :
    Prop where
  length_eq : final.length = instrs.length
  instr : ∀ (index : Nat) old, instrs[index]? = some old → ∃ new, final[index]? = some new ∧
    (∀ store, ConstsHold (constsAt instrs index) (instrs.drop index) store.regs →
      execute semantics new store = execute semantics old store) ∧
    ∀ choice : Nat, BranchesMatch starts starts' index (transfers old)[choice]? (transfers new)[choice]?

/-- Both runs stop, or both are at the same instruction with the same store. -/
def Corresponds (starts starts' : List Nat) : Option (State World) → Option (State World) → Prop
  | some state, some state' =>
    (∃ index : Nat, starts[index]? = some state.pc ∧ starts'[index]? = some state'.pc) ∧ state.store = state'.store
  | none, none => True
  | _, _ => False

/-- Both machines stand in front of the same instruction, with the same store and the tracked constants in it. -/
structure InStep (instrs : List Instruction) (starts starts' : List Nat) (state state' : State World) : Prop where
  place : ∃ index : Nat, starts[index]? = some state.pc ∧ starts'[index]? = some state'.pc ∧
    ConstsHold (constsAt instrs index) (instrs.drop index) state.store.regs
  store_eq : state.store = state'.store

theorem Corresponds.reg_eq {fst snd : Option (State World)} (eq : Corresponds starts starts' fst snd)
    (reg : UInt16) :
    (fst.map fun state => state.store.regs reg) = snd.map fun state => state.store.regs reg := by
  cases fst <;> cases snd
  · rfl
  · exact eq.elim
  · exact eq.elim
  · rw [map_some, map_some, eq.2]

variable {data : Slice} {choice : Nat} {state state' : State World}

theorem step_none_at_end (ended : state.pc = data.length) : step semantics data choice state = none := by
  simp [step, ended]

theorem step_decoded {next : Nat} {instr : Instruction} (more : state.pc < data.length)
    (decoded : decodeInstruction data state.pc = .ok instr next) :
    step semantics data choice state = (execute semantics instr state.store).bind fun store =>
      (transfers instr)[choice]?.bind fun transfer =>
        match transfer with
        | none => some ⟨next, store⟩
        | some off =>
          if 0 ≤ (next : Int) + off.toInt then some ⟨((next : Int) + off.toInt).toNat, store⟩ else none := by
  simp only [step, if_pos more, decoded]
  rfl

theorem InStep.step (body : BodyAt code 0 instrs starts) (body' : BodyAt out 0 final starts')
    (matched : Matched semantics instrs final starts starts') (inStep : InStep instrs starts starts' state state')
    (lands : ∀ next, Mono.step semantics code choice state = some next → jumps code choice state = true →
      ∀ index, starts[index]? = some next.pc →
        ConstsHold (constsAt instrs index) (instrs.drop index) next.store.regs) :
    (Mono.step semantics code choice state = none ∧ Mono.step semantics out choice state' = none) ∨
      ∃ next next', Mono.step semantics code choice state = some next ∧
        Mono.step semantics out choice state' = some next' ∧ InStep instrs starts starts' next next' := by
  obtain ⟨⟨index, here, here', hold⟩, storeEq⟩ := inStep
  by_cases hin : index < instrs.length
  · have hit : instrs[index]? = some instrs[index] := List.getElem?_eq_getElem hin
    have dropped : instrs.drop index = instrs[index] :: instrs.drop (index + 1) := drop_eq_getElem_cons hin
    obtain ⟨new, found', executes, branches⟩ := matched.instr index _ hit
    obtain ⟨pc, next, atPc, atNext, more, decoded⟩ := bodyAt_getElem? body hit
    obtain ⟨pc', next', atPc', atNext', more', decoded'⟩ := bodyAt_getElem? body' found'
    obtain rfl : state.pc = pc := Option.some.inj (here.symm.trans atPc)
    obtain rfl : state'.pc = pc' := Option.some.inj (here'.symm.trans atPc')
    rw [step_decoded more decoded] at lands ⊢
    rw [step_decoded more' decoded', ← storeEq, executes _ hold]
    cases executed : execute semantics instrs[index] state.store with
    | none => exact .inl ⟨rfl, rfl⟩
    | some store =>
      rw [executed] at lands
      have branch := branches choice
      have jumped : jumps code choice state = ((transfers instrs[index])[choice]?.join).isSome := by
        simp only [jumps, decoded]
      simp only [bind_some] at lands ⊢
      revert branch lands
      rw [jumped]
      cases (transfers instrs[index])[choice]? with
      | none =>
        cases (transfers new)[choice]? with
        | none => exact fun _ _ => .inl ⟨rfl, rfl⟩
        | some _ => exact fun _ branch => branch.elim
      | some transfer =>
        cases (transfers new)[choice]? with
        | none => cases transfer <;> exact fun _ branch => branch.elim
        | some transfer' =>
          intro lands branch
          cases transfer with
          | none =>
            cases transfer' with
            | some _ => exact branch.elim
            | none =>
              refine .inr ⟨⟨next, store⟩, ⟨next', store⟩, rfl, rfl, ⟨index + 1, atNext, atNext', ?_⟩, rfl⟩
              rw [constsAt_succ hit]
              exact (dropped ▸ hold).step executed
          | some off =>
            cases transfer' with
            | none => exact branch.elim
            | some offset' =>
              obtain ⟨after, after', tgt, landed, landed', atAfter, atAfter', atTarget, atTarget', reached,
                reached'⟩ := branch
              obtain rfl : next = after := Option.some.inj (atNext.symm.trans atAfter)
              obtain rfl : next' = after' := Option.some.inj (atNext'.symm.trans atAfter')
              have taken : (0 : Int) ≤ landed := Int.natCast_nonneg landed
              have taken' : (0 : Int) ≤ landed' := Int.natCast_nonneg landed'
              simp only [bind_some, reached, reached', if_pos taken, if_pos taken', Int.toNat_natCast] at lands ⊢
              refine .inr ⟨⟨landed, store⟩, ⟨landed', store⟩, rfl, rfl, ⟨tgt, atTarget, atTarget', ?_⟩, rfl⟩
              exact lands ⟨landed, store⟩ rfl rfl tgt atTarget
  · have length := body.length
    have hb := (List.getElem?_eq_some_iff.mp here).1
    obtain rfl : index = instrs.length := by omega
    have last := bodyAt_last body
    have last' := bodyAt_last body'
    rw [matched.length_eq] at last'
    exact .inl ⟨step_none_at_end (Option.some.inj (here.symm.trans last)),
      step_none_at_end (Option.some.inj (here'.symm.trans last'))⟩

theorem run_corresponds (body : BodyAt code 0 instrs starts) (body' : BodyAt out 0 final starts')
    (matched : Matched semantics instrs final starts starts') (path : List Nat)
    (inStep : InStep instrs starts starts' state state')
    (lands : JumpsAgree semantics code instrs starts path state) :
    Corresponds starts starts' (run semantics code path state) (run semantics out path state') := by
  induction path generalizing state state' with
  | nil =>
    obtain ⟨⟨index, here, here', _⟩, storeEq⟩ := inStep
    exact ⟨⟨index, here, here'⟩, storeEq⟩
  | cons choice path ih =>
    have landsFirst : ∀ next, Mono.step semantics code choice state = some next → jumps code choice state = true →
        ∀ index, starts[index]? = some next.pc →
          ConstsHold (constsAt instrs index) (instrs.drop index) next.store.regs :=
      fun next taken => (lands next taken).1
    have stepped := inStep.step body body' matched landsFirst
    rcases stepped with ⟨stopped, stopped'⟩ | ⟨next, next', taken, taken', again⟩
    · simp only [run, stopped, stopped', bind_none]
      trivial
    · simp only [run, taken, taken', bind_some]
      exact ih again (lands next taken).2

end Simulation

section Relocation

variable {semantics : Semantics World}

theorem execute_setJumpOffset (off : Int32) (instr : Instruction) (store : Store World) :
    execute semantics (setJumpOffset off instr) store = execute semantics instr store := by
  cases held : jumpOffset instr with
  | none => rw [setJumpOffset_none held]
  | some old =>
    rcases jumpOffset_cases held with rfl | ⟨_, rfl⟩ | ⟨_, rfl⟩ | ⟨_, _, _, rfl⟩ | ⟨_, _, rfl⟩ | rfl
    all_goals rfl

variable {instr : Instruction}

theorem transfers_jump {old : Int32} (held : jumpOffset instr = some old) :
    ∃ falls : List (Option Int32), (∀ transfer ∈ falls, transfer = none) ∧
      ∀ off, transfers (setJumpOffset off instr) = falls ++ [some off] := by
  rcases jumpOffset_cases held with rfl | ⟨_, rfl⟩ | ⟨_, rfl⟩ | ⟨_, _, _, rfl⟩ | ⟨_, _, rfl⟩ | rfl
  · exact ⟨[], by simp, fun _ => rfl⟩
  all_goals exact ⟨[none], by simp, fun _ => rfl⟩

theorem transfers_switch {choice : Nat} {off : Int32} (plain : jumpOffset instr = none)
    (taken : (transfers instr)[choice]? = some (some off)) :
    ∃ v defaultOffset cases, instr = .switch v defaultOffset cases ∧
      off ∈ defaultOffset :: cases.map Prod.snd := by
  unfold transfers at taken
  split at taken
  all_goals first
    | cases plain
    | skip
  · rename_i v defaultOffset cases
    refine ⟨v, defaultOffset, cases, rfl, ?_⟩
    have mem := mem_of_getElem? taken
    simpa [eq_comm] using mem
  · cases taken
  · cases taken
  · cases choice with
    | zero | succ choice => cases taken

theorem jumpOffset_foldOne (consts : Consts) (instr : Instruction) :
    jumpOffset (foldOne consts instr).2.1 = jumpOffset instr := by
  rcases foldOne_cases consts instr with kept | ⟨op, dst, a, b, va, vb, folded, rfl, _, _, _, eq⟩
  · rw [kept]
  · rw [eq]
    rfl

theorem foldRounds_getElem? (config : SpecializationOptimizer) {instrs : List Instruction} {index : Nat}
    (hit : instrs[index]? = some instr) :
    ∃ new, (foldRounds config.constantFold config.maxIterations instrs)[index]? = some new ∧
      (new = instr ∨ new = (foldOne (constsAt instrs index) instr).2.1) := by
  rcases foldRounds_eq config.constantFold config.maxIterations instrs with kept | folded
  · exact ⟨instr, by rw [kept, hit], .inl rfl⟩
  · refine ⟨_, ?_, .inr rfl⟩
    rw [folded, foldConstants, foldFrom_getElem?, hit]
    rfl

theorem foldRounds_length (config : SpecializationOptimizer) (instrs : List Instruction) :
    (foldRounds config.constantFold config.maxIterations instrs).length = instrs.length := by
  have foldFromLength : ∀ (consts : Consts) (list : List Instruction),
      (foldFrom consts list).1.length = list.length := by
    intro consts list
    induction list generalizing consts with
    | nil => rfl
    | cons head list ih => simp [foldFrom, ih]
  rcases foldRounds_eq config.constantFold config.maxIterations instrs with kept | folded
  · rw [kept]
  · rw [folded]
    exact foldFromLength .empty instrs

/-- Where instruction `index` starts once ten rounds have set the offsets of the jumps. -/
def settledStart (instrs : List Instruction) (index : Nat) : Nat :=
  (jumpBranches instrs).start ((jumpBranches instrs).relax^[10] (storedOffsets instrs)) index

/-- The body can be laid out again: its instructions survive re-encoding, ten rounds settle the jumps, and the
    offsets of its switches, which are copied, still lead to the same instructions. -/
structure Relocates (instrs folded : List Instruction) (starts : List Nat) : Prop where
  recodes : ∀ instr ∈ instrs, ∀ offset, Reads decodeInstruction
    (encodeInstruction (setJumpOffset offset instr)) (setJumpOffset offset instr)
  fits : ∀ rounds ≤ 10, (encodeInstructions (fixupRounds (jumpTargets folded) rounds folded)).length < 2 ^ 31
  settles : RelaxesInTen folded
  switches : ∀ (index : Nat) value defaultOffset cases,
    instrs[index]? = some (.switch value defaultOffset cases) →
    ∀ offset ∈ defaultOffset :: cases.map Prod.snd, ∃ next target landed : Nat, target ≤ instrs.length ∧
      starts[index + 1]? = some next ∧ starts[target]? = some landed ∧ (next : Int) + offset.toInt = landed ∧
      (settledStart folded (index + 1) : Int) + offset.toInt = settledStart folded target

theorem decodeReg_encodable {data : Slice} {off after : Nat} {reg : Reg}
    (decoded : decodeReg data off = .ok reg after) : reg.Encodable := by
  obtain ⟨byte, mid, _, rest⟩ := bind_eq_ok decoded
  split at rest
  · cases rest
    have hb := byte.toNat_lt
    unfold Reg.Encodable
    simp only [UInt8.toNat_toUInt16]
    omega
  · obtain ⟨low, stop, _, last⟩ := bind_eq_ok rest
    cases last
    have high : (byte &&& 0x7F).toNat < 128 := by
      rw [UInt8.toNat_and]
      exact Nat.lt_of_le_of_lt Nat.and_le_right (by decide)
    have hb := low.toNat_lt
    unfold Reg.Encodable
    rw [UInt16.toNat_or]
    refine Nat.or_lt_two_pow ?_ (by rw [UInt8.toNat_toUInt16]; omega)
    rw [UInt16.toNat_shiftLeft, UInt8.toNat_toUInt16]
    change (byte &&& 0x7F).toNat <<< 8 % 2 ^ 16 < 2 ^ 15
    omega

theorem reads_folded {op : BinaryIntOp} {dst a b : Reg} (v : Int64)
    (reads : Reads decodeInstruction (encodeInstruction (.binaryI op dst a b)) (.binaryI op dst a b)) :
    Reads decodeInstruction (encodeInstruction (.loadI dst v)) (.loadI dst v) := by
  refine reads_instruction _ ?_
  have regLength : ∀ reg : Reg, (encodeReg reg).length ≤ 2 := by
    intro reg
    unfold encodeReg
    split <;> simp
  have short : (encodeInstruction (.binaryI op dst a b)).length < 2 ^ 63 := by
    have lengths := And.intro (regLength dst) (And.intro (regLength a) (regLength b))
    change (emit (binaryIntOpToOpcode op) [encodeReg dst, encodeReg a, encodeReg b]).length < _
    simp only [emit, flatten_cons, flatten_nil, length_cons, length_append, length_nil]
    omega
  have held : Slice.Holds ⟨_, short⟩ 0 (encodeInstruction (.binaryI op dst a b)) :=
    @Slice.holds_of_eq ⟨_, short⟩ [] _ [] (by simp)
  obtain ⟨byte, mid, fst, rest⟩ := bind_eq_ok (reads ⟨_, short⟩ 0 held)
  have opcodeRead := reads_u8 (binaryIntOpToOpcode op).toByte ⟨_, short⟩ 0
    (@Slice.holds_of_eq ⟨_, short⟩ [] _ _ rfl)
  rw [opcodeRead] at fst
  cases fst
  rw [Opcode.toByte_not_reclaimed, Opcode.fromByte_toByte] at rest
  have body : decodeInstructionBody (binaryIntOpToOpcode op) = decodeBinaryI op := by cases op <;> rfl
  rw [if_neg (by simp), body] at rest
  obtain ⟨reg, after, decoded, rest⟩ := bind_eq_ok rest
  obtain ⟨_, _, _, rest⟩ := bind_eq_ok rest
  obtain ⟨_, _, _, last⟩ := bind_eq_ok rest
  cases last
  exact decodeReg_encodable decoded

end Relocation

section Optimizer

variable {config : SpecializationOptimizer} {positions : List Nat} {totalLen : Nat}
  {instrs normalized : List Instruction}

def SpecializationOptimizer.folded (config : SpecializationOptimizer) (normalized : List Instruction) :
    List Instruction :=
  foldRounds config.constantFold config.maxIterations normalized

/-- What becomes of one instruction on the way to the layout. -/
structure Passed (config : SpecializationOptimizer) (positions : List Nat) (totalLen : Nat)
    (instrs normalized : List Instruction) (index : Nat) (old normal fold : Instruction) : Prop where
  normal_eq : normalized[index]? = some normal
  fold_eq : (config.folded normalized)[index]? = some fold
  accepted : normalizeJumpTarget positions totalLen index old = some normal
  folds : fold = normal ∨ fold = (foldOne (constsAt normalized index) normal).2.1

variable {index : Nat} {old normal fold new : Instruction} {semantics : Semantics World}
  {starts starts' : List Nat} {code : Slice}

theorem passed (config : SpecializationOptimizer)
    (accepted : normalizeJumpTargets positions totalLen 0 instrs = some normalized)
    (hit : instrs[index]? = some old) :
    ∃ normal fold, Passed config positions totalLen instrs normalized index old normal fold := by
  obtain ⟨normal, atNormal, normalizes⟩ := (normalizeJumpTargets_getElem? accepted).2 index old hit
  rw [Nat.zero_add] at normalizes
  obtain ⟨fold, atFold, folds⟩ := foldRounds_getElem? config atNormal
  exact ⟨normal, fold, atNormal, atFold, normalizes, folds⟩

theorem Passed.jumpOffset_eq (passed : Passed config positions totalLen instrs normalized index old normal fold) :
    jumpOffset fold = jumpOffset normal := by
  rcases passed.folds with rfl | rfl
  · rfl
  · exact jumpOffset_foldOne _ _

theorem Passed.jump {byteOff : Int32}
    (passed : Passed config positions totalLen instrs normalized index old normal fold)
    (few : positions.length < 2 ^ 31) (hin : index < positions.length) (held : jumpOffset old = some byteOff) :
    ∃ off next tgt landed, jumpOffset fold = some off ∧ setJumpOffset 0 fold = setJumpOffset 0 old ∧
      tgt ≤ positions.length ∧ (index : Int) + off.toInt = tgt ∧
      (positions ++ [totalLen])[index + 1]? = some next ∧ (positions ++ [totalLen])[tgt]? = some landed ∧
      (next : Int) + byteOff.toInt = landed := by
  obtain ⟨off, next, tgt, landed, rfl, hb, reached, atNext, atTarget, lands⟩ :=
    normalizeJumpTarget_jump few hin held passed.accepted
  have offsetEq := jumpOffset_setJumpOffset held off
  have kept : fold = setJumpOffset off old := by
    rcases passed.folds with eq | folds
    · exact eq
    · rw [folds]
      simp [foldOne, offsetEq]
  refine ⟨off, next, tgt, landed, by rw [kept, offsetEq], ?_, hb, reached, atNext, atTarget, lands⟩
  rw [kept, setJumpOffset_setJumpOffset]

theorem Passed.plain (passed : Passed config positions totalLen instrs normalized index old normal fold)
    (held : jumpOffset old = none) : normal = old ∧ jumpOffset fold = none ∧ transfers fold = transfers old := by
  have normalEq := normalizeJumpTarget_plain held passed.accepted
  refine ⟨normalEq, by rw [passed.jumpOffset_eq, normalEq, held], ?_⟩
  rcases passed.folds with rfl | rfl
  · rw [normalEq]
  · rw [transfers_foldOne, normalEq]

theorem sameShape_normalized (lengths : positions.length = instrs.length)
    (accepted : normalizeJumpTargets positions totalLen 0 instrs = some normalized)
    (few : positions.length < 2 ^ 31) : SameShape instrs normalized := by
  obtain ⟨length, each⟩ := normalizeJumpTargets_getElem? accepted
  refine ext_getElem? fun index => ?_
  rw [List.getElem?_map, List.getElem?_map]
  cases hit : instrs[index]? with
  | none =>
    have outside : normalized[index]? = none := by
      rw [List.getElem?_eq_none_iff] at hit ⊢
      omega
    rw [outside, map_none]
  | some old =>
    have hin := (List.getElem?_eq_some_iff.mp hit).1
    obtain ⟨normal, atNormal, normalizes⟩ := each index old hit
    rw [Nat.zero_add] at normalizes
    rw [atNormal, map_some, map_some]
    congr 1
    cases held : jumpOffset old with
    | none => rw [normalizeJumpTarget_plain held normalizes]
    | some byteOff =>
      obtain ⟨off, _, _, _, rfl, _⟩ := normalizeJumpTarget_jump few (by omega) held normalizes
      exact setJumpOffset_setJumpOffset off 0 old

theorem targetsInside_folded (config : SpecializationOptimizer) (lengths : positions.length = instrs.length)
    (accepted : normalizeJumpTargets positions totalLen 0 instrs = some normalized)
    (few : positions.length < 2 ^ 31) : TargetsInside (config.folded normalized) := by
  have length := (normalizeJumpTargets_getElem? accepted).1
  have foldedLength : (config.folded normalized).length = normalized.length := foldRounds_length config normalized
  intro index hin off held
  have hb : index < instrs.length := by omega
  have hit : instrs[index]? = some instrs[index] := List.getElem?_eq_getElem hb
  obtain ⟨normal, fold, pass⟩ := passed config accepted hit
  rw [pass.fold_eq, bind_some] at held
  cases jump : jumpOffset instrs[index] with
  | none =>
    rw [(pass.plain jump).2.1] at held
    cases held
  | some byteOff =>
    obtain ⟨other, _, tgt, _, offsetEq, _, hw, reached, _⟩ := pass.jump few (by omega) jump
    rw [offsetEq] at held
    cases held
    omega

theorem execute_of_shape {fst snd : Instruction} (eq : setJumpOffset 0 fst = setJumpOffset 0 snd)
    (store : Store World) : execute semantics fst store = execute semantics snd store := by
  rw [← execute_setJumpOffset 0 fst, eq, execute_setJumpOffset]

theorem Passed.execute (passed : Passed config positions totalLen instrs normalized index old normal fold)
    (shape : SameShape instrs normalized) (hit : instrs[index]? = some old)
    (newEq : setJumpOffset 0 new = setJumpOffset 0 fold) {store : Store World}
    (hold : ConstsHold (constsAt instrs index) (instrs.drop index) store.regs) :
    Mono.execute semantics new store = Mono.execute semantics old store := by
  have normalEq : setJumpOffset 0 normal = setJumpOffset 0 old := by
    have e := shape.getElem? index
    rw [passed.normal_eq, hit] at e
    exact Option.some.inj e
  rw [execute_of_shape newEq]
  rcases passed.folds with rfl | rfl
  · exact execute_of_shape normalEq store
  · obtain ⟨hb, rfl⟩ := List.getElem?_eq_some_iff.mp hit
    rw [drop_eq_getElem_cons hb] at hold
    rw [constsAt_sameShape shape, ← execute_foldOne hold]
    refine execute_of_shape ?_ store
    rw [← (foldOne_setJumpOffset _ 0 normal).2, normalEq, (foldOne_setJumpOffset _ 0 instrs[index]).2]

theorem branchesMatch_jump {next next' tgt landed landed' : Nat} {off offset' : Int32}
    (held : jumpOffset old = some off) (held' : jumpOffset new = some offset')
    (newEq : setJumpOffset 0 new = setJumpOffset 0 old) (atNext : starts[index + 1]? = some next)
    (atNext' : starts'[index + 1]? = some next') (atTarget : starts[tgt]? = some landed)
    (atTarget' : starts'[tgt]? = some landed') (reached : (next : Int) + off.toInt = landed)
    (reached' : (next' : Int) + offset'.toInt = landed') (choice : Nat) :
    BranchesMatch starts starts' index (transfers old)[choice]? (transfers new)[choice]? := by
  obtain ⟨falls, fallsNone, branches⟩ := transfers_jump held
  have oldBranches := branches off
  rw [setJumpOffset_self held] at oldBranches
  have newIs : new = setJumpOffset offset' old := by
    rw [← setJumpOffset_setJumpOffset 0 offset' old, ← newEq, setJumpOffset_setJumpOffset, setJumpOffset_self held']
  rw [newIs, oldBranches, branches offset']
  by_cases short : choice < falls.length
  · rw [List.getElem?_append_left short, List.getElem?_append_left short, List.getElem?_eq_getElem short,
      fallsNone _ (getElem_mem short)]
    trivial
  · rw [List.getElem?_append_right (by omega), List.getElem?_append_right (by omega)]
    cases choice - falls.length with
    | zero => exact ⟨next, next', tgt, landed, landed', atNext, atNext', atTarget, atTarget', reached, reached'⟩
    | succ rest => trivial

theorem branchesMatch_same (eq : transfers new = transfers old) (choice : Nat)
    (lands : ∀ off, (transfers old)[choice]? = some (some off) →
      ∃ next next' tgt landed landed' : Nat, starts[index + 1]? = some next ∧
        starts'[index + 1]? = some next' ∧ starts[tgt]? = some landed ∧ starts'[tgt]? = some landed' ∧
        (next : Int) + off.toInt = landed ∧ (next' : Int) + off.toInt = landed') :
    BranchesMatch starts starts' index (transfers old)[choice]? (transfers new)[choice]? := by
  rw [eq]
  cases taken : (transfers old)[choice]? with
  | none => trivial
  | some transfer =>
    cases transfer with
    | none => trivial
    | some off => exact lands off taken

/-- What both layouts have in common. -/
structure Laid (config : SpecializationOptimizer) (positions : List Nat) (instrs normalized : List Instruction) :
    Prop where
  positions_length : positions.length = instrs.length
  folded_length : (config.folded normalized).length = instrs.length
  few : positions.length < 2 ^ 31
  inside : TargetsInside (config.folded normalized)
  normal_shape : SameShape instrs normalized
  final_shape : SameShape (config.folded normalized) (fixupJumpOffsets (config.folded normalized))

theorem Relocates.laid (lengths : positions.length = instrs.length)
    (accepted : normalizeJumpTargets positions totalLen 0 instrs = some normalized)
    (relocates : Relocates instrs (config.folded normalized) starts) : Laid config positions instrs normalized := by
  have foldedLength : (config.folded normalized).length = instrs.length :=
    (foldRounds_length config normalized).trans (normalizeJumpTargets_getElem? accepted).1
  have few : positions.length < 2 ^ 31 := by
    have hb := relocates.fits 0 (by omega)
    have n := length_le_encodeInstructions (config.folded normalized)
    simp only [fixupRounds] at hb
    omega
  have hin := targetsInside_folded config lengths accepted few
  exact ⟨lengths, foldedLength, few, hin, sameShape_normalized lengths accepted few,
    (fixupJumpOffsets_relax hin relocates.fits).1⟩

theorem Laid.get (laid : Laid config positions instrs normalized)
    (accepted : normalizeJumpTargets positions totalLen 0 instrs = some normalized)
    (hit : instrs[index]? = some old) :
    ∃ normal fold new, Passed config positions totalLen instrs normalized index old normal fold ∧
      (fixupJumpOffsets (config.folded normalized))[index]? = some new ∧
      setJumpOffset 0 new = setJumpOffset 0 fold := by
  obtain ⟨normal, fold, pass⟩ := passed config accepted hit
  have newShape := laid.final_shape.getElem? index
  rw [pass.fold_eq, map_some] at newShape
  obtain ⟨new, atNew, newEq⟩ := map_eq_some_iff.mp newShape
  exact ⟨normal, fold, new, pass, atNew, newEq⟩

theorem matched_of_relocates (semantics : Semantics World)
    (body : BodyAt code 0 instrs (positions ++ [code.length]))
    (accepted : normalizeJumpTargets positions code.length 0 instrs = some normalized)
    (relocates : Relocates instrs (config.folded normalized) (positions ++ [code.length])) :
    Matched semantics instrs (fixupJumpOffsets (config.folded normalized)) (positions ++ [code.length])
      (byteOffsetsFrom 0 (fixupJumpOffsets (config.folded normalized))) := by
  have laid := relocates.laid (by simpa using body.length) accepted
  have lengths := laid.positions_length
  have shape := laid.final_shape
  have stored := (fixupJumpOffsets_relax laid.inside relocates.fits).2
  have lands : JumpsLand (config.folded normalized) (fixupJumpOffsets (config.folded normalized)) := by
    rw [jumpsLand_iff_lands shape laid.inside, lands_fixupJumpOffsets_iff laid.inside relocates.fits]
    exact relocates.settles
  have finalLength := shape.length.trans laid.folded_length
  have starts : ∀ index ≤ instrs.length, (byteOffsetsFrom 0 (fixupJumpOffsets (config.folded normalized)))[index]? =
      some (encodeInstructions ((fixupJumpOffsets (config.folded normalized)).take index)).length := by
    intro index hb
    rw [byteOffsetsFrom_getElem? 0 index _ (by omega), Nat.zero_add]
  have settled : ∀ index ≤ instrs.length,
      (encodeInstructions ((fixupJumpOffsets (config.folded normalized)).take index)).length =
        settledStart (config.folded normalized) index := by
    intro index hb
    rw [encodedStart_eq_start shape (by omega), stored, settledStart]
  refine ⟨finalLength, fun index old hit => ?_⟩
  have hb := (List.getElem?_eq_some_iff.mp hit).1
  obtain ⟨normal, fold, new, pass, atNew, newEq⟩ := laid.get accepted hit
  refine ⟨new, atNew, fun store hold => pass.execute laid.normal_shape hit newEq hold, fun choice => ?_⟩
  cases held : jumpOffset old with
  | some byteOff =>
    obtain ⟨off, next, tgt, landed, foldOffset, foldEq, hw, reached, atNext, atTarget, oldLands⟩ :=
      pass.jump laid.few (by omega) held
    obtain ⟨newOffset, atNewOffset, newLands⟩ := lands index (by rw [laid.folded_length]; omega) off
      (by rw [pass.fold_eq]; exact foldOffset)
    rw [atNew, bind_some] at atNewOffset
    rw [reached, Int.toNat_natCast] at newLands
    exact branchesMatch_jump held atNewOffset (newEq.trans foldEq) atNext (starts (index + 1) hb) atTarget
      (starts tgt (by omega)) oldLands newLands choice
  | none =>
    obtain ⟨_, foldPlain, foldTransfers⟩ := pass.plain held
    have newIs : new = fold := by
      have newPlain : jumpOffset new = none := by
        have kept := jumpOffset_isSome_setJumpOffset 0 new
        rw [newEq, jumpOffset_isSome_setJumpOffset, foldPlain] at kept
        exact not_isSome_iff_eq_none.mp (by rw [← kept]; simp)
      rw [← setJumpOffset_none newPlain 0, newEq, setJumpOffset_none foldPlain]
    refine branchesMatch_same (newIs ▸ foldTransfers) choice fun off taken => ?_
    obtain ⟨v, defaultOffset, cases, rfl, mem⟩ := transfers_switch held taken
    obtain ⟨next, tgt, landed, hw, atNext, atTarget, oldLands, newLands⟩ :=
      relocates.switches index v defaultOffset cases hit off mem
    rw [← settled (index + 1) hb, ← settled tgt hw] at newLands
    exact ⟨next, _, tgt, landed, _, atNext, starts (index + 1) hb, atTarget, starts tgt hw, oldLands,
      newLands⟩

theorem eq_setJumpOffset_of_shape (eq : setJumpOffset 0 new = setJumpOffset 0 old) :
    ∃ off, new = setJumpOffset off old := by
  cases held : jumpOffset new with
  | some off =>
    refine ⟨off, ?_⟩
    rw [← setJumpOffset_setJumpOffset 0 off old, ← eq, setJumpOffset_setJumpOffset, setJumpOffset_self held]
  | none => exact ⟨0, by rw [← eq, setJumpOffset_none held]⟩

theorem Passed.reads (passed : Passed config positions totalLen instrs normalized index old normal fold)
    (shape : SameShape instrs normalized) (hit : instrs[index]? = some old)
    (newEq : setJumpOffset 0 new = setJumpOffset 0 fold)
    (recodes : ∀ off, Reads decodeInstruction (encodeInstruction (setJumpOffset off old))
      (setJumpOffset off old)) : Reads decodeInstruction (encodeInstruction new) new := by
  have normalEq : setJumpOffset 0 normal = setJumpOffset 0 old := by
    have e := shape.getElem? index
    rw [passed.normal_eq, hit] at e
    exact Option.some.inj e
  have kept : setJumpOffset 0 new = setJumpOffset 0 old → Reads decodeInstruction (encodeInstruction new) new := by
    intro same
    obtain ⟨off, rfl⟩ := eq_setJumpOffset_of_shape same
    exact recodes off
  rcases passed.folds with rfl | rfl
  · exact kept (newEq.trans normalEq)
  · rcases foldOne_cases (constsAt normalized index) normal with
      same | ⟨op, dst, a, b, va, vb, folded, rfl, _, _, _, eq⟩
    · rw [same] at newEq
      exact kept (newEq.trans normalEq)
    · rw [eq] at newEq
      obtain ⟨off, rfl⟩ := eq_setJumpOffset_of_shape newEq
      obtain ⟨other, oldEq⟩ := eq_setJumpOffset_of_shape normalEq
      exact reads_folded folded (oldEq ▸ recodes other)

theorem recodes_final (body : BodyAt code 0 instrs (positions ++ [code.length]))
    (accepted : normalizeJumpTargets positions code.length 0 instrs = some normalized)
    (relocates : Relocates instrs (config.folded normalized) (positions ++ [code.length])) :
    ∀ new ∈ fixupJumpOffsets (config.folded normalized), Reads decodeInstruction (encodeInstruction new) new := by
  have laid := relocates.laid (by simpa using body.length) accepted
  intro new mem
  obtain ⟨index, hb, atNew⟩ := getElem_of_mem mem
  have hin : index < instrs.length := by
    rw [← laid.folded_length, ← laid.final_shape.length]
    exact hb
  have hit : instrs[index]? = some instrs[index] := List.getElem?_eq_getElem hin
  obtain ⟨normal, fold, other, pass, atOther, otherEq⟩ := laid.get accepted hit
  obtain rfl : other = new := by
    rw [List.getElem?_eq_getElem hb, atNew] at atOther
    exact (Option.some.inj atOther).symm
  exact pass.reads laid.normal_shape hit otherEq (relocates.recodes _ (mem_of_getElem? hit))

/-- In every run whose jumps land where the tracked constants that later folds use are what the registers hold,
    the optimised body passes through the same stores at the same instructions. -/
theorem optimize_preserves_runs (semantics : Semantics World) (config : SpecializationOptimizer) (code out : Slice)
    (instrs normalized : List Instruction) (positions : List Nat) (stop : Nat)
    (decoded : decodeWithPositions code = .ok (instrs, positions) stop)
    (accepted : normalizeJumpTargets positions code.length 0 instrs = some normalized)
    (optimized : config.optimize code = some out.bytes)
    (relocates : Relocates instrs (config.folded normalized) (positions ++ [code.length])) :
    ∃ final starts, BodyAt out 0 final starts ∧ final.length = instrs.length ∧
      ∀ path store, JumpsAgree semantics code instrs (positions ++ [code.length]) path ⟨0, store⟩ →
        Corresponds (positions ++ [code.length]) starts (run semantics code path ⟨0, store⟩)
          (run semantics out path ⟨0, store⟩) := by
  have body := bodyAt_of_decodeWithPositionsFuel (Nat.zero_le _) decoded
  have bytes : out.bytes = encodeInstructions (fixupJumpOffsets (config.folded normalized)) := by
    simp only [SpecializationOptimizer.optimize, decoded, accepted, Option.some.injEq] at optimized
    exact optimized.symm
  have newBody : BodyAt out 0 (fixupJumpOffsets (config.folded normalized))
      (byteOffsetsFrom 0 (fixupJumpOffsets (config.folded normalized))) := by
    refine bodyAt_encodeInstructions (recodes_final body accepted relocates) ?_ ?_
    · exact @Slice.holds_of_eq out [] _ [] (by simpa using bytes)
    · rw [Nat.zero_add, ← bytes]
      rfl
  have matched := matched_of_relocates semantics body accepted relocates
  refine ⟨_, _, newBody, matched.length_eq, fun path store lands => ?_⟩
  refine run_corresponds body newBody matched path ⟨⟨0, ?_, ?_, ?_⟩, rfl⟩ lands
  · exact bodyAt_first body
  · exact bodyAt_first newBody
  · intro reg value _ known
    cases known

end Optimizer

section Samples

def idle : Semantics Unit := ⟨fun _ store => some store, fun _ _ _ => none⟩

def counterBody : Slice where
  bytes := encodeInstructions [.loadI ⟨0⟩ 1, .loadI ⟨1⟩ 1, .binaryI .add ⟨0⟩ ⟨0⟩ ⟨1⟩, .jmp (-6)]
  fits := by decide +kernel

def counterFolded : Slice where
  bytes := encodeInstructions [.loadI ⟨0⟩ 1, .loadI ⟨1⟩ 1, .loadI ⟨0⟩ 2, .jmp (-5)]
  fits := by decide +kernel

theorem counterBody_decoded : decodeWithPositions counterBody =
    .ok ([.loadI ⟨0⟩ 1, .loadI ⟨1⟩ 1, .binaryI .add ⟨0⟩ ⟨0⟩ ⟨1⟩, .jmp (-6)], [0, 3, 6, 10]) 12 := rfl

theorem optimize_changes_runs :
    ¬ ∀ (semantics : Semantics Unit) (code out : Slice) (instrs normalized : List Instruction)
        (positions : List Nat) (stop : Nat),
      decodeWithPositions code = .ok (instrs, positions) stop →
      normalizeJumpTargets positions code.length 0 instrs = some normalized →
      SpecializationOptimizer.default.optimize code = some out.bytes →
      ∃ final starts, BodyAt out 0 final starts ∧ ∀ path store,
        Corresponds (positions ++ [code.length]) starts (run semantics code path ⟨0, store⟩)
          (run semantics out path ⟨0, store⟩) := by
  intro claim
  obtain ⟨final, starts, _, same⟩ := claim idle counterBody counterFolded _
    [.loadI ⟨0⟩ 1, .loadI ⟨1⟩ 1, .binaryI .add ⟨0⟩ ⟨0⟩ ⟨1⟩, .jmp (-1)] _ _ counterBody_decoded rfl
    (by decide +kernel)
  have counted : (run idle counterBody [0, 0, 0, 0, 0] ⟨0, ⟨fun _ => 0, ()⟩⟩).map (fun state => state.store.regs 0)
      = some 3 := by decide +kernel
  have stuck : (run idle counterFolded [0, 0, 0, 0, 0] ⟨0, ⟨fun _ => 0, ()⟩⟩).map (fun state => state.store.regs 0)
      = some 2 := by decide +kernel
  have compared := (same [0, 0, 0, 0, 0] ⟨fun _ => 0, ()⟩).reg_eq 0
  rw [counted, stuck] at compared
  revert compared
  decide

theorem jumpsAgree_next {semantics : Semantics World} {code : Slice} {instrs : List Instruction} {starts : List Nat}
    {choice : Nat} {path : List Nat} {state next : State World}
    (taken : step semantics code choice state = some next) (falls : jumps code choice state = false)
    (rest : JumpsAgree semantics code instrs starts path next) :
    JumpsAgree semantics code instrs starts (choice :: path) state := by
  intro other taken'
  rw [taken] at taken'
  cases taken'
  refine ⟨fun jumped => ?_, rest⟩
  rw [falls] at jumped
  cases jumped

def skipInstrs : List Instruction :=
  [.loadI ⟨0⟩ 5, .loadI ⟨1⟩ 7, .binaryI .add ⟨2⟩ ⟨0⟩ ⟨1⟩, .jmp 4, .loadI ⟨3⟩ 999, .retV]

def skipNormalized : List Instruction :=
  [.loadI ⟨0⟩ 5, .loadI ⟨1⟩ 7, .binaryI .add ⟨2⟩ ⟨0⟩ ⟨1⟩, .jmp 2, .loadI ⟨3⟩ 999, .retV]

def skipBody : Slice where
  bytes := encodeInstructions skipInstrs
  fits := by decide +kernel

def skipFolded : Slice where
  bytes := encodeInstructions [.loadI ⟨0⟩ 5, .loadI ⟨1⟩ 7, .loadI ⟨2⟩ 12, .jmp 4, .loadI ⟨3⟩ 999, .retV]
  fits := by decide +kernel

theorem skipInstrs_recodes (instr : Instruction) (mem : instr ∈ skipInstrs) (off : Int32) :
    Reads decodeInstruction (encodeInstruction (setJumpOffset off instr)) (setJumpOffset off instr) := by
  have small : ∀ index : UInt16, index < 4 → Reg.Encodable ⟨index⟩ := by
    intro index hb
    have lt : index.toNat < 4 := hb
    change index.toNat < 2 ^ 15
    omega
  refine reads_instruction _ ?_
  simp only [skipInstrs, mem_cons, not_mem_nil, or_false] at mem
  rcases mem with rfl | rfl | rfl | rfl | rfl | rfl
  · exact small 0 (by decide)
  · exact small 1 (by decide)
  · exact ⟨small 2 (by decide), small 0 (by decide), small 1 (by decide)⟩
  · trivial
  · exact small 3 (by decide)
  · trivial

theorem skipNormalized_settles : RelaxesInTen (SpecializationOptimizer.default.folded skipNormalized) := by
  have hin : TargetsInside (SpecializationOptimizer.default.folded skipNormalized) := by decide +kernel
  rw [← lands_fixupJumpOffsets_iff hin (by decide +kernel),
    ← jumpsLand_iff_lands (fixupJumpOffsets_relax hin (by decide +kernel)).1 hin]
  intro index hb off held
  have cases : index = 0 ∨ index = 1 ∨ index = 2 ∨ index = 3 ∨ index = 4 ∨ index = 5 := by
    have six : index < 6 := hb
    omega
  rcases cases with rfl | rfl | rfl | rfl | rfl | rfl
  case inr.inr.inr.inl =>
    cases held
    exact ⟨4, by decide +kernel, by decide +kernel⟩
  all_goals cases held

theorem optimize_preserves_runs_skip :
    ∃ final starts, BodyAt skipFolded 0 final starts ∧ final.length = 6 ∧
      Corresponds [0, 3, 6, 10, 12, 16, 17] starts (run idle skipBody [0, 0, 0, 0] ⟨0, ⟨fun _ => 0, ()⟩⟩)
        (run idle skipFolded [0, 0, 0, 0] ⟨0, ⟨fun _ => 0, ()⟩⟩) := by
  have relocates : Relocates skipInstrs (SpecializationOptimizer.default.folded skipNormalized)
      [0, 3, 6, 10, 12, 16, 17] := by
    refine ⟨skipInstrs_recodes, by decide +kernel, skipNormalized_settles, ?_⟩
    intro index value defaultOffset cases found
    have member := mem_of_getElem? found
    simp [skipInstrs] at member
  obtain ⟨final, starts, body, length, same⟩ := optimize_preserves_runs idle .default skipBody skipFolded skipInstrs
    skipNormalized [0, 3, 6, 10, 12, 16] 17 rfl rfl (by decide +kernel) relocates
  refine ⟨final, starts, body, length, same [0, 0, 0, 0] _ ?_⟩
  refine jumpsAgree_next rfl rfl (jumpsAgree_next rfl rfl (jumpsAgree_next rfl rfl ?_))
  intro next taken
  refine ⟨fun _ index there reg value isNeeded _ => ?_, trivial⟩
  have landed : next.pc = 16 := by
    cases taken
    rfl
  rw [landed] at there
  have atReturn : ∀ index < 7, [0, 3, 6, 10, 12, 16, 17][index]? = some 16 → index = 5 := by decide
  obtain rfl := atReturn index (List.getElem?_eq_some_iff.mp there).1 there
  cases isNeeded

end Samples

end Mono
