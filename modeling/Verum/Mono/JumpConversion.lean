import Verum.Mono.OptimizerSoundness

open List

namespace Mono

open Wire Vbc

/-- Convert the byte offset of a jump, whose instruction ends at `stop`, where its target is found. -/
def convertJump (indexOf : Nat → Option Nat) (stop idx : Nat) (instr : Instruction) : Instruction :=
  match jumpOffset instr with
  | none => instr
  | some byteOff =>
    let targetByte : Int := stop + byteOff.toInt
    match if targetByte < 0 then none else indexOf targetByte.toNat with
    | none => instr
    | some target => setJumpOffset (Int32.ofNat target - Int32.ofNat idx) instr

/-- Byte offsets to index offsets, against the re-measured starts of the instructions and their end. -/
def jumpOffsetsToInstrIndices (instructions : List Instruction) : List Instruction :=
  let byteOffsets := byteOffsets instructions
  instructions.mapIdx fun idx instr =>
    convertJump byteOffsets.idxOf? (byteOffsets.getD idx 0 + instructionSize instr) idx instr

/-- Byte offsets to index offsets, against the decoded starts of the instructions. -/
def convertJumpOffsetsByteToInstr (instrs : List Instruction) (positions : List Nat) (totalLen : Nat) :
    List Instruction :=
  instrs.mapIdx fun i instr => convertJump positions.idxOf? (positions[i + 1]?.getD totalLen) i instr

def decodeSpecBody (bytes : Slice) : Option (List Instruction) :=
  match decodeWithPositions bytes with
  | .ok (instrs, positions) _ => some (convertJumpOffsetsByteToInstr instrs positions bytes.length)
  | _ => none

/-- A byte offset at instruction `i` leads to boundary `k`. -/
def LandsAt (starts : List Nat) (i : Nat) (offset : Int32) (k : Nat) : Prop :=
  ∃ stop landed : Nat, starts[i + 1]? = some stop ∧ starts[k]? = some landed ∧ (stop : Int) + offset.toInt = landed

def JumpsLandAt (instrs : List Instruction) (starts : List Nat) : Prop :=
  ∀ (i : Nat) (instr : Instruction) (offset : Int32), instrs[i]? = some instr → jumpOffset instr = some offset →
    ∃ k, LandsAt starts i offset k

/-- The three converters turn the decoded body into the same instructions. -/
def ConvertersAgree (code : Slice) : Prop :=
  ∃ instrs positions after, decodeWithPositions code = .ok (instrs, positions) after ∧
    decodeInstructions code = .ok instrs after ∧
    normalizeJumpTargets positions code.length 0 instrs = some (jumpOffsetsToInstrIndices instrs) ∧
    decodeSpecBody code = some (jumpOffsetsToInstrIndices instrs)

/-- The offset from one index to another, as the converters compute it. -/
def indexOffset (i k : Nat) : Int32 := Int32.ofNat k - Int32.ofNat i

/-- An offset is converted to the one that leads to `k`, or stays and is that offset already. -/
def Converts (starts : List Nat) (i : Nat) (offset : Int32) (k : Nat) : Prop :=
  (∃ found, LandsAt starts i offset found ∧ indexOffset i found = indexOffset i k) ∨
  ((∀ found, ¬ LandsAt starts i offset found) ∧ offset = indexOffset i k)

variable {code : Slice} {instrs : List Instruction} {positions starts : List Nat} {instr : Instruction} {i k stop : Nat}
  {offset : Int32}

theorem bodyAt_pairwise {data : Slice} {start : Nat} (hin : start ≤ data.length)
    (body : BodyAt data start instrs starts) : starts.Pairwise (· < ·) ∧ ∀ fst ∈ starts, start ≤ fst := by
  induction body with
  | done => exact ⟨pairwise_singleton .., fun fst mem => Nat.le_of_eq (mem_singleton.mp mem).symm⟩
  | @next start mid head instrs starts more run rest ih =>
    have moved := decodeInstruction_advances data start head mid hin run
    rcases ih moved.2 with ⟨pairwise, low⟩
    constructor
    · apply pairwise_cons.mpr
      refine ⟨?_, pairwise⟩
      intro fst mem
      exact Nat.lt_of_lt_of_le moved.1 (low fst mem)
    · intro fst mem
      rcases mem_cons.mp mem with rfl | hl
      · exact Nat.le_refl _
      · exact Nat.le_trans (Nat.le_of_lt moved.1) (low fst hl)

theorem byteOffsetsFrom_pairwise (cur : Nat) (instrs : List Instruction) :
    (byteOffsetsFrom cur instrs).Pairwise (· < ·) ∧ ∀ fst ∈ byteOffsetsFrom cur instrs, cur ≤ fst := by
  induction instrs generalizing cur with
  | nil => exact ⟨pairwise_singleton .., fun fst mem => Nat.le_of_eq (mem_singleton.mp mem).symm⟩
  | cons head instrs ih =>
    have pos : 0 < instructionSize head := length_pos_iff.mpr (encodeInstruction_ne_nil head)
    rcases ih (cur + instructionSize head) with ⟨pairwise, low⟩
    constructor
    · apply pairwise_cons.mpr
      refine ⟨?_, pairwise⟩
      intro fst mem
      have hl := low fst mem
      omega
    · intro fst mem
      rcases mem_cons.mp mem with rfl | hl
      · exact Nat.le_refl _
      · have beyond := low fst hl
        omega

theorem nodup_of_pairwise_lt (sorted : starts.Pairwise (· < ·)) : starts.Nodup :=
  sorted.imp fun lt => Nat.ne_of_lt lt

theorem idxOf?_getElem? (nodup : starts.Nodup) {landed : Nat} (hit : starts[k]? = some landed) :
    starts.idxOf? landed = some k := by
  rcases List.getElem?_eq_some_iff.mp hit with ⟨hin, rfl⟩
  rw [List.idxOf?_eq_some_iff]
  refine ⟨hin, rfl, ?_⟩
  intro j pre eq
  have equal := (List.Nodup.getElem_inj_iff nodup).mp eq
  omega

theorem convertJump_eq_iff {indexOf : Nat → Option Nat} (isJump : jumpOffset instr = some offset) {wanted : Int32} :
    convertJump indexOf stop i instr = setJumpOffset wanted instr ↔
      match if (stop : Int) + offset.toInt < 0 then none else indexOf ((stop : Int) + offset.toInt).toNat with
      | some tgt => indexOffset i tgt = wanted
      | none => offset = wanted := by
  have injective : ∀ fst snd : Int32, setJumpOffset fst instr = setJumpOffset snd instr ↔ fst = snd := by
    intro fst snd
    constructor
    · intro eq
      have offs := congrArg jumpOffset eq
      rw [jumpOffset_setJumpOffset isJump, jumpOffset_setJumpOffset isJump] at offs
      exact Option.some.inj offs
    · intro eq
      rw [eq]
  unfold convertJump
  rw [isJump]
  dsimp only
  generalize (if (stop : Int) + offset.toInt < 0 then none else indexOf ((stop : Int) + offset.toInt).toNat) = hit
  cases hit with
  | some tgt => exact injective _ _
  | none =>
    dsimp only
    conv_lhs => lhs; rw [← setJumpOffset_self isJump]
    exact injective _ _

theorem lookup_iff (sorted : starts.Pairwise (· < ·)) {tgt : Int} {hit : Nat} :
    (if tgt < 0 then none else starts.idxOf? tgt.toNat) = some hit ↔
      ∃ landed : Nat, starts[hit]? = some landed ∧ tgt = landed := by
  constructor
  · intro isFound
    split at isFound
    · cases isFound
    · rename_i nonneg
      rcases List.idxOf?_eq_some_iff.mp isFound with ⟨hin, landed, -⟩
      refine ⟨_, List.getElem?_eq_getElem hin, ?_⟩
      rw [landed, Int.toNat_of_nonneg (Int.not_lt.mp nonneg)]
  · rintro ⟨landed, found', rfl⟩
    rw [if_neg (by omega), Int.toNat_natCast]
    exact idxOf?_getElem? (nodup_of_pairwise_lt sorted) found'

theorem convertJump_iff_converts (sorted : starts.Pairwise (· < ·)) (isJump : jumpOffset instr = some offset)
    (next : starts[i + 1]? = some stop) :
    convertJump starts.idxOf? stop i instr = setJumpOffset (indexOffset i k) instr ↔ Converts starts i offset k := by
  have lookup : ∀ hit, (if (stop : Int) + offset.toInt < 0 then none
      else starts.idxOf? ((stop : Int) + offset.toInt).toNat) = some hit ↔ LandsAt starts i offset hit := by
    intro hit
    rw [lookup_iff sorted]
    constructor
    · rintro ⟨landed, isFound, sum⟩
      exact ⟨stop, landed, next, isFound, sum⟩
    · rintro ⟨stop', landed, next', isFound, sum⟩
      rw [next] at next'
      cases next'
      exact ⟨landed, isFound, sum⟩
  rw [convertJump_eq_iff isJump]
  unfold Converts
  cases res : (if (stop : Int) + offset.toInt < 0 then none
      else starts.idxOf? ((stop : Int) + offset.toInt).toNat) with
  | some hit =>
    dsimp only
    have lands := (lookup hit).mp res
    constructor
    · exact fun eq => .inl ⟨hit, lands, eq⟩
    · rintro (⟨other, landsOther, eq⟩ | ⟨none, -⟩)
      · have equal := (lookup other).mpr landsOther
        rw [res] at equal
        cases equal
        exact eq
      · exact absurd lands (none hit)
  | none =>
    dsimp only
    have none : ∀ hit, ¬ LandsAt starts i offset hit := by
      intro hit lands
      have isFound := (lookup hit).mpr lands
      rw [res] at isFound
      cases isFound
    constructor
    · exact fun eq => .inr ⟨none, eq⟩
    · rintro (⟨other, landsOther, -⟩ | ⟨-, eq⟩)
      · exact absurd landsOther (none other)
      · exact eq

theorem convertJump_plain {indexOf : Nat → Option Nat} (plain : jumpOffset instr = none) :
    convertJump indexOf stop i instr = instr := by
  unfold convertJump
  rw [plain]

section Decoded

theorem stop_eq (hin : i < positions.length) :
    (positions ++ [code.length])[i + 1]? = some (positions[i + 1]?.getD code.length) := by
  by_cases more : i + 1 < positions.length
  · rw [List.getElem?_append_left more, List.getElem?_eq_getElem more]
    rfl
  · have last : i + 1 = positions.length := by omega
    simp [last]

theorem landsAt_iff (hin : i < positions.length) : LandsAt (positions ++ [code.length]) i offset k ↔
    ∃ landed : Nat, (positions ++ [code.length])[k]? = some landed ∧
      ((positions[i + 1]?.getD code.length : Nat) : Int) + offset.toInt = landed := by
  have next := @stop_eq code positions i hin
  constructor
  · rintro ⟨stop, landed, isStop, isLanded, sum⟩
    rw [next] at isStop
    cases isStop
    exact ⟨landed, isLanded, sum⟩
  · rintro ⟨landed, isLanded, sum⟩
    exact ⟨_, landed, next, isLanded, sum⟩

theorem normalizeJumpTarget_lands (sorted : (positions ++ [code.length]).Pairwise (· < ·)) (hin : i < positions.length)
    (isJump : jumpOffset instr = some offset) (lands : LandsAt (positions ++ [code.length]) i offset k) :
    normalizeJumpTarget positions code.length i instr = some (setJumpOffset (indexOffset i k) instr) := by
  rcases (landsAt_iff hin).mp lands with ⟨landed, isLanded, sum⟩
  have idx := idxOf?_getElem? (nodup_of_pairwise_lt sorted) isLanded
  have hit : byteToIdx positions code.length landed = some (Int32.ofNat k) := by
    unfold byteToIdx
    split
    · rename_i isEnd
      have last : (positions ++ [code.length])[positions.length]? = some landed := by
        rw [isEnd]
        simp
      rw [idxOf?_getElem? (nodup_of_pairwise_lt sorted) last] at idx
      rw [Option.some.inj idx]
    · rename_i notEnd
      have hw : k < positions.length := by
        rcases List.getElem?_eq_some_iff.mp isLanded with ⟨hb, v⟩
        apply Nat.lt_of_not_le
        intro beyond
        have last : k = positions.length := by
          rw [length_append] at hb
          simp only [length_singleton] at hb
          omega
        subst last
        apply notEnd
        simp at v
        exact v.symm
      rw [List.getElem?_append_left hw] at isLanded
      have nodup := (nodup_append.mp (nodup_of_pairwise_lt sorted)).1
      rw [idxOf?_getElem? nodup isLanded]
      rfl
  unfold normalizeJumpTarget
  rw [isJump]
  dsimp only
  rw [sum, if_neg (by omega), Int.toNat_natCast, hit]
  rfl

theorem convertJump_merger_iff (sorted : (positions ++ [code.length]).Pairwise (· < ·)) (hin : i < positions.length)
    (isJump : jumpOffset instr = some offset) (lands : LandsAt (positions ++ [code.length]) i offset k) :
    convertJump positions.idxOf? (positions[i + 1]?.getD code.length) i instr = setJumpOffset (indexOffset i k) instr ↔
      (k = positions.length → offset = indexOffset i k) := by
  rcases (landsAt_iff hin).mp lands with ⟨landed, isLanded, sum⟩
  have starts : positions.Pairwise (· < ·) := (pairwise_append.mp sorted).1
  rw [convertJump_eq_iff isJump, sum]
  by_cases last : k = positions.length
  · subst last
    have isEnd : landed = code.length := by simpa using isLanded.symm
    have ha : (if ((landed : Nat) : Int) < 0 then none else positions.idxOf? ((landed : Nat) : Int).toNat) = none := by
      cases hit : (if ((landed : Nat) : Int) < 0 then none else positions.idxOf? ((landed : Nat) : Int).toNat) with
      | none => rfl
      | some j =>
        rcases (lookup_iff starts).mp hit with ⟨v, atJ, eq⟩
        have mem := mem_of_getElem? atJ
        have pre := (pairwise_append.mp sorted).2.2 v mem code.length (.head _)
        omega
    rw [ha]
    exact ⟨fun eq _ => eq, fun imp => imp rfl⟩
  · have hw : k < positions.length := by
      have hb := (List.getElem?_eq_some_iff.mp isLanded).1
      rw [length_append, length_singleton] at hb
      omega
    rw [List.getElem?_append_left hw] at isLanded
    rw [(lookup_iff starts).mpr ⟨landed, isLanded, rfl⟩]
    exact ⟨fun _ isLast => absurd isLast last, fun _ => rfl⟩

theorem normalizeJumpTargets_of_each {start : Nat} {results : List Instruction} (length : results.length = instrs.length)
    (each : ∀ idx instr, instrs[idx]? = some instr →
      normalizeJumpTarget positions code.length (start + idx) instr = results[idx]?) :
    normalizeJumpTargets positions code.length start instrs = some results := by
  induction instrs generalizing start results with
  | nil =>
    rw [length_eq_zero_iff.mp length]
    rfl
  | cons head instrs ih =>
    cases results with
    | nil => cases length
    | cons res results =>
      have fst := each 0 head rfl
      have rest := @ih (start + 1) results (Nat.succ.inj length) (by
        intro idx instr hit
        have hl := each (idx + 1) instr hit
        rwa [show start + (idx + 1) = start + 1 + idx by omega] at hl)
      unfold normalizeJumpTargets
      rw [Nat.add_zero] at fst
      rw [fst, rest]
      rfl

theorem decodeInstructionsFuel_of_positions {fuel start after : Nat}
    (decoded : decodeWithPositionsFuel fuel code start = .ok (instrs, positions) after) :
    decodeInstructionsFuel fuel code start = .ok instrs after := by
  induction fuel generalizing start instrs positions after with
  | zero => cases decoded
  | succ fuel ih =>
    change (if start < code.length then _ else _ : Decode (List Instruction × List Nat)) code start = _ at decoded
    show (if start < code.length then _ else _ : Decode (List Instruction)) code start = _
    by_cases more : start < code.length
    · rw [if_pos more] at decoded ⊢
      rcases bind_eq_ok decoded with ⟨instr, mid, head, rest⟩
      rcases bind_eq_ok rest with ⟨⟨tail, tailPositions⟩, stop, loop, last⟩
      cases last
      rw [bind_ok head, bind_ok (ih loop)]
      rfl
    · rw [if_neg more] at decoded ⊢
      cases decoded
      rfl

theorem byteOffsets_succ (hit : instrs[i]? = some instr) :
    (byteOffsets instrs)[i + 1]? = some ((byteOffsets instrs).getD i 0 + instructionSize instr) := by
  rcases List.getElem?_eq_some_iff.mp hit with ⟨hin, rfl⟩
  unfold byteOffsets
  rw [getD_eq_getElem?_getD, byteOffsetsFrom_getElem? 0 (i + 1) instrs hin,
    byteOffsetsFrom_getElem? 0 i instrs (Nat.le_of_lt hin), take_succ_eq_append_getElem hin,
    encodeInstructions_append, length_append, encodeInstructions_cons, length_append, ← Nat.add_assoc]
  rfl

theorem jumpOffsetsToInstrIndices_getElem? (hit : instrs[i]? = some instr) :
    (jumpOffsetsToInstrIndices instrs)[i]? = some (convertJump (byteOffsets instrs).idxOf?
      ((byteOffsets instrs).getD i 0 + instructionSize instr) i instr) := by
  unfold jumpOffsetsToInstrIndices
  dsimp only
  rw [List.getElem?_mapIdx, hit]
  rfl

theorem convertJumpOffsetsByteToInstr_getElem? {totalLen : Nat} (hit : instrs[i]? = some instr) :
    (convertJumpOffsetsByteToInstr instrs positions totalLen)[i]? =
      some (convertJump positions.idxOf? (positions[i + 1]?.getD totalLen) i instr) := by
  unfold convertJumpOffsetsByteToInstr
  rw [List.getElem?_mapIdx, hit]
  rfl

/-- On a body whose jumps land on boundaries the converters agree exactly when the instructions between each jump
    and its target re-encode to their old size, or its offset is the index offset already, and the latter holds for
    every jump to the end. -/
theorem convertersAgree_iff (code : Slice) (instrs : List Instruction) (positions : List Nat) (after : Nat)
    (decoded : decodeWithPositions code = .ok (instrs, positions) after)
    (lands : JumpsLandAt instrs (positions ++ [code.length])) :
    ConvertersAgree code ↔ ∀ (i : Nat) (instr : Instruction) (offset : Int32) (k : Nat), instrs[i]? = some instr →
      jumpOffset instr = some offset → LandsAt (positions ++ [code.length]) i offset k →
      Converts (byteOffsets instrs) i offset k ∧ (k = instrs.length → offset = indexOffset i k) := by
  have body := bodyAt_of_decodeWithPositionsFuel (Nat.zero_le _) decoded
  have sorted := (bodyAt_pairwise (Nat.zero_le _) body).1
  have lengths : positions.length = instrs.length := by
    have length := body.length
    rw [length_append] at length
    exact Nat.succ.inj length
  have spec : decodeSpecBody code = some (convertJumpOffsetsByteToInstr instrs positions code.length) := by
    unfold decodeSpecBody
    rw [decoded]
  have agree : ConvertersAgree code ↔
      normalizeJumpTargets positions code.length 0 instrs = some (jumpOffsetsToInstrIndices instrs) ∧
      convertJumpOffsetsByteToInstr instrs positions code.length = jumpOffsetsToInstrIndices instrs := by
    constructor
    · rintro ⟨instrs', positions', after', decoded', -, normalized, merged⟩
      rw [decoded] at decoded'
      cases decoded'
      rw [spec] at merged
      exact ⟨normalized, Option.some.inj merged⟩
    · rintro ⟨normalized, merged⟩
      exact ⟨instrs, positions, after, decoded, decodeInstructionsFuel_of_positions decoded, normalized,
        spec.trans (congrArg some merged)⟩
  rw [agree]
  have canonical : ∀ {i : Nat} {instr : Instruction} {offset : Int32} {k : Nat}, instrs[i]? = some instr →
      jumpOffset instr = some offset → ((jumpOffsetsToInstrIndices instrs)[i]? =
        some (setJumpOffset (indexOffset i k) instr) ↔ Converts (byteOffsets instrs) i offset k) := by
    intro i instr offset k found isJump
    rw [jumpOffsetsToInstrIndices_getElem? found, Option.some_inj]
    exact convertJump_iff_converts (byteOffsetsFrom_pairwise 0 instrs).1 isJump (byteOffsets_succ found)
  have merger : ∀ {i : Nat} {instr : Instruction} {offset : Int32} {k : Nat}, instrs[i]? = some instr →
      jumpOffset instr = some offset → LandsAt (positions ++ [code.length]) i offset k →
      ((convertJumpOffsetsByteToInstr instrs positions code.length)[i]? =
        some (setJumpOffset (indexOffset i k) instr) ↔ (k = instrs.length → offset = indexOffset i k)) := by
    intro i instr offset k found isJump landsAt
    have inside : i < positions.length := lengths ▸ (List.getElem?_eq_some_iff.mp found).1
    rw [convertJumpOffsetsByteToInstr_getElem? found, Option.some_inj, ← lengths]
    exact convertJump_merger_iff sorted inside isJump landsAt
  constructor
  · rintro ⟨normalized, merged⟩ i instr offset k found isJump landsAt
    have inside : i < positions.length := lengths ▸ (List.getElem?_eq_some_iff.mp found).1
    rcases (normalizeJumpTargets_getElem? normalized).2 i instr found with ⟨new, isNew, target⟩
    rw [Nat.zero_add, normalizeJumpTarget_lands sorted inside isJump landsAt] at target
    cases target
    constructor
    · exact (canonical found isJump).mp isNew
    · apply (merger found isJump landsAt).mp
      rw [merged]
      exact isNew
  · intro condition
    have each : ∀ i instr, instrs[i]? = some instr →
        normalizeJumpTarget positions code.length i instr = (jumpOffsetsToInstrIndices instrs)[i]? ∧
        (convertJumpOffsetsByteToInstr instrs positions code.length)[i]? = (jumpOffsetsToInstrIndices instrs)[i]? := by
      intro i instr found
      have inside : i < positions.length := lengths ▸ (List.getElem?_eq_some_iff.mp found).1
      cases isJump : jumpOffset instr with
      | none =>
        rw [jumpOffsetsToInstrIndices_getElem? found, convertJumpOffsetsByteToInstr_getElem? found,
          convertJump_plain isJump, convertJump_plain isJump]
        refine ⟨?_, rfl⟩
        unfold normalizeJumpTarget
        rw [isJump]
      | some offset =>
        rcases lands i instr offset found isJump with ⟨k, landsAt⟩
        rcases condition i instr offset k found isJump landsAt with ⟨converts, atEnd⟩
        rw [(canonical found isJump).mpr converts, (merger found isJump landsAt).mpr atEnd]
        exact ⟨normalizeJumpTarget_lands sorted inside isJump landsAt, rfl⟩
    constructor
    · apply normalizeJumpTargets_of_each
      · unfold jumpOffsetsToInstrIndices
        exact length_mapIdx
      · intro i instr found
        rw [Nat.zero_add]
        exact (each i instr found).1
    · apply ext_getElem?
      intro i
      cases found : instrs[i]? with
      | some instr => exact (each i instr found).2
      | none =>
        unfold convertJumpOffsetsByteToInstr jumpOffsetsToInstrIndices
        dsimp only
        rw [List.getElem?_mapIdx, List.getElem?_mapIdx, found]
        rfl

end Decoded

def jumpToEnd : Slice where
  bytes := encodeInstructionsWithFixup [.jmp 1]
  fits := by decide +kernel

theorem jumpToEnd_decoded : decodeWithPositions jumpToEnd = .ok ([.jmp 0], [0]) 2 := rfl

/-- The merger leaves the jump's byte offset where the other two have its index offset. -/
theorem jumpToEnd_disagree : JumpsLandAt [.jmp 0] ([0] ++ [jumpToEnd.length]) ∧ ¬ ConvertersAgree jumpToEnd := by
  constructor
  · intro i instr offset found isJump
    match i with
    | 0 =>
      cases found
      cases isJump
      exact ⟨1, 2, 2, rfl, rfl, rfl⟩
    | i + 1 => cases found
  · rintro ⟨instrs, positions, after, decoded, -, -, merged⟩
    rw [jumpToEnd_decoded] at decoded
    cases decoded
    have canonical : jumpOffsetsToInstrIndices [.jmp 0] = [.jmp 1] := rfl
    have left : decodeSpecBody jumpToEnd = some [.jmp 0] := rfl
    rw [canonical, left] at merged
    cases merged

def jumpBack : Slice where
  bytes := encodeInstructionsWithFixup [.nop, .jmp (-1)]
  fits := by decide +kernel

theorem jumpBack_decoded : decodeWithPositions jumpBack = .ok ([.nop, .jmp (-3)], [0, 1]) 3 := rfl

theorem jumpBack_jump {i : Nat} {instr : Instruction} {offset : Int32}
    (hit : [Instruction.nop, .jmp (-3)][i]? = some instr) (isJump : jumpOffset instr = some offset) :
    i = 1 ∧ offset = -3 := by
  match i with
  | 0 =>
    cases hit
    cases isJump
  | 1 =>
    cases hit
    cases isJump
    exact ⟨rfl, rfl⟩
  | i + 2 => cases hit

theorem jumpBack_agree : ConvertersAgree jumpBack := by
  apply (convertersAgree_iff jumpBack _ _ _ jumpBack_decoded ?_).mpr
  · intro i instr offset k found isJump lands
    rcases jumpBack_jump found isJump with ⟨rfl, rfl⟩
    rcases lands with ⟨stop, landed, isStop, isLanded, sum⟩
    cases isStop
    match k with
    | 0 => exact ⟨.inl ⟨0, ⟨3, 0, rfl, rfl, rfl⟩, rfl⟩, nofun⟩
    | 1 | 2 =>
      cases isLanded
      cases sum
    | k + 3 => cases isLanded
  · intro i instr offset found isJump
    rcases jumpBack_jump found isJump with ⟨rfl, rfl⟩
    exact ⟨0, 3, 0, rfl, rfl, rfl⟩

end Mono
