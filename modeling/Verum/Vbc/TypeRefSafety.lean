import Verum.Vbc.TypeRef
import Verum.Wire.Safe

namespace Vbc

open Wire

section Primitives

theorem decodeU8_advances : Advances 1 decodeU8 := by
  intro data off v after hin run
  rw [decodeU8_run] at run
  by_cases more : off < data.length
  · have hit : data.bytes[off]? = some data.bytes[off] := List.getElem?_eq_getElem more
    rw [hit] at run
    simp only [Outcome.ok.injEq] at run
    omega
  · have missing : data.bytes[off]? = none := List.getElem?_eq_none (Nat.not_lt.mp more)
    rw [missing] at run
    cases run

theorem safe_u8 : Safe decodeU8 := by
  refine ⟨decodeU8_advances.weaken (by omega), fun data off _ => ?_⟩
  rintro ⟨fault, run⟩
  rw [decodeU8_run] at run
  cases hit : data.bytes[off]? with
  | none | some byte => rw [hit] at run; cases run

theorem decodeU8_eq_ok {data : Slice} {off after : Nat} {byte : UInt8} :
    decodeU8 data off = .ok byte after ↔ data.bytes[off]? = some byte ∧ after = off + 1 := by
  rw [decodeU8_run]
  cases data.bytes[off]? with
  | none => simp
  | some hit => simp [eq_comm]

theorem safe_varint_loop (start rounds : Nat) : ∀ shift res, Safe (decodeVarintLoop start rounds shift res) := by
  induction rounds with
  | zero => exact fun shift res => Safe.fail _
  | succ rounds ih =>
    intro shift res
    refine safe_u8.bind fun byte => ?_
    exact (Safe.fail _).ite ((Safe.pure _).ite (ih _ _))

theorem decodeVarint_advances : Advances 1 decodeVarint := by
  intro data off v after hin run
  have loop : decodeVarintLoop off 10 0 0 data off = .ok v after := run
  have fst : Advances 1 (decodeVarintLoop off 10 0 0) :=
    decodeU8_advances.bind_first fun byte =>
      ((Safe.fail _).ite ((Safe.pure _).ite (safe_varint_loop off 9 _ _))).stays
  exact fst data off v after hin loop

theorem safe_varint : Safe decodeVarint := by
  refine ⟨decodeVarint_advances.weaken (by omega), fun data off hin => ?_⟩
  rintro ⟨fault, run⟩
  exact (safe_varint_loop off 10 0 0).noFault data off hin ⟨fault, run⟩

theorem safe_signed : Safe decodeSignedVarint := safe_varint.bind fun _ => Safe.pure _

theorem decodeFixed_run {data : Slice} {off width : Nat} (hf : off + width ≤ data.length) :
    decodeFixed width data off = .ok ((data.bytes.drop off).take width) (off + width) := by
  have hb := data.length_lt
  have noWrap : off + width < 2 ^ 64 := by omega
  simp only [decodeFixed, hf, if_true, bind_run, advance, noWrap, pure_run]

theorem safe_fixed (width : Nat) : Safe (decodeFixed width) := by
  constructor
  · intro data off v after hin run
    by_cases hf : off + width ≤ data.length
    · rw [decodeFixed_run hf] at run
      cases run
      omega
    · rw [decodeFixed, if_neg hf] at run
      cases run
  · rintro data off hin ⟨fault, run⟩
    by_cases hf : off + width ≤ data.length
    · rw [decodeFixed_run hf] at run
      cases run
    · rw [decodeFixed, if_neg hf] at run
      cases run

theorem safe_f64 : Safe decodeF64 := (safe_fixed 8).bind fun _ => Safe.pure _

theorem safe_f32 : Safe decodeF32 := (safe_fixed 4).bind fun _ => Safe.pure _

theorem safe_reg : Safe decodeReg :=
  safe_u8.bind fun _ => (Safe.pure _).ite (safe_u8.bind fun _ => Safe.pure _)

theorem safe_reg_range : Safe decodeRegRange :=
  safe_reg.bind fun _ => safe_u8.bind fun _ => Safe.pure _

theorem decodePayloadRange_run {data : Slice} {off : Nat} (hin : off ≤ data.length) :
    (∃ error, decodePayloadRange data off = .err error) ∨
      ∃ start stop, decodePayloadRange data off = .ok (start, stop) stop ∧ off ≤ start ∧ start ≤ stop ∧
        stop ≤ data.length := by
  cases run : decodeVarint data off with
  | err error => exact .inl ⟨error, by simp only [decodePayloadRange, bind_run, run]⟩
  | fault fault => exact absurd ⟨fault, run⟩ (safe_varint.noFault data off hin)
  | ok len start =>
    have hb := safe_varint.stays data off len start hin run
    have hf := data.length_lt
    by_cases short : data.length - start < len
    · refine .inl ⟨eof start len, ?_⟩
      simp [decodePayloadRange, bind_run, run, position, dataLen, subUsize, hb.2, short, fail]
    · have noWrap : start + len < 2 ^ 64 := by omega
      refine .inr ⟨start, start + len, ?_, by omega, by omega, by omega⟩
      simp only [decodePayloadRange, bind_run, run, position, dataLen, subUsize, hb.2, if_true, short, if_false,
        addUsize, noWrap, setPosition, pure_run]

theorem safe_bytes : Safe decodeBytes := by
  constructor
  · intro data off v after hin run
    rcases decodePayloadRange_run hin with ⟨error, hr⟩ | ⟨start, stop, hr, hb⟩
    · simp only [decodeBytes, bind_run, hr] at run
      cases run
    · simp only [decodeBytes, bind_run, hr, subslice] at run
      rw [if_pos ⟨by omega, by omega⟩] at run
      cases run
      omega
  · rintro data off hin ⟨fault, run⟩
    rcases decodePayloadRange_run hin with ⟨error, hr⟩ | ⟨start, stop, hr, hb⟩
    · simp only [decodeBytes, bind_run, hr] at run
      cases run
    · simp only [decodeBytes, bind_run, hr, subslice] at run
      rw [if_pos ⟨by omega, by omega⟩] at run
      cases run

end Primitives

section Pieces

theorem safe_position {ε : Type} : Safe (position : Decoder ε Nat) := by
  constructor
  · intro data off v after hin run
    cases run
    omega
  · rintro data off _ ⟨fault, run⟩
    cases run

theorem safe_invalid {α : Type} (disc : UInt8) : Safe (@invalidTypeRef α disc) :=
  safe_position.bind fun _ => Safe.fail _

theorem safe_to_u32 (disc : UInt8) (v : Nat) : Safe (toU32 disc v) :=
  (Safe.pure _).ite (safe_invalid disc)

theorem toU16_advances (disc : UInt8) (v : Nat) : Advances 0 (toU16 disc v) := by
  intro data off id after hin run
  unfold toU16 at run
  split at run
  · exact Advances.pure _ data off id after hin run
  · simp only [bind_run, position, subUsize] at run
    split at run <;> cases run

theorem safe_varint_u16 (disc : UInt8) : Safe (decodeVarint >>= toU16 disc) := by
  refine ⟨safe_varint.stays.bind_zero fun _ => toU16_advances disc _, fun data off hin => ?_⟩
  rw [faults_bind_safe safe_varint hin]
  rintro ⟨v, after, run, fault, stop⟩
  have moved := decodeVarint_advances data off v after hin run
  have behind : 1 ≤ after := by omega
  unfold toU16 at stop
  split at stop
  · cases stop
  · simp only [bind_run, position, subUsize, behind, if_true, fail] at stop
    cases stop

theorem safe_context : Safe decodeContext := safe_varint.bind fun _ => Safe.pure _

theorem safe_contexts (n : Nat) : Safe (repeatN decodeContext n) := safe_context.repeatN n

theorem reserveContexts_advances (n : Nat) : Advances 0 (reserveContexts n) := by
  intro data off v after hin run
  unfold reserveContexts at run
  split at run
  · exact Advances.pure _ data off v after hin run
  · cases run

theorem safe_mutability : Safe decodeMutability := safe_u8.bind fun _ => Safe.pure _

theorem decodeLegacyName_advances (disc : UInt8) : Advances 0 (decodeLegacyName disc) := by
  intro data off name after hin run
  obtain ⟨len, start, head, rest⟩ := bind_eq_ok run
  have hb := safe_varint.stays data off len start hin head
  simp only [bind_run, position, addUsize, dataLen] at rest
  by_cases noWrap : start + len < 2 ^ 64
  · by_cases short : data.length < start + len
    · simp only [noWrap, if_true, short, invalidTypeRef, bind_run, position, fail] at rest
      cases rest
    · have hr : start ≤ start + len ∧ start + len ≤ data.length := ⟨by omega, by omega⟩
      simp only [noWrap, if_true, short, if_false, bind_run, subslice, hr, and_self, advance, pure_run] at rest
      cases rest
      omega
  · simp only [noWrap, if_false] at rest
    cases rest

theorem decodeLegacyName_faults {data : Slice} {off : Nat} (disc : UInt8) (hin : off ≤ data.length) :
    Faults (decodeLegacyName disc) data off ↔
      ∃ len start, decodeVarint data off = .ok len start ∧ 2 ^ 64 ≤ start + len := by
  unfold decodeLegacyName
  rw [faults_bind_safe safe_varint hin]
  refine exists_congr fun len => exists_congr fun start => and_congr_right fun _ => ?_
  by_cases noWrap : start + len < 2 ^ 64
  · refine iff_of_false ?_ (by omega)
    rintro ⟨fault, run⟩
    simp only [bind_run, position, addUsize, noWrap, if_true, dataLen] at run
    by_cases short : data.length < start + len
    · simp only [short, if_true, invalidTypeRef, bind_run, position, fail] at run
      cases run
    · have hr : start ≤ start + len ∧ start + len ≤ data.length := ⟨by omega, by omega⟩
      simp only [short, if_false, bind_run, subslice, hr, and_self, if_true, advance, noWrap, pure_run] at run
      cases run
  · refine iff_of_true ⟨.addOverflow, ?_⟩ (by omega)
    simp only [bind_run, position, addUsize, noWrap, if_false]

theorem safe_name (disc : UInt8) : Safe (decodeName disc) := by
  refine safe_varint.bind fun length => ?_
  constructor
  · intro data start name after hin run
    simp only [bind_run, position, dataLen] at run
    by_cases short : data.length < start + length
    · simp only [short, if_true, invalidTypeRef, bind_run, position, fail] at run
      cases run
    · have hr : start ≤ start + length ∧ start + length ≤ data.length := ⟨by omega, by omega⟩
      simp only [short, if_false, bind_run, subslice, hr, and_self, if_true] at run
      cases text : fromUtf8 (data.sub start (start + length)).bytes with
      | none => rw [text] at run; cases run
      | some assoc =>
        rw [text] at run
        cases run
        omega
  · rintro data start hin ⟨fault, run⟩
    simp only [bind_run, position, dataLen] at run
    by_cases short : data.length < start + length
    · simp only [short, if_true, invalidTypeRef, bind_run, position, fail] at run
      cases run
    · have hr : start ≤ start + length ∧ start + length ≤ data.length := ⟨by omega, by omega⟩
      simp only [short, if_false, bind_run, subslice, hr, and_self, if_true] at run
      cases text : fromUtf8 (data.sub start (start + length)).bytes with
      | none | some assoc => rw [text] at run; cases run

end Pieces

section Recursion

variable {item : Decode TypeRef}

theorem counted_advances {α : Type} {item : Decode α} {limit : Nat} {error : Nat → VbcError}
    (stays : Advances 0 item) :
    Advances 0 (decodeVarint >>= fun n => if limit < n then fail (error n) else repeatN item n) := by
  refine safe_varint.stays.bind_zero fun n => ?_
  split
  · exact Advances.fail 0 _
  · exact stays.repeatN n

theorem decodeApplicationArguments_advances (stays : Advances 0 item) :
    Advances 0 (decodeApplicationArguments item) :=
  counted_advances stays

theorem decodeQualifier_advances (disc : UInt8) (stays : Advances 0 item) :
    Advances 0 (decodeQualifier disc item) := by
  refine safe_u8.stays.bind_zero fun flag => ?_
  split
  · exact Advances.pure none
  · split
    · refine safe_varint.stays.bind_zero fun v => (safe_to_u32 disc v).stays.bind_zero fun protocol => ?_
      exact (decodeApplicationArguments_advances stays).bind_zero fun args => Advances.pure _
    · exact (safe_invalid disc).stays

theorem decodeTypeRefBody_advances (disc : UInt8) (stays : Advances 0 item) :
    Advances 0 (decodeTypeRefBody item disc) := by
  unfold decodeTypeRefBody
  split
  · exact safe_varint.stays.bind_zero fun id => Advances.pure _
  · exact safe_varint.stays.bind_zero fun v => (toU16_advances _ v).bind_zero fun id => Advances.pure _
  · exact safe_varint.stays.bind_zero fun base => safe_varint.stays.bind_zero fun n =>
      (stays.repeatN n).bind_zero fun args => Advances.pure _
  · exact stays.bind_zero fun inner => safe_mutability.stays.bind_zero fun mutability =>
      safe_u8.stays.bind_zero fun tier => Advances.pure _
  · exact safe_varint.stays.bind_zero fun n => (stays.repeatN n).bind_zero fun elems => Advances.pure _
  · exact stays.bind_zero fun element => safe_varint.stays.bind_zero fun length => Advances.pure _
  · exact stays.bind_zero fun inner => Advances.pure _
  · exact stays.bind_zero fun base => (decodeLegacyName_advances _).bind_zero fun assoc => Advances.pure _
  · refine stays.bind_zero fun base => (decodeQualifier_advances _ stays).bind_zero fun qualifier =>
      (safe_name _).stays.bind_zero fun assoc => (decodeApplicationArguments_advances stays).bind_zero fun args => ?_
    exact ((safe_invalid _).ite (Safe.pure _)).stays
  · exact safe_varint.stays.bind_zero fun v => Advances.pure _
  · exact safe_varint.stays.bind_zero fun ownerValue => (safe_to_u32 _ ownerValue).stays.bind_zero fun owner =>
      safe_varint.stays.bind_zero fun ordinalValue => (safe_to_u32 _ ordinalValue).stays.bind_zero fun ordinal =>
        Advances.pure _
  · split
    · exact safe_varint.stays.bind_zero fun paramCount => (stays.repeatN paramCount).bind_zero fun ps =>
        stays.bind_zero fun returnType => safe_varint.stays.bind_zero fun contextCount =>
          (reserveContexts_advances contextCount).bind_zero fun _ =>
            (safe_contexts contextCount).stays.bind_zero fun contexts => Advances.pure _
    · split
      · exact safe_varint.stays.bind_zero fun v => (toU16_advances _ v).bind_zero fun typeParamCount =>
          safe_varint.stays.bind_zero fun paramCount => (stays.repeatN paramCount).bind_zero fun ps =>
            stays.bind_zero fun returnType => safe_varint.stays.bind_zero fun contextCount =>
              (safe_contexts contextCount).stays.bind_zero fun contexts => Advances.pure _
      · exact (safe_position.bind fun _ => Safe.fail _).stays

theorem decodeTypeRefFuel_advances (fuel : Nat) : Advances 1 (decodeTypeRefFuel fuel) := by
  induction fuel with
  | zero => exact Advances.crash 1 .outOfFuel
  | succ fuel ih =>
    exact decodeU8_advances.bind_first fun disc =>
      decodeTypeRefBody_advances disc (ih.weaken (by omega))

theorem decodeTypeRef_advances : Advances 1 decodeTypeRef := by
  intro data off v after hin run
  exact decodeTypeRefFuel_advances (data.length + 1) data off v after hin run

variable {data : Slice} {start : Nat} {item' : Decode TypeRef}

theorem decodeApplicationArguments_agree (each : AgreeFrom data start item item') (stays : Advances 0 item) :
    AgreeFrom data start (decodeApplicationArguments item) (decodeApplicationArguments item') :=
  (AgreeFrom.refl _).bind safe_varint.stays fun n => (AgreeFrom.refl _).ite (each.repeatN stays n)

theorem decodeQualifier_agree (disc : UInt8) (each : AgreeFrom data start item item')
    (stays : Advances 0 item) :
    AgreeFrom data start (decodeQualifier disc item) (decodeQualifier disc item') := by
  refine (AgreeFrom.refl _).bind safe_u8.stays fun flag => (AgreeFrom.refl _).ite (AgreeFrom.ite ?_ (AgreeFrom.refl _))
  refine (AgreeFrom.refl _).bind safe_varint.stays fun v =>
    (AgreeFrom.refl _).bind (safe_to_u32 disc v).stays fun protocol => ?_
  exact (decodeApplicationArguments_agree each stays).bind (decodeApplicationArguments_advances stays)
    fun args => AgreeFrom.refl _

theorem decodeTypeRefBody_agree (disc : UInt8) (each : AgreeFrom data start item item')
    (stays : Advances 0 item) :
    AgreeFrom data start (decodeTypeRefBody item disc) (decodeTypeRefBody item' disc) := by
  have ps : ∀ {α : Type} (n : Nat) {next next' : List TypeRef → TypeRef → Decode α},
      (∀ ps returnType, AgreeFrom data start (next ps returnType) (next' ps returnType)) →
      AgreeFrom data start (repeatN item n >>= fun ps => item >>= next ps)
        (repeatN item' n >>= fun ps => item' >>= next' ps) := fun n _ _ tail =>
    (each.repeatN stays n).bind (stays.repeatN n) fun ps => each.bind stays (tail ps)
  unfold decodeTypeRefBody
  split
  · exact AgreeFrom.refl _
  · exact AgreeFrom.refl _
  · exact (AgreeFrom.refl _).bind safe_varint.stays fun base => (AgreeFrom.refl _).bind safe_varint.stays fun n =>
      (each.repeatN stays n).bind (stays.repeatN n) fun args => AgreeFrom.refl _
  · exact each.bind stays fun inner => AgreeFrom.refl _
  · exact (AgreeFrom.refl _).bind safe_varint.stays fun n =>
      (each.repeatN stays n).bind (stays.repeatN n) fun elems => AgreeFrom.refl _
  · exact each.bind stays fun element => AgreeFrom.refl _
  · exact each.bind stays fun inner => AgreeFrom.refl _
  · exact each.bind stays fun base => AgreeFrom.refl _
  · exact each.bind stays fun base =>
      (decodeQualifier_agree _ each stays).bind (decodeQualifier_advances _ stays) fun qualifier =>
        (AgreeFrom.refl _).bind (safe_name _).stays fun assoc =>
          (decodeApplicationArguments_agree each stays).bind (decodeApplicationArguments_advances stays)
            fun args => AgreeFrom.refl _
  · exact AgreeFrom.refl _
  · exact AgreeFrom.refl _
  · refine AgreeFrom.ite ?_ (AgreeFrom.ite ?_ (AgreeFrom.refl _))
    · exact (AgreeFrom.refl _).bind safe_varint.stays fun paramCount =>
        ps paramCount fun ps returnType => AgreeFrom.refl _
    · exact (AgreeFrom.refl _).bind safe_varint.stays fun v =>
        (AgreeFrom.refl _).bind (toU16_advances _ v) fun typeParamCount =>
          (AgreeFrom.refl _).bind safe_varint.stays fun paramCount =>
            ps paramCount fun ps returnType => AgreeFrom.refl _

theorem decodeTypeRefFuel_agree (fuel more : Nat) (he : data.length < start + fuel) :
    AgreeFrom data start (decodeTypeRefFuel fuel) (decodeTypeRefFuel (fuel + more)) := by
  induction fuel generalizing start with
  | zero =>
    intro off le hin
    omega
  | succ fuel ih =>
    intro off le hin
    rw [Nat.succ_add]
    simp only [decodeTypeRefFuel]
    rw [bind_run, bind_run]
    cases run : decodeU8 data off with
    | err error | fault fault => rfl
    | ok disc after =>
      have moved := decodeU8_advances data off disc after hin run
      have hl : AgreeFrom data after (decodeTypeRefFuel fuel) (decodeTypeRefFuel (fuel + more)) := ih (by omega)
      exact decodeTypeRefBody_agree disc hl
        ((decodeTypeRefFuel_advances fuel).weaken (by omega)) after (Nat.le_refl after) moved.2

theorem decodeTypeRef_run : decodeTypeRef data start = (decodeU8 >>= decodeTypeRefBody decodeTypeRef) data start := by
  change (decodeU8 >>= decodeTypeRefBody (decodeTypeRefFuel data.length)) data start = _
  rw [bind_run, bind_run]
  cases run : decodeU8 data start with
  | err error | fault fault => rfl
  | ok disc after =>
    have hit := decodeU8_eq_ok.mp run
    have hin : start < data.length := (List.getElem?_eq_some_iff.mp hit.1).1
    have each : AgreeFrom data after (decodeTypeRefFuel data.length) decodeTypeRef :=
      fun off le hw => decodeTypeRefFuel_agree data.length 1 (by omega) off le hw
    exact decodeTypeRefBody_agree disc each
      ((decodeTypeRefFuel_advances data.length).weaken (by omega)) after (Nat.le_refl after) (by omega)

end Recursion

end Vbc
