import Verum.Vbc.TypeRefGrammar

namespace Vbc

open Wire

section Hazards

variable (data : Slice)

/-- The type reference at `start` reads `count` others, the first of them at `first`. -/
inductive Components (start : Nat) : Nat → Nat → Prop
  | wrapped {discriminant : UInt8} (tag : ByteAt data start discriminant)
    (known : discriminant ∈ [0x04, 0x06, 0x07, 0x09, 0x0E]) : Components start 1 (start + 1)
  | instantiated {base a count first : Nat} (tag : ByteAt data start 0x02)
    (number : VarintAt data (start + 1) base a) (length : VarintAt data a count first) : Components start count first
  | tuple {count first : Nat} (tag : ByteAt data start 0x05) (length : VarintAt data (start + 1) count first) :
    Components start count first
  | function {count first : Nat} {discriminant : UInt8} (tag : ByteAt data start discriminant)
    (known : discriminant = 0x03 ∨ discriminant = 0x13) (length : VarintAt data (start + 1) count first) :
    Components start (count + 1) first
  | rank2Function {typeParamCount a count first : Nat} {discriminant : UInt8} (tag : ByteAt data start discriminant)
    (known : discriminant = 0x0C ∨ discriminant = 0x1C) (number : VarintAt data (start + 1) typeParamCount a)
    (small : typeParamCount < 2 ^ 16) (length : VarintAt data a count first) : Components start (count + 1) first
  | qualifier {a protocol b count first : Nat} (tag : ByteAt data start 0x0E) (base : TypeRefsAt data 1 (start + 1) a)
    (flag : ByteAt data a 1) (number : VarintAt data (a + 1) protocol b) (small : protocol < 2 ^ 32)
    (length : VarintAt data b count first) (few : count ≤ maxTypeApplicationArguments) : Components start count first
  | arguments {a c count first : Nat} {name : String} (tag : ByteAt data start 0x0E)
    (base : TypeRefsAt data 1 (start + 1) a) (flag : ByteAt data a 0) (text : NameAt data (a + 1) name c)
    (length : VarintAt data c count first) (few : count ≤ maxTypeApplicationArguments) : Components start count first
  | qualifiedArguments {a protocol b argCount d e c count first : Nat} {name : String} (tag : ByteAt data start 0x0E)
    (base : TypeRefsAt data 1 (start + 1) a) (flag : ByteAt data a 1) (number : VarintAt data (a + 1) protocol b)
    (small : protocol < 2 ^ 32) (argLength : VarintAt data b argCount d)
    (fewArgs : argCount ≤ maxTypeApplicationArguments) (protocolArgs : TypeRefsAt data argCount d e)
    (text : NameAt data e name c) (length : VarintAt data c count first)
    (few : count ≤ maxTypeApplicationArguments) : Components start count first

/-- A legacy projection whose name would end at or beyond `2^64`. -/
def NameOverflow (start : Nat) : Prop :=
  ByteAt data start 0x09 ∧ ∃ a length b, TypeRefsAt data 1 (start + 1) a ∧ VarintAt data a length b ∧
    2 ^ 64 ≤ b + length

/-- A function type that announces contexts beyond the largest capacity. -/
def ContextOverflow (start : Nat) : Prop :=
  (ByteAt data start 0x03 ∨ ByteAt data start 0x13) ∧ ∃ count a b contextCount c,
    VarintAt data (start + 1) count a ∧ TypeRefsAt data (count + 1) a b ∧ VarintAt data b contextCount c ∧
      2 ^ 61 ≤ contextCount

/-- The type reference at `start`, or one that it reads, overflows. -/
inductive TypeRefHazard : Nat → Prop
  | name {start : Nat} (overflow : NameOverflow data start) : TypeRefHazard start
  | contexts {start : Nat} (overflow : ContextOverflow data start) : TypeRefHazard start
  | component {start count first index position : Nat} (components : Components data start count first)
    (lt : index < count) (before : TypeRefsAt data index first position) (hazard : TypeRefHazard position) :
    TypeRefHazard start

end Hazards

section Bodies

variable {data : Slice} {start : Nat} {item : Decode TypeRef}
variable {α : Type} {count : Nat} {next : List TypeRef → TypeRef → Decode α} {discriminant : UInt8}

theorem faults_varint {next : Nat → Decode α} (hin : start ≤ data.length) :
    Faults (decodeVarint >>= next) data start ↔
      ∃ v mid, VarintAt data start v mid ∧ Faults (next v) data mid :=
  faults_bind_safe safe_varint hin

theorem faults_map {β : Type} {decoder : Decode α} {res : α → β} (stays : Advances 0 decoder)
    (hin : start ≤ data.length) :
    Faults (decoder >>= fun v => pure (res v)) data start ↔ Faults decoder data start :=
  faults_bind_last stays (fun v => Safe.pure (res v)) hin

theorem faults_one : Faults (repeatN item 1) data start ↔ Faults item data start := by
  rw [faults_repeatN_last]
  have none : ∀ {a b}, Ends (repeatN item 0) data a b ↔ a = b := ends_pure
  have never : ¬ Faults (repeatN item 0) data start := not_faults_pure []
  simp [none, never]

theorem faults_instantiated (stays : Advances 0 item) (hin : start ≤ data.length) :
    Faults (decodeTypeRefBody item 0x02) data start ↔
      ∃ base a, VarintAt data start base a ∧ ∃ count b, VarintAt data a count b ∧
        Faults (repeatN item count) data b := by
  refine (faults_varint hin).trans ?_
  refine exists_congr fun base => exists_congr fun a => and_congr_right fun num => ?_
  have first := num.after hin
  refine (faults_varint first.2).trans ?_
  refine exists_congr fun count => exists_congr fun b => and_congr_right fun length => ?_
  exact faults_map (stays.repeatN count) (length.after first.2).2

theorem faults_tuple (stays : Advances 0 item) (hin : start ≤ data.length) :
    Faults (decodeTypeRefBody item 0x05) data start ↔
      ∃ count a, VarintAt data start count a ∧ Faults (repeatN item count) data a := by
  refine (faults_varint hin).trans ?_
  refine exists_congr fun count => exists_congr fun a => and_congr_right fun length => ?_
  exact faults_map (stays.repeatN count) (length.after hin).2

theorem faults_legacy_projection (stays : Advances 0 item) (hin : start ≤ data.length) :
    Faults (decodeTypeRefBody item 0x09) data start ↔
      Faults item data start ∨ ∃ a, Ends item data start a ∧ ∃ length b, VarintAt data a length b ∧
        2 ^ 64 ≤ b + length := by
  refine faults_bind_any stays hin fun base a hw => ?_
  exact (faults_map (decodeLegacyName_advances 0x09) hw).trans (decodeLegacyName_faults 0x09 hw)

theorem faults_signature {tail : Nat → Prop} (stays : Advances 0 item) (hin : start ≤ data.length)
    (rest : ∀ ps returnType mid, mid ≤ data.length →
      (Faults (next ps returnType) data mid ↔ tail mid)) :
    Faults (repeatN item count >>= fun ps => item >>= next ps) data start ↔
      Faults (repeatN item (count + 1)) data start ∨
        ∃ mid, Ends (repeatN item (count + 1)) data start mid ∧ tail mid := by
  refine (faults_bind_any (stays.repeatN count) hin fun ps mid hw =>
    faults_bind_any stays hw (rest ps)).trans ?_
  rw [faults_repeatN_last]
  constructor
  · rintro (first | ⟨mid, ps, snd | ⟨last, returnType, third⟩⟩)
    · exact .inl (.inl first)
    · exact .inl (.inr ⟨mid, ps, snd⟩)
    · exact .inr ⟨last, ends_repeatN_last.mpr ⟨mid, ps, returnType⟩, third⟩
  · rintro ((first | ⟨mid, ps, snd⟩) | ⟨last, types, third⟩)
    · exact .inl first
    · exact .inr ⟨mid, ps, .inl snd⟩
    · obtain ⟨mid, ps, returnType⟩ := ends_repeatN_last.mp types
      exact .inr ⟨mid, ps, .inr ⟨last, returnType, third⟩⟩

theorem faults_signature_safe (stays : Advances 0 item) (hin : start ≤ data.length)
    (tail : ∀ ps returnType, Safe (next ps returnType)) :
    Faults (repeatN item count >>= fun ps => item >>= next ps) data start ↔
      Faults (repeatN item (count + 1)) data start := by
  have never : ∀ ps returnType mid, mid ≤ data.length →
      (Faults (next ps returnType) data mid ↔ (fun _ : Nat => False) mid) :=
    fun ps returnType mid hw => iff_of_false ((tail ps returnType).noFault data mid hw) id
  rw [faults_signature stays hin never]
  simp

theorem faults_reserve {next : Unit → Decode α} (tail : ∀ v, Safe (next v)) (hin : start ≤ data.length) :
    Faults (reserveContexts count >>= next) data start ↔ 2 ^ 61 ≤ count := by
  refine (faults_bind_last (reserveContexts_advances count) tail hin).trans ?_
  unfold reserveContexts
  split
  · refine iff_of_false (not_faults_pure ()) (by omega)
  · exact iff_of_true ⟨.capacityOverflow, rfl⟩ (by omega)

theorem faults_function (known : discriminant = 0x03 ∨ discriminant = 0x13) (stays : Advances 0 item)
    (hin : start ≤ data.length) : Faults (decodeTypeRefBody item discriminant) data start ↔
      ∃ count a, VarintAt data start count a ∧ (Faults (repeatN item (count + 1)) data a ∨
        ∃ b, Ends (repeatN item (count + 1)) data a b ∧ ∃ contextCount c, VarintAt data b contextCount c ∧
          2 ^ 61 ≤ contextCount) := by
  rcases known with rfl | rfl
  all_goals
    refine (faults_varint hin).trans ?_
    refine exists_congr fun count => exists_congr fun a => and_congr_right fun length => ?_
    refine faults_signature stays (length.after hin).2 fun ps returnType b hw => ?_
    refine (faults_varint hw).trans ?_
    refine exists_congr fun contextCount => exists_congr fun c => and_congr_right fun contextLength => ?_
    exact faults_reserve (fun _ => (safe_contexts contextCount).bind fun _ => Safe.pure _) (contextLength.after hw).2

theorem faults_varint_u16 {next : UInt16 → Decode α} (hin : start ≤ data.length) :
    Faults (decodeVarint >>= fun v => toU16 discriminant v >>= next) data start ↔
      ∃ v a, VarintAt data start v a ∧ v < 2 ^ 16 ∧ Faults (next (UInt16.ofNat v)) data a := by
  rw [← Decoder.bind_assoc, faults_bind_safe (safe_varint_u16 discriminant) hin]
  constructor
  · rintro ⟨id, a, run, last⟩
    obtain ⟨v, b, num, converted⟩ := bind_eq_ok run
    obtain ⟨small, done⟩ := ends_to_u16.mp (ends_map.mpr ⟨id, converted⟩ : Ends (_ >>= fun id => pure id) _ _ _)
    obtain rfl := ends_pure.mp done
    simp only [toU16, small, if_true, pure_run, Outcome.ok.injEq, and_true] at converted
    exact ⟨v, b, num, small, converted ▸ last⟩
  · rintro ⟨v, a, num, small, last⟩
    refine ⟨UInt16.ofNat v, a, ?_, last⟩
    rw [bind_ok num]
    simp only [toU16, small, if_true, pure_run]

theorem faults_rank2_function (known : discriminant = 0x0C ∨ discriminant = 0x1C) (stays : Advances 0 item)
    (hin : start ≤ data.length) : Faults (decodeTypeRefBody item discriminant) data start ↔
      ∃ typeParamCount a, VarintAt data start typeParamCount a ∧ typeParamCount < 2 ^ 16 ∧
        ∃ count b, VarintAt data a count b ∧ Faults (repeatN item (count + 1)) data b := by
  rcases known with rfl | rfl
  all_goals
    refine (faults_varint_u16 hin).trans ?_
    refine exists_congr fun v => exists_congr fun a => and_congr_right fun num => and_congr_right fun _ => ?_
    have first := num.after hin
    refine (faults_varint first.2).trans ?_
    refine exists_congr fun count => exists_congr fun b => and_congr_right fun length => ?_
    refine faults_signature_safe stays (length.after first.2).2 fun ps returnType => ?_
    exact safe_varint.bind fun contextCount => (safe_contexts contextCount).bind fun _ => Safe.pure _

theorem faults_counted {item : Decode α} {limit : Nat} {error : Nat → VbcError} (hin : start ≤ data.length) :
    Faults (decodeVarint >>= fun count => if limit < count then fail (error count) else repeatN item count) data start ↔
      ∃ count a, VarintAt data start count a ∧ count ≤ limit ∧ Faults (repeatN item count) data a := by
  refine (faults_varint hin).trans ?_
  refine exists_congr fun count => exists_congr fun a => and_congr_right fun _ => ?_
  by_cases few : count ≤ limit
  · rw [if_neg (by omega)]
    simp only [few, true_and]
  · rw [if_pos (by omega)]
    exact iff_of_false (not_faults_fail _) fun hit => few hit.1

theorem faults_arguments (hin : start ≤ data.length) :
    Faults (decodeApplicationArguments item) data start ↔
      ∃ count a, VarintAt data start count a ∧ count ≤ maxTypeApplicationArguments ∧
        Faults (repeatN item count) data a :=
  faults_counted hin

theorem faults_u8 {next : UInt8 → Decode α} (hin : start ≤ data.length) : Faults (decodeU8 >>= next) data start ↔
      ∃ byte, ByteAt data start byte ∧ Faults (next byte) data (start + 1) := by
  rw [faults_bind_safe safe_u8 hin]
  constructor
  · rintro ⟨byte, after, run, last⟩
    obtain ⟨hit, rfl⟩ := decodeU8_eq_ok.mp run
    exact ⟨byte, hit, last⟩
  · rintro ⟨byte, hit, last⟩
    exact ⟨byte, start + 1, decodeU8_eq_ok.mpr ⟨hit, rfl⟩, last⟩

theorem faults_to_u32 {v : Nat} {next : UInt32 → Decode α} (hin : start ≤ data.length) :
    Faults (toU32 discriminant v >>= next) data start ↔
      v < 2 ^ 32 ∧ Faults (next (UInt32.ofNat v)) data start := by
  by_cases small : v < 2 ^ 32
  · simp only [toU32, small, if_true, true_and]
    exact Iff.rfl
  · refine iff_of_false ?_ fun hit => small hit.1
    rw [faults_bind_safe (safe_to_u32 discriminant v) hin]
    simp only [toU32, small, if_false]
    rintro ⟨id, after, run, _⟩
    exact not_ends_invalid ⟨id, run⟩

theorem faults_qualifier (stays : Advances 0 item) (hin : start ≤ data.length) :
    Faults (decodeQualifier discriminant item) data start ↔
      ByteAt data start 1 ∧ ∃ protocol a, VarintAt data (start + 1) protocol a ∧ protocol < 2 ^ 32 ∧
        ∃ count b, VarintAt data a count b ∧ count ≤ maxTypeApplicationArguments ∧
          Faults (repeatN item count) data b := by
  have qualified : start + 1 ≤ data.length →
      (Faults (decodeVarint >>= fun v => toU32 discriminant v >>= fun protocol =>
        decodeApplicationArguments item >>= fun args => pure (some (⟨⟨protocol⟩, args⟩ : ProtocolApplication TypeRef)))
        data (start + 1) ↔ ∃ protocol a, VarintAt data (start + 1) protocol a ∧ protocol < 2 ^ 32 ∧
          ∃ count b, VarintAt data a count b ∧ count ≤ maxTypeApplicationArguments ∧
            Faults (repeatN item count) data b) := by
    intro hw
    refine (faults_varint hw).trans ?_
    refine exists_congr fun protocol => exists_congr fun a => and_congr_right fun num => ?_
    have first := num.after hw
    refine (faults_to_u32 first.2).trans (and_congr_right fun _ => ?_)
    exact (faults_map (decodeApplicationArguments_advances stays) first.2).trans (faults_arguments first.2)
  refine (faults_u8 hin).trans ?_
  constructor
  · rintro ⟨flag, hit, last⟩
    have hw : start + 1 ≤ data.length := hit.inside
    split at last
    · exact absurd last (not_faults_pure _)
    · split at last
      · rename_i one
        rw [one] at hit
        exact ⟨hit, (qualified hw).mp last⟩
      · exact absurd last ((safe_invalid discriminant).noFault data (start + 1) hw)
  · rintro ⟨hit, last⟩
    exact ⟨1, hit, (qualified hit.inside).mpr last⟩

theorem faults_projection (stays : Advances 0 item) (hin : start ≤ data.length) :
    Faults (decodeTypeRefBody item 0x0E) data start ↔
      Faults item data start ∨ ∃ a, Ends item data start a ∧ (Faults (decodeQualifier 0x0E item) data a ∨
        ∃ b, Ends (decodeQualifier 0x0E item) data a b ∧ ∃ name c, NameAt data b name c ∧
          Faults (decodeApplicationArguments item) data c) := by
  refine faults_bind_any stays hin fun base a hw => ?_
  refine faults_bind_any (decodeQualifier_advances 0x0E stays) hw fun qualifier b hw => ?_
  refine (faults_bind_safe (safe_name 0x0E) hw).trans ?_
  refine exists_congr fun name => exists_congr fun c => and_congr_right fun text => ?_
  have moved := (safe_name 0x0E).stays data b name c hw text
  exact faults_bind_last (decodeApplicationArguments_advances stays)
    (fun args => (safe_invalid _).ite (Safe.pure _)) moved.2

end Bodies

section Step

variable {data : Slice} {start : Nat}

theorem faults_type_ref :
    Faults decodeTypeRef data start ↔
      ∃ discriminant, ByteAt data start discriminant ∧
        Faults (decodeTypeRefBody decodeTypeRef discriminant) data (start + 1) := by
  unfold Faults
  rw [decodeTypeRef_run]
  by_cases hin : start ≤ data.length
  · exact faults_u8 hin
  · refine iff_of_false ?_ ?_
    · rintro ⟨fault, run⟩
      have missing : data.bytes[start]? = none := List.getElem?_eq_none (by unfold Slice.length at hin; omega)
      rw [bind_run, decodeU8_run, missing] at run
      cases run
    · rintro ⟨discriminant, tag, _⟩
      have hb := tag.inside
      omega

theorem decodeTypeRef_stays : Advances 0 decodeTypeRef := decodeTypeRef_advances.weaken (Nat.zero_le 1)

theorem faults_type_ref_inv (faults : Faults decodeTypeRef data start) :
    NameOverflow data start ∨ ContextOverflow data start ∨
      ∃ count first, Components data start count first ∧ Faults (repeatN decodeTypeRef count) data first := by
  have stays := decodeTypeRef_stays
  obtain ⟨discriminant, tag, body⟩ := faults_type_ref.mp faults
  have hin : start + 1 ≤ data.length := tag.inside
  have whole := body
  have wrapped : discriminant ∈ [0x04, 0x06, 0x07, 0x09, 0x0E] → Faults decodeTypeRef data (start + 1) →
      ∃ count first, Components data start count first ∧ Faults (repeatN decodeTypeRef count) data first :=
    fun known faults => ⟨1, start + 1, .wrapped tag known, faults_one.mpr faults⟩
  unfold decodeTypeRefBody at body
  split at body
  · exact absurd body ((safe_varint.bind fun _ => Safe.pure _).noFault data _ hin)
  · exact absurd body (((safe_varint_u16 0x01).bind_assoc fun _ => Safe.pure _).noFault data _ hin)
  · obtain ⟨base, a, num, count, b, length, faults⟩ := (faults_instantiated stays hin).mp whole
    exact .inr (.inr ⟨count, b, .instantiated tag num length, faults⟩)
  · have inner := (faults_bind_last stays (fun _ => safe_mutability.bind fun _ => safe_u8.bind fun _ => Safe.pure _)
      hin).mp body
    exact .inr (.inr (wrapped (by simp) inner))
  · obtain ⟨count, a, length, faults⟩ := (faults_tuple stays hin).mp whole
    exact .inr (.inr ⟨count, a, .tuple tag length, faults⟩)
  · have element := (faults_bind_last stays (fun _ => safe_varint.bind fun _ => Safe.pure _) hin).mp body
    exact .inr (.inr (wrapped (by simp) element))
  · exact .inr (.inr (wrapped (by simp) ((faults_map stays hin).mp body)))
  · rcases (faults_legacy_projection stays hin).mp whole with faults | ⟨a, base, length, b, num, overflow⟩
    · exact .inr (.inr (wrapped (by simp) faults))
    · exact .inl ⟨tag, a, length, b, ends_type_ref_iff.mp base, num, overflow⟩
  · rcases (faults_projection stays hin).mp whole with faults | ⟨a, base, qualifier | ⟨b, qualifier, name, c, text,
      args⟩⟩
    · exact .inr (.inr (wrapped (by simp) faults))
    · have moved := ends_type_ref_after base hin
      obtain ⟨flag, protocol, b, num, small, count, first, length, few, faults⟩ :=
        (faults_qualifier stays moved.2).mp qualifier
      exact .inr (.inr ⟨count, first, .qualifier tag (ends_type_ref_iff.mp base) flag num small length few, faults⟩)
    · have moved := ends_type_ref_after base hin
      have qualified := (decodeQualifier_advances 0x0E stays).ends moved.2 qualifier
      have named := (safe_name 0x0E).stays data b name c qualified.2 text
      obtain ⟨count, first, length, few, faults⟩ := (faults_arguments named.2).mp args
      rcases ends_qualifier.mp qualifier with ⟨flag, rfl⟩ | ⟨flag, protocol, e, num, small, argCount, f, argLength,
        fewArgs, protocolArgs⟩
      · exact .inr (.inr ⟨count, first, .arguments tag (ends_type_ref_iff.mp base) flag text length few, faults⟩)
      · exact .inr (.inr ⟨count, first, .qualifiedArguments tag (ends_type_ref_iff.mp base) flag num small
          argLength fewArgs (ends_type_refs.mp protocolArgs) text length few, faults⟩)
  · exact absurd body ((safe_varint.bind fun _ => Safe.pure _).noFault data _ hin)
  · exact absurd body ((safe_varint.bind fun _ => (safe_to_u32 _ _).bind fun _ => safe_varint.bind fun _ =>
      (safe_to_u32 _ _).bind fun _ => Safe.pure _).noFault data _ hin)
  · split at body
    · rename_i known
      obtain ⟨count, a, length, faults | ⟨b, types, contextCount, c, contextLength, many⟩⟩ :=
        (faults_function known stays hin).mp whole
      · exact .inr (.inr ⟨count + 1, a, .function tag known length, faults⟩)
      · refine .inr (.inl ⟨?_, count, a, b, contextCount, c, length, ends_type_refs.mp types, contextLength, many⟩)
        rcases known with rfl | rfl
        · exact .inl tag
        · exact .inr tag
    · split at body
      · rename_i known
        obtain ⟨typeParamCount, a, num, small, count, b, length, faults⟩ :=
          (faults_rank2_function known stays hin).mp whole
        exact .inr (.inr ⟨count + 1, b, .rank2Function tag known num small length, faults⟩)
      · exact absurd body ((safe_position.bind fun _ => Safe.fail _).noFault data _ hin)

theorem NameOverflow.faults (overflow : NameOverflow data start) : Faults decodeTypeRef data start := by
  obtain ⟨tag, a, length, b, base, num, wraps⟩ := overflow
  refine faults_type_ref.mpr ⟨0x09, tag, (faults_legacy_projection decodeTypeRef_stays tag.inside).mpr (.inr ?_)⟩
  exact ⟨a, ends_type_ref_iff.mpr base, length, b, num, wraps⟩

theorem ContextOverflow.faults (overflow : ContextOverflow data start) : Faults decodeTypeRef data start := by
  obtain ⟨tag, count, a, b, contextCount, c, length, types, contextLength, many⟩ := overflow
  have body : ∀ {discriminant}, ByteAt data start discriminant → discriminant = 0x03 ∨ discriminant = 0x13 →
      Faults decodeTypeRef data start := fun tag known =>
    faults_type_ref.mpr ⟨_, tag, (faults_function known decodeTypeRef_stays tag.inside).mpr ⟨count, a, length,
      .inr ⟨b, ends_type_refs.mpr types, contextCount, c, contextLength, many⟩⟩⟩
  rcases tag with tag | tag
  · exact body tag (.inl rfl)
  · exact body tag (.inr rfl)

variable {count first : Nat}

theorem Components.faults (components : Components data start count first)
    (faults : Faults (repeatN decodeTypeRef count) data first) : Faults decodeTypeRef data start := by
  have stays := decodeTypeRef_stays
  cases components with
  | wrapped tag known =>
    rw [faults_one] at faults
    refine faults_type_ref.mpr ⟨_, tag, ?_⟩
    simp only [List.mem_cons, List.not_mem_nil, or_false] at known
    rcases known with rfl | rfl | rfl | rfl | rfl
    · exact faults_bind.mpr (.inl faults)
    · exact faults_bind.mpr (.inl faults)
    · exact faults_bind.mpr (.inl faults)
    · exact faults_bind.mpr (.inl faults)
    · exact faults_bind.mpr (.inl faults)
  | instantiated tag num length =>
    exact faults_type_ref.mpr ⟨_, tag, (faults_instantiated stays tag.inside).mpr ⟨_, _, num, _, _, length, faults⟩⟩
  | tuple tag length =>
    exact faults_type_ref.mpr ⟨_, tag, (faults_tuple stays tag.inside).mpr ⟨_, _, length, faults⟩⟩
  | function tag known length =>
    exact faults_type_ref.mpr ⟨_, tag, (faults_function known stays tag.inside).mpr ⟨_, _, length, .inl faults⟩⟩
  | rank2Function tag known num small length =>
    exact faults_type_ref.mpr ⟨_, tag, (faults_rank2_function known stays tag.inside).mpr
      ⟨_, _, num, small, _, _, length, faults⟩⟩
  | qualifier tag base flag num small length few =>
    refine faults_type_ref.mpr ⟨_, tag, (faults_projection stays tag.inside).mpr (.inr ⟨_, ends_type_ref_iff.mpr base,
      .inl ?_⟩)⟩
    exact (faults_qualifier stays (Nat.le_of_lt flag.inside)).mpr ⟨flag, _, _, num, small, _, _, length, few, faults⟩
  | arguments tag base flag text length few =>
    have named := (safe_name 0x0E).stays data _ _ _ flag.inside text
    refine faults_type_ref.mpr ⟨_, tag, (faults_projection stays tag.inside).mpr (.inr ⟨_, ends_type_ref_iff.mpr base,
      .inr ⟨_, ends_qualifier.mpr (.inl ⟨flag, rfl⟩), _, _, text, ?_⟩⟩)⟩
    exact (faults_arguments named.2).mpr ⟨_, _, length, few, faults⟩
  | qualifiedArguments tag base flag num small argLength fewArgs protocolArgs text length few =>
    have qualifier : Ends (decodeQualifier 0x0E decodeTypeRef) data _ _ :=
      ends_qualifier.mpr (.inr ⟨flag, _, _, num, small, _, _, argLength, fewArgs, ends_type_refs.mpr protocolArgs⟩)
    have qualified := (decodeQualifier_advances 0x0E stays).ends (Nat.le_of_lt flag.inside) qualifier
    have named := (safe_name 0x0E).stays data _ _ _ qualified.2 text
    refine faults_type_ref.mpr ⟨_, tag, (faults_projection stays tag.inside).mpr (.inr ⟨_, ends_type_ref_iff.mpr base,
      .inr ⟨_, qualifier, _, _, text, ?_⟩⟩)⟩
    exact (faults_arguments named.2).mpr ⟨_, _, length, few, faults⟩

theorem TypeRefHazard.faults (hazard : TypeRefHazard data start) : Faults decodeTypeRef data start := by
  induction hazard with
  | name overflow | contexts overflow => exact overflow.faults
  | component components lt pre _ faults =>
    exact components.faults (faults_repeatN _ |>.mpr ⟨_, lt, _, ends_type_refs.mpr pre, faults⟩)

theorem Components.after (components : Components data start count first) :
    start < first ∧ first ≤ data.length := by
  cases components with
  | wrapped tag known => exact ⟨by omega, tag.inside⟩
  | instantiated tag num length | rank2Function tag known num small length =>
    have a := num.after tag.inside
    have b := length.after a.2
    omega
  | tuple tag length | function tag known length =>
    have a := length.after tag.inside
    omega
  | qualifier tag base flag num small length few =>
    have a := ends_type_refs_after (ends_type_refs.mpr base) tag.inside
    have b := num.after flag.inside
    have c := length.after b.2
    omega
  | arguments tag base flag text length few =>
    have a := ends_type_refs_after (ends_type_refs.mpr base) tag.inside
    have b := (safe_name 0x0E).stays data _ _ _ flag.inside text
    have c := length.after b.2
    omega
  | qualifiedArguments tag base flag num small argLength fewArgs protocolArgs text length few =>
    have a := ends_type_refs_after (ends_type_refs.mpr base) tag.inside
    have b := num.after flag.inside
    have c := argLength.after b.2
    have d := ends_type_refs_after (ends_type_refs.mpr protocolArgs) c.2
    have e := (safe_name 0x0E).stays data _ _ _ d.2 text
    have f := length.after e.2
    omega

theorem typeRefHazard_of_faults (faults : Faults decodeTypeRef data start) : TypeRefHazard data start := by
  generalize left : data.length - start = size
  induction size using Nat.strong_induction_on generalizing start with
  | _ size ih =>
    rcases faults_type_ref_inv faults with overflow | overflow | ⟨count, first, components, hl⟩
    · exact .name overflow
    · exact .contexts overflow
    · obtain ⟨idx, lt, pos, pre, faults⟩ := (faults_repeatN count).mp hl
      have moved := components.after
      have passed := ends_type_refs_after pre moved.2
      exact .component components lt (ends_type_refs.mp pre) (ih _ (by omega) faults rfl)

theorem faults_type_ref_iff : Faults decodeTypeRef data start ↔ TypeRefHazard data start :=
  ⟨typeRefHazard_of_faults, TypeRefHazard.faults⟩

end Step

end Vbc
