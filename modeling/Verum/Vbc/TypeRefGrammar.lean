import Verum.Vbc.TypeRefSafety

namespace Vbc

open Wire

section Grammar

variable (data : Slice)

def ByteAt (start : Nat) (byte : UInt8) : Prop := data.bytes[start]? = some byte

/-- The bytes from `start` to `stop` are a varint. -/
def VarintAt (start value stop : Nat) : Prop := decodeVarint data start = .ok value stop

/-- The bytes from `start` to `stop` are a length-prefixed UTF-8 name. -/
def NameAt (start : Nat) (name : String) (stop : Nat) : Prop := decodeName 0x0E data start = .ok name stop

/-- The bytes from `start` to `stop` are `count` context identifiers. -/
def ContextsAt (count start stop : Nat) : Prop := Ends (repeatN decodeContext count) data start stop

/-- The bytes from `start` to `stop` are `count` type references. -/
inductive TypeRefsAt : Nat → Nat → Nat → Prop
  | none {start : Nat} : TypeRefsAt 0 start start
  | more {count start middle stop : Nat} (head : TypeRefsAt 1 start middle) (tail : TypeRefsAt count middle stop) :
    TypeRefsAt (count + 1) start stop
  | concrete {start id stop : Nat} (tag : ByteAt data start 0x00) (number : VarintAt data (start + 1) id stop) :
    TypeRefsAt 1 start stop
  | generic {start id stop : Nat} (tag : ByteAt data start 0x01) (number : VarintAt data (start + 1) id stop)
    (small : id < 2 ^ 16) : TypeRefsAt 1 start stop
  | instantiated {start base a count b stop : Nat} (tag : ByteAt data start 0x02)
    (number : VarintAt data (start + 1) base a) (length : VarintAt data a count b)
    (args : TypeRefsAt count b stop) : TypeRefsAt 1 start stop
  | function {start count a b contextCount c stop : Nat} {discriminant : UInt8} (tag : ByteAt data start discriminant)
    (known : discriminant = 0x03 ∨ discriminant = 0x13) (length : VarintAt data (start + 1) count a)
    (types : TypeRefsAt (count + 1) a b) (contextLength : VarintAt data b contextCount c)
    (few : contextCount < 2 ^ 61) (contexts : ContextsAt data contextCount c stop) : TypeRefsAt 1 start stop
  | reference {start a : Nat} {mutability tier : UInt8} (tag : ByteAt data start 0x04)
    (inner : TypeRefsAt 1 (start + 1) a) (first : ByteAt data a mutability) (second : ByteAt data (a + 1) tier) :
    TypeRefsAt 1 start (a + 2)
  | tuple {start count a stop : Nat} (tag : ByteAt data start 0x05) (length : VarintAt data (start + 1) count a)
    (elems : TypeRefsAt count a stop) : TypeRefsAt 1 start stop
  | array {start a length stop : Nat} (tag : ByteAt data start 0x06) (element : TypeRefsAt 1 (start + 1) a)
    (number : VarintAt data a length stop) : TypeRefsAt 1 start stop
  | slice {start stop : Nat} (tag : ByteAt data start 0x07) (inner : TypeRefsAt 1 (start + 1) stop) :
    TypeRefsAt 1 start stop
  | rank2Function {start typeParamCount a count b c contextCount d stop : Nat} {discriminant : UInt8}
    (tag : ByteAt data start discriminant) (known : discriminant = 0x0C ∨ discriminant = 0x1C)
    (number : VarintAt data (start + 1) typeParamCount a) (small : typeParamCount < 2 ^ 16)
    (length : VarintAt data a count b) (types : TypeRefsAt (count + 1) b c)
    (contextLength : VarintAt data c contextCount d) (contexts : ContextsAt data contextCount d stop) :
    TypeRefsAt 1 start stop
  | legacyProjection {start a length b : Nat} (tag : ByteAt data start 0x09) (base : TypeRefsAt 1 (start + 1) a)
    (number : VarintAt data a length b) (fits : b + length ≤ data.length) : TypeRefsAt 1 start (b + length)
  | projection {start a b count c stop : Nat} {name : String} (tag : ByteAt data start 0x0E)
    (base : TypeRefsAt 1 (start + 1) a) (flag : ByteAt data a 0) (text : NameAt data (a + 1) name b)
    (named : name ≠ "") (length : VarintAt data b count c) (few : count ≤ maxTypeApplicationArguments)
    (args : TypeRefsAt count c stop) : TypeRefsAt 1 start stop
  | qualifiedProjection {start a protocol b argCount c d e count f stop : Nat} {name : String}
    (tag : ByteAt data start 0x0E) (base : TypeRefsAt 1 (start + 1) a) (flag : ByteAt data a 1)
    (number : VarintAt data (a + 1) protocol b) (small : protocol < 2 ^ 32) (argLength : VarintAt data b argCount c)
    (fewArgs : argCount ≤ maxTypeApplicationArguments) (protocolArgs : TypeRefsAt argCount c d)
    (text : NameAt data d name e) (named : name ≠ "") (length : VarintAt data e count f)
    (few : count ≤ maxTypeApplicationArguments) (args : TypeRefsAt count f stop) : TypeRefsAt 1 start stop
  | constValue {start value stop : Nat} (tag : ByteAt data start 0x0A) (number : VarintAt data (start + 1) value stop) :
    TypeRefsAt 1 start stop
  | recordFieldProjection {start owner a ordinal stop : Nat} (tag : ByteAt data start 0x0D)
    (number : VarintAt data (start + 1) owner a) (small : owner < 2 ^ 32) (position : VarintAt data a ordinal stop)
    (smallPosition : ordinal < 2 ^ 32) : TypeRefsAt 1 start stop

end Grammar

section Pieces

variable {α : Type} {data : Slice} {start stop : Nat} {item : Decode TypeRef}

theorem ByteAt.inside {byte : UInt8} (hit : ByteAt data start byte) : start < data.length :=
  (List.getElem?_eq_some_iff.mp hit).1

theorem ends_u8 {next : UInt8 → Decode α} :
    Ends (decodeU8 >>= next) data start stop ↔
      ∃ byte, ByteAt data start byte ∧ Ends (next byte) data (start + 1) stop := by
  rw [ends_bind]
  constructor
  · rintro ⟨byte, after, run, rest⟩
    obtain ⟨hit, rfl⟩ := decodeU8_eq_ok.mp run
    exact ⟨byte, hit, rest⟩
  · rintro ⟨byte, hit, rest⟩
    exact ⟨byte, start + 1, decodeU8_eq_ok.mpr ⟨hit, rfl⟩, rest⟩

theorem ends_varint {next : Nat → Decode α} :
    Ends (decodeVarint >>= next) data start stop ↔
      ∃ value mid, VarintAt data start value mid ∧ Ends (next value) data mid stop := ends_bind

variable {discriminant : UInt8} {value : Nat}

theorem ends_to_u16 {next : UInt16 → Decode α} : Ends (toU16 discriminant value >>= next) data start stop ↔
      value < 2 ^ 16 ∧ Ends (next (UInt16.ofNat value)) data start stop := by
  unfold toU16
  by_cases small : value < 2 ^ 16
  · simp only [small, if_true, true_and]
    exact Iff.rfl
  · simp only [small, if_false, false_and, iff_false]
    rintro ⟨id, run⟩
    simp only [bind_run, position, subUsize] at run
    by_cases behind : 1 ≤ start
    · simp only [behind, if_true] at run
      cases run
    · simp only [behind, if_false] at run
      cases run

theorem not_ends_invalid : ¬ Ends (@invalidTypeRef α discriminant) data start stop := by
  rintro ⟨value, run⟩
  cases run

theorem ends_to_u32 {next : UInt32 → Decode α} : Ends (toU32 discriminant value >>= next) data start stop ↔
      value < 2 ^ 32 ∧ Ends (next (UInt32.ofNat value)) data start stop := by
  unfold toU32
  by_cases small : value < 2 ^ 32
  · simp only [small, if_true, true_and]
    exact Iff.rfl
  · simp only [small, if_false, false_and, iff_false]
    rintro ⟨id, run⟩
    cases run

theorem ends_reserve {count : Nat} {next : Unit → Decode α} :
    Ends (reserveContexts count >>= next) data start stop ↔
      count < 2 ^ 61 ∧ Ends (next ()) data start stop := by
  unfold reserveContexts
  by_cases few : count < 2 ^ 61
  · have hf : count * 4 ≤ 2 ^ 63 - 4 := by omega
    simp only [few, hf, if_true, true_and]
    exact Iff.rfl
  · have large : ¬ count * 4 ≤ 2 ^ 63 - 4 := by omega
    simp only [few, large, if_false, false_and, iff_false]
    rintro ⟨value, run⟩
    cases run

theorem ends_legacy_name : Ends (decodeLegacyName discriminant) data start stop ↔
      ∃ length middle, VarintAt data start length middle ∧ middle + length ≤ data.length ∧ stop = middle + length := by
  have hb := data.length_lt
  refine ends_varint.trans (exists_congr fun length => exists_congr fun middle => and_congr_right fun _ => ?_)
  by_cases hf : middle + length ≤ data.length
  · have noWrap : middle + length < 2 ^ 64 := by omega
    have he : ¬ data.length < middle + length := by omega
    have hr : middle ≤ middle + length ∧ middle + length ≤ data.length := ⟨by omega, hf⟩
    simp only [Ends, bind_run, position, addUsize, noWrap, if_true, dataLen, he, if_false, subslice, hr,
      and_self, advance, pure_run, Outcome.ok.injEq, true_and, eq_comm, exists_eq_left]
  · have short : data.length < middle + length := by omega
    refine iff_of_false ?_ (by omega)
    rintro ⟨name, run⟩
    by_cases noWrap : middle + length < 2 ^ 64
    · simp only [bind_run, position, addUsize, noWrap, if_true, dataLen, short] at run
      cases run
    · simp only [bind_run, position, addUsize, noWrap, if_false] at run
      cases run

theorem ends_counted {item : Decode α} {limit : Nat} {error : Nat → VbcError} :
    Ends (decodeVarint >>= fun count => if limit < count then fail (error count) else repeatN item count)
        data start stop ↔
      ∃ count mid, VarintAt data start count mid ∧ count ≤ limit ∧
        Ends (repeatN item count) data mid stop := by
  refine ends_varint.trans (exists_congr fun count => exists_congr fun mid => and_congr_right fun _ => ?_)
  by_cases few : count ≤ limit
  · rw [if_neg (by omega)]
    simp only [few, true_and]
  · rw [if_pos (by omega)]
    refine iff_of_false ?_ fun hit => few hit.1
    rintro ⟨value, run⟩
    cases run

theorem ends_arguments :
    Ends (decodeApplicationArguments item) data start stop ↔
      ∃ count mid, VarintAt data start count mid ∧ count ≤ maxTypeApplicationArguments ∧
        Ends (repeatN item count) data mid stop :=
  ends_counted

theorem ends_qualifier : Ends (decodeQualifier discriminant item) data start stop ↔
      (ByteAt data start 0 ∧ start + 1 = stop) ∨
        (ByteAt data start 1 ∧ ∃ protocol a, VarintAt data (start + 1) protocol a ∧ protocol < 2 ^ 32 ∧
          ∃ count b, VarintAt data a count b ∧ count ≤ maxTypeApplicationArguments ∧
            Ends (repeatN item count) data b stop) := by
  have qualified : ∀ {from'}, Ends (decodeVarint >>= fun value => toU32 discriminant value >>= fun protocol =>
      decodeApplicationArguments item >>= fun args => pure (some (⟨⟨protocol⟩, args⟩ : ProtocolApplication TypeRef)))
      data from' stop ↔ ∃ protocol a, VarintAt data from' protocol a ∧ protocol < 2 ^ 32 ∧
        ∃ count b, VarintAt data a count b ∧ count ≤ maxTypeApplicationArguments ∧
          Ends (repeatN item count) data b stop := by
    intro from'
    refine ends_varint.trans (exists_congr fun protocol => exists_congr fun a => and_congr_right fun _ => ?_)
    refine ends_to_u32.trans (and_congr_right fun _ => ?_)
    exact ends_map.trans ends_arguments
  refine ends_u8.trans ?_
  constructor
  · rintro ⟨flag, hit, rest⟩
    split at rest
    · rename_i zero
      rw [zero] at hit
      exact .inl ⟨hit, ends_pure.mp rest⟩
    · split at rest
      · rename_i one
        rw [one] at hit
        exact .inr ⟨hit, qualified.mp rest⟩
      · exact absurd rest not_ends_invalid
  · rintro (⟨hit, rfl⟩ | ⟨hit, rest⟩)
    · exact ⟨0, hit, ends_pure.mpr rfl⟩
    · exact ⟨1, hit, qualified.mpr rest⟩

end Pieces

section Accepted

variable {data : Slice} {start stop : Nat} {item : Decode TypeRef}

theorem ends_one : Ends (repeatN item 1) data start stop ↔ Ends item data start stop := by
  rw [ends_repeatN_succ]
  have none : ∀ {a b}, Ends (repeatN item 0) data a b ↔ a = b := ends_pure
  simp [none]

variable {count : Nat} {discriminant : UInt8}

theorem ends_signature {α : Type} {next : List TypeRef → TypeRef → Decode α} {tail : Nat → Prop}
    (rest : ∀ ps returnType mid, Ends (next ps returnType) data mid stop ↔ tail mid) :
    Ends (repeatN item count >>= fun ps => item >>= next ps) data start stop ↔
      ∃ mid, Ends (repeatN item (count + 1)) data start mid ∧ tail mid := by
  refine (ends_bind_any fun ps mid => ends_bind_any (rest ps)).trans ?_
  constructor
  · rintro ⟨mid, ps, last, returnType, done⟩
    exact ⟨last, ends_repeatN_last.mpr ⟨mid, ps, returnType⟩, done⟩
  · rintro ⟨last, types, done⟩
    obtain ⟨mid, ps, returnType⟩ := ends_repeatN_last.mp types
    exact ⟨mid, ps, last, returnType, done⟩

theorem ends_function (known : discriminant = 0x03 ∨ discriminant = 0x13) :
    Ends (decodeTypeRefBody item discriminant) data start stop ↔
      ∃ count a, VarintAt data start count a ∧ ∃ b, Ends (repeatN item (count + 1)) data a b ∧
        ∃ contextCount c, VarintAt data b contextCount c ∧ contextCount < 2 ^ 61 ∧
          ContextsAt data contextCount c stop := by
  rcases known with rfl | rfl
  all_goals
    refine ends_varint.trans (exists_congr fun count => exists_congr fun a => and_congr_right fun _ => ?_)
    refine ends_signature fun ps returnType b => ?_
    refine ends_varint.trans (exists_congr fun contextCount => exists_congr fun c => and_congr_right fun _ => ?_)
    exact ends_reserve.trans (and_congr_right fun _ => ends_map)

theorem ends_rank2_function (known : discriminant = 0x0C ∨ discriminant = 0x1C) :
    Ends (decodeTypeRefBody item discriminant) data start stop ↔
      ∃ typeParamCount a, VarintAt data start typeParamCount a ∧ typeParamCount < 2 ^ 16 ∧
        ∃ count b, VarintAt data a count b ∧ ∃ c, Ends (repeatN item (count + 1)) data b c ∧
          ∃ contextCount d, VarintAt data c contextCount d ∧ ContextsAt data contextCount d stop := by
  rcases known with rfl | rfl
  all_goals
    refine ends_varint.trans (exists_congr fun value => exists_congr fun a => and_congr_right fun _ => ?_)
    refine ends_to_u16.trans (and_congr_right fun _ => ?_)
    refine ends_varint.trans (exists_congr fun count => exists_congr fun b => and_congr_right fun _ => ?_)
    refine ends_signature fun ps returnType c => ?_
    exact ends_varint.trans (exists_congr fun contextCount => exists_congr fun d => and_congr_right fun _ => ends_map)

theorem ends_reference :
    Ends (decodeTypeRefBody item 0x04) data start stop ↔
      ∃ a, Ends item data start a ∧ ∃ mutability tier, ByteAt data a mutability ∧ ByteAt data (a + 1) tier ∧
        stop = a + 2 := by
  refine ends_bind_any fun inner a => ?_
  have mutability : Ends (decodeMutability >>= fun mutability => decodeU8 >>= fun tier =>
      pure (TypeRef.reference inner mutability (tierOfByte tier))) data a stop ↔
      ∃ fst, ByteAt data a fst ∧ ∃ snd, ByteAt data (a + 1) snd ∧ stop = a + 2 := by
    unfold decodeMutability
    rw [Decoder.bind_assoc]
    refine ends_u8.trans (exists_congr fun fst => and_congr_right fun _ => ?_)
    refine ends_u8.trans (exists_congr fun snd => and_congr_right fun _ => ?_)
    exact ends_pure.trans eq_comm
  refine mutability.trans ⟨?_, ?_⟩
  · rintro ⟨fst, hit, snd, found', done⟩
    exact ⟨fst, snd, hit, found', done⟩
  · rintro ⟨fst, snd, hit, found', done⟩
    exact ⟨fst, hit, snd, found', done⟩

theorem ends_projection :
    Ends (decodeTypeRefBody item 0x0E) data start stop ↔
      ∃ a, Ends item data start a ∧ ∃ b, Ends (decodeQualifier 0x0E item) data a b ∧
        ∃ name c, NameAt data b name c ∧ name ≠ "" ∧
          ∃ count d, VarintAt data c count d ∧ count ≤ maxTypeApplicationArguments ∧
            Ends (repeatN item count) data d stop := by
  refine ends_bind_any fun base a => ends_bind_any fun qualifier b => ?_
  refine ends_bind.trans (exists_congr fun name => exists_congr fun c => and_congr_right fun _ => ?_)
  by_cases empty : name = ""
  · refine iff_of_false ?_ fun hit => hit.1 empty
    intro hit
    obtain ⟨args, mid, _, last⟩ := ends_bind.mp hit
    rw [if_pos empty] at last
    exact not_ends_invalid last
  · simp only [empty, if_false, ne_eq, not_false_eq_true, true_and]
    exact ends_map.trans ends_arguments

theorem ends_type_ref :
    Ends decodeTypeRef data start stop ↔
      ∃ discriminant, ByteAt data start discriminant ∧
        Ends (decodeTypeRefBody decodeTypeRef discriminant) data (start + 1) stop := by
  unfold Ends
  rw [decodeTypeRef_run]
  exact ends_u8

theorem TypeRefsAt.accepted (types : TypeRefsAt data count start stop) :
    Ends (repeatN decodeTypeRef count) data start stop := by
  have single : ∀ {start stop discriminant}, ByteAt data start discriminant →
      Ends (decodeTypeRefBody decodeTypeRef discriminant) data (start + 1) stop →
      Ends (repeatN decodeTypeRef 1) data start stop := fun tag body =>
    ends_one.mpr (ends_type_ref.mpr ⟨_, tag, body⟩)
  induction types with
  | none => exact ends_pure.mpr rfl
  | more _ _ head tail => exact ends_repeatN_succ.mpr ⟨_, ends_one.mp head, tail⟩
  | concrete tag num | constValue tag num =>
    exact single tag (ends_varint.mpr ⟨_, _, num, ends_pure.mpr rfl⟩)
  | generic tag num small =>
    exact single tag (ends_varint.mpr ⟨_, _, num, ends_to_u16.mpr ⟨small, ends_pure.mpr rfl⟩⟩)
  | instantiated tag num length _ args =>
    exact single tag (ends_varint.mpr ⟨_, _, num, ends_varint.mpr ⟨_, _, length, ends_map.mpr args⟩⟩)
  | function tag known length _ contextLength few contexts types =>
    exact single tag ((ends_function known).mpr ⟨_, _, length, _, types, _, _, contextLength, few, contexts⟩)
  | reference tag _ fst snd inner =>
    exact single tag (ends_reference.mpr ⟨_, ends_one.mp inner, _, _, fst, snd, rfl⟩)
  | tuple tag length _ elems => exact single tag (ends_varint.mpr ⟨_, _, length, ends_map.mpr elems⟩)
  | array tag _ num element =>
    obtain ⟨value, run⟩ := ends_one.mp element
    exact single tag (ends_bind.mpr ⟨value, _, run, ends_map.mpr ⟨_, num⟩⟩)
  | slice tag _ inner => exact single tag (ends_map.mpr (ends_one.mp inner))
  | rank2Function tag known num small length _ contextLength contexts types =>
    exact single tag ((ends_rank2_function known).mpr
      ⟨_, _, num, small, _, _, length, _, types, _, _, contextLength, contexts⟩)
  | legacyProjection tag _ num fits base =>
    obtain ⟨value, run⟩ := ends_one.mp base
    exact single tag (ends_bind.mpr ⟨value, _, run, ends_map.mpr (ends_legacy_name.mpr ⟨_, _, num, fits, rfl⟩)⟩)
  | projection tag _ flag text named length few _ base args =>
    exact single tag (ends_projection.mpr ⟨_, ends_one.mp base, _, ends_qualifier.mpr (.inl ⟨flag, rfl⟩),
      _, _, text, named, _, _, length, few, args⟩)
  | qualifiedProjection tag _ flag num small argLength fewArgs _ text named length few _ base protocolArgs args =>
    exact single tag (ends_projection.mpr ⟨_, ends_one.mp base, _,
      ends_qualifier.mpr (.inr ⟨flag, _, _, num, small, _, _, argLength, fewArgs, protocolArgs⟩),
      _, _, text, named, _, _, length, few, args⟩)
  | recordFieldProjection tag num small pos smallPosition =>
    exact single tag (ends_varint.mpr ⟨_, _, num, ends_to_u32.mpr ⟨small,
      ends_varint.mpr ⟨_, _, pos, ends_to_u32.mpr ⟨smallPosition, ends_pure.mpr rfl⟩⟩⟩⟩)

theorem VarintAt.after {value : Nat} (num : VarintAt data start value stop) (hin : start ≤ data.length) :
    start < stop ∧ stop ≤ data.length :=
  decodeVarint_advances data start value stop hin num

theorem ends_type_ref_after (ends : Ends decodeTypeRef data start stop) (hin : start ≤ data.length) :
    start < stop ∧ stop ≤ data.length :=
  decodeTypeRef_advances.ends hin ends

theorem ends_type_refs_after (ends : Ends (repeatN decodeTypeRef count) data start stop)
    (hin : start ≤ data.length) : start ≤ stop ∧ stop ≤ data.length :=
  ((decodeTypeRef_advances.weaken (Nat.zero_le 1)).repeatN count).ends hin ends

theorem derived_one
    (hl : ∀ {count from' stop}, start < from' → Ends (repeatN decodeTypeRef count) data from' stop →
      TypeRefsAt data count from' stop) (ends : Ends decodeTypeRef data start stop) : TypeRefsAt data 1 start stop := by
  obtain ⟨discriminant, tag, body⟩ := ends_type_ref.mp ends
  have hin : start + 1 ≤ data.length := tag.inside
  have next : ∀ {stop}, Ends decodeTypeRef data (start + 1) stop → TypeRefsAt data 1 (start + 1) stop :=
    fun ends => hl (by omega) (ends_one.mpr ends)
  have whole := body
  unfold decodeTypeRefBody at body
  split at body
  · obtain ⟨id, mid, num, done⟩ := ends_varint.mp body
    obtain rfl := ends_pure.mp done
    exact .concrete tag num
  · obtain ⟨id, mid, num, rest⟩ := ends_varint.mp body
    obtain ⟨small, done⟩ := ends_to_u16.mp rest
    obtain rfl := ends_pure.mp done
    exact .generic tag num small
  · obtain ⟨base, a, num, rest⟩ := ends_varint.mp body
    obtain ⟨count, b, length, args⟩ := ends_varint.mp rest
    have fst := num.after hin
    have snd := length.after fst.2
    exact .instantiated tag num length (hl (by omega) (ends_map.mp args))
  · obtain ⟨a, inner, mutability, tier, fst, snd, rfl⟩ := ends_reference.mp body
    exact .reference tag (next inner) fst snd
  · obtain ⟨count, a, length, elems⟩ := ends_varint.mp body
    have fst := length.after hin
    exact .tuple tag length (hl (by omega) (ends_map.mp elems))
  · obtain ⟨element, a, run, rest⟩ := ends_bind.mp body
    obtain ⟨length, num⟩ := ends_map.mp rest
    exact .array tag (next ⟨element, run⟩) num
  · exact .slice tag (next (ends_map.mp body))
  · obtain ⟨base, a, run, rest⟩ := ends_bind.mp body
    obtain ⟨length, b, num, hf, rfl⟩ := ends_legacy_name.mp (ends_map.mp rest)
    exact .legacyProjection tag (next ⟨base, run⟩) num hf
  · obtain ⟨a, base, b, qualifier, name, c, text, named, count, d, length, few, args⟩ := ends_projection.mp body
    have fst := ends_type_ref_after base hin
    have third := (safe_name 0x0E).stays data b name c
    have fourth := length.after
    rcases ends_qualifier.mp qualifier with ⟨flag, rfl⟩ | ⟨flag, protocol, e, num, small, argCount, f, argLength,
      fewArgs, protocolArgs⟩
    · have inside' := flag.inside
      have third := third (by omega) text
      have fourth := fourth third.2
      exact .projection tag (next base) flag text named length few (hl (by omega) args)
    · have inside' := flag.inside
      have snd := num.after (by omega)
      have counted := argLength.after snd.2
      have qualified := ends_type_refs_after protocolArgs counted.2
      have third := third (by omega) text
      have fourth := fourth third.2
      exact .qualifiedProjection tag (next base) flag num small argLength fewArgs (hl (by omega) protocolArgs)
        text named length few (hl (by omega) args)
  · obtain ⟨value, mid, num, done⟩ := ends_varint.mp body
    obtain rfl := ends_pure.mp done
    exact .constValue tag num
  · obtain ⟨owner, a, num, rest⟩ := ends_varint.mp body
    obtain ⟨small, rest⟩ := ends_to_u32.mp rest
    obtain ⟨ordinal, b, pos, rest⟩ := ends_varint.mp rest
    obtain ⟨smallPosition, done⟩ := ends_to_u32.mp rest
    obtain rfl := ends_pure.mp done
    exact .recordFieldProjection tag num small pos smallPosition
  · split at body
    · rename_i known
      obtain ⟨count, a, length, b, types, contextCount, c, contextLength, few, contexts⟩ :=
        (ends_function known).mp whole
      have fst := length.after hin
      exact .function tag known length (hl (by omega) types) contextLength few contexts
    · split at body
      · rename_i known
        obtain ⟨typeParamCount, a, num, small, count, b, length, c, types, contextCount, d, contextLength,
          contexts⟩ := (ends_rank2_function known).mp whole
        have fst := num.after hin
        have snd := length.after fst.2
        exact .rank2Function tag known num small length (hl (by omega) types) contextLength contexts
      · obtain ⟨value, run⟩ := body
        cases run

theorem ends_type_refs : Ends (repeatN decodeTypeRef count) data start stop ↔ TypeRefsAt data count start stop := by
  refine ⟨fun ends => ?_, TypeRefsAt.accepted⟩
  generalize left : data.length - start = size
  induction size using Nat.strong_induction_on generalizing start stop count with
  | _ size ih =>
    cases count with
    | zero =>
      obtain rfl := ends_pure.mp ends
      exact .none
    | succ count =>
      obtain ⟨mid, head, tail⟩ := ends_repeatN_succ.mp ends
      obtain ⟨discriminant, tag, _⟩ := ends_type_ref.mp head
      have hin := tag.inside
      have moved := ends_type_ref_after head (by omega)
      exact .more (derived_one (fun lt ends => ih _ (by omega) ends rfl) head) (ih _ (by omega) tail rfl)

theorem ends_type_ref_iff : Ends decodeTypeRef data start stop ↔ TypeRefsAt data 1 start stop :=
  ends_one.symm.trans ends_type_refs

end Accepted

end Vbc
