import Verum.Vbc.TypeRef

open List

namespace Vbc

open Wire

mutual

/-- What the decoder asks of a type: projections are named and take few arguments. The bound on
    `contexts` is the capacity of a `SmallVec` of four-byte entries. -/
def TypeRef.Encodable : TypeRef → Prop
  | .concrete _ | .generic _ | .constValue _ | .recordFieldProjection _ _ => True
  | .instantiated _ args => TypeRef.AllEncodable args
  | .function _ params returnType contexts =>
    TypeRef.AllEncodable params ∧ returnType.Encodable ∧ contexts.length < 2 ^ 61
  | .rank2Function _ _ params returnType _ => TypeRef.AllEncodable params ∧ returnType.Encodable
  | .reference inner _ _ | .array inner _ | .slice inner => inner.Encodable
  | .tuple elems => TypeRef.AllEncodable elems
  | .associatedProjection base qualifier assoc args =>
    base.Encodable ∧ TypeRef.QualifierEncodable qualifier ∧ assoc ≠ "" ∧
      args.length ≤ maxTypeApplicationArguments ∧ TypeRef.AllEncodable args

def TypeRef.AllEncodable : List TypeRef → Prop
  | [] => True
  | head :: tail => head.Encodable ∧ TypeRef.AllEncodable tail

def TypeRef.QualifierEncodable : Option (ProtocolApplication TypeRef) → Prop
  | none => True
  | some application => TypeRef.ApplicationEncodable application

def TypeRef.ApplicationEncodable : ProtocolApplication TypeRef → Prop
  | ⟨_, args⟩ => args.length ≤ maxTypeApplicationArguments ∧ TypeRef.AllEncodable args

end

theorem encodeTypeRef_ne_nil (t : TypeRef) : encodeTypeRef t ≠ [] := by
  cases t <;> simp [encodeTypeRef]

theorem length_le_encodeTypeRefs (ts : List TypeRef) : ts.length ≤ (encodeTypeRefs ts).length := by
  induction ts with
  | nil => exact Nat.zero_le _
  | cons head tail ih =>
    have pos := length_pos_of_ne_nil (encodeTypeRef_ne_nil head)
    simp only [encodeTypeRefs, length_append, length_cons]
    omega

theorem encodeTypeRefs_flatMap (ts : List TypeRef) : encodeTypeRefs ts = ts.flatMap encodeTypeRef := by
  induction ts with
  | nil => rfl
  | cons head tail ih => rw [encodeTypeRefs, flatMap_cons, ih]

theorem fromUtf8_asBytes (text : String) : fromUtf8 (asBytes text) = some text := by
  have valid := text.isValidUTF8
  simp [fromUtf8, asBytes, String.fromUTF8?, valid, String.fromUTF8]

theorem toU16_eq (disc : UInt8) (v : UInt16) :
    toU16 disc v.toNat = (pure v : Decode UInt16) := by
  rw [toU16, if_pos v.toNat_lt, UInt16.ofNat_toNat]

theorem toU32_eq (disc : UInt8) (v : UInt32) :
    toU32 disc v.toNat = (pure v : Decode UInt32) := by
  rw [toU32, if_pos v.toNat_lt, UInt32.ofNat_toNat]

theorem reads_mutability (mutability : Mutability) :
    Reads decodeMutability [mutability.toByte] mutability := by
  refine (reads_u8 _).bind_pure (Reads.pure_eq ?_)
  cases mutability <;> rfl

theorem reads_contexts (contexts : List ContextRef) :
    Reads (repeatN decodeContext contexts.length)
      (contexts.flatMap fun context => encodeVarint context.id.toNat) contexts := by
  apply Reads.repeatN contexts
  intro context _
  apply (reads_u32 context.id).bind_pure
  exact Reads.pure_eq (by rw [UInt32.ofNat_toNat])

theorem reads_name (disc : UInt8) (assoc : String) (small : (asBytes assoc).length < 2 ^ 63) :
    Reads (decodeName disc) (encodeBytes (asBytes assoc)) assoc := by
  intro data off held
  have length := reads_varint (asBytes assoc).length (by omega) data off held.left
  have pl := held.right
  have hb := pl.bound
  have hin : ¬ data.length < off + (encodeVarint (asBytes assoc).length).length + (asBytes assoc).length := by
    omega
  have hr : off + (encodeVarint (asBytes assoc).length).length ≤
      off + (encodeVarint (asBytes assoc).length).length + (asBytes assoc).length ∧
      off + (encodeVarint (asBytes assoc).length).length + (asBytes assoc).length ≤ data.length := by omega
  simp only [decodeName, bind_run, length, position, dataLen, hin, if_false, subslice, hr, and_self,
    if_true, pl.sub, fromUtf8_asBytes, setPosition, pure_run]
  rw [encodeBytes, length_append, Nat.add_assoc]

theorem reads_arguments {item : Decode TypeRef} (args : List TypeRef)
    (few : args.length ≤ maxTypeApplicationArguments)
    (each : Reads (repeatN item args.length) (encodeTypeRefs args) args) :
    Reads (decodeApplicationArguments item) (encodeVarint args.length ++ encodeTypeRefs args) args := by
  have small : args.length < 2 ^ 64 := by unfold maxTypeApplicationArguments at few; omega
  apply (reads_varint _ small).bind
  rw [if_neg (Nat.not_lt.mpr few)]
  exact each

theorem reads_contexts_length (contexts : List ContextRef) :
    contexts.length ≤ (contexts.flatMap fun context => encodeVarint context.id.toNat).length := by
  induction contexts with
  | nil => simp
  | cons head tail ih =>
    have pos := encodeVarint_length_pos head.id.toNat
    simp only [flatMap_cons, length_append, length_cons]
    omega

theorem body_function (item : Decode TypeRef) (isAsync : Bool) :
    decodeTypeRefBody item ((0x03 : UInt8) ||| isAsync.toUInt8 <<< 4) = (do
      let paramCount ← decodeVarint
      let ps ← repeatN item paramCount
      let returnType ← item
      let contextCount ← decodeVarint
      reserveContexts contextCount
      let contexts ← repeatN decodeContext contextCount
      return .function isAsync ps returnType contexts) := by
  cases isAsync <;> rfl

theorem body_rank2Function (item : Decode TypeRef) (isAsync : Bool) :
    decodeTypeRefBody item ((0x0C : UInt8) ||| isAsync.toUInt8 <<< 4) = (do
      let v ← decodeVarint
      let typeParamCount ← toU16 ((0x0C : UInt8) ||| isAsync.toUInt8 <<< 4) v
      let paramCount ← decodeVarint
      let ps ← repeatN item paramCount
      let returnType ← item
      let contextCount ← decodeVarint
      let contexts ← repeatN decodeContext contextCount
      return .rank2Function isAsync typeParamCount ps returnType contexts) := by
  cases isAsync <;> rfl

mutual

theorem reads_typeRefFuel (t : TypeRef) (good : t.Encodable) (fuel : Nat)
    (he : (encodeTypeRef t).length ≤ fuel) (small : (encodeTypeRef t).length < 2 ^ 63) :
    Reads (decodeTypeRefFuel fuel) (encodeTypeRef t) t := by
  obtain _ | fuel := fuel
  · exact absurd (eq_nil_of_length_eq_zero (Nat.le_zero.mp he)) (encodeTypeRef_ne_nil t)
  cases t with
  | concrete id =>
    refine reads_tag _ ?_
    exact (reads_u32 id.id).bind_pure (Reads.pure_eq (by rw [UInt32.ofNat_toNat]))
  | generic param =>
    refine reads_tag _ ?_
    refine (reads_u16 param.id).bind_pure ?_
    rw [toU16_eq]
    exact Reads.pure _
  | constValue v =>
    refine reads_tag _ ?_
    refine (reads_varint _ v.toUInt64.toNat_lt).bind_pure (Reads.pure_eq ?_)
    rw [UInt64.ofNat_toNat]
    rfl
  | recordFieldProjection owner ordinal =>
    refine reads_tag _ ?_
    refine (reads_u32 owner.id).bind ?_
    rw [toU32_eq]
    refine (reads_u32 ordinal).bind_pure ?_
    rw [toU32_eq]
    exact Reads.pure _
  | instantiated base args =>
    simp only [encodeTypeRef, length_cons, length_append] at he small
    have n := length_le_encodeTypeRefs args
    refine reads_tag _ ?_
    refine (reads_u32 base.id).bind ?_
    refine (reads_varint _ (by omega)).bind ?_
    refine (reads_typeRefsFuel args good fuel (by omega) (by omega)).bind_pure (Reads.pure_eq ?_)
    rw [UInt32.ofNat_toNat]
  | function isAsync ps returnType contexts =>
    simp only [encodeTypeRef, length_cons, length_append] at he small
    have n := length_le_encodeTypeRefs ps
    obtain ⟨goodParams, goodReturn, few⟩ := good
    refine reads_tag _ ?_
    rw [body_function]
    refine (reads_varint _ (by omega)).bind ?_
    refine (reads_typeRefsFuel ps goodParams fuel (by omega) (by omega)).bind ?_
    refine (reads_typeRefFuel returnType goodReturn fuel (by omega) (by omega)).bind ?_
    refine (reads_varint _ (by omega)).bind ?_
    rw [reserveContexts, if_pos (by omega)]
    exact (reads_contexts contexts).bind_pure (Reads.pure _)
  | rank2Function isAsync typeParamCount ps returnType contexts =>
    simp only [encodeTypeRef, length_cons, length_append] at he small
    have n := length_le_encodeTypeRefs ps
    have es := reads_contexts_length contexts
    obtain ⟨goodParams, goodReturn⟩ := good
    refine reads_tag _ ?_
    rw [body_rank2Function]
    refine (reads_u16 typeParamCount).bind ?_
    rw [toU16_eq]
    refine (reads_varint _ (by omega)).bind ?_
    refine (reads_typeRefsFuel ps goodParams fuel (by omega) (by omega)).bind ?_
    refine (reads_typeRefFuel returnType goodReturn fuel (by omega) (by omega)).bind ?_
    refine (reads_varint _ (by omega)).bind ?_
    exact (reads_contexts contexts).bind_pure (Reads.pure _)
  | reference inner mutability tier =>
    simp only [encodeTypeRef, length_cons, length_append, length_nil] at he small
    refine reads_tag _ ?_
    refine (reads_typeRefFuel inner good fuel (by omega) (by omega)).bind ?_
    refine (reads_mutability mutability).bind ((reads_u8 _).bind_pure (Reads.pure_eq ?_))
    cases tier <;> rfl
  | tuple elems =>
    simp only [encodeTypeRef, length_cons, length_append] at he small
    have n := length_le_encodeTypeRefs elems
    refine reads_tag _ ?_
    refine (reads_varint _ (by omega)).bind ?_
    exact (reads_typeRefsFuel elems good fuel (by omega) (by omega)).bind_pure (Reads.pure _)
  | array element length =>
    simp only [encodeTypeRef, length_cons, length_append] at he small
    refine reads_tag _ ?_
    refine (reads_typeRefFuel element good fuel (by omega) (by omega)).bind ?_
    refine (reads_varint _ length.toNat_lt).bind_pure (Reads.pure_eq ?_)
    rw [UInt64.ofNat_toNat]
  | slice inner =>
    simp only [encodeTypeRef, length_cons] at he small
    refine reads_tag _ ?_
    exact (reads_typeRefFuel inner good fuel (by omega) (by omega)).bind_pure (Reads.pure _)
  | associatedProjection base qualifier assoc args =>
    simp only [encodeTypeRef, length_cons, length_append, encodeBytes] at he small
    obtain ⟨goodBase, goodQualifier, named, few, goodArgs⟩ := good
    refine reads_tag _ ?_
    refine (reads_typeRefFuel base goodBase fuel (by omega) (by omega)).bind ?_
    refine (reads_qualifier qualifier goodQualifier fuel (by omega) (by omega)).bind ?_
    refine (reads_name _ assoc (by omega)).bind ?_
    refine (reads_arguments args few
      (reads_typeRefsFuel args goodArgs fuel (by omega) (by omega))).bind_pure ?_
    rw [if_neg named]
    exact Reads.pure _

theorem reads_typeRefsFuel (ts : List TypeRef) (good : TypeRef.AllEncodable ts) (fuel : Nat)
    (he : (encodeTypeRefs ts).length ≤ fuel) (small : (encodeTypeRefs ts).length < 2 ^ 63) :
    Reads (repeatN (decodeTypeRefFuel fuel) ts.length) (encodeTypeRefs ts) ts := by
  cases ts with
  | nil => exact Reads.pure []
  | cons head tail =>
    simp only [encodeTypeRefs, length_append] at he small
    refine (reads_typeRefFuel head good.1 fuel (by omega) (by omega)).bind ?_
    exact (reads_typeRefsFuel tail good.2 fuel (by omega) (by omega)).bind_pure (Reads.pure _)

theorem reads_qualifier (qualifier : Option (ProtocolApplication TypeRef))
    (good : TypeRef.QualifierEncodable qualifier) (fuel : Nat)
    (he : (encodeQualifier qualifier).length ≤ fuel) (small : (encodeQualifier qualifier).length < 2 ^ 63) :
    Reads (decodeQualifier 0x0E (decodeTypeRefFuel fuel)) (encodeQualifier qualifier) qualifier := by
  cases qualifier with
  | none => exact (reads_u8 _).bind_pure (Reads.pure _)
  | some application =>
    obtain ⟨protocol, args⟩ := application
    simp only [encodeQualifier, encodeApplication, length_cons, length_append] at he small
    refine reads_tag _ ?_
    refine (reads_u32 protocol.id).bind ?_
    rw [toU32_eq]
    exact (reads_arguments args good.1
      (reads_typeRefsFuel args good.2 fuel (by omega) (by omega))).bind_pure (Reads.pure _)

end

theorem reads_typeRef (t : TypeRef) (good : t.Encodable) : Reads decodeTypeRef (encodeTypeRef t) t := by
  intro data off held
  have hb := held.bound
  have hf := data.length_lt
  exact reads_typeRefFuel t good (data.length + 1) (by omega) (by omega) data off held

end Vbc
