import Verum.Vbc.TypeRefRoundTrip

namespace Vbc

open Wire

def hexDigits : List Char := "0123456789abcdef".toList

def hexDigit (nibble : UInt8) : Char := hexDigits.getD nibble.toNat '0'

def hexByte (byte : UInt8) : List Char := [hexDigit (byte >>> 4), hexDigit (byte &&& 15)]

def specializationIdentity (function : FunctionId) (args : List TypeRef) : List UInt8 :=
  encodeVarint function.id.toNat ++ (encodeVarint args.length ++ encodeTypeRefs args)

def specializationName (name : String) (function : FunctionId) (args : List TypeRef) : String :=
  name ++ "$mono$" ++ String.ofList ((specializationIdentity function args).flatMap hexByte)

theorem hexDigit_inj : ∀ i < 16, ∀ j < 16, hexDigits.getD i '0' = hexDigits.getD j '0' → i = j := by
  decide

theorem high_nibble (byte : UInt8) : (byte >>> 4).toNat = byte.toNat / 16 := by
  simp [Nat.shiftRight_eq_div_pow]

theorem low_nibble (byte : UInt8) : (byte &&& 15).toNat = byte.toNat % 16 := by
  rw [UInt8.toNat_and]
  exact Nat.and_two_pow_sub_one_eq_mod byte.toNat 4

theorem hexByte_inj {fst snd : UInt8} (eq : hexByte fst = hexByte snd) : fst = snd := by
  have small := fst.toNat_lt
  have small' := snd.toNat_lt
  simp only [hexByte, hexDigit, List.cons.injEq, and_true, high_nibble, low_nibble] at eq
  have high := hexDigit_inj _ (by omega) _ (by omega) eq.1
  have low := hexDigit_inj _ (by omega) _ (by omega) eq.2
  apply UInt8.toNat_inj.mp
  omega

theorem flatMap_hexByte_inj {fst snd : List UInt8}
    (eq : fst.flatMap hexByte = snd.flatMap hexByte) : fst = snd := by
  induction fst generalizing snd with
  | nil =>
    cases snd with
    | nil => rfl
    | cons byte rest => simp [hexByte] at eq
  | cons byte rest ih =>
    cases snd with
    | nil => simp [hexByte] at eq
    | cons byte' rest' =>
      rw [List.flatMap_cons, List.flatMap_cons] at eq
      have parts := List.append_inj eq rfl
      rw [hexByte_inj parts.1, ih parts.2]

variable {name : String} {function function' : FunctionId} {args args' : List TypeRef}

theorem specializationIdentity_of_name
    (eq : specializationName name function args = specializationName name function' args') :
    specializationIdentity function args = specializationIdentity function' args' := by
  apply flatMap_hexByte_inj
  have chars := congrArg String.toList eq
  simp only [specializationName, String.toList_append, String.toList_ofList] at chars
  exact List.append_cancel_left chars

def decodeIdentity : Decode (FunctionId × List TypeRef) := do
  let function ← decodeVarint
  let count ← decodeVarint
  let args ← repeatN decodeTypeRef count
  return (⟨UInt32.ofNat function⟩, args)

theorem reads_identity (function : FunctionId) (args : List TypeRef) (good : ∀ arg ∈ args, arg.Encodable)
    (small : args.length < 2 ^ 64) :
    Reads decodeIdentity (specializationIdentity function args) (function, args) := by
  have each := Reads.repeatN args fun arg mem => reads_typeRef arg (good arg mem)
  rw [← encodeTypeRefs_flatMap] at each
  refine (reads_u32 function.id).bind ((reads_varint _ small).bind (each.bind_pure (Reads.pure_eq ?_)))
  rw [UInt32.ofNat_toNat]

theorem specializationName_inj (good : ∀ arg ∈ args, arg.Encodable) (good' : ∀ arg ∈ args', arg.Encodable)
    (hf : (specializationIdentity function args).length < 2 ^ 63)
    (eq : specializationName name function args = specializationName name function' args') :
    function = function' ∧ args = args' := by
  have bytes := specializationIdentity_of_name eq
  have n := length_le_encodeTypeRefs args
  have count' := length_le_encodeTypeRefs args'
  have fits' := hf
  rw [bytes] at fits'
  simp only [specializationIdentity, List.length_append] at fits'
  have long := hf
  simp only [specializationIdentity, List.length_append] at long
  have fst := reads_identity function args good (by omega)
  have snd := reads_identity function' args' good' (by omega)
  have read := fst.inj snd ⟨specializationIdentity function args, hf⟩ (List.append_nil _).symm
    (congrArg (· ++ []) bytes)
  simpa using read.1

/-- Reading back an encoded type, from which the encoding is injective and prefix-free and a specialised
    name determines the function and the arguments. -/
theorem typeRef_codec :
    (∀ (t : TypeRef) (before after : List UInt8) (data : Slice), t.Encodable →
      data.bytes = before ++ encodeTypeRef t ++ after →
      decodeTypeRef data before.length = .ok t (before.length + (encodeTypeRef t).length)) ∧
    (∀ (t t' : TypeRef) (after after' : List UInt8) (data : Slice), t.Encodable → t'.Encodable →
      data.bytes = encodeTypeRef t ++ after → data.bytes = encodeTypeRef t' ++ after' → t = t' ∧ after = after') ∧
    (∀ (name : String) (function function' : FunctionId) (args args' : List TypeRef),
      (∀ arg ∈ args, arg.Encodable) → (∀ arg ∈ args', arg.Encodable) →
      (specializationIdentity function args).length < 2 ^ 63 →
      specializationName name function args = specializationName name function' args' →
      function = function' ∧ args = args') := by
  refine ⟨?_, ?_, ?_⟩
  · intro t before after data good layout
    exact reads_typeRef t good data before.length (Slice.holds_of_eq layout)
  · intro t t' after after' data good good' layout layout'
    have read := (reads_typeRef t good).inj (reads_typeRef t' good') data layout (layout.symm.trans layout')
    have bytes := layout.symm.trans layout'
    rw [read.2] at bytes
    exact ⟨read.1, List.append_cancel_left bytes⟩
  · intro name function function' args args' good good' fits same
    exact specializationName_inj good good' fits same

def projectionSample : TypeRef :=
  .associatedProjection (.generic ⟨3⟩) (some ⟨⟨9⟩, [.constValue (-1)]⟩) "Item" [.tuple []]

theorem typeRef_codec_projection :
    decodeTypeRef ⟨[7] ++ encodeTypeRef projectionSample ++ [1, 2], by decide⟩ 1 = .ok projectionSample 26 ∧
    (∀ t' after', TypeRef.Encodable t' → encodeTypeRef projectionSample = encodeTypeRef t' ++ after' →
      projectionSample = t') ∧
    (∀ function' args', (∀ arg ∈ args', TypeRef.Encodable arg) →
      specializationName "f" ⟨5⟩ [projectionSample] = specializationName "f" function' args' →
      ⟨5⟩ = function' ∧ [projectionSample] = args') := by
  have good : projectionSample.Encodable := by
    simp [projectionSample, TypeRef.Encodable, TypeRef.AllEncodable, TypeRef.QualifierEncodable,
      TypeRef.ApplicationEncodable, maxTypeApplicationArguments]
  refine ⟨?_, ?_, ?_⟩
  · exact typeRef_codec.1 projectionSample [7] [1, 2] ⟨_, by decide⟩ good rfl
  · intro t' after' good' same
    exact (typeRef_codec.2.1 projectionSample t' [] after' ⟨encodeTypeRef projectionSample, by decide⟩ good good'
      (List.append_nil _).symm same).1
  · intro function' args' good' same
    exact typeRef_codec.2.2 "f" ⟨5⟩ function' [projectionSample] args' (by simpa using good) good' (by decide) same

end Vbc
