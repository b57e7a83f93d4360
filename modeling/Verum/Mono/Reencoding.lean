import Verum.Mono.JumpConversion

open List

namespace Mono

open UInt32

open Wire Vbc

/-- What re-encoding reads and writes of a function descriptor. -/
structure FunctionDescriptor where
  typeParams : List TypeParamId
  instructions : Option (List Instruction)
  bytecodeOffset : UInt32
  bytecodeLength : UInt32
  registerCount : UInt16

/-- The receipt of a specialization. -/
structure SpecializationEntry where
  genericFn : FunctionId
  typeArgs : List TypeRef
  hash : UInt64
  bytecodeOffset : UInt32
  bytecodeLength : UInt32
  registerCount : UInt16

structure MergedModule where
  functions : List FunctionDescriptor
  specializations : List SpecializationEntry
  bytecode : List UInt8

namespace FunctionDescriptor

def extent (f : FunctionDescriptor) : UInt32 × UInt32 := (f.bytecodeOffset, f.bytecodeLength)

/-- Append the body of a function to the blob: its instructions, or the bytes of its old range. -/
def reencode (oldBlob : List UInt8) (f : FunctionDescriptor) (blob : List UInt8) :
    FunctionDescriptor × List UInt8 :=
  let newOff := UInt32.ofNat blob.length
  match f.instructions with
  | some instrs =>
    let bytes := encodeInstructionsWithFixup instrs
    ({ f with bytecodeOffset := newOff, bytecodeLength := UInt32.ofNat bytes.length }, blob ++ bytes)
  | none =>
    if 0 < f.bytecodeLength then
      let s := f.bytecodeOffset.toNat
      let e := s + f.bytecodeLength.toNat
      if e ≤ oldBlob.length then
        ({ f with bytecodeOffset := newOff }, blob ++ (oldBlob.drop s).take (e - s))
      else ({ f with bytecodeOffset := newOff, bytecodeLength := 0 }, blob)
    else (f, blob)

end FunctionDescriptor

/-- The new extents and register counts of concrete bodies by old extent; an ambiguous one has none. -/
abbrev Rebased : Type := UInt32 × UInt32 → Option (Option (UInt32 × UInt32 × UInt16))

def recordExtent (rebased : Rebased) (old new : FunctionDescriptor) : Rebased :=
  if new.typeParams = [] ∧ 0 < old.bytecodeLength then
    Function.update rebased old.extent (some (match rebased old.extent with
      | none =>
        if 0 < new.bytecodeLength then some (new.bytecodeOffset, new.bytecodeLength, new.registerCount) else none
      | some _ => none))
  else rebased

def reencodeFunctions (oldBlob : List UInt8) : List FunctionDescriptor → List UInt8 → Rebased →
    List FunctionDescriptor × List UInt8 × Rebased
  | [], blob, rebased => ([], blob, rebased)
  | f :: functions, blob, rebased =>
    let (new, blob) := f.reencode oldBlob blob
    let (functions, blob, rebased) := reencodeFunctions oldBlob functions blob (recordExtent rebased f new)
    (new :: functions, blob, rebased)

/-- Move a receipt with the body of its extent; one without such a body is dropped. -/
def rebaseReceipt (rebased : Rebased) (receipt : SpecializationEntry) : Option SpecializationEntry :=
  match rebased (receipt.bytecodeOffset, receipt.bytecodeLength) with
  | some (some (offset, length, registers)) =>
    some { receipt with bytecodeOffset := offset, bytecodeLength := length, registerCount := registers }
  | _ => none

/-- Rebuild the blob from the instructions and move the descriptors and receipts along. -/
def reencodeBytecode (output : MergedModule) : MergedModule :=
  let (functions, blob, rebased) := reencodeFunctions output.bytecode output.functions [] fun _ => none
  { functions
    specializations := output.specializations.filterMap (rebaseReceipt rebased)
    bytecode := blob }

namespace MergedModule

def range (m : MergedModule) (f : FunctionDescriptor) : List UInt8 :=
  (m.bytecode.drop f.bytecodeOffset.toNat).take f.bytecodeLength.toNat

end MergedModule

def FunctionDescriptor.stop (f : FunctionDescriptor) : Nat := f.bytecodeOffset.toNat + f.bytecodeLength.toNat

/-- The bytes decode, with jump offsets converted to index form, to the instructions. -/
def DecodesTo (bytes : List UInt8) (instrs : List Instruction) : Prop :=
  ∃ (data : Slice) (decoded : List Instruction) (after : Nat), data.bytes = bytes ∧
    decodeInstructions data = .ok decoded after ∧ jumpOffsetsToInstrIndices decoded = instrs

/-- A retained receipt follows the one function that had its extent, and no other has the new one. -/
def Follows (old new : MergedModule) (receipt receipt' : SpecializationEntry) : Prop :=
  ∃ (i : Nat) (f f' : FunctionDescriptor), old.functions[i]? = some f ∧ new.functions[i]? = some f' ∧
    f.extent = (receipt.bytecodeOffset, receipt.bytecodeLength) ∧
    receipt' = { receipt with
      bytecodeOffset := f'.bytecodeOffset
      bytecodeLength := f'.bytecodeLength
      registerCount := f'.registerCount } ∧
    ∀ (j : Nat) (g : FunctionDescriptor), new.functions[j]? = some g → g.extent = f'.extent → j = i

structure Coherent (old new : MergedModule) : Prop where
  decodes : ∀ f ∈ new.functions, ∀ instrs, f.instructions = some instrs → DecodesTo (new.range f) instrs
  disjoint : ∀ (i j : Nat) (f g : FunctionDescriptor), new.functions[i]? = some f → new.functions[j]? = some g → i ≠ j →
    0 < f.bytecodeLength → 0 < g.bytecodeLength →
    f.stop ≤ g.bytecodeOffset.toNat ∨ g.stop ≤ f.bytecodeOffset.toNat
  inside : ∀ f ∈ new.functions, 0 < f.bytecodeLength → f.stop ≤ new.bytecode.length
  receipts : ∃ kept, kept.Sublist old.specializations ∧ List.Forall₂ (Follows old new) kept new.specializations

def FunctionDescriptor.body (oldBlob : List UInt8) (f : FunctionDescriptor) : List UInt8 :=
  match f.instructions with
  | some instrs => encodeInstructionsWithFixup instrs
  | none => if f.stop ≤ oldBlob.length then (oldBlob.drop f.bytecodeOffset.toNat).take f.bytecodeLength.toNat else []

namespace MergedModule

def bodyStart (m : MergedModule) (i : Nat) : Nat := ((m.functions.take i).flatMap (·.body m.bytecode)).length

def SmallBodies (m : MergedModule) : Prop := ∀ f ∈ m.functions, (f.body m.bytecode).length < 2 ^ 32

def BodiesRestored (m : MergedModule) : Prop :=
  ∀ f ∈ m.functions, ∀ instrs, f.instructions = some instrs → DecodesTo (encodeInstructionsWithFixup instrs) instrs

/-- Every body that is not empty starts below 4 GiB. -/
def StartsFit (m : MergedModule) : Prop :=
  ∀ (i : Nat) (f : FunctionDescriptor), m.functions[i]? = some f → f.body m.bytecode ≠ [] → m.bodyStart i < 2 ^ 32

end MergedModule

section Layout

variable {oldBlob blob : List UInt8} {f : FunctionDescriptor}

theorem reencode_blob : (f.reencode oldBlob blob).2 = blob ++ f.body oldBlob := by
  unfold FunctionDescriptor.reencode FunctionDescriptor.body FunctionDescriptor.stop
  cases f.instructions with
  | some instrs => rfl
  | none =>
    dsimp only
    by_cases empty : 0 < f.bytecodeLength
    · rw [if_pos empty]
      split
      · rw [Nat.add_sub_cancel_left]
      · rw [append_nil]
    · have zero : f.bytecodeLength.toNat = 0 := by
        rw [lt_iff_toNat_lt] at empty
        exact Nat.eq_zero_of_not_pos empty
      rw [if_neg empty, zero]
      simp

theorem reencode_length :
    (f.reencode oldBlob blob).1.bytecodeLength = UInt32.ofNat (f.body oldBlob).length := by
  unfold FunctionDescriptor.reencode FunctionDescriptor.body FunctionDescriptor.stop
  cases f.instructions with
  | some instrs => rfl
  | none =>
    dsimp only
    by_cases empty : 0 < f.bytecodeLength
    · rw [if_pos empty]
      split
      · rename_i hf
        rw [length_take, length_drop, Nat.min_eq_left (by omega), UInt32.ofNat_toNat]
      · rfl
    · have zero : f.bytecodeLength = 0 := by
        rw [lt_iff_toNat_lt] at empty
        exact UInt32.toNat_inj.mp (Nat.eq_zero_of_not_pos empty)
      rw [if_neg empty, zero]
      simp

theorem reencode_offset (held : f.body oldBlob ≠ []) :
    (f.reencode oldBlob blob).1.bytecodeOffset = UInt32.ofNat blob.length := by
  unfold FunctionDescriptor.reencode
  unfold FunctionDescriptor.body at held
  cases instructions : f.instructions with
  | some instrs => rfl
  | none =>
    rw [instructions] at held
    dsimp only at held ⊢
    by_cases empty : 0 < f.bytecodeLength
    · rw [if_pos empty]
      split <;> rfl
    · have zero : f.bytecodeLength.toNat = 0 := by
        rw [lt_iff_toNat_lt] at empty
        exact Nat.eq_zero_of_not_pos empty
      rw [zero] at held
      simp at held

theorem reencode_instructions : (f.reencode oldBlob blob).1.instructions = f.instructions := by
  unfold FunctionDescriptor.reencode
  dsimp only
  split
  · rfl
  · split
    · split <;> rfl
    · rfl

end Layout

section Pass

variable {oldBlob blob : List UInt8} {functions : List FunctionDescriptor} {rebased : Rebased} {i : Nat}
  {f : FunctionDescriptor}

theorem reencodeFunctions_cons : reencodeFunctions oldBlob (f :: functions) blob rebased =
    ((f.reencode oldBlob blob).1 :: (reencodeFunctions oldBlob functions (blob ++ f.body oldBlob)
        (recordExtent rebased f (f.reencode oldBlob blob).1)).1,
      (reencodeFunctions oldBlob functions (blob ++ f.body oldBlob)
        (recordExtent rebased f (f.reencode oldBlob blob).1)).2) := by
  rw [← @reencode_blob oldBlob blob f]
  rfl

theorem reencodeFunctions_blob :
    (reencodeFunctions oldBlob functions blob rebased).2.1 = blob ++ functions.flatMap (·.body oldBlob) := by
  induction functions generalizing blob rebased with
  | nil => exact (append_nil blob).symm
  | cons f functions ih => rw [reencodeFunctions_cons, ih, flatMap_cons, append_assoc]

theorem reencodeFunctions_getElem? : (reencodeFunctions oldBlob functions blob rebased).1[i]? =
    functions[i]?.map fun f =>
      (f.reencode oldBlob (blob ++ (functions.take i).flatMap (·.body oldBlob))).1 := by
  induction functions generalizing blob rebased i with
  | nil => rfl
  | cons f functions ih =>
    rw [reencodeFunctions_cons]
    cases i with
    | zero => rw [take_zero, flatMap_nil, append_nil]; rfl
    | succ i =>
      rw [List.getElem?_cons_succ, List.getElem?_cons_succ, ih, take_succ_cons, flatMap_cons,
        append_assoc]

/-- An extent that has a new one is that of a function whose new one it is. -/
def Records (functions functions' : List FunctionDescriptor) (old : UInt32 × UInt32)
    (entry : UInt32 × UInt32 × UInt16) : Prop :=
  ∃ (i : Nat) (f f' : FunctionDescriptor), functions[i]? = some f ∧ functions'[i]? = some f' ∧ f.extent = old ∧
    0 < f'.bytecodeLength ∧ entry = (f'.bytecodeOffset, f'.bytecodeLength, f'.registerCount)

theorem recordExtent_eq_some {new : FunctionDescriptor} {old : UInt32 × UInt32} {e : UInt32 × UInt32 × UInt16}
    (hit : recordExtent rebased f new old = some (some e)) :
    rebased old = some (some e) ∨ f.extent = old ∧ 0 < new.bytecodeLength ∧
      e = (new.bytecodeOffset, new.bytecodeLength, new.registerCount) := by
  unfold recordExtent at hit
  split at hit
  · by_cases eq : old = f.extent
    · subst eq
      rw [Function.update_self] at hit
      right
      cases pre : rebased f.extent with
      | some _ =>
        rw [pre] at hit
        cases hit
      | none =>
        rw [pre] at hit
        dsimp only at hit
        split at hit
        · rename_i pos
          cases hit
          exact ⟨rfl, pos, rfl⟩
        · cases hit
    · rw [Function.update_of_ne eq] at hit
      exact .inl hit
  · exact .inl hit

theorem reencodeFunctions_rebased {old : UInt32 × UInt32} {e : UInt32 × UInt32 × UInt16}
    (hit : (reencodeFunctions oldBlob functions blob rebased).2.2 old = some (some e)) :
    rebased old = some (some e) ∨
      Records functions (reencodeFunctions oldBlob functions blob rebased).1 old e := by
  induction functions generalizing blob rebased with
  | nil => exact .inl hit
  | cons f functions ih =>
    rw [reencodeFunctions_cons] at hit ⊢
    rcases ih hit with pre | ⟨i, g, g', isOld, isNew, eq, pos, ie⟩
    · rcases recordExtent_eq_some pre with pre | ⟨eq, pos, ie⟩
      · exact .inl pre
      · exact .inr ⟨0, f, _, rfl, rfl, eq, pos, ie⟩
    · exact .inr ⟨i + 1, g, g', isOld, isNew, eq, pos, ie⟩

end Pass

theorem filterMap_follows {α : Type} {relation : α → α → Prop} {move : α → Option α} {xs : List α}
    (follows : ∀ item item', move item = some item' → relation item item') :
    ∃ kept : List α, kept.Sublist xs ∧ List.Forall₂ relation kept (xs.filterMap move) := by
  induction xs with
  | nil => exact ⟨[], .slnil, .nil⟩
  | cons item xs ih =>
    rcases ih with ⟨kept, sublist, related⟩
    cases moved : move item with
    | none =>
      rw [filterMap_cons_none moved]
      exact ⟨kept, sublist.cons item, related⟩
    | some item' =>
      rw [filterMap_cons_some moved]
      exact ⟨item :: kept, sublist.cons_cons item, .cons (follows item item' moved) related⟩

section Whole

variable {m : MergedModule} {i j : Nat} {f f' g g' : FunctionDescriptor}

theorem reencodeBytecode_getElem? : (reencodeBytecode m).functions[i]? = m.functions[i]?.map fun f =>
    (f.reencode m.bytecode ((m.functions.take i).flatMap (·.body m.bytecode))).1 := reencodeFunctions_getElem?

theorem reencodeBytecode_bytecode :
    (reencodeBytecode m).bytecode = m.functions.flatMap (·.body m.bytecode) := reencodeFunctions_blob

/-- How a function was re-encoded: its recorded length and start are cut to 32 bits. -/
structure Placed (m : MergedModule) (i : Nat) (f f' : FunctionDescriptor) : Prop where
  old : m.functions[i]? = some f
  new : (reencodeBytecode m).functions[i]? = some f'
  length : f'.bytecodeLength.toNat = (f.body m.bytecode).length % 2 ^ 32
  offset : f.body m.bytecode ≠ [] → f'.bytecodeOffset.toNat = m.bodyStart i % 2 ^ 32
  instructions : f'.instructions = f.instructions

theorem placed_of_old (hit : m.functions[i]? = some f) : ∃ f', Placed m i f f' := by
  have new := @reencodeBytecode_getElem? m i
  rw [hit, Option.map_some] at new
  refine ⟨_, hit, new, ?_, ?_, reencode_instructions⟩
  · rw [reencode_length, toNat_ofNat']
  · intro held
    rw [reencode_offset held, toNat_ofNat']
    rfl

theorem placed_of_new (hit : (reencodeBytecode m).functions[i]? = some f') : ∃ f, Placed m i f f' := by
  have new := hit
  rw [reencodeBytecode_getElem?] at new
  rcases Option.map_eq_some_iff.mp new with ⟨f, old, -⟩
  rcases placed_of_old old with ⟨g, placed⟩
  have eq := placed.new.symm.trans hit
  cases eq
  exact ⟨f, placed⟩

theorem bodyStart_succ (hit : m.functions[i]? = some f) :
    m.bodyStart (i + 1) = m.bodyStart i + (f.body m.bytecode).length := by
  rcases List.getElem?_eq_some_iff.mp hit with ⟨hin, rfl⟩
  unfold MergedModule.bodyStart
  rw [take_succ_eq_append_getElem hin, flatMap_append, length_append, flatMap_singleton]

theorem bodyStart_mono (le : i ≤ j) : m.bodyStart i ≤ m.bodyStart j := by
  induction le with
  | refl => exact Nat.le_refl _
  | @step j _ ih =>
    cases hit : m.functions[j]? with
    | some f =>
      rw [bodyStart_succ hit]
      omega
    | none =>
      have beyond := List.getElem?_eq_none_iff.mp hit
      have eq : m.functions.take (j + 1) = m.functions.take j := by
        rw [take_of_length_le beyond, take_of_length_le (Nat.le_succ_of_le beyond)]
      unfold MergedModule.bodyStart at ih ⊢
      rwa [eq]

theorem drop_bodyStart (hit : m.functions[i]? = some f) :
    ((reencodeBytecode m).bytecode.drop (m.bodyStart i)).take (f.body m.bytecode).length = f.body m.bytecode ∧
      m.bodyStart i + (f.body m.bytecode).length ≤ (reencodeBytecode m).bytecode.length := by
  rcases List.getElem?_eq_some_iff.mp hit with ⟨hin, eq⟩
  have split : (reencodeBytecode m).bytecode = (m.functions.take i).flatMap (·.body m.bytecode) ++
      (f.body m.bytecode ++ (m.functions.drop (i + 1)).flatMap (·.body m.bytecode)) := by
    rw [reencodeBytecode_bytecode]
    conv_lhs => rw [← take_append_drop i m.functions]
    rw [flatMap_append, drop_eq_getElem_cons hin, flatMap_cons, eq]
  constructor
  · unfold MergedModule.bodyStart
    rw [split, drop_left, take_left]
  · unfold MergedModule.bodyStart
    rw [split, length_append, length_append]
    omega

theorem exists_body_at {place : Nat} (hlt : place < m.bodyStart i) : ∃ (j : Nat) (g : FunctionDescriptor),
    m.functions[j]? = some g ∧ m.bodyStart j ≤ place ∧ place < m.bodyStart j + (g.body m.bytecode).length := by
  induction i with
  | zero => cases hlt
  | succ i ih =>
    by_cases earlier : place < m.bodyStart i
    · exact ih earlier
    · cases hit : m.functions[i]? with
      | some g => exact ⟨i, g, hit, Nat.le_of_not_lt earlier, bodyStart_succ hit ▸ hlt⟩
      | none =>
        have beyond := List.getElem?_eq_none_iff.mp hit
        have eq : m.functions.take (i + 1) = m.functions.take i := by
          rw [take_of_length_le beyond, take_of_length_le (Nat.le_succ_of_le beyond)]
        unfold MergedModule.bodyStart at hlt earlier
        rw [eq] at hlt
        exact absurd hlt earlier

theorem Placed.offset_eq (fit : m.StartsFit) (placed : Placed m i f f') (held : f.body m.bytecode ≠ []) :
    f'.bytecodeOffset.toNat = m.bodyStart i := by
  rw [placed.offset held, Nat.mod_eq_of_lt (fit i f placed.old held)]

section Small

variable (small : m.SmallBodies)

include small

theorem Placed.length_eq (placed : Placed m i f f') : f'.bytecodeLength.toNat = (f.body m.bytecode).length := by
  rw [placed.length, Nat.mod_eq_of_lt (small f (mem_of_getElem? placed.old))]

theorem Placed.held (placed : Placed m i f f') (pos : 0 < f'.bytecodeLength) : f.body m.bytecode ≠ [] := by
  intro empty
  have length := placed.length_eq small
  rw [lt_iff_toNat_lt, length, empty] at pos
  exact Nat.lt_irrefl 0 pos

theorem startsFit_of_disjoint (coherent : Coherent m (reencodeBytecode m)) : m.StartsFit := by
  intro i f hit held
  apply Nat.lt_of_not_le
  intro beyond
  have cut : m.bodyStart i % 2 ^ 32 < 2 ^ 32 := Nat.mod_lt _ (by decide)
  rcases exists_body_at (Nat.lt_of_lt_of_le cut beyond) with ⟨j, g, foundJ, low, high⟩
  have heldJ : g.body m.bytecode ≠ [] := by
    intro empty
    rw [empty] at high
    exact absurd (Nat.lt_of_le_of_lt low high) (Nat.lt_irrefl _)
  rcases placed_of_old hit with ⟨f', placed⟩
  rcases placed_of_old foundJ with ⟨g', placedJ⟩
  have different : i ≠ j := by
    rintro rfl
    omega
  have length := placed.length_eq small
  have lengthJ := placedJ.length_eq small
  have pos := length_pos_iff.mpr held
  have positiveJ := length_pos_iff.mpr heldJ
  have off := placed.offset held
  have offsetJ := placedJ.offset heldJ
  rw [Nat.mod_eq_of_lt (Nat.lt_of_le_of_lt low cut)] at offsetJ
  have ne := coherent.disjoint i j f' g' placed.new placedJ.new different
    (lt_iff_toNat_lt.mpr (length ▸ pos)) (lt_iff_toNat_lt.mpr (lengthJ ▸ positiveJ))
  unfold FunctionDescriptor.stop at ne
  omega

variable (fit : m.StartsFit)

include fit

theorem Placed.range_eq (placed : Placed m i f f') : (reencodeBytecode m).range f' = f.body m.bytecode := by
  unfold MergedModule.range
  rw [placed.length_eq small]
  by_cases held : f.body m.bytecode = []
  · rw [held]
    rfl
  · rw [placed.offset_eq fit held]
    exact (drop_bodyStart placed.old).1

theorem ranges_ordered (placed : Placed m i f f') (placedJ : Placed m j g g') (pre : i < j)
    (pos : 0 < f'.bytecodeLength) (positiveJ : 0 < g'.bytecodeLength) :
    f'.stop ≤ g'.bytecodeOffset.toNat := by
  unfold FunctionDescriptor.stop
  rw [placed.offset_eq fit (placed.held small pos), placed.length_eq small,
    placedJ.offset_eq fit (placedJ.held small positiveJ), ← bodyStart_succ placed.old]
  exact bodyStart_mono pre

theorem ranges_disjoint (placed : Placed m i f f') (placedJ : Placed m j g g') (different : i ≠ j)
    (pos : 0 < f'.bytecodeLength) (positiveJ : 0 < g'.bytecodeLength) :
    f'.stop ≤ g'.bytecodeOffset.toNat ∨ g'.stop ≤ f'.bytecodeOffset.toNat := by
  rcases Nat.lt_or_gt_of_ne different with pre | after
  · exact .inl (ranges_ordered small fit placed placedJ pre pos positiveJ)
  · exact .inr (ranges_ordered small fit placedJ placed after positiveJ pos)

theorem rebaseReceipt_follows {receipt receipt' : SpecializationEntry}
    (moved : rebaseReceipt (reencodeFunctions m.bytecode m.functions [] fun _ => none).2.2 receipt = some receipt') :
    Follows m (reencodeBytecode m) receipt receipt' := by
  unfold rebaseReceipt at moved
  split at moved
  · rename_i off length registers hit
    cases moved
    rcases reencodeFunctions_rebased hit with ha | ⟨i, f, f', old, new, extent, pos, e⟩
    · cases ha
    · cases e
      refine ⟨i, f, f', old, new, extent, rfl, ?_⟩
      intro j g newJ eq
      by_contra different
      rcases placed_of_new new with ⟨_, placed⟩
      rcases placed_of_new newJ with ⟨_, placedJ⟩
      have off : g.bytecodeOffset = f'.bytecodeOffset := congrArg Prod.fst eq
      have length : g.bytecodeLength = f'.bytecodeLength := congrArg Prod.snd eq
      have ne := ranges_disjoint small fit placed placedJ (Ne.symm different) pos (length ▸ pos)
      have pos := lt_iff_toNat_lt.mp pos
      unfold FunctionDescriptor.stop at ne
      rw [off, length] at ne
      rw [UInt32.toNat_zero] at pos
      omega
  · cases moved

theorem coherent_of_restored (restored : m.BodiesRestored) : Coherent m (reencodeBytecode m) where
  decodes := by
    intro f' mem instrs held
    rcases List.getElem?_of_mem mem with ⟨i, new⟩
    rcases placed_of_new new with ⟨f, placed⟩
    have heldOld := placed.instructions ▸ held
    rw [placed.range_eq small fit]
    unfold FunctionDescriptor.body
    rw [heldOld]
    exact restored f (mem_of_getElem? placed.old) instrs heldOld
  disjoint := by
    intro i j f g newI newJ different pos positiveJ
    rcases placed_of_new newI with ⟨_, placed⟩
    rcases placed_of_new newJ with ⟨_, placedJ⟩
    exact ranges_disjoint small fit placed placedJ different pos positiveJ
  inside := by
    intro f' mem pos
    rcases List.getElem?_of_mem mem with ⟨i, new⟩
    rcases placed_of_new new with ⟨f, placed⟩
    unfold FunctionDescriptor.stop
    rw [placed.offset_eq fit (placed.held small pos), placed.length_eq small]
    exact (drop_bodyStart placed.old).2
  receipts := filterMap_follows fun _ _ => rebaseReceipt_follows small fit

theorem restored_of_coherent (coherent : Coherent m (reencodeBytecode m)) : m.BodiesRestored := by
  intro f mem instrs held
  rcases List.getElem?_of_mem mem with ⟨i, old⟩
  rcases placed_of_old old with ⟨f', placed⟩
  have decodes := coherent.decodes f' (mem_of_getElem? placed.new) instrs (placed.instructions.trans held)
  rw [placed.range_eq small fit] at decodes
  unfold FunctionDescriptor.body at decodes
  rwa [held] at decodes

end Small

end Whole

section Restored

variable {instrs final : List Instruction} {instr original : Instruction}

theorem wireForm_setJumpOffset (off : Int32) (instr : Instruction) :
    WireForm (setJumpOffset off instr) ↔ WireForm instr := by
  cases instr <;> rfl

theorem fixupRounds_shape {rounds : Nat} {targets : List (Option Nat)} (eq : SameShape instrs final) :
    SameShape instrs (fixupRounds targets rounds final) := by
  induction rounds generalizing final with
  | zero => exact eq
  | succ rounds ih =>
    unfold fixupRounds
    split
    · exact ih (fixupRound_shape targets eq)
    · exact fixupRound_shape targets eq

theorem indexOffset_target {i : Nat} {off : Int32} (hin : 0 ≤ (i : Int) + off.toInt) :
    indexOffset i ((i : Int) + off.toInt).toNat = off := by
  unfold indexOffset
  have sum : Int32.ofNat ((i : Int) + off.toInt).toNat = Int32.ofNat i + off := by
    rw [← Int32.ofInt_eq_ofNat, ← Int32.ofInt_eq_ofNat, Int.toNat_of_nonneg hin, Int32.ofInt_add, Int32.ofInt_toInt]
  rw [sum]
  rw [Int32.add_comm, Int32.add_sub_cancel]

theorem decodesTo_of_lands (wire : ∀ instr ∈ instrs, WireForm instr) (hin : TargetsInside instrs)
    (hf : (encodeInstructionsWithFixup instrs).length < 2 ^ 63)
    (lands : JumpsLand instrs (fixupJumpOffsets instrs)) : DecodesTo (encodeInstructionsWithFixup instrs) instrs := by
  have shape : SameShape instrs (fixupJumpOffsets instrs) := fixupRounds_shape rfl
  refine ⟨⟨_, hf⟩, fixupJumpOffsets instrs, _, rfl, instruction_codec.1 _ _ ?_ rfl, ?_⟩
  · intro new mem
    rcases List.getElem?_of_mem mem with ⟨i, hit⟩
    have e := shape.getElem? i
    rw [hit] at e
    rcases Option.map_eq_some_iff.mp e.symm with ⟨original, origin, eq⟩
    rw [← wireForm_setJumpOffset 0, ← eq, wireForm_setJumpOffset]
    exact wire original (mem_of_getElem? origin)
  · apply ext_getElem?
    intro i
    have e := shape.getElem? i
    cases hit : (fixupJumpOffsets instrs)[i]? with
    | none =>
      rw [hit] at e
      unfold jumpOffsetsToInstrIndices
      dsimp only
      rw [List.getElem?_mapIdx, hit, Option.map_eq_none_iff.mp e.symm]
      rfl
    | some new =>
      rw [hit] at e
      rcases Option.map_eq_some_iff.mp e.symm with ⟨original, origin, eq⟩
      rw [jumpOffsetsToInstrIndices_getElem? hit, origin, Option.some_inj]
      cases jump : jumpOffset original with
      | none =>
        have plain : jumpOffset new = none := by
          rcases shape.get hit with ⟨other, origin', -, jumps⟩
          rw [origin] at origin'
          cases origin'
          rwa [jump, Option.isSome_none, Option.isSome_eq_false_iff, Option.isNone_iff_eq_none] at jumps
        rw [convertJump_plain plain]
        rw [setJumpOffset_none jump, setJumpOffset_none plain] at eq
        exact eq.symm
      | some off =>
        have hb := (List.getElem?_eq_some_iff.mp origin).1
        have held : off ∈ instrs[i]?.bind jumpOffset := by
          rw [origin]
          exact jump
        have hr := hin i hb off held
        rcases lands i hb off held with ⟨landed, stored, reached⟩
        rw [hit] at stored
        have length := shape.length
        have landsAt : LandsAt (byteOffsets (fixupJumpOffsets instrs)) i landed ((i : Int) + off.toInt).toNat := by
          refine ⟨_, _, byteOffsetsFrom_getElem? 0 (i + 1) _ (by omega), byteOffsetsFrom_getElem? 0 _ _ (by omega), ?_⟩
          rw [Nat.zero_add, Nat.zero_add]
          exact reached
        have sorted : (byteOffsets (fixupJumpOffsets instrs)).Pairwise (· < ·) := (byteOffsetsFrom_pairwise 0 _).1
        have converted := (convertJump_iff_converts sorted stored (byteOffsets_succ hit)).mpr (.inl ⟨_, landsAt, rfl⟩)
        rw [indexOffset_target hr.1] at converted
        rw [converted, ← setJumpOffset_setJumpOffset 0, ← eq, setJumpOffset_setJumpOffset, setJumpOffset_self jump]

end Restored

section Samples

def concrete (instrs : List Instruction) (bytecodeOffset bytecodeLength : UInt32) : FunctionDescriptor where
  typeParams := []
  instructions := some instrs
  bytecodeOffset := bytecodeOffset
  bytecodeLength := bytecodeLength
  registerCount := 1

/-- A function that must not run with a context of some type: its check is written in another form. -/
def negativeContext : MergedModule where
  functions := [concrete [.ctxCheckNegative 7 9] 0 0]
  specializations := []
  bytecode := []

def turn : List Instruction := [.nop, .jmp (-1)]

theorem turn_lands : JumpsLand turn (fixupJumpOffsets turn) := by
  intro idx hb off held
  match idx with
  | 0 | _ + 2 => cases held
  | 1 =>
    cases held
    exact ⟨-3, by decide +kernel, by decide +kernel⟩

theorem turn_decodesTo : DecodesTo (encodeInstructionsWithFixup turn) turn := by
  apply decodesTo_of_lands
  · intro instr mem
    rcases mem_cons.mp mem with rfl | mem
    · exact trivial
    · cases mem_singleton.mp mem
      exact trivial
  · decide
  · decide +kernel
  · exact turn_lands

def loopAndReceipt : MergedModule where
  functions := [concrete turn 0 0, concrete [.retV] 40 3]
  specializations := [⟨⟨4⟩, [], 0, 40, 3, 2⟩]
  bytecode := []

end Samples

end Mono
