import Verum.Vbc.Instruction
import Mathlib.Data.Finset.Card

namespace Vbc

structure StringId where
  id : UInt32
  deriving DecidableEq

/-- What naming and reachability read of a function. -/
structure FunctionEntry where
  id : FunctionId
  name : StringId
  parentType : Option TypeId
  instructions : Option (List Instruction)
  bytecodeLength : UInt32

inductive TypeKind where
  | primitive
  | record
  | sum
  | protocol
  | newtype
  | tuple
  | unit
  | array
  | tensor
  | alias
  deriving DecidableEq

structure ProtocolImpl where
  methods : List UInt32

structure TypeEntry where
  id : TypeId
  name : StringId
  kind : TypeKind
  dropFn : Option UInt32
  cloneFn : Option UInt32
  protocols : List ProtocolImpl

inductive Constant where
  | function (id : FunctionId)
  | other

structure VbcModule where
  strings : List (StringId × String)
  functions : List FunctionEntry
  externalFunctionNames : List (FunctionId × StringId)
  types : List TypeEntry
  constants : List Constant
  globalCtors : List (FunctionId × UInt32)
  globalDtors : List (FunctionId × UInt32)
  mountAliases : List (String × FunctionId × String)

def xmodCallIdBandBase : UInt32 := 0x2000_0000

def stubRangeWidth : UInt32 := 0x10_0000

def stubBases : List UInt32 :=
  [0xFFFF_FFFF - 0x40_0000, 0xFFFF_FFFF - 0xC0_0000, 0xFFFF_FFFF - 0x100_0000, 0xFFFF_FFFF - 0x140_0000,
    0xFFFF_FFFF - 0x180_0000]

def inBand (id base : UInt32) : Bool := id ≤ base && base - stubRangeWidth ≤ id

def isStubId (id : UInt32) : Bool := stubBases.any (inBand id)

def inXmodCallBand (id : UInt32) : Bool := xmodCallIdBandBase ≤ id && id < xmodCallIdBandBase + 0x800_0000

def xmodFreshBandBase : UInt32 := xmodCallIdBandBase + 0x1000_0000

def xmodFreshBandWidth : UInt32 := 0x0800_0000

def inXmodFreshBand (id : UInt32) : Bool := xmodFreshBandBase ≤ id && id < xmodFreshBandBase + xmodFreshBandWidth

def isXmodNameReference (id : UInt32) : Bool := inXmodCallBand id || inXmodFreshBand id

def segments (name : List Char) : List (List Char) := name.splitOn '.'

def lastSegment (name : List Char) : List Char := (segments name).getLastD []

def joined (segments : List (List Char)) : List Char := (segments.intersperse ['.']).flatten

def startsLower (segment : List Char) : Bool :=
  match segment with
  | [] => false
  | char :: _ => 'a' ≤ char && char ≤ 'z'

def stripSuffix (suffix name : List Char) : Option (List Char) :=
  if suffix.isSuffixOf name then some (name.take (name.length - suffix.length)) else none

def FunctionEntry.hasBody (entry : FunctionEntry) : Bool :=
  0 < entry.bytecodeLength || (match entry.instructions with
    | some instructions => !instructions.isEmpty
    | none => false)

namespace VbcModule

variable (m : VbcModule)

def getString (id : StringId) : Option String := (m.strings.find? (·.1 == id)).map (·.2)

def named : List (FunctionEntry × Nat × List Char) :=
  m.functions.zipIdx.filterMap fun (entry, slot) =>
    (m.getString entry.name).map fun name => (entry, slot, name.toList)

def firstBodied (candidates : List (FunctionEntry × Nat × List Char)) : Option FunctionId :=
  match candidates.find? (·.1.hasBody) with
  | some candidate => some ⟨UInt32.ofNat candidate.2.1⟩
  | none => candidates.head?.map fun candidate => ⟨UInt32.ofNat candidate.2.1⟩

def findFunctionByName (name : List Char) : Option FunctionId :=
  match firstBodied (m.named.filter (·.2.2 == name)) with
  | some id => some id
  | none =>
    if name.contains '.' then
      firstBodied (m.named.filter fun candidate =>
        lastSegment candidate.2.2 == lastSegment name && ('.' :: name).isSuffixOf candidate.2.2)
    else none

/-- Probe the name with its leading module segments removed one by one, keeping two. -/
def findStripped : List (List Char) → Option FunctionId
  | [] => none
  | segment :: rest =>
    if 2 ≤ rest.length && startsLower segment then
      match m.findFunctionByName (joined rest) with
      | some id => some id
      | none => findStripped rest
    else none

/-- How a candidate of the suffix scan ranks: bodied, few dots, under a module, then by its text. -/
structure Rank where
  bodiless : Bool
  dots : Nat
  underType : Bool
  key : List Char

def Rank.less (a b : Rank) : Bool :=
  if a.bodiless != b.bodiless then !a.bodiless
  else if a.dots != b.dots then a.dots < b.dots
  else if a.underType != b.underType then !a.underType
  else decide (a.key < b.key)

def parentIsModule (key : List Char) : Bool :=
  match (segments key).reverse with
  | _ :: parent :: _ => startsLower parent
  | _ => false

def findBySuffix (target : List Char) : Option FunctionId :=
  let candidates := m.named.filter fun candidate =>
    lastSegment candidate.2.2 == lastSegment target && (match stripSuffix target candidate.2.2 with
      | some front => front.isEmpty || front.getLast? == some '.'
      | none => false)
  let best := candidates.foldl (fun (best : Option (Rank × FunctionId)) (entry, _, key) =>
    if isStubId entry.id.id || key == target then best
    else
      let rank : Rank := ⟨!entry.hasBody, key.count '.', !parentIsModule key, key⟩
      match best with
      | none => some (rank, entry.id)
      | some (leader, id) => if rank.less leader then some (rank, entry.id) else some (leader, id)) none
  best.map (·.2)

def resolveFunctionByNameRanked (name : String) : Option FunctionId :=
  let text := name.toList
  match m.findFunctionByName text with
  | some id => some id
  | none =>
    if !text.contains '.' then none
    else
      match m.findStripped (segments text) with
      | some id => some id
      | none =>
        let stripped := text.drop 5
        let target := if "core.".toList.isPrefixOf text && stripped.contains '.' then stripped else text
        m.findBySuffix target

end VbcModule

structure Reachability where
  reachableIds : Finset UInt32
  reachableNames : Finset String
  calledMethodNames : Finset (List Char)
  reachableTypeIds : Finset UInt32

/-- What an instruction means for the walk. -/
inductive Effect where
  | call (funcId : UInt32)
  | construct (typeId : UInt32)
  | callMethod (methodId : UInt32)
  | none

/-- The function id of a callback, behind a register of one or two bytes. -/
def callbackTarget (operands : List UInt8) : Option UInt32 :=
  let cursor := match operands with
    | [] => 0
    | b0 :: _ => if b0 &&& 0x80 ≠ 0 then 2 else 1
  if cursor + 4 ≤ operands.length then some (UInt32.ofNat (fromLeBytes ((operands.drop cursor).take 4))) else none

def effect : Instruction → Effect
  | .call _ funcId _ => .call funcId
  | .tailCall funcId _ => .call funcId
  | .newClosure _ funcId _ _ _ => .call funcId
  | .callG _ funcId _ _ => .call funcId
  | .genCreate _ funcId _ => .call funcId
  | .spawn _ funcId _ => .call funcId
  | .new _ typeId _ => .construct typeId
  | .newG _ typeId _ => .construct typeId
  | .callM _ _ methodId _ => .callMethod methodId
  | .ffiExtended subOp operands =>
    if subOp = 0x50 then
      match callbackTarget operands with
      | some fnId => .call fnId
      | none => .none
    else .none
  | _ => .none

def beforeMono : List Char → List Char
  | [] => []
  | char :: rest => if "$mono$".toList.isPrefixOf (char :: rest) then [] else char :: beforeMono rest

def bareName (name : String) : List Char := beforeMono (lastSegment name.toList)

def methodName (name : String) : List Char :=
  (name.toList.splitOnP fun char => char == '.' || char == ':').getLastD []

def wellKnownNames : List String :=
  ["Int", "Float", "Bool", "Text", "Char", "List", "Map", "Set", "Deque", "BTreeMap", "BTreeSet", "BinaryHeap",
    "Maybe", "Result", "Heap", "Shared", "Channel", "Mutex", "Task", "Nursery", "Semaphore", "RwLock", "Barrier",
    "WaitGroup", "Once", "AtomicInt", "AtomicBool", "Duration", "Instant", "Never", "Ordering", "Range"]

def structuralNames : List String := ["Slice", "Array", "Tuple"]

abbrev Walk : Type := Reachability × List UInt32

def Walk.push (walk : Walk) (id : UInt32) : Walk :=
  if id ∈ walk.1.reachableIds then walk
  else ({ walk.1 with reachableIds := insert id walk.1.reachableIds }, walk.2 ++ [id])

namespace VbcModule

variable (m : VbcModule)

def functionById (id : UInt32) : Option FunctionEntry := m.functions.reverse.find? (·.id.id == id)

def typeById (id : UInt32) : Option TypeEntry := m.types.reverse.find? (·.id.id == id)

def externalName (id : UInt32) : Option String :=
  (m.externalFunctionNames.filterMap fun (fid, sid) => (m.getString sid).map (fid.id, ·)).reverse.find? (·.1 == id)
    |>.map (·.2)

def resolve (id : UInt32) : Option UInt32 :=
  if (m.functionById id).isSome then some id
  else if isXmodNameReference id || isStubId id then
    match m.externalName id with
    | some name => (m.resolveFunctionByNameRanked name).map (·.id)
    | none => none
  else none

def glue (entry : TypeEntry) : List UInt32 :=
  entry.dropFn.toList ++ entry.cloneFn.toList ++ entry.protocols.flatMap (·.methods)

def rootIds (extraRoots : List UInt32) : List UInt32 :=
  extraRoots ++ (m.globalCtors ++ m.globalDtors).map (·.1.id) ++
    m.constants.filterMap (fun
      | .function id => some id.id
      | .other => none) ++
    m.mountAliases.map (·.2.1.id)

def body (id : UInt32) : List Instruction :=
  match m.functionById id with
  | some entry => entry.instructions.getD []
  | none => []

def scan (walk : Walk) (instruction : Instruction) : Walk :=
  match effect instruction with
  | .call funcId =>
    match m.resolve funcId with
    | some rid => walk.push rid
    | none => walk
  | .construct typeId =>
    if typeId ∈ walk.1.reachableTypeIds then walk
    else
      let walk : Walk := ({ walk.1 with reachableTypeIds := insert typeId walk.1.reachableTypeIds }, walk.2)
      match m.typeById typeId with
      | some entry => (glue entry).foldl Walk.push walk
      | none => walk
  | .callMethod methodId =>
    match m.getString ⟨methodId⟩ with
    | some name =>
      ({ walk.1 with calledMethodNames := insert (methodName name) walk.1.calledMethodNames }, walk.2)
    | none => walk
  | .none => walk

def recordName (id : UInt32) (walk : Walk) : Walk :=
  match (m.functionById id).bind fun entry => m.getString entry.name with
  | some name => ({ walk.1 with reachableNames := insert name walk.1.reachableNames }, walk.2)
  | none => walk

def visit (id : UInt32) (walk : Walk) : Walk := (m.body id).foldl m.scan (m.recordName id walk)

def byBareName : List (List Char × List UInt32) :=
  let entries := m.functions.filterMap fun entry =>
    (m.getString entry.name).map fun name => (bareName name, entry.id.id)
  (entries.map (·.1)).dedup.map fun bare => (bare, (entries.filter (·.1 == bare)).map (·.2))

def candidatePossible (constructed : Finset UInt32) (id : UInt32) : Bool :=
  match m.functionById id with
  | none => true
  | some entry =>
    match entry.parentType with
    | none => true
    | some parent =>
      decide (parent.id ∈ constructed) ||
        (match m.typeById parent.id with
        | none => true
        | some type =>
          (match m.getString type.name with
          | some name => structuralNames.contains name
          | none => false) ||
          type.kind != .record ||
          (match m.getString type.name with
          | some name => wellKnownNames.contains name
          | none => true))

/-- The candidates of a round, in the order in which the buckets are met. -/
def candidates (buckets : List (List Char × List UInt32)) (out : Reachability) : List UInt32 :=
  (buckets.filter fun bucket => bucket.1 ∈ out.calledMethodNames).flatMap fun bucket =>
    bucket.2.filter fun id => decide (id ∉ out.reachableIds) && m.candidatePossible out.reachableTypeIds id

end VbcModule

/-- Nothing is queued that was not found, and what is found is queued once. -/
def Walk.Balanced (before after : Walk) : Prop :=
  before.1.reachableIds ⊆ after.1.reachableIds ∧
    after.2.length + before.1.reachableIds.card = before.2.length + after.1.reachableIds.card

namespace Walk.Balanced

variable {fst snd third : Walk}

theorem refl (walk : Walk) : walk.Balanced walk := ⟨Finset.Subset.refl _, rfl⟩

theorem trans (one : fst.Balanced snd) (two : snd.Balanced third) : fst.Balanced third := by
  refine ⟨one.1.trans two.1, ?_⟩
  have earlier := one.2
  have hl := two.2
  omega

end Walk.Balanced

theorem Walk.push_balanced (walk : Walk) (id : UInt32) : walk.Balanced (walk.push id) := by
  unfold Walk.push
  split
  · exact .refl walk
  · rename_i hf
    refine ⟨Finset.subset_insert .., ?_⟩
    rw [List.length_append, Finset.card_insert_of_notMem hf]
    exact Nat.add_right_comm ..

theorem Walk.foldl_push_balanced (ids : List UInt32) (walk : Walk) : walk.Balanced (ids.foldl Walk.push walk) := by
  induction ids generalizing walk with
  | nil => exact .refl walk
  | cons id ids ih => exact (walk.push_balanced id).trans (ih _)

namespace VbcModule

variable (m : VbcModule)

theorem scan_balanced (walk : Walk) (instr : Instruction) : walk.Balanced (m.scan walk instr) := by
  unfold scan
  cases effect instr with
  | call funcId =>
    dsimp only
    cases m.resolve funcId with
    | none => exact .refl walk
    | some rid => exact walk.push_balanced rid
  | construct typeId =>
    dsimp only
    split
    · exact .refl walk
    cases m.typeById typeId with
    | none => exact .refl walk
    | some e =>
      exact Walk.foldl_push_balanced (glue e)
        ({ walk.1 with reachableTypeIds := insert typeId walk.1.reachableTypeIds }, walk.2)
  | callMethod methodId =>
    dsimp only
    cases m.getString ⟨methodId⟩ with
    | none | some name => exact .refl walk
  | none => exact .refl walk

theorem foldl_scan_balanced (instrs : List Instruction) (walk : Walk) :
    walk.Balanced (instrs.foldl m.scan walk) := by
  induction instrs generalizing walk with
  | nil => exact .refl walk
  | cons instr instrs ih => exact (m.scan_balanced walk instr).trans (ih _)

theorem recordName_balanced (id : UInt32) (walk : Walk) : walk.Balanced (m.recordName id walk) := by
  unfold recordName
  split
  · exact .refl walk
  · exact .refl walk

theorem visit_balanced (id : UInt32) (walk : Walk) : walk.Balanced (m.visit id walk) :=
  (m.recordName_balanced id walk).trans (m.foldl_scan_balanced ..)

end VbcModule

theorem card_ids_le (ids : Finset UInt32) : ids.card ≤ 2 ^ 32 := by
  have hin : ∀ id ∈ ids, id.toNat ∈ Finset.range (2 ^ 32) := fun id _ => Finset.mem_range.mpr id.toNat_lt
  have hb := Finset.card_le_card_of_injOn UInt32.toNat hin fun a _ b _ eq => UInt32.toNat_inj.mp eq
  rwa [Finset.card_range] at hb

namespace VbcModule

variable (m : VbcModule)

def drain (walk : Walk) : Reachability :=
  match walk with
  | (out, []) => out
  | (out, id :: queue) => drain (m.visit id (out, queue))
termination_by 2 ^ 32 - walk.1.reachableIds.card + walk.2.length
decreasing_by
  have balance := (m.visit_balanced id (out, queue)).2
  have bound := card_ids_le (m.visit id (out, queue)).1.reachableIds
  have grows := Finset.card_le_card (m.visit_balanced id (out, queue)).1
  simp only [List.length_cons] at *
  omega

theorem subset_drain (walk : Walk) : walk.1.reachableIds ⊆ (m.drain walk).reachableIds := by
  induction walk using drain.induct (m := m) with
  | case1 out =>
    unfold drain
    exact Finset.Subset.refl _
  | case2 out id queue ih =>
    unfold drain
    exact (m.visit_balanced id (out, queue)).1.trans ih

theorem mem_candidates {buckets : List (List Char × List UInt32)} {out : Reachability} {id : UInt32} :
    id ∈ m.candidates buckets out ↔ (∃ bucket ∈ buckets, bucket.1 ∈ out.calledMethodNames ∧ id ∈ bucket.2) ∧
      id ∉ out.reachableIds ∧ m.candidatePossible out.reachableTypeIds id = true := by
  unfold candidates
  rw [List.mem_flatMap]
  constructor
  · rintro ⟨bucket, hin, kept⟩
    rcases List.mem_filter.mp hin with ⟨mem, called⟩
    rcases List.mem_filter.mp kept with ⟨listed, both⟩
    rw [Bool.and_eq_true, decide_eq_true_eq] at both
    exact ⟨⟨bucket, mem, of_decide_eq_true called, listed⟩, both⟩
  · rintro ⟨⟨bucket, mem, called, listed⟩, hf, possible⟩
    refine ⟨bucket, List.mem_filter.mpr ⟨mem, decide_eq_true called⟩, List.mem_filter.mpr ⟨listed, ?_⟩⟩
    rw [possible, decide_eq_true hf]
    rfl

def round (newly : List UInt32) (out : Reachability) : Reachability := m.drain (newly.foldl Walk.push (out, []))

theorem mem_push_self (walk : Walk) (id : UInt32) : id ∈ (walk.push id).1.reachableIds := by
  unfold Walk.push
  split
  · assumption
  · exact Finset.mem_insert_self ..

theorem mem_foldl_push {ids : List UInt32} (walk : Walk) {id : UInt32} (mem : id ∈ ids) :
    id ∈ (ids.foldl Walk.push walk).1.reachableIds := by
  induction ids generalizing walk with
  | nil => exact absurd mem List.not_mem_nil
  | cons head ids ih =>
    rcases List.mem_cons.mp mem with rfl | hl
    · exact (Walk.foldl_push_balanced ids (walk.push id)).1 (mem_push_self walk id)
    · exact ih _ hl

theorem subset_round (newly : List UInt32) (out : Reachability) :
    out.reachableIds ⊆ (m.round newly out).reachableIds :=
  (Walk.foldl_push_balanced newly (out, [])).1.trans (m.subset_drain _)

theorem mem_round {newly : List UInt32} (out : Reachability) {id : UInt32} (mem : id ∈ newly) :
    id ∈ (m.round newly out).reachableIds := m.subset_drain _ (mem_foldl_push (out, []) mem)

/-- Rounds of candidates until none is left. -/
def close (buckets : List (List Char × List UInt32)) (out : Reachability) : Reachability :=
  if m.candidates buckets out = [] then out
  else close buckets (m.round (m.candidates buckets out) out)
termination_by 2 ^ 32 - out.reachableIds.card
decreasing_by
  rename_i left
  rcases List.exists_mem_of_ne_nil _ left with ⟨id, member⟩
  have fresh := (m.mem_candidates.mp member).2.1
  have larger : out.reachableIds.card < (m.round (m.candidates buckets out) out).reachableIds.card :=
    Finset.card_lt_card ((Finset.ssubset_iff_of_subset (m.subset_round _ out)).mpr
      ⟨id, m.mem_round out member, fresh⟩)
  have bound := card_ids_le (m.round (m.candidates buckets out) out).reachableIds
  omega

/-- `buckets` are the functions of the bare names in the order of the map. -/
def analyzeWithRoots (buckets : List (List Char × List UInt32)) (extraRoots : List UInt32) : Reachability :=
  m.close buckets (m.drain ((m.rootIds extraRoots).foldl Walk.push (⟨∅, ∅, ∅, ∅⟩, [])))

end VbcModule

end Vbc
