import Mathlib.Tactic.Ring
import Mathlib.Data.List.Perm.Basic

open List

namespace Interpreter

def objectMetaSize : Nat := 16

def defaultHeapSize : Nat := 16 * 1024 * 1024

def maxAllocationSize : Nat := 1024 * 1024 * 1024

/-- A pointer from the allocator: not null, with room for the metadata behind it. -/
structure Address where
  value : UInt64
  nonnull : value ≠ 0
  fits : value.toNat + objectMetaSize < 2 ^ 64
  deriving DecidableEq

def Address.dataPtr (address : Address) : UInt64 := address.value + 16

structure ObjectMeta where
  typeId : UInt32
  freed : Bool
  size : UInt32
  deriving DecidableEq

structure CbgrHeapStats where
  totalAllocs : Nat
  totalFrees : Nat
  totalBytes : Nat
  peakBytes : Nat
  deriving DecidableEq

structure CbgrHeap where
  objects : List Address
  allocated : Nat
  threshold : Nat
  stats : CbgrHeapStats
  deriving DecidableEq

structure OutOfMemory where
  requested : Nat
  available : Nat
  deriving DecidableEq

abbrev Metadata := Address → ObjectMeta

namespace CbgrHeap

def withThreshold (threshold : Nat) : CbgrHeap := ⟨[], 0, threshold, ⟨0, 0, 0, 0⟩⟩

def new : CbgrHeap := withThreshold defaultHeapSize

variable (heap : CbgrHeap) (metas : Metadata)

/-- `answer` is what the tracked allocator returns for the request. -/
def allocWithInit (typeId : UInt32) (size : Nat) (answer : Option Address) :
    CbgrHeap × Metadata × Except OutOfMemory Address :=
  if size > maxAllocationSize then (heap, metas, .error ⟨size, heap.threshold - heap.allocated⟩)
  else
    let totalSize := objectMetaSize + size
    let threshold :=
      if heap.allocated + totalSize > heap.threshold then max (heap.threshold * 2) (heap.allocated + totalSize)
      else heap.threshold
    match answer with
    | none => ({ heap with threshold := threshold }, metas, .error ⟨totalSize, threshold - heap.allocated⟩)
    | some ptr =>
      let allocated := heap.allocated + totalSize
      ({ objects := heap.objects ++ [ptr]
         allocated := allocated
         threshold := threshold
         stats := { heap.stats with
           totalAllocs := heap.stats.totalAllocs + 1
           totalBytes := heap.stats.totalBytes + size
           peakBytes := max heap.stats.peakBytes allocated } },
        Function.update metas ptr ⟨typeId, false, UInt32.ofNat size⟩, .ok ptr)

/-- The object is deallocated; `objects` is left as it is. -/
def free (obj : Address) : CbgrHeap × Metadata :=
  let totalSize := objectMetaSize + (metas obj).size.toNat
  ({ heap with
     allocated := heap.allocated - totalSize
     stats := { heap.stats with totalFrees := heap.stats.totalFrees + 1 } },
    Function.update metas obj { metas obj with freed := true })

def objectCount : Nat := heap.objects.length

/-- The heap after `clear` and the addresses that it deallocates. -/
def clear : CbgrHeap × List Address :=
  ({ heap with
     objects := []
     allocated := 0
     stats := { heap.stats with totalFrees := heap.stats.totalFrees + heap.objects.length } },
    heap.objects)

def getObject (dataPtr : UInt64) : Option Address :=
  if dataPtr = 0 then none
  else
    let metaPtr := dataPtr - 16
    if metaPtr = 0 then none else heap.objects.find? fun ptr => ptr.value = metaPtr

end CbgrHeap

theorem Address.dataPtr_toNat (address : Address) : address.dataPtr.toNat = address.value.toNat + 16 := by
  have hf := address.fits
  rw [objectMetaSize] at hf
  rw [Address.dataPtr, UInt64.toNat_add]
  exact Nat.mod_eq_of_lt hf

theorem getObject_isSome {heap : CbgrHeap} {dataPtr : UInt64} :
    (heap.getObject dataPtr).isSome = true ↔ ∃ ptr ∈ heap.objects, dataPtr = ptr.dataPtr := by
  unfold CbgrHeap.getObject
  dsimp only
  constructor
  · intro hit
    split at hit
    · cases hit
    · split at hit
      · cases hit
      · obtain ⟨ptr, mem, isPtr⟩ := List.find?_isSome.mp hit
        refine ⟨ptr, mem, ?_⟩
        rw [decide_eq_true_eq] at isPtr
        rw [Address.dataPtr, isPtr, UInt64.sub_add_cancel]
  · rintro ⟨ptr, mem, rfl⟩
    have isValue : ptr.dataPtr - 16 = ptr.value := by rw [Address.dataPtr, UInt64.add_sub_cancel]
    have nz : ptr.dataPtr ≠ 0 := by
      intro zero
      have bytes := ptr.dataPtr_toNat
      rw [zero] at bytes
      change 0 = _ at bytes
      omega
    rw [if_neg nz, isValue, if_neg ptr.nonnull, List.find?_isSome]
    exact ⟨ptr, mem, decide_eq_true rfl⟩

/-- The heap, the metadata in memory, and the objects that are neither freed nor cleared. -/
structure HeapRun where
  heap : CbgrHeap
  metas : Metadata
  live : List (Address × Nat)

inductive HeapAction where
  | alloc (typeId : UInt32) (size : Nat) (answer : Option Address)
  | free (obj : Address)
  | clear

namespace HeapRun

def new (metas : Metadata) : HeapRun := ⟨.new, metas, []⟩

def addresses (run : HeapRun) : List Address := run.live.map Prod.fst

def step (run : HeapRun) : HeapAction → HeapRun
  | .alloc typeId size answer =>
    match run.heap.allocWithInit run.metas typeId size answer with
    | (heap, metas, .ok ptr) => ⟨heap, metas, run.live ++ [(ptr, size)]⟩
    | (heap, metas, .error _) => ⟨heap, metas, run.live⟩
  | .free obj =>
    let (heap, metas) := run.heap.free run.metas obj
    ⟨heap, metas, run.live.filter fun object => object.1 ≠ obj⟩
  | .clear => ⟨run.heap.clear.1, run.metas, []⟩

/-- The allocator returns an address that is not in use, and only live objects are freed. -/
def Permits (run : HeapRun) : HeapAction → Prop
  | .alloc _ _ answer => ∀ ptr ∈ answer, ptr ∉ run.addresses
  | .free obj => obj ∈ run.addresses
  | .clear => True

def PermitsAll (run : HeapRun) : List HeapAction → Prop
  | [] => True
  | action :: actions => run.Permits action ∧ (run.step action).PermitsAll actions

/-- The heap tracks its live objects and nothing else. -/
structure Tracks (run : HeapRun) : Prop where
  once : run.addresses.Nodup
  objects : run.heap.objects.Perm run.addresses
  count : run.heap.objectCount = run.live.length
  allocated : run.heap.allocated = (run.live.map fun object => objectMetaSize + object.2).sum
  lookup : ∀ dataPtr, (run.heap.getObject dataPtr).isSome = true ↔ ∃ ptr ∈ run.addresses, dataPtr = ptr.dataPtr
  cleared : run.heap.clear.2.Perm run.addresses

/-- The live objects in the order of their allocation, as the heap keeps them while nothing is freed. -/
structure Records (run : HeapRun) : Prop where
  once : run.addresses.Nodup
  objects : run.heap.objects = run.addresses
  allocated : run.heap.allocated = (run.live.map fun object => objectMetaSize + object.2).sum

variable {run : HeapRun}

theorem Records.tracks (records : run.Records) : run.Tracks where
  once := records.once
  objects := by rw [records.objects]
  count := by
    rw [CbgrHeap.objectCount, records.objects]
    exact length_map ..
  allocated := records.allocated
  lookup dataPtr := by rw [getObject_isSome, records.objects]
  cleared := by
    change run.heap.objects.Perm run.addresses
    rw [records.objects]

theorem records_new (metas : Metadata) : (new metas).Records := ⟨nodup_nil, rfl, rfl⟩

theorem Records.alloc (records : run.Records) {typeId : UInt32} {size : Nat} {answer : Option Address}
    (permits : run.Permits (.alloc typeId size answer)) : (run.step (.alloc typeId size answer)).Records := by
  unfold step CbgrHeap.allocWithInit
  dsimp only
  by_cases large : size > maxAllocationSize
  · rw [if_pos large]
    exact ⟨records.once, records.objects, records.allocated⟩
  · rw [if_neg large]
    cases answer with
    | none => exact ⟨records.once, records.objects, records.allocated⟩
    | some ptr =>
      have hf : ptr ∉ run.addresses := permits ptr rfl
      have grown : (run.live ++ [(ptr, size)]).map Prod.fst = run.addresses ++ [ptr] := map_append ..
      refine ⟨?_, ?_, ?_⟩
      · change ((run.live ++ [(ptr, size)]).map Prod.fst).Nodup
        rw [grown]
        apply nodup_append.mpr
        refine ⟨records.once, by simp, ?_⟩
        intro other mem _ isPtr eq
        rw [mem_singleton.mp isPtr] at eq
        exact hf (eq ▸ mem)
      · change run.heap.objects ++ [ptr] = (run.live ++ [(ptr, size)]).map Prod.fst
        rw [grown, records.objects]
      · change run.heap.allocated + (objectMetaSize + size) = _
        rw [records.allocated, map_append, sum_append]
        simp

theorem Records.clear : (run.step .clear).Records := ⟨nodup_nil, rfl, rfl⟩

theorem Records.foldl (records : run.Records) {actions : List HeapAction} (permits : run.PermitsAll actions)
    (noFree : ∀ obj, .free obj ∉ actions) : (actions.foldl step run).Records := by
  induction actions generalizing run with
  | nil => exact records
  | cons action actions ih =>
    have hl : ∀ obj, HeapAction.free obj ∉ actions := fun obj mem => noFree obj (.tail _ mem)
    cases action with
    | alloc typeId size answer => exact ih (records.alloc permits.1) permits.2 hl
    | free obj => exact absurd (.head _) (noFree obj)
    | clear => exact ih Records.clear permits.2 hl

theorem Tracks.not_free (tracks : run.Tracks) {obj : Address} (permits : run.Permits (.free obj)) :
    ¬ (run.step (.free obj)).Tracks := by
  intro after
  have listed : obj ∈ run.heap.objects := tracks.objects.symm.subset permits
  have stillLive : obj ∈ (run.step (.free obj)).addresses := after.objects.subset listed
  obtain ⟨object, mem, isObj⟩ := mem_map.mp stillLive
  have differs := (mem_filter.mp mem).2
  rw [decide_eq_true_eq] at differs
  exact differs isObj

theorem PermitsAll.append {pre after : List HeapAction} (permits : run.PermitsAll (pre ++ after)) :
    run.PermitsAll pre ∧ (pre.foldl step run).PermitsAll after := by
  induction pre generalizing run with
  | nil => exact ⟨trivial, permits⟩
  | cons action pre ih =>
    obtain ⟨fst, hl⟩ := permits
    obtain ⟨inner, outer⟩ := ih hl
    exact ⟨⟨fst, inner⟩, outer⟩

/-- The heap tracks its live objects in every state of a run exactly when the run frees nothing. -/
theorem tracks_iff (metas : Metadata) (actions : List HeapAction) (permits : (new metas).PermitsAll actions) :
    (∀ before, before <+: actions → (before.foldl step (new metas)).Tracks) ↔ ∀ obj, .free obj ∉ actions := by
  constructor
  · intro tracks obj mem
    obtain ⟨before, after, rfl⟩ := append_of_mem mem
    have here := tracks before (prefix_append ..)
    have next := tracks (before ++ [.free obj]) (by simp)
    rw [foldl_append] at next
    exact here.not_free permits.append.2.1 next
  · rintro noFree before ⟨after, rfl⟩
    exact ((records_new metas).foldl permits.append.1
      fun obj mem => noFree obj (mem_append_left after mem)).tracks

def sampleAlloc : HeapAction := .alloc 7 8 (some ⟨4096, by decide, by decide⟩)

def blankMetas : Metadata := fun _ => ⟨0, false, 0⟩

theorem tracks_iff_reset :
    (new blankMetas).PermitsAll [sampleAlloc, .clear, sampleAlloc] ∧
      ∀ before, before <+: [sampleAlloc, .clear, sampleAlloc] → (before.foldl step (new blankMetas)).Tracks := by
  have permits : (new blankMetas).PermitsAll [sampleAlloc, .clear, sampleAlloc] := by
    refine ⟨?_, trivial, ?_, trivial⟩
    · exact fun _ _ => not_mem_nil
    · exact fun _ _ => not_mem_nil
  exact ⟨permits, (tracks_iff blankMetas _ permits).mpr (by simp [sampleAlloc])⟩

/-- The only object is freed, and the heap still counts it. -/
def freedAlloc : List HeapAction := [sampleAlloc, .free ⟨4096, by decide, by decide⟩]

theorem not_tracks_freed :
    (new blankMetas).PermitsAll freedAlloc ∧ ¬ (freedAlloc.foldl step (new blankMetas)).Tracks := by
  refine ⟨⟨fun _ _ => not_mem_nil, mem_singleton.mpr rfl, trivial⟩, ?_⟩
  intro tracks
  have counted := tracks.count
  revert counted
  decide

end HeapRun

end Interpreter
