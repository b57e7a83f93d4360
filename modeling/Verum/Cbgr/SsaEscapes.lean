import Verum.Cbgr.Ssa

namespace Cbgr

open Relation

/-- A function with the two sets that only clients of the builder fill. -/
structure SsaEscapes extends SsaFunction where
  closureCaptures : Finset UInt32
  threadEscapes : Finset UInt32

namespace SsaFunction

/-- The body that the four queries share: the value itself, or a phi that it flows into directly. -/
def escapesInto (ssa : SsaFunction) (escaped : Finset UInt32) (valueId : UInt32) : Bool :=
  if valueId ∈ escaped then true
  else decide (∃ block ∈ ssa.phiBlocks, ∃ phi ∈ ssa.phiNodes block,
    (∃ entry ∈ phi.incoming, entry.2 = valueId) ∧ phi.resultId ∈ escaped)

def hasHeapStore (ssa : SsaFunction) (valueId : UInt32) : Bool := ssa.escapesInto ssa.heapStores.toFinset valueId

/-- A phi node has the first value among those it takes and the second for its result. -/
def Flows (ssa : SsaFunction) (value result : UInt32) : Prop :=
  ∃ block ∈ ssa.phiBlocks, ∃ phi ∈ ssa.phiNodes block,
    (∃ entry ∈ phi.incoming, entry.2 = value) ∧ phi.resultId = result

/-- What the queries are for: a chain of phi nodes of any length. -/
def FlowsInto (ssa : SsaFunction) (escaped : Finset UInt32) (value : UInt32) : Prop :=
  ∃ last ∈ escaped, ReflTransGen ssa.Flows value last

/-- Two phi nodes in a row into the set are never needed. -/
def Shortcut (ssa : SsaFunction) (escaped : Finset UInt32) : Prop :=
  ∀ value middle last, ssa.Flows value middle → ssa.Flows middle last → last ∈ escaped →
    value ∈ escaped ∨ ∃ result ∈ escaped, ssa.Flows value result

variable {ssa : SsaFunction} {escaped : Finset UInt32} {value : UInt32}

theorem escapesInto_iff :
    ssa.escapesInto escaped value = true ↔ value ∈ escaped ∨ ∃ result ∈ escaped, ssa.Flows value result := by
  unfold escapesInto
  by_cases direct : value ∈ escaped
  · simp [direct]
  · rw [if_neg direct, decide_eq_true_iff, or_iff_right direct]
    constructor
    · rintro ⟨block, known, phi, member, takes, hin⟩
      exact ⟨phi.resultId, hin, block, known, phi, member, takes, rfl⟩
    · rintro ⟨_, hin, block, known, phi, member, takes, rfl⟩
      exact ⟨block, known, phi, member, takes, hin⟩

theorem FlowsInto.of_escapesInto (escapes : ssa.escapesInto escaped value = true) : ssa.FlowsInto escaped value := by
  rcases escapesInto_iff.mp escapes with direct | ⟨result, hin, flows⟩
  · exact ⟨value, direct, .refl⟩
  · exact ⟨result, hin, .single flows⟩

/-- A query sees every chain when no chain needs a second phi node, and only then. -/
theorem escapesInto_exact_iff :
    (∀ value, ssa.escapesInto escaped value = true ↔ ssa.FlowsInto escaped value) ↔ ssa.Shortcut escaped := by
  constructor
  · intro exact value middle last first snd hin
    exact escapesInto_iff.mp ((exact value).mpr ⟨last, hin, (ReflTransGen.single first).tail snd⟩)
  · refine fun short value => ⟨FlowsInto.of_escapesInto, ?_⟩
    rintro ⟨last, hin, chain⟩
    rw [escapesInto_iff]
    induction chain using ReflTransGen.head_induction_on with
    | refl => exact .inl hin
    | head flows _ ih =>
      rcases ih with direct | ⟨result, hin, onward⟩
      · exact .inr ⟨_, direct, flows⟩
      · exact short _ _ _ flows onward hin

end SsaFunction

instance (ssa : SsaFunction) (value result : UInt32) : Decidable (ssa.Flows value result) :=
  inferInstanceAs (Decidable (∃ block ∈ ssa.phiBlocks, ∃ phi ∈ ssa.phiNodes block, _ ∧ _))

namespace SsaEscapes

def escapesViaClosure (ssa : SsaEscapes) (valueId : UInt32) : Bool := ssa.escapesInto ssa.closureCaptures valueId

def escapesViaThread (ssa : SsaEscapes) (valueId : UInt32) : Bool := ssa.escapesInto ssa.threadEscapes valueId

structure SsaEscapeInfo where
  valueId : UInt32
  returns : Bool
  heapStored : Bool
  closureCaptured : Bool
  threadEscaped : Bool
  escapes : Bool

def analyzeEscape (ssa : SsaEscapes) (valueId : UInt32) : SsaEscapeInfo :=
  let returns := ssa.escapesViaReturn valueId
  let heapStored := ssa.hasHeapStore valueId
  let closureCaptured := ssa.escapesViaClosure valueId
  let threadEscaped := ssa.escapesViaThread valueId
  ⟨valueId, returns, heapStored, closureCaptured, threadEscaped,
    returns || heapStored || closureCaptured || threadEscaped⟩

/-- Every query and the summary follow the chains of phi nodes. -/
def FollowsPhis (ssa : SsaEscapes) (value : UInt32) : Prop :=
  (ssa.escapesViaReturn value = true ↔ ssa.FlowsInto ssa.returnValues value) ∧
  (ssa.hasHeapStore value = true ↔ ssa.FlowsInto ssa.heapStores.toFinset value) ∧
  (ssa.escapesViaClosure value = true ↔ ssa.FlowsInto ssa.closureCaptures value) ∧
  (ssa.escapesViaThread value = true ↔ ssa.FlowsInto ssa.threadEscapes value) ∧
  ((ssa.analyzeEscape value).escapes = true ↔
    ssa.FlowsInto ssa.returnValues value ∨ ssa.FlowsInto ssa.heapStores.toFinset value ∨
      ssa.FlowsInto ssa.closureCaptures value ∨ ssa.FlowsInto ssa.threadEscapes value)

/-- The queries follow phi chains of any length exactly where chains of one phi node are enough. -/
theorem followsPhis_iff (ssa : SsaEscapes) :
    (∀ value, ssa.FollowsPhis value) ↔
      ssa.Shortcut ssa.returnValues ∧ ssa.Shortcut ssa.heapStores.toFinset ∧ ssa.Shortcut ssa.closureCaptures ∧
        ssa.Shortcut ssa.threadEscapes := by
  simp only [← SsaFunction.escapesInto_exact_iff]
  constructor
  · intro follows
    exact ⟨fun value => (follows value).1, fun value => (follows value).2.1, fun value => (follows value).2.2.1,
      fun value => (follows value).2.2.2.1⟩
  · rintro ⟨returned, stored, captured, spawned⟩ value
    refine ⟨returned value, stored value, captured value, spawned value, ?_⟩
    rw [← returned value, ← stored value, ← captured value, ← spawned value, ← or_assoc, ← or_assoc]
    simp only [analyzeEscape, Bool.or_eq_true]
    rfl

/-- A value that a phi node in block 1 passes to a phi node in block 2, which is returned. -/
def passedTwice : SsaEscapes :=
  { SsaFunction.new with
    phiBlocks := {1, 2}
    phiNodes := fun block => if block = 1 then [⟨"ref_0", 1, [(0, 0)]⟩] else [⟨"ref_0", 2, [(1, 1)]⟩]
    returnValues := {2}
    closureCaptures := ∅
    threadEscapes := ∅ }

theorem passedTwice_unseen :
    passedTwice.FlowsInto passedTwice.returnValues 0 ∧ passedTwice.escapesViaReturn 0 = false ∧
      (passedTwice.analyzeEscape 0).escapes = false := by
  have first : passedTwice.Flows 0 1 := by decide
  have second : passedTwice.Flows 1 2 := by decide
  exact ⟨⟨2, by decide, (ReflTransGen.single first).tail second⟩, by decide, by decide⟩

end SsaEscapes

end Cbgr
