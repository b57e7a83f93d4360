import Mathlib.Data.List.FinRange

namespace Sqlite

def readerSlotCount : Nat := 5

/-- `maxFrame` is 0 in an unused slot. -/
structure ReaderSlot where
  maxFrame : Int
  deriving DecidableEq

def emptySlot : ReaderSlot := ⟨0⟩

def slotFor (maxFrame : Int) : ReaderSlot := ⟨maxFrame⟩

def ReaderSlot.isActive (slot : ReaderSlot) : Bool := slot.maxFrame > 0

structure ReaderMarks where
  slots : Fin readerSlotCount → ReaderSlot

namespace ReaderMarks

def new : ReaderMarks := ⟨fun _ => emptySlot⟩

/-- The slots that are assigned to readers, which are all but the first. -/
def assignable : List (Fin readerSlotCount) := (List.finRange readerSlotCount).tail

variable (marks : ReaderMarks)

/-- A slot with the same frame is shared; otherwise the first inactive slot is taken. -/
def claim (maxFrame : Int) : ReaderMarks × Option (Fin readerSlotCount) :=
  match assignable.find? fun i => (marks.slots i).maxFrame = maxFrame with
  | some i => (marks, some i)
  | none =>
    match assignable.find? fun k => !(marks.slots k).isActive with
    | some k => (⟨Function.update marks.slots k (slotFor maxFrame)⟩, some k)
    | none => (marks, none)

def release (slotIdx : Int) : ReaderMarks × Bool :=
  if inside : 0 < slotIdx ∧ slotIdx < readerSlotCount then
    let slot : Fin readerSlotCount := ⟨slotIdx.toNat, by omega⟩
    if (marks.slots slot).isActive then (⟨Function.update marks.slots slot emptySlot⟩, true) else (marks, false)
  else (marks, false)

/-- The best frame after one more slot, which is negative before the first active one. -/
def lowest (best : Int) (i : Fin readerSlotCount) : Int :=
  if (marks.slots i).isActive ∧ (best < 0 ∨ (marks.slots i).maxFrame < best) then (marks.slots i).maxFrame else best

def checkpointLowWaterMark : Int :=
  let best := assignable.foldl marks.lowest (-1)
  if best < 0 then 0 else best

end ReaderMarks

/-- An unreleased claim of a reader. -/
structure Hold where
  slot : Fin readerSlotCount
  maxFrame : Int
  deriving DecidableEq

/-- The marks with the claims that are not yet released. -/
structure Readers where
  marks : ReaderMarks
  held : List Hold

/-- A reader claims a frame, or the reader of the unreleased claim `i` releases it. -/
inductive Action where
  | claim (maxFrame : Int) (positive : 0 < maxFrame)
  | release (i : Nat)

namespace Readers

def new : Readers := ⟨.new, []⟩

def step (readers : Readers) : Action → Readers
  | .claim maxFrame _ =>
    match readers.marks.claim maxFrame with
    | (marks, some slot) => ⟨marks, ⟨slot, maxFrame⟩ :: readers.held⟩
    | (marks, none) => ⟨marks, readers.held⟩
  | .release i =>
    match readers.held[i]? with
    | some hold => ⟨(readers.marks.release hold.slot).1, readers.held.eraseIdx i⟩
    | none => readers

def run (actions : List Action) : Readers := actions.foldl step new

/-- The low-water mark is positive and at most the frame of every unreleased claim, and claims at
different frames have different slots. -/
structure Protected (readers : Readers) : Prop where
  positive : readers.held ≠ [] → 0 < readers.marks.checkpointLowWaterMark
  low : ∀ hold ∈ readers.held, readers.marks.checkpointLowWaterMark ≤ hold.maxFrame
  apart : ∀ a ∈ readers.held, ∀ b ∈ readers.held, a.maxFrame ≠ b.maxFrame → a.slot ≠ b.slot

/-- The slot that is released is not shared with another reader. -/
def Safe (readers : Readers) : Action → Prop
  | .claim _ _ => True
  | .release i => ∀ hold ∈ readers.held[i]?, ∀ other ∈ readers.held.eraseIdx i, other.slot ≠ hold.slot

def SafeFrom (readers : Readers) : List Action → Prop
  | [] => True
  | action :: actions => readers.Safe action ∧ (readers.step action).SafeFrom actions

instance (readers : Readers) : (action : Action) → Decidable (readers.Safe action)
  | .claim _ _ => .isTrue trivial
  | .release i =>
    inferInstanceAs (Decidable (∀ hold ∈ readers.held[i]?, ∀ other ∈ readers.held.eraseIdx i, other.slot ≠ hold.slot))

instance decidableSafeFrom : (readers : Readers) → (actions : List Action) → Decidable (readers.SafeFrom actions)
  | _, [] => .isTrue trivial
  | readers, action :: actions =>
    have := decidableSafeFrom (readers.step action) actions
    inferInstanceAs (Decidable (readers.Safe action ∧ (readers.step action).SafeFrom actions))

def Marked (readers : Readers) : Prop :=
  ∀ hold ∈ readers.held, 0 < hold.maxFrame ∧ hold.slot ∈ ReaderMarks.assignable ∧
    (readers.marks.slots hold.slot).maxFrame = hold.maxFrame

end Readers

namespace ReaderMarks

variable {marks : ReaderMarks}

theorem isActive_iff {slot : ReaderSlot} : slot.isActive = true ↔ 0 < slot.maxFrame := decide_eq_true_iff

variable {best maxFrame : Int} {i slot : Fin readerSlotCount} {marks' : ReaderMarks}

theorem lowest_of_pos (pos : 0 < best) (i : Fin readerSlotCount) :
    0 < marks.lowest best i ∧ marks.lowest best i ≤ best := by
  unfold lowest
  split
  · next lower =>
    have active := isActive_iff.mp lower.1
    omega
  · omega

theorem lowest_of_active (nz : best ≠ 0) (active : 0 < (marks.slots i).maxFrame) :
    0 < marks.lowest best i ∧ marks.lowest best i ≤ (marks.slots i).maxFrame := by
  unfold lowest
  split
  · omega
  · next kept =>
    have notLower : ¬ (best < 0 ∨ (marks.slots i).maxFrame < best) := fun lower => kept ⟨isActive_iff.mpr active, lower⟩
    omega

theorem lowest_ne_zero (nz : best ≠ 0) (i : Fin readerSlotCount) : marks.lowest best i ≠ 0 := by
  unfold lowest
  split
  · next lower => exact (isActive_iff.mp lower.1).ne'
  · exact nz

theorem foldl_lowest (slots : List (Fin readerSlotCount)) (nz : best ≠ 0) :
    (0 < best → 0 < slots.foldl marks.lowest best ∧ slots.foldl marks.lowest best ≤ best) ∧
      ∀ i ∈ slots, 0 < (marks.slots i).maxFrame →
        0 < slots.foldl marks.lowest best ∧ slots.foldl marks.lowest best ≤ (marks.slots i).maxFrame := by
  induction slots generalizing best with
  | nil => exact ⟨fun pos => ⟨pos, le_refl _⟩, fun i mem => absurd mem List.not_mem_nil⟩
  | cons fst slots ih =>
    obtain ⟨falls, reaches⟩ := ih (lowest_ne_zero nz fst)
    rw [List.foldl_cons]
    constructor
    · intro pos
      have next : 0 < marks.lowest best fst ∧ marks.lowest best fst ≤ best := lowest_of_pos pos fst
      have hl := falls next.1
      omega
    · intro i mem active
      rcases List.mem_cons.mp mem with rfl | mem
      · have next := lowest_of_active nz active
        have hl := falls next.1
        omega
      · exact reaches i mem active

theorem checkpointLowWaterMark_of_active (mem : i ∈ assignable) (active : 0 < (marks.slots i).maxFrame) :
    0 < marks.checkpointLowWaterMark ∧ marks.checkpointLowWaterMark ≤ (marks.slots i).maxFrame := by
  have low : 0 < assignable.foldl marks.lowest (-1) ∧ assignable.foldl marks.lowest (-1) ≤ (marks.slots i).maxFrame :=
    (foldl_lowest assignable (by decide)).2 i mem active
  unfold checkpointLowWaterMark
  dsimp only
  rw [if_neg (by omega)]
  exact low

theorem claim_spec (claimed : marks.claim maxFrame = (marks', some slot)) :
    slot ∈ assignable ∧ (marks'.slots slot).maxFrame = maxFrame ∧
      ∀ i, 0 < (marks.slots i).maxFrame → marks'.slots i = marks.slots i := by
  unfold claim at claimed
  split at claimed
  · next i hit =>
    cases claimed
    have eq : (marks.slots slot).maxFrame = maxFrame := by simpa using List.find?_some hit
    exact ⟨List.mem_of_find?_eq_some hit, eq, fun _ _ => rfl⟩
  · split at claimed
    · next k hit =>
      cases claimed
      have inactive : (marks.slots slot).isActive = false := by simpa using List.find?_some hit
      refine ⟨List.mem_of_find?_eq_some hit, by simp [slotFor], fun i active => ?_⟩
      have ne : i ≠ slot := by
        intro eq
        rw [← eq, isActive_iff.mpr active] at inactive
        cases inactive
      exact Function.update_of_ne ne ..
    · cases claimed

theorem claim_none (refused : marks.claim maxFrame = (marks', none)) : marks' = marks := by
  unfold claim at refused
  split at refused
  · cases refused
  · split at refused
    · cases refused
    · cases refused
      rfl

theorem release_other (ne : i ≠ slot) : (marks.release slot).1.slots i = marks.slots i := by
  unfold release
  split
  · dsimp only
    split
    · apply Function.update_of_ne
      intro eq
      apply ne
      rw [eq]
      apply Fin.ext
      simp
    · rfl
  · rfl

end ReaderMarks

namespace Readers

variable {readers : Readers}

theorem Marked.protected (marked : readers.Marked) : readers.Protected := by
  have bounds (hold : Hold) (mem : hold ∈ readers.held) :
      0 < readers.marks.checkpointLowWaterMark ∧ readers.marks.checkpointLowWaterMark ≤ hold.maxFrame := by
    obtain ⟨pos, hr, isFrame⟩ := marked hold mem
    have low := ReaderMarks.checkpointLowWaterMark_of_active hr (isFrame ▸ pos)
    rwa [isFrame] at low
  refine ⟨?_, fun hold mem => (bounds hold mem).2, ?_⟩
  · intro ne
    obtain ⟨hold, mem⟩ := List.exists_mem_of_ne_nil _ ne
    exact (bounds hold mem).1
  · intro a memA b memB differ eq
    apply differ
    rw [← (marked a memA).2.2, ← (marked b memB).2.2, eq]

theorem Marked.step (marked : readers.Marked) {action : Action} (safe : readers.Safe action) :
    (readers.step action).Marked := by
  cases action with
  | claim maxFrame pos =>
    unfold Readers.step
    dsimp only
    split
    · next marks slot claimed =>
      obtain ⟨hr, isFrame, kept⟩ := ReaderMarks.claim_spec claimed
      intro hold mem
      rcases List.mem_cons.mp mem with rfl | mem
      · exact ⟨pos, hr, isFrame⟩
      · obtain ⟨holdPositive, holdInRange, holdFrame⟩ := marked hold mem
        refine ⟨holdPositive, holdInRange, ?_⟩
        rw [← holdFrame, kept hold.slot (holdFrame ▸ holdPositive)]
    · next marks refused =>
      rw [ReaderMarks.claim_none refused]
      exact marked
  | release i =>
    unfold Readers.step
    dsimp only
    split
    · next released hit =>
      intro hold mem
      obtain ⟨pos, hr, isFrame⟩ := marked hold (List.mem_of_mem_eraseIdx mem)
      refine ⟨pos, hr, ?_⟩
      rw [ReaderMarks.release_other (safe released hit hold mem), isFrame]
    · exact marked

variable {actions : List Action}

theorem Marked.foldl (marked : readers.Marked) (safe : readers.SafeFrom actions) :
    (actions.foldl Readers.step readers).Marked := by
  induction actions generalizing readers with
  | nil => exact marked
  | cons action actions ih => exact ih (marked.step safe.1) safe.2

theorem marked_new : new.Marked := fun _ mem => absurd mem List.not_mem_nil

theorem SafeFrom.of_prefix {pre : List Action} (safe : readers.SafeFrom actions)
    (isPrefix : pre <+: actions) : readers.SafeFrom pre := by
  induction pre generalizing readers actions with
  | nil => trivial
  | cons action pre ih =>
    obtain ⟨hl, rfl⟩ := isPrefix
    exact ⟨safe.1, ih safe.2 ⟨hl, rfl⟩⟩

/-- When no reader releases a slot that another reader still holds, every state of the run protects the
snapshots of its readers. -/
theorem run_protected (actions : List Action) (safe : new.SafeFrom actions) :
    ∀ before, before <+: actions → (run before).Protected := by
  intro before isPrefix
  exact (marked_new.foldl (safe.of_prefix isPrefix)).protected

/-- Readers at different frames come and leave, and a second reader joins frame 8. -/
def sampleActions : List Action :=
  [.claim 7 (by decide), .claim 9 (by decide), .release 0, .claim 8 (by decide), .release 1, .claim 8 (by decide)]

theorem run_protected_sample :
    new.SafeFrom sampleActions ∧ ∀ before, before <+: sampleActions → (run before).Protected := by
  have safe : new.SafeFrom sampleActions := by decide
  exact ⟨safe, run_protected sampleActions safe⟩

def sharedRelease : List Action := [.claim 7 (by decide), .claim 7 (by decide), .release 0]

theorem sharedRelease_not_protected : ¬ (run sharedRelease).Protected := by
  intro isProtected
  have lost : ¬ 0 < (run sharedRelease).marks.checkpointLowWaterMark := by decide
  exact lost (isProtected.positive (by decide))

end Readers

end Sqlite
