import Mathlib.Tactic.Ring

namespace Interpreter

def initialCapacity : Nat := 1024

def maxSize : Nat := 16 * 1024 * 1024

def genMax : UInt32 := 0xFFFFFFFE

def genInitial : UInt32 := 1

def genNoCheck : UInt32 := 0x7FFE

structure RegisterFile (Value : Type) where
  registers : List Value
  slotGenerations : List UInt32
  slotEpochs : List UInt16
  top : Nat
  globalEpoch : UInt64

namespace RegisterFile

variable {Value : Type}

def withCapacity (unit : Value) (capacity : Nat) : RegisterFile Value where
  registers := List.replicate capacity unit
  slotGenerations := List.replicate capacity genInitial
  slotEpochs := List.replicate capacity 0
  top := 0
  globalEpoch := 0

def new (unit : Value) : RegisterFile Value := withCapacity unit initialCapacity

def resize {α : Type} (items : List α) (size : Nat) (fill : α) : List α :=
  items.take size ++ List.replicate (size - items.length) fill

/-- Apply `update` to the slice `[first, last)`; a range outside of the list panics. -/
def updateSlice {α : Type} (items : List α) (first last : Nat) (update : α → α) : Option (List α) :=
  if first ≤ last ∧ last ≤ items.length then
    some (items.mapIdx fun index item => if first ≤ index ∧ index < last then update item else item)
  else none

def grow (unit : Value) (file : RegisterFile Value) (newTop : Nat) : RegisterFile Value :=
  if file.registers.length < newTop then
    let newSize := min (newTop * 2) maxSize
    { file with
      registers := resize file.registers newSize unit
      slotGenerations := resize file.slotGenerations newSize genInitial
      slotEpochs := resize file.slotEpochs newSize 0 }
  else file

/-- `none` is a panic; a request beyond `maxSize` is an error and leaves the file as it is. -/
def tryPushFrame (unit : Value) (file : RegisterFile Value) (count : UInt16) :
    Option (Except Nat (UInt32 × RegisterFile Value)) := do
  let base := file.top.toUInt32
  let newTop := file.top + count.toNat
  if maxSize < newTop then return .error newTop
  else
    let file := file.grow unit newTop
    let registers ← updateSlice file.registers file.top newTop fun _ => unit
    let slotGenerations ← updateSlice file.slotGenerations file.top newTop (· + 1)
    return .ok (base, { file with registers, slotGenerations, top := newTop })

def pushFrame (unit : Value) (file : RegisterFile Value) (count : UInt16) :
    Option (UInt32 × RegisterFile Value) := do
  match ← tryPushFrame unit file count with
  | .ok result => return result
  | .error _ => none

def popFrame (file : RegisterFile Value) (base : UInt32) : Option (RegisterFile Value) := do
  let slotGenerations ← updateSlice file.slotGenerations base.toNat file.top (· + 1)
  return { file with slotGenerations, top := base.toNat }

def bumpGeneration (file : RegisterFile Value) (absIndex : UInt32) : Option (RegisterFile Value) := do
  let index := absIndex.toNat
  let currentGen ← file.slotGenerations[index]?
  if genMax ≤ currentGen then
    let epoch ← file.slotEpochs[index]?
    return { file with
      slotEpochs := file.slotEpochs.set index (epoch + 1)
      slotGenerations := file.slotGenerations.set index genInitial
      globalEpoch := file.globalEpoch + 1 }
  else return { file with slotGenerations := file.slotGenerations.set index (currentGen + 1) }

def getGenerationEpoch (file : RegisterFile Value) (absIndex : UInt32) : Option (UInt32 × UInt16) := do
  let generation ← file.slotGenerations[absIndex.toNat]?
  let epoch ← file.slotEpochs[absIndex.toNat]?
  return (generation, epoch)

def validateRef (file : RegisterFile Value) (absIndex : UInt32) (refGen : UInt32) (refEpoch : UInt16) :
    Option Bool :=
  if refGen = genNoCheck then some true
  else if file.top ≤ absIndex.toNat then some false
  else do
    let (generation, epoch) ← file.getGenerationEpoch absIndex
    return generation = refGen && epoch = refEpoch

def clear (file : RegisterFile Value) : RegisterFile Value := { file with top := 0 }

inductive Op where
  | pushFrame (count : UInt16)
  | popFrame (base : UInt32)
  | bumpGeneration (absIndex : UInt32)
  | clear

def step (unit : Value) (file : RegisterFile Value) : Op → Option (RegisterFile Value)
  | .pushFrame count => (file.pushFrame unit count).map Prod.snd
  | .popFrame base => file.popFrame base
  | .bumpGeneration absIndex => file.bumpGeneration absIndex
  | .clear => some file.clear

def run (unit : Value) : RegisterFile Value → List Op → Option (RegisterFile Value)
  | file, [] => some file
  | file, op :: rest => do run unit (← file.step unit op) rest

end RegisterFile

end Interpreter

namespace Interpreter.RegisterFile

variable {Value : Type}

def Bumps (file : RegisterFile Value) (slot : UInt32) : Op → Prop
  | .pushFrame count => file.top ≤ slot.toNat ∧ slot.toNat < file.top + count.toNat
  | .popFrame base => base.toNat ≤ slot.toNat ∧ slot.toNat < file.top
  | .bumpGeneration absIndex => absIndex = slot
  | .clear => False

instance (file : RegisterFile Value) (slot : UInt32) (op : Op) : Decidable (file.Bumps slot op) :=
  match op with
  | .pushFrame count => inferInstanceAs (Decidable (file.top ≤ slot.toNat ∧ slot.toNat < file.top + count.toNat))
  | .popFrame base => inferInstanceAs (Decidable (base.toNat ≤ slot.toNat ∧ slot.toNat < file.top))
  | .bumpGeneration absIndex => inferInstanceAs (Decidable (absIndex = slot))
  | .clear => inferInstanceAs (Decidable False)

/-- The variable of the slot goes out of scope, by itself or with its frame. -/
def LeavesScope (file : RegisterFile Value) (slot : UInt32) : Op → Prop
  | .popFrame base => base.toNat ≤ slot.toNat ∧ slot.toNat < file.top
  | .bumpGeneration absIndex => absIndex = slot
  | .pushFrame _ | .clear => False

def bumpCount (unit : Value) (slot : UInt32) : RegisterFile Value → List Op → Nat
  | _, [] => 0
  | file, op :: rest =>
    (if file.Bumps slot op then 1 else 0) +
      match file.step unit op with
      | some next => bumpCount unit slot next rest
      | none => 0

def LeavesScopeIn (unit : Value) (slot : UInt32) : RegisterFile Value → List Op → Prop
  | _, [] => False
  | file, op :: rest => file.LeavesScope slot op ∨ ∃ next, file.step unit op = some next ∧
      LeavesScopeIn unit slot next rest

section Frames

variable {unit : Value} {file next : RegisterFile Value}

/-- The three tables are as long as each other and hold every live slot. -/
structure Valid (file : RegisterFile Value) : Prop where
  generations : file.slotGenerations.length = file.registers.length
  epochs : file.slotEpochs.length = file.registers.length
  top : file.top ≤ file.registers.length

theorem new_valid (unit : Value) : (new unit).Valid := by
  constructor <;> simp [new, withCapacity]

variable {α : Type} {items : List α} {first last : Nat}

theorem length_resize (items : List α) (size : Nat) (fill : α) : (resize items size fill).length = size := by
  simp only [resize, List.length_append, List.length_take, List.length_replicate]
  omega

theorem getElem?_resize {size idx : Nat} {fill item : α} (he : items.length ≤ size)
    (hit : items[idx]? = some item) : (resize items size fill)[idx]? = some item := by
  have hin := (List.getElem?_eq_some_iff.mp hit).1
  rw [resize, List.take_of_length_le he, List.getElem?_append_left hin]
  exact hit

theorem updateSlice_eq_some {updated : List α} {update : α → α}
    (done : updateSlice items first last update = some updated) :
    updated.length = items.length ∧ last ≤ items.length ∧ ∀ (idx : Nat) (item : α), items[idx]? = some item →
      updated[idx]? = some (if first ≤ idx ∧ idx < last then update item else item) := by
  rw [updateSlice] at done
  split at done
  · next hin =>
    cases done
    refine ⟨List.length_mapIdx, hin.2, ?_⟩
    intro idx item hit
    rw [List.getElem?_mapIdx, hit]
    rfl
  · cases done

theorem grow_valid (unit : Value) (valid : file.Valid) {newTop : Nat} (bounded : newTop ≤ maxSize) :
    (file.grow unit newTop).Valid ∧ (file.grow unit newTop).top = file.top ∧
      ∀ slot clock, file.getGenerationEpoch slot = some clock →
        (file.grow unit newTop).getGenerationEpoch slot = some clock := by
  rw [grow]
  split
  · next short =>
    have he : file.registers.length ≤ min (newTop * 2) maxSize := by omega
    refine ⟨⟨by simp only [length_resize], by simp only [length_resize], ?_⟩, rfl, ?_⟩
    · have top := valid.top
      simp only [length_resize]
      omega
    · intro slot clock read
      simp only [getGenerationEpoch, Option.bind_eq_bind, Option.bind_eq_some_iff] at read ⊢
      obtain ⟨gen, here, epoch, there, eq⟩ := read
      exact ⟨gen, getElem?_resize (by rw [valid.generations]; exact he) here, epoch,
        getElem?_resize (by rw [valid.epochs]; exact he) there, eq⟩
  · exact ⟨valid, rfl, fun _ _ read => read⟩

theorem clock_updateSlice {generations : List UInt32} {slot : UInt32} {gen : UInt32} {epoch : UInt16}
    (done : updateSlice file.slotGenerations first last (· + 1) = some generations)
    (sameGenerations : next.slotGenerations = generations) (sameEpochs : next.slotEpochs = file.slotEpochs)
    (read : file.getGenerationEpoch slot = some (gen, epoch)) : next.getGenerationEpoch slot =
      some (if first ≤ slot.toNat ∧ slot.toNat < last then gen + 1 else gen, epoch) := by
  simp only [getGenerationEpoch, Option.bind_eq_bind, Option.bind_eq_some_iff] at read ⊢
  obtain ⟨hit, here, found', there, eq⟩ := read
  cases eq
  rw [sameGenerations, sameEpochs]
  exact ⟨_, (updateSlice_eq_some done).2.2 _ _ here, epoch, there, rfl⟩

theorem pushFrame_eq_some {n : UInt16} {base : UInt32} (pushed : file.pushFrame unit n = some (base, next)) :
    file.top + n.toNat ≤ maxSize ∧ ∃ registers generations,
      updateSlice (file.grow unit (file.top + n.toNat)).registers (file.grow unit (file.top + n.toNat)).top
        (file.top + n.toNat) (fun _ => unit) = some registers ∧
      updateSlice (file.grow unit (file.top + n.toNat)).slotGenerations
        (file.grow unit (file.top + n.toNat)).top (file.top + n.toNat) (· + 1) = some generations ∧
      next = { file.grow unit (file.top + n.toNat) with
        registers, slotGenerations := generations, top := file.top + n.toNat } := by
  simp only [pushFrame, tryPushFrame, Option.bind_eq_bind, Option.bind_eq_some_iff] at pushed
  obtain ⟨res, tried, ret⟩ := pushed
  split at tried
  · cases tried
    cases ret
  · next bounded =>
    simp only [Option.bind_eq_some_iff] at tried
    obtain ⟨registers, first, generations, snd, eq⟩ := tried
    cases eq
    cases ret
    exact ⟨by omega, registers, generations, first, snd, rfl⟩

def Ticks (generation : UInt32) (epoch : UInt16) (bumped : Prop) (clock : Option (UInt32 × UInt16)) : Prop :=
  (¬ bumped ∧ clock = some (generation, epoch)) ∨ (bumped ∧ (clock = some (generation + 1, epoch) ∨
    genMax ≤ generation ∧ clock = some (genInitial, epoch + 1)))

theorem step_spec {op : Op} (valid : file.Valid) (stepped : file.step unit op = some next) :
    next.Valid ∧ ∀ slot gen epoch, file.getGenerationEpoch slot = some (gen, epoch) →
      Ticks gen epoch (file.Bumps slot op) (next.getGenerationEpoch slot) := by
  cases op with
  | pushFrame n =>
    rw [step, Option.map_eq_some_iff] at stepped
    obtain ⟨⟨base, res⟩, pushed, ret⟩ := stepped
    cases ret
    obtain ⟨bounded, registers, generations, first, snd, eq⟩ := pushFrame_eq_some pushed
    obtain ⟨grown, top, kept⟩ := grow_valid unit valid bounded
    have lengths := updateSlice_eq_some first
    have lengths' := updateSlice_eq_some snd
    rw [top] at snd
    have sameGenerations : res.slotGenerations = generations := by rw [eq]
    have sameEpochs : res.slotEpochs = (file.grow unit (file.top + n.toNat)).slotEpochs := by rw [eq]
    have sameRegisters : res.registers = registers := by rw [eq]
    have sameTop : res.top = file.top + n.toNat := by rw [eq]
    refine ⟨⟨?_, ?_, ?_⟩, ?_⟩
    · rw [sameGenerations, sameRegisters, lengths'.1, grown.generations, lengths.1]
    · rw [sameEpochs, sameRegisters, grown.epochs, lengths.1]
    · rw [sameTop, sameRegisters, lengths.1]
      exact lengths.2.1
    · intro slot gen epoch read
      have after := clock_updateSlice snd sameGenerations sameEpochs (kept slot _ read)
      show Ticks gen epoch _ (res.getGenerationEpoch slot)
      rw [after]
      by_cases bumped : file.top ≤ slot.toNat ∧ slot.toNat < file.top + n.toNat
      · rw [if_pos bumped]
        exact .inr ⟨bumped, .inl rfl⟩
      · rw [if_neg bumped]
        exact .inl ⟨bumped, rfl⟩
  | popFrame base =>
    simp only [step, popFrame, Option.bind_eq_bind, Option.bind_eq_some_iff] at stepped
    obtain ⟨generations, updated, ret⟩ := stepped
    have eq := (Option.some.inj ret).symm
    have sameGenerations : next.slotGenerations = generations := by rw [eq]
    have sameEpochs : next.slotEpochs = file.slotEpochs := by rw [eq]
    have sameRegisters : next.registers = file.registers := by rw [eq]
    have sameTop : next.top = base.toNat := by rw [eq]
    have lengths := updateSlice_eq_some updated
    have ord : base.toNat ≤ file.top := by
      rw [updateSlice] at updated
      split at updated
      · next hin => exact hin.1
      · cases updated
    refine ⟨⟨?_, ?_, ?_⟩, ?_⟩
    · rw [sameGenerations, sameRegisters, lengths.1, valid.generations]
    · rw [sameEpochs, sameRegisters, valid.epochs]
    · rw [sameTop, sameRegisters]
      exact Nat.le_trans ord valid.top
    intro slot gen epoch read
    rw [clock_updateSlice updated sameGenerations sameEpochs read]
    by_cases bumped : base.toNat ≤ slot.toNat ∧ slot.toNat < file.top
    · rw [if_pos bumped]
      exact .inr ⟨bumped, .inl rfl⟩
    · rw [if_neg bumped]
      exact .inl ⟨bumped, rfl⟩
  | bumpGeneration absIndex =>
    simp only [step, bumpGeneration, Option.bind_eq_bind, Option.bind_eq_some_iff] at stepped
    obtain ⟨current, hit, stepped⟩ := stepped
    have elsewhere {slot : UInt32} (ne : absIndex ≠ slot) : absIndex.toNat ≠ slot.toNat :=
      fun eq => ne (UInt32.toNat_inj.mp eq)
    split at stepped
    · next overflow =>
      simp only [Option.bind_eq_some_iff] at stepped
      obtain ⟨oldEpoch, foundEpoch, eq⟩ := stepped
      cases eq
      have hin := (List.getElem?_eq_some_iff.mp hit).1
      have inside' := (List.getElem?_eq_some_iff.mp foundEpoch).1
      refine ⟨⟨by simpa using valid.generations, by simpa using valid.epochs, valid.top⟩, ?_⟩
      intro slot gen epoch read
      by_cases eq : absIndex = slot
      · subst eq
        simp only [getGenerationEpoch, hit, foundEpoch, Option.bind_eq_bind, Option.bind_some, pure,
          Option.some.injEq, Prod.mk.injEq] at read
        refine .inr ⟨rfl, .inr ⟨read.1 ▸ overflow, ?_⟩⟩
        simp [getGenerationEpoch, hin, inside', read.2]
      · refine .inl ⟨eq, ?_⟩
        simp only [getGenerationEpoch, List.getElem?_set_ne (elsewhere eq)] at read ⊢
        exact read
    · cases stepped
      have hin := (List.getElem?_eq_some_iff.mp hit).1
      refine ⟨⟨by simpa using valid.generations, valid.epochs, valid.top⟩, ?_⟩
      intro slot gen epoch read
      simp only [getGenerationEpoch, Option.bind_eq_bind, Option.bind_eq_some_iff] at read
      obtain ⟨found', here, found'', there, vs⟩ := read
      cases vs
      by_cases eq : absIndex = slot
      · subst eq
        rw [hit] at here
        cases here
        refine .inr ⟨rfl, .inl ?_⟩
        simp [getGenerationEpoch, hin, there]
      · refine .inl ⟨eq, ?_⟩
        simp [getGenerationEpoch, List.getElem?_set_ne (elsewhere eq), here, there]
  | clear =>
    cases stepped
    exact ⟨⟨valid.generations, valid.epochs, Nat.zero_le _⟩, fun slot gen epoch read => .inl ⟨id, read⟩⟩

end Frames

section Runs

variable {unit : Value} {file final : RegisterFile Value}

/-- The clock of a slot some bumps after a capture: the epoch has moved at most once. -/
def Drift (captured : UInt32 × UInt16) (bumps : Nat) (current : UInt32 × UInt16) : Prop :=
  (current.1.toNat = (captured.1.toNat + bumps) % 2 ^ 32 ∧ current.2 = captured.2) ∨
    (current.1.toNat ≤ bumps ∧ current.2 = captured.2 + 1)

variable {captured current : UInt32 × UInt16} {bumps : Nat} {slot : UInt32}

theorem Drift.ticks {bumped : Prop} [Decidable bumped] {clock : Option (UInt32 × UInt16)}
    (drift : Drift captured bumps current) (few : bumps < 2 ^ 32 - 2)
    (ticks : Ticks current.1 current.2 bumped clock) :
    ∃ hl, clock = some hl ∧ Drift captured (bumps + if bumped then 1 else 0) hl := by
  rcases ticks with ⟨still, read⟩ | ⟨moved, read | ⟨overflow, read⟩⟩
  · rw [if_neg still]
    exact ⟨current, read, drift⟩
  · refine ⟨_, read, ?_⟩
    have next : (current.1 + 1).toNat = (current.1.toNat + 1) % 2 ^ 32 := UInt32.toNat_add ..
    rw [if_pos moved]
    rcases drift with ⟨gen, epoch⟩ | ⟨gen, epoch⟩
    · left
      refine ⟨?_, epoch⟩
      simp only [next, gen]
      omega
    · right
      refine ⟨?_, epoch⟩
      simp only [next]
      omega
  · refine ⟨_, read, ?_⟩
    have large : 2 ^ 32 - 2 ≤ current.1.toNat := UInt32.le_iff_toNat_le.mp overflow
    rw [if_pos moved]
    rcases drift with ⟨_, epoch⟩ | ⟨gen, _⟩
    · right
      refine ⟨?_, by simp only [epoch]⟩
      show 1 ≤ bumps + 1
      omega
    · omega

theorem Drift.ne (drift : Drift captured bumps current) (some : 0 < bumps) (few : bumps < 2 ^ 32 - 2) :
    current ≠ captured := by
  intro eq
  subst eq
  rcases drift with ⟨gen, _⟩ | ⟨_, epoch⟩
  · omega
  · have moved := congrArg UInt16.toNat epoch
    rw [UInt16.toNat_add] at moved
    simp only [UInt16.reduceToNat] at moved
    omega

theorem run_drift {hl : List Op} (valid : file.Valid) (read : file.getGenerationEpoch slot = some current)
    (drift : Drift captured bumps current) (ran : run unit file hl = some final)
    (few : bumps + bumpCount unit slot file hl < 2 ^ 32 - 2) :
    ∃ last, final.getGenerationEpoch slot = some last ∧
      Drift captured (bumps + bumpCount unit slot file hl) last := by
  induction hl generalizing file bumps current with
  | nil =>
    cases ran
    exact ⟨current, read, drift⟩
  | cons op rest ih =>
    simp only [run, Option.bind_eq_bind, Option.bind_eq_some_iff] at ran
    obtain ⟨next, stepped, ran⟩ := ran
    simp only [bumpCount, stepped] at few ⊢
    obtain ⟨valid', ticks⟩ := step_spec valid stepped
    obtain ⟨moved, read', drift'⟩ := drift.ticks (by omega) (ticks slot current.1 current.2 read)
    have rest := ih valid' read' drift' ran (by omega)
    rw [← Nat.add_assoc]
    exact rest

theorem run_valid {ops : List Op} (valid : file.Valid) (ran : run unit file ops = some final) : final.Valid := by
  induction ops generalizing file with
  | nil =>
    cases ran
    exact valid
  | cons op rest ih =>
    simp only [run, Option.bind_eq_bind, Option.bind_eq_some_iff] at ran
    obtain ⟨next, stepped, ran⟩ := ran
    exact ih (step_spec valid stepped).1 ran

theorem bumpCount_pos {hl : List Op} (left : LeavesScopeIn unit slot file hl) :
    0 < bumpCount unit slot file hl := by
  induction hl generalizing file with
  | nil => exact left.elim
  | cons op rest ih =>
    rw [bumpCount]
    rcases left with here | ⟨next, stepped, there⟩
    · have bumped : file.Bumps slot op := by
        cases op with
        | popFrame base | bumpGeneration absIndex => exact here
        | pushFrame n | clear => exact here.elim
      rw [if_pos bumped]
      omega
    · rw [stepped]
      have rest := ih there
      dsimp only
      omega

theorem Valid.getGenerationEpoch (valid : file.Valid) (live : slot.toNat < file.top) :
    ∃ clock, file.getGenerationEpoch slot = some clock := by
  have hin : slot.toNat < file.registers.length := Nat.lt_of_lt_of_le live valid.top
  have gen := List.getElem?_eq_getElem (valid.generations ▸ hin : slot.toNat < file.slotGenerations.length)
  have epoch := List.getElem?_eq_getElem (valid.epochs ▸ hin : slot.toNat < file.slotEpochs.length)
  exact ⟨_, by rw [RegisterFile.getGenerationEpoch, gen, epoch]; rfl⟩

/-- A reference taken to a live slot is detected as stale for as long as the generations cannot repeat,
    exactly when the captured generation is not the one that asks for no check. -/
theorem validateRef_stale_iff (unit : Value) (ops : List Op) (file : RegisterFile Value)
    (reached : run unit (new unit) ops = some file) (slot : UInt32) (live : slot.toNat < file.top) :
    ∃ generation epoch, file.getGenerationEpoch slot = some (generation, epoch) ∧
      ((∀ later final, run unit file later = some final → LeavesScopeIn unit slot file later →
        bumpCount unit slot file later < 2 ^ 32 - 2 →
          final.validateRef slot generation epoch = some false) ↔ generation ≠ genNoCheck) := by
  have valid := run_valid (new_valid unit) reached
  obtain ⟨⟨generation, epoch⟩, captured⟩ := valid.getGenerationEpoch live
  refine ⟨generation, epoch, captured, ?_⟩
  constructor
  · intro detected unchecked
    obtain ⟨bumped, stepped⟩ : ∃ bumped, file.bumpGeneration slot = some bumped := by
      simp only [getGenerationEpoch, Option.bind_eq_bind, Option.bind_eq_some_iff] at captured
      obtain ⟨found, here, found', there, _⟩ := captured
      simp only [bumpGeneration, here, there, Option.bind_eq_bind, Option.bind_some]
      split <;> exact ⟨_, rfl⟩
    have ran : run unit file [.bumpGeneration slot] = some bumped := by
      simp [run, step, stepped]
    have once : bumpCount unit slot file [.bumpGeneration slot] = 1 := by
      simp [bumpCount, Bumps, step, stepped]
    have answer := detected _ bumped ran (.inl rfl) (by rw [once]; decide)
    simp [validateRef, unchecked] at answer
  · intro checked later final ran left few
    have start : Drift (generation, epoch) 0 (generation, epoch) := by
      left
      have bound := generation.toNat_lt
      simp only [Nat.add_zero, and_true]
      omega
    obtain ⟨last, read, drift⟩ := run_drift valid captured start ran (by omega)
    rw [Nat.zero_add] at drift
    have differ := drift.ne (bumpCount_pos left) few
    rw [validateRef, if_neg checked]
    split
    · rfl
    · simp only [read, Option.bind_eq_bind, Option.bind_some, pure, Option.some.injEq, Bool.and_eq_false_imp,
        decide_eq_true_eq, decide_eq_false_iff_not]
      intro same epochs
      exact differ (Prod.ext same epochs)

end Runs

section Rounds

def firstSlot (generation : UInt32) (top : Nat) : RegisterFile Unit :=
  { new () with slotGenerations := generation :: List.replicate 1023 genInitial, top }

def rounds (count : Nat) : List Op := (List.replicate count [Op.pushFrame 1, .popFrame 0]).flatten

theorem new_eq_firstSlot : new () = firstSlot 1 0 := by
  have generations : List.replicate 1024 genInitial = 1 :: List.replicate 1023 genInitial := List.replicate_succ
  simp only [firstSlot, new, withCapacity, initialCapacity, generations]

theorem updateSlice_head {α : Type} (item : α) (rest : List α) (update : α → α) :
    updateSlice (item :: rest) 0 1 update = some (update item :: rest) := by
  have others : rest.mapIdx (fun _ item => item) = rest := by
    apply List.ext_getElem <;> simp
  simpa [updateSlice, List.mapIdx_cons] using others

theorem step_pushFrame_firstSlot (gen : UInt32) :
    (firstSlot gen 0).step () (.pushFrame 1) = some (firstSlot (gen + 1) 1) := by
  have capacity : (firstSlot gen 0).registers = () :: List.replicate 1023 () := List.replicate_succ
  have length : (firstSlot gen 0).registers.length = 1024 := List.length_replicate
  have grown : (firstSlot gen 0).grow () 1 = firstSlot gen 0 := by
    rw [grow, length, if_neg (by decide)]
  have top : (firstSlot gen 0).top + (1 : UInt16).toNat = 1 := rfl
  have generations : (firstSlot gen 0).slotGenerations = gen :: List.replicate 1023 genInitial := rfl
  have start : (firstSlot gen 0).top = 0 := rfl
  simp only [step, pushFrame, tryPushFrame, top, grown]
  rw [if_neg (by decide), capacity, generations, start, updateSlice_head, updateSlice_head, ← capacity]
  rfl

theorem step_popFrame_firstSlot (gen : UInt32) :
    (firstSlot gen 1).step () (.popFrame 0) = some (firstSlot (gen + 1) 0) := by
  have generations : (firstSlot gen 1).slotGenerations = gen :: List.replicate 1023 genInitial := rfl
  have frame : updateSlice (firstSlot gen 1).slotGenerations (0 : UInt32).toNat (firstSlot gen 1).top
      (· + 1) = some ((gen + 1) :: List.replicate 1023 genInitial) := by
    rw [generations]
    exact updateSlice_head _ _ _
  rw [step, popFrame, frame]
  rfl

theorem run_rounds (n : Nat) (gen : UInt32) (rest : List Op) :
    run () (firstSlot gen 0) (rounds n ++ rest) =
      run () (firstSlot (gen + UInt32.ofNat (2 * n)) 0) rest := by
  induction n generalizing gen with
  | zero => simp [rounds]
  | succ n ih =>
    have head : rounds (n + 1) = .pushFrame 1 :: .popFrame 0 :: rounds n := by
      simp [rounds, List.replicate_succ]
    rw [head, List.cons_append, List.cons_append, run, step_pushFrame_firstSlot, Option.bind_eq_bind,
      Option.bind_some, run, step_popFrame_firstSlot, Option.bind_eq_bind, Option.bind_some, ih]
    have sum : gen + 1 + 1 + UInt32.ofNat (2 * n) =
        gen + UInt32.ofNat (2 * (n + 1)) := by
      apply UInt32.toNat_inj.mp
      simp only [UInt32.toNat_add, UInt32.toNat_ofNat', UInt32.reduceToNat]
      omega
    rw [sum]

theorem validateRef_stale_iff_first_frame :
    ∃ file, run () (new ()) [.pushFrame 1] = some file ∧ file.getGenerationEpoch 0 = some (2, 0) ∧
      ∀ later final, run () file later = some final → LeavesScopeIn () 0 file later →
        bumpCount () 0 file later < 2 ^ 32 - 2 → final.validateRef 0 2 0 = some false := by
  have reached : run () (new ()) [.pushFrame 1] = some (firstSlot 2 1) := by
    rw [new_eq_firstSlot, run, step_pushFrame_firstSlot]
    rfl
  have read : (firstSlot 2 1).getGenerationEpoch 0 = some (2, 0) := rfl
  obtain ⟨generation, epoch, captured, detected⟩ :=
    validateRef_stale_iff () [.pushFrame 1] _ reached 0 (by decide)
  rw [read] at captured
  cases captured
  exact ⟨_, reached, read, detected.mpr (by decide)⟩

/-- The 16383rd call at one depth captures the generation that is never checked: its reference is accepted
    after the return. -/
theorem validateRef_accepts_stale :
    ∃ file final, run () (new ()) (rounds 16382 ++ [.pushFrame 1]) = some file ∧ 0 < file.top ∧
      file.getGenerationEpoch 0 = some (0x7FFE, 0) ∧ run () file [.popFrame 0] = some final ∧
      LeavesScopeIn () 0 file [.popFrame 0] ∧ bumpCount () 0 file [.popFrame 0] < 2 ^ 32 - 2 ∧
      final.validateRef 0 0x7FFE 0 = some true := by
  refine ⟨firstSlot 0x7FFE 1, firstSlot 0x7FFF 0, ?_, by decide, rfl, ?_, .inl ?_, ?_, rfl⟩
  · rw [new_eq_firstSlot, run_rounds, run, step_pushFrame_firstSlot]
    rfl
  · rw [run, step_popFrame_firstSlot]
    rfl
  · exact ⟨Nat.le_refl _, Nat.zero_lt_one⟩
  · simp only [bumpCount, step_popFrame_firstSlot]
    split <;> decide

end Rounds

end Interpreter.RegisterFile
