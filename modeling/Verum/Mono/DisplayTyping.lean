import Verum.Mono.Specializer

open List

namespace Vbc

def TensorInstruction.destinations : TensorInstruction → List Reg
  | .makeTensor dst _ _ _ | .flashAttention dst _ _ _ _ _ _ | .contiguousView dst _ | .arange dst _ _ _ _
  | .linspace dst _ _ _ _ | .rand dst _ _ | .clone dst _ | .identity dst _ _ | .index dst _ _ _
  | .concat dst _ _ | .stack dst _ _ | .broadcast dst _ _ | .squeeze dst _ _ | .cmp _ dst _ _
  | .where dst _ _ _ | .clamp dst _ _ _ | .cast dst _ _ | .maskedFill dst _ _ _ | .lerp dst _ _ _
  | .dot dst _ _ _ _ | .conv dst _ _ _ _ _ _ _ | .batchMatmul dst _ _ | .einsum dst _ _ | .outer dst _ _
  | .triSolve dst _ _ _ | .cholesky dst _ _ | .argmax dst _ _ _ | .cumulative _ dst _ _
  | .softmax dst _ _ | .layerNorm dst _ _ _ _ _ | .batchNorm dst _ _ _ _ _ _ _ _ | .rmsNorm dst _ _ _
  | .fft dst _ _ _ | .scatter dst _ _ _ _ _ | .pool _ dst _ _ _ _ | .argmin dst _ _ _ | .solve dst _ _
  | .gather dst _ _ _ | .permute dst _ _ | .det dst _ | .trace dst _ | .norm dst _ _ => [dst]
  | .topk values indices _ _ _ _ => [values, indices]
  | .qr q r _ _ => [q, r]
  | .svd u s vh _ _ _ => [u, s, vh]
  | .lu p l u _ => [p, l, u]
  | .eig eigenvalues eigenvectors _ _
  | .eigSymmetric eigenvalues eigenvectors _ _ => [eigenvalues, eigenvectors]
  | .lstsq x residuals rank s _ _ _ => [x, residuals, rank, s]

def GpuInstruction.destinations : GpuInstruction → List Reg
  | .streamCreate dst | .streamCreateWithPriority dst _ | .streamCreateNonBlocking dst
  | .streamQuery dst _ | .streamGetPriority dst _ | .eventCreate dst | .eventCreateWithFlags dst _
  | .eventQuery dst _ | .eventElapsed dst _ _ | .getDevice dst | .getDeviceCount dst
  | .getDeviceProperty dst _ _ | .canAccessPeer dst _ _ | .mallocManaged dst _ _
  | .memGetAttribute dst _ _ | .graphCreate dst | .graphEndCapture dst _ | .graphInstantiate dst _
  | .enumerateDevices dst _ => [dst]
  | .getMemoryInfo freeBytes totalBytes _ => [freeBytes, totalBytes]
  | _ => []

def Instruction.destinations : Instruction → List Reg
  | .mov dst _ | .loadK dst _ | .loadI dst _ | .loadF dst _ | .loadTrue dst | .loadFalse dst
  | .loadUnit dst | .loadT dst _ | .typeLayout dst _ _ | .typeResource dst _ | .loadSmallI dst _
  | .cvtIF dst _ | .cvtFI _ dst _ | .cvtIC dst _ | .cvtCI dst _ | .cvtBI dst _ | .cvtToI dst _
  | .cvtToF dst _ | .binaryI _ dst _ _ | .binaryF _ dst _ _ | .binaryG _ dst _ _ _ | .unaryI _ dst _
  | .unaryF _ dst _ | .not dst _ | .bitwise _ dst _ _ | .cmpI _ dst _ _ | .cmpF _ dst _ _
  | .cmpG _ dst _ _ _ | .cmpU _ dst _ _ | .call dst _ _ | .callM dst _ _ _ | .callClosure dst _ _
  | .newClosure dst _ _ _ _ | .new dst _ _ | .newG dst _ _ | .getF dst _ _ | .getE dst _ _ | .len dst _ _
  | .newList dst _ | .listPop dst _ | .newMap dst _ | .mapGet dst _ _ | .mapContains dst _ _
  | .iterNew dst _ | .clone dst _ | .ref dst _ | .refMut dst _ | .refLocal dst _ | .refObj dst _
  | .deref dst _ | .refChecked dst _ | .refUnsafe dst _ | .callG dst _ _ _ | .callV dst _ _ _
  | .callC dst _ _ | .isVar dst _ _ | .isType dst _ _ | .asVar dst _ _ | .pack dst _ _
  | .genCreate dst _ _ | .genNext dst _ | .genHasNext dst _ | .spawn dst _ _ | .await dst _
  | .nurseryInit dst | .nurserySpawn dst _ _ | .nurseryGetError _ dst
  | .gradAccumulate dst _ | .gradStop dst _ | .ctxGet dst _ | .newSet dst _ | .newDeque dst _
  | .setContains dst _ _ | .toString dst _ | .concat dst _ _ | .charToStr dst _ | .newRange dst _ _ _
  | .pop dst | .callR dst _ _ | .loadNil dst | .getException dst | .futureReady dst _ | .futureGet dst _
  | .asyncNext dst _ | .attenuate dst _ _ | .metaQuote dst _ | .metaEval dst _ | .metaReflect dst _
  | .iter dst _ | .getTag dst _ | .makeVariant dst _ _ | .makeVariantTyped dst _ _ _
  | .getFieldNamed dst _ _ | .getVariantData dst _ _ | .getVariantDataRef dst _ _ | .makePi dst _ _
  | .makeSigma dst _ _ | .makeWitness dst _ _ | .randomU64 dst | .randomFloat dst _ _
  | .globalAllocator dst | .memNewId dst | .memAllocTensor dst _ _ | .permissionCheckWire dst _ _
  | .permissionStatsRead dst _ | .permissionStatsClear dst | .gpuMemcpy dst _ _ | .gpuAlloc dst _ _
  | .syscallLinux dst _ _ _ _ _ _ _ | .mmap dst _ _ _ _ _ _ | .munmap dst _ _ | .atomicLoad dst _ _ _
  | .atomicCas dst _ _ _ _ _ | .ioSubmit dst _ _ | .ioPoll dst _ _ | .tlsGet dst _
  | .cubicalExtended _ dst _ => [dst]
  | .iterNext dst hasNext _ => [dst, hasNext]
  | .nurseryAwaitAll _ success => [success]
  | .select dst futures _ => dst :: futures
  | .dropRef src | .dropTyped src _ => [src]
  | .spec reg _ => [reg]
  | .unpack dstStart _ count => (List.range count.toNat).map fun k => ⟨dstStart.index + UInt16.ofNat k⟩
  | .gradEnd _ _ gradOut gradRegs => gradOut :: gradRegs
  | .gpu instr => instr.destinations
  | .tensor instr => instr.destinations
  | _ => []

end Vbc

namespace Mono

open Vbc

/-- Where control is, the registers of the function, and all else. -/
structure Frame (Value World : Type) where
  pc : Nat
  regs : UInt16 → Value
  world : World

/-- What instructions can do in a frame: they write the registers they name for results, and those they reach
    through references or through operand bytes. -/
structure FrameSemantics (Value World : Type) where
  steps : Instruction → Frame Value World → Frame Value World → Prop
  indirect : Instruction → Frame Value World → UInt16 → Prop
  hasType : TypeRef → Value → Prop
  unchanged : ∀ (instr : Instruction) (before after : Frame Value World) (reg : UInt16), steps instr before after →
    ⟨reg⟩ ∉ instr.destinations → ¬ indirect instr before reg → after.regs reg = before.regs reg
  copies : ∀ (dst src : Reg) (before after : Frame Value World), steps (.mov dst src) before after →
    after.regs = Function.update before.regs dst.index (before.regs src.index)

namespace BytecodeSpecializer

def displayTypes (self : BytecodeSpecializer) (instrs : List Instruction) (function : FunctionSignature) :
    Except SubstitutionError RegTypes := do
  let types ← self.parameterTypes instrs 0 function.params fun _ => none
  return propagateMoves instrs (propagateMoves instrs types)

/-- The sites that are expanded: none where the module has no `Text.new` and `Formatter.new`. -/
def replacedSites (self : BytecodeSpecializer) (module : DisplayModule) (instrs : List Instruction)
    (function : FunctionSignature) : Except SubstitutionError (List DisplaySite) := do
  let types ← self.displayTypes instrs function
  match module.findFunctionByName "Text.new", module.findFunctionByName "Formatter.new" with
  | some _, some _ => return displaySites module types instrs
  | _, _ => return []

/-- The register holds parameter `i`, which the census does not see overwritten, or a copy of it made by the one
    write that the census sees. -/
inductive CopyOf (instrs : List Instruction) (count : Nat) : UInt16 → Nat → Prop
  | param {i : Nat} : i < count → writeCount instrs (UInt16.ofNat i) = 0 → CopyOf instrs count (UInt16.ofNat i) i
  | copy {dst src : Reg} {i : Nat} : .mov dst src ∈ instrs → writeCount instrs dst.index = 1 →
    CopyOf instrs count src.index i → CopyOf instrs count dst.index i

def Tracked (instrs : List Instruction) (count : Nat) (reg : UInt16) : Prop := ∃ i, CopyOf instrs count reg i

/-- The register is a parameter, or its copy was made by an instruction executed so far. -/
def Assigned (instrs done : List Instruction) (reg : UInt16) : Prop :=
  writeCount instrs reg = 0 ∨ ∃ src, .mov ⟨reg⟩ src ∈ done

end BytecodeSpecializer

namespace FrameSemantics

open BytecodeSpecializer

variable {Value World : Type} (semantics : FrameSemantics Value World)

/-- An execution path, with the instructions executed, the last one first. -/
inductive Run (instrs : List Instruction)
    (allowed : List Instruction → Frame Value World → Instruction → Prop) (entry : Frame Value World) :
    List Instruction → Frame Value World → Prop
  | enter : Run instrs allowed entry [] entry
  | step {done : List Instruction} {state after : Frame Value World} {instr : Instruction} :
    Run instrs allowed entry done state → instrs[state.pc]? = some instr → allowed done state instr →
    semantics.steps instr state after → Run instrs allowed entry (instr :: done) after

/-- The instruction overwrites a tracked register only where the census counts it, and it copies or formats one
    only after it was assigned. -/
structure Keeps (instrs : List Instruction) (count : Nat) (done : List Instruction) (state : Frame Value World)
    (instr : Instruction) : Prop where
  counted : ∀ reg, Tracked instrs count reg → ⟨reg⟩ ∈ instr.destinations ∨ semantics.indirect instr state reg →
    BytecodeSpecializer.writtenReg instr = some ⟨reg⟩
  copied : ∀ dst src, instr = .mov dst src → Tracked instrs count dst.index → Assigned instrs done src.index
  formatted : ∀ dst src, instr = .toString dst src → Tracked instrs count src.index → Assigned instrs done src.index

/-- The source of a site still holds an argument, of the type whose `fmt` the site calls. -/
def HoldsArgument (self : BytecodeSpecializer) (module : DisplayModule) (params : List TypeRef)
    (entry state : Frame Value World) (site : DisplaySite) : Prop :=
  ∃ (i : Nat) (param : TypeRef) (id : TypeId) (name : String) (fmt : FunctionId), params[i]? = some param ∧
    self.substitution.apply param = .ok (.concrete id) ∧ module.typeName id = some name ∧
    module.findFunctionByName (name ++ ".fmt") = some fmt ∧ site.fmt = fmt.id ∧
    state.regs site.src = entry.regs (UInt16.ofNat i) ∧ semantics.hasType (.concrete id) (state.regs site.src)

def ArgumentsTyped (self : BytecodeSpecializer) (params : List TypeRef) (entry : Frame Value World) : Prop :=
  ∀ (i : Nat) (param type : TypeRef), params[i]? = some param → self.substitution.apply param = .ok type →
    semantics.hasType type (entry.regs (UInt16.ofNat i))

end FrameSemantics

namespace BytecodeSpecializer

variable {instrs : List Instruction} {reg : UInt16} {instr : Instruction}

theorem writeCount_pos (mem : instr ∈ instrs) (writes : writtenReg instr = some ⟨reg⟩) :
    0 < writeCount instrs reg := by
  apply count_pos_iff.mpr
  exact mem_filterMap.mpr ⟨instr, mem, writes⟩

theorem eq_of_writeCount_one {other : Instruction} (once : writeCount instrs reg = 1) (mem : instr ∈ instrs)
    (writes : writtenReg instr = some ⟨reg⟩) (memberOther : other ∈ instrs)
    (writesOther : writtenReg other = some ⟨reg⟩) : instr = other := by
  induction instrs with
  | nil => cases mem
  | cons head instrs ih =>
    by_cases fst : writtenReg head = some ⟨reg⟩
    · have rest : writeCount instrs reg = 0 := by
        unfold writeCount at once ⊢
        rw [filterMap_cons_some fst, count_cons_self] at once
        exact Nat.succ.inj once
      have isHead : ∀ instr ∈ head :: instrs, writtenReg instr = some ⟨reg⟩ → instr = head := by
        intro instr mem writes
        rcases mem_cons.mp mem with eq | hin
        · exact eq
        · have pos := writeCount_pos hin writes
          omega
      rw [isHead instr mem writes, isHead other memberOther writesOther]
    · have rest : writeCount instrs reg = 1 := by
        unfold writeCount at once ⊢
        cases written : writtenReg head with
        | none => rwa [filterMap_cons_none written] at once
        | some dst =>
          have differs : dst ≠ ⟨reg⟩ := fun eq => fst (written.trans (congrArg some eq))
          rwa [filterMap_cons_some written, count_cons_of_ne differs] at once
      have hin : ∀ instr ∈ head :: instrs, writtenReg instr = some ⟨reg⟩ → instr ∈ instrs := by
        intro instr mem writes
        rcases mem_cons.mp mem with rfl | hin
        · exact absurd writes fst
        · exact hin
      exact ih rest (hin instr mem writes) (hin other memberOther writesOther)

variable {self : BytecodeSpecializer} {params : List TypeRef} {types : RegTypes}

theorem parameterTypes_copyOf {i : Nat} {initial : RegTypes} {type : TypeRef}
    (run : self.parameterTypes instrs i params initial = .ok types) (typed : types reg = some type) :
    initial reg = some type ∨ ∃ (j : Nat) (param : TypeRef),
      params[j]? = some param ∧ self.substitution.apply param = .ok type ∧ reg = UInt16.ofNat (i + j) ∧
      writeCount instrs reg = 0 := by
  induction params generalizing i initial with
  | nil =>
    cases run
    exact .inl typed
  | cons param params ih =>
    unfold parameterTypes at run
    cases substituted : self.substitution.apply param with
    | error _ =>
      rw [substituted] at run
      cases run
    | ok image =>
      rw [substituted] at run
      rcases ih run with pre | ⟨j, param', hit, applied, eq, unwritten⟩
      · split at pre
        · rename_i unwritten
          by_cases here : reg = UInt16.ofNat i
          · rw [here, Function.update_self] at pre
            cases pre
            exact .inr ⟨0, param, rfl, substituted, here, here ▸ unwritten⟩
          · rw [Function.update_of_ne here] at pre
            exact .inl pre
        · exact .inl pre
      · refine .inr ⟨j + 1, param', hit, applied, ?_, unwritten⟩
        rwa [Nat.add_right_comm, Nat.add_assoc] at eq

def Justified (self : BytecodeSpecializer) (instrs : List Instruction) (params : List TypeRef) (types : RegTypes) : Prop :=
  ∀ reg type, types reg = some type → ∃ (i : Nat) (param : TypeRef), CopyOf instrs params.length reg i ∧
    params[i]? = some param ∧ self.substitution.apply param = .ok type

theorem Justified.propagate (justified : Justified self instrs params types) :
    Justified self instrs params (propagateMoves instrs types) := by
  unfold propagateMoves
  apply List.foldlRecOn instrs _ justified
  intro types justified instr mem
  split
  · rename_i dst src
    split
    · rename_i once typed
      intro reg type hit
      by_cases here : reg = dst.index
      · subst here
        rw [Function.update_self] at hit
        cases hit
        rcases justified _ _ typed with ⟨i, param, copyOf, isParam, applied⟩
        exact ⟨i, param, .copy mem once copyOf, isParam, applied⟩
      · rw [Function.update_of_ne here] at hit
        exact justified _ _ hit
    · exact justified
  · exact justified

theorem displayTypes_justified {function : FunctionSignature}
    (run : self.displayTypes instrs function = .ok types) : Justified self instrs function.params types := by
  unfold displayTypes at run
  cases params : self.parameterTypes instrs 0 function.params fun _ => none with
  | error _ =>
    rw [params] at run
    cases run
  | ok initial =>
    rw [params] at run
    cases run
    apply Justified.propagate
    apply Justified.propagate
    intro reg type typed
    rcases parameterTypes_copyOf params typed with ha | ⟨i, param, hit, applied, eq, unwritten⟩
    · cases ha
    · rw [Nat.zero_add] at eq
      subst eq
      exact ⟨i, param, .param (List.getElem?_eq_some_iff.mp hit).1 unwritten, hit, applied⟩

theorem mem_displaySites {module : DisplayModule} {site : DisplaySite}
    (mem : site ∈ displaySites module types instrs) :
    ∃ (dst : Reg) (id : TypeId) (name : String) (fmt : FunctionId),
      instrs[site.idx]? = some (.toString dst ⟨site.src⟩) ∧ types site.src = some (.concrete id) ∧
      module.typeName id = some name ∧ module.findFunctionByName (name ++ ".fmt") = some fmt ∧ site.fmt = fmt.id := by
  unfold displaySites at mem
  rcases mem_filterMap.mp mem with ⟨⟨instr, idx⟩, hin, hit⟩
  have here := mem_zipIdx_iff_getElem?.mp hin
  dsimp only at hit here
  split at hit
  · rename_i dst src
    split at hit
    · rename_i id typed
      split at hit
      · cases hit
      · rcases Option.bind_eq_some_iff.mp hit with ⟨name, named, hit⟩
        rcases Option.bind_eq_some_iff.mp hit with ⟨fmt, resolved, hit⟩
        cases hit
        exact ⟨dst, id, name, fmt, here, typed, named, resolved, rfl⟩
    · cases hit
  · cases hit

end BytecodeSpecializer

namespace FrameSemantics

open BytecodeSpecializer

variable {Value World : Type} {semantics : FrameSemantics Value World} {instrs done : List Instruction} {count : Nat}
  {entry state after : Frame Value World} {instr : Instruction} {reg : UInt16}

theorem Keeps.eq_mov (hk : semantics.Keeps instrs count done state instr) (mem : instr ∈ instrs) {i : Nat}
    (copyOf : CopyOf instrs count reg i) (written : ⟨reg⟩ ∈ instr.destinations ∨ semantics.indirect instr state reg) :
    ∃ src, instr = .mov ⟨reg⟩ src ∧ CopyOf instrs count src.index i := by
  have counted := hk.counted reg ⟨i, copyOf⟩ written
  cases copyOf with
  | param hin unwritten =>
    have pos := writeCount_pos mem counted
    omega
  | @copy dst src i isMove once source =>
    have eq : BytecodeSpecializer.writtenReg (.mov dst src) = some ⟨dst.index⟩ := rfl
    exact ⟨src, eq_of_writeCount_one once mem counted isMove eq, source⟩

theorem Keeps.step (hk : semantics.Keeps instrs count done state instr) (mem : instr ∈ instrs)
    (steps : semantics.steps instr state after)
    (hh : ∀ reg i, CopyOf instrs count reg i → Assigned instrs done reg →
      state.regs reg = entry.regs (UInt16.ofNat i)) :
    ∀ reg i, CopyOf instrs count reg i → Assigned instrs (instr :: done) reg →
      after.regs reg = entry.regs (UInt16.ofNat i) := by
  intro reg i copyOf assigned
  by_cases written : ⟨reg⟩ ∈ instr.destinations ∨ semantics.indirect instr state reg
  · rcases hk.eq_mov mem copyOf written with ⟨src, rfl, source⟩
    have isAssigned := hk.copied ⟨reg⟩ src rfl ⟨i, copyOf⟩
    rw [semantics.copies _ _ _ _ steps, Function.update_self]
    exact hh src.index i source isAssigned
  · have kept := semantics.unchanged instr state after reg steps (fun named => written (.inl named))
      (fun reached => written (.inr reached))
    rw [kept]
    apply hh reg i copyOf
    rcases assigned with unwritten | ⟨src, isMove⟩
    · exact .inl unwritten
    · rcases mem_cons.mp isMove with rfl | earlier
      · exact absurd (.inl mem_cons_self) written
      · exact .inr ⟨src, earlier⟩

theorem Run.holds (run : semantics.Run instrs (semantics.Keeps instrs count) entry done state) :
    ∀ reg i, CopyOf instrs count reg i → Assigned instrs done reg → state.regs reg = entry.regs (UInt16.ofNat i) := by
  induction run with
  | enter =>
    intro reg i copyOf assigned
    rcases assigned with unwritten | ⟨src, isMove⟩
    · cases copyOf with
      | param => rfl
      | copy _ once _ =>
        rw [once] at unwritten
        cases unwritten
    · cases isMove
  | step _ hit hk steps ih => exact hk.step (mem_of_getElem? hit) steps ih

/-- In a run whose steps all keep the copies, a `ToString` that is expanded formats an argument of the substituted
    type. -/
theorem run_holdsArgument (semantics : FrameSemantics Value World) (self : BytecodeSpecializer)
    (module : DisplayModule) (instrs : List Instruction) (function : FunctionSignature) (sites : List DisplaySite)
    (replaced : self.replacedSites module instrs function = .ok sites) (entry : Frame Value World)
    (arguments : semantics.ArgumentsTyped self function.params entry) (done : List Instruction)
    (state : Frame Value World)
    (run : semantics.Run instrs (semantics.Keeps instrs function.params.length) entry done state)
    (site : DisplaySite) (member : site ∈ sites) (reached : state.pc = site.idx)
    (keeps : ∀ instr, instrs[state.pc]? = some instr → semantics.Keeps instrs function.params.length done state instr) :
    semantics.HoldsArgument self module function.params entry state site := by
  unfold replacedSites at replaced
  cases typing : self.displayTypes instrs function with
  | error _ =>
    rw [typing] at replaced
    cases replaced
  | ok types =>
    rw [typing] at replaced
    dsimp only [bind, Except.bind, pure, Except.pure] at replaced
    split at replaced
    · cases replaced
      rcases mem_displaySites member with ⟨dst, id, name, fmt, found, typed, named, resolved, isFmt⟩
      rcases displayTypes_justified typing _ _ typed with ⟨i, param, copyOf, isParam, applied⟩
      rw [← reached] at found
      have assigned := (keeps _ found).formatted dst ⟨site.src⟩ rfl ⟨i, copyOf⟩
      have holds := run.holds site.src i copyOf assigned
      have isTyped := arguments i param (.concrete id) isParam applied
      rw [← holds] at isTyped
      exact ⟨i, param, id, name, fmt, isParam, applied, named, resolved, isFmt, holds, isTyped⟩
    · cases replaced
      cases member

end FrameSemantics

section Samples

/-- An object of a type, a float or a text. -/
inductive Formattable where
  | object (type : TypeId)
  | float (bits : UInt64)
  | text
  deriving DecidableEq

def Formattable.hasType : TypeRef → Formattable → Prop
  | type, .object id => type = .concrete id
  | type, .float _ => type = .concrete .float
  | type, .text => type = .concrete ⟨4⟩

def formatStep (instr : Instruction) (before : Frame Formattable Unit) : Frame Formattable Unit :=
  ⟨before.pc + 1,
    match instr with
    | .mov dst src => Function.update before.regs dst.index (before.regs src.index)
    | .loadF dst bits => Function.update before.regs dst.index (.float bits)
    | .toString dst _ => Function.update before.regs dst.index .text
    | _ => before.regs,
    ()⟩

def formatting : FrameSemantics Formattable Unit where
  steps instr before after := after = formatStep instr before
  indirect _ _ _ := False
  hasType := Formattable.hasType
  unchanged := by
    intro instr before after reg steps named _
    subst steps
    unfold formatStep
    dsimp only
    split
    · apply Function.update_of_ne
      rintro rfl
      exact named List.mem_cons_self
    · apply Function.update_of_ne
      rintro rfl
      exact named List.mem_cons_self
    · apply Function.update_of_ne
      rintro rfl
      exact named List.mem_cons_self
    · rfl
  copies := by
    intro dst src before after steps
    subst steps
    rfl

/-- A function over one type parameter, specialized to a type of the module that has its own `fmt`. -/
def pointSpecializer : BytecodeSpecializer where
  substitution := fun _ => some (.concrete ⟨40⟩)
  graph := .new
  computeHash := fun _ _ => 0

def pointModule : DisplayModule where
  typeName := fun id => if id = ⟨40⟩ then some "Point" else none
  findFunctionByName := fun name =>
    if name = "Point.fmt" then some ⟨7⟩ else if name = "Text.new" then some ⟨1⟩
    else if name = "Formatter.new" then some ⟨2⟩ else none

def pointFunction : FunctionSignature where
  params := [.generic ⟨0⟩]
  registerCount := 3

def pointEntry : Frame Formattable Unit where
  pc := 0
  regs := fun _ => .object ⟨40⟩
  world := ()

theorem pointArguments : formatting.ArgumentsTyped pointSpecializer pointFunction.params pointEntry := by
  intro i param type hit applied
  match i with
  | 0 =>
    cases hit
    have image : pointSpecializer.substitution.apply (.generic ⟨0⟩) = .ok (.concrete ⟨40⟩) := by rfl
    rw [image] at applied
    cases applied
    exact rfl
  | i + 1 => cases hit

/-- The parameter is copied, and the register of the copy is used again for a float. -/
def registerReused : List Instruction := [.mov ⟨1⟩ ⟨0⟩, .loadF ⟨1⟩ 0x3FF8000000000000, .toString ⟨2⟩ ⟨1⟩]

/-- The census does not see the float: its formatting becomes a call of the `fmt` of the parameter's type. -/
theorem registerReused_misformats :
    pointSpecializer.replacedSites pointModule registerReused pointFunction = .ok [⟨2, 1, 7⟩] ∧
    formatting.ArgumentsTyped pointSpecializer pointFunction.params pointEntry ∧
    ∃ done state, formatting.Run registerReused (fun _ _ _ => True) pointEntry done state ∧ state.pc = 2 ∧
      ¬ formatting.HoldsArgument pointSpecializer pointModule pointFunction.params pointEntry state ⟨2, 1, 7⟩ := by
  refine ⟨by decide +kernel, pointArguments, _, _, .step (.step .enter rfl trivial rfl) rfl trivial rfl, rfl, ?_⟩
  rintro ⟨i, param, id, name, fmt, -, -, -, -, -, holds, -⟩
  cases holds

def copyFormatted : List Instruction := [.mov ⟨1⟩ ⟨0⟩, .toString ⟨2⟩ ⟨1⟩]

theorem copyFormatted_copies :
    formatting.Keeps copyFormatted 1 [] pointEntry (.mov ⟨1⟩ ⟨0⟩) where
  counted := by
    rintro reg - (named | reached)
    · cases mem_singleton.mp named
      rfl
    · cases reached
  copied := by
    rintro dst src eq -
    cases eq
    exact .inl (by decide)
  formatted := by
    intro dst src eq
    cases eq

theorem copyFormatted_formats {state : Frame Formattable Unit} :
    formatting.Keeps copyFormatted 1 [.mov ⟨1⟩ ⟨0⟩] state (.toString ⟨2⟩ ⟨1⟩) where
  counted := by
    rintro reg - (named | reached)
    · cases mem_singleton.mp named
      rfl
    · cases reached
  copied := by
    intro dst src eq
    cases eq
  formatted := by
    rintro dst src eq -
    cases eq
    exact .inr ⟨⟨0⟩, .head _⟩

theorem copyFormatted_holdsArgument : formatting.HoldsArgument pointSpecializer pointModule pointFunction.params
    pointEntry (formatStep (.mov ⟨1⟩ ⟨0⟩) pointEntry) ⟨1, 1, 7⟩ := by
  apply FrameSemantics.run_holdsArgument formatting pointSpecializer pointModule copyFormatted pointFunction
    [⟨1, 1, 7⟩] (by decide +kernel) pointEntry pointArguments [.mov ⟨1⟩ ⟨0⟩] _ _ _ (.head _) rfl
  · intro instr found
    cases found
    exact copyFormatted_formats
  · exact .step .enter rfl copyFormatted_copies rfl

end Samples

end Mono
