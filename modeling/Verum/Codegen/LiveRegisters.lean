import Verum.Codegen.RegisterScopes

open List

namespace Codegen

open Vbc

/-- The calls of a function body. -/
inductive Use where
  | allocLocal (name : String) (isMutable : Bool)
  | allocTemp
  | allocFresh
  | reserve (count : UInt16)
  | enterScope
  | exitScope
  | freeTemp (reg : Reg)

/-- An allocator with the temporaries handed out and not yet freed, the registers of the reserved
ranges, and every register handed out so far. -/
structure Usage (Hints : Type) where
  alloc : RegisterAllocator Hints
  temporaries : List Reg
  reserved : List Reg
  handedOut : List Reg

variable {Hints : Type}

namespace RegisterAllocator

def visible (alloc : RegisterAllocator Hints) : List Reg := alloc.vars.entries.map (·.2.reg)

def shadowed (alloc : RegisterAllocator Hints) : List Reg :=
  alloc.scopeStack.flatMap fun scope => scope.shadowedVars.map (·.2.1.reg)

def range (start : Reg) (count : UInt16) : List Reg :=
  (List.range count.toNat).map fun i => ⟨start.index + UInt16.ofNat i⟩

end RegisterAllocator

namespace Usage

def live (usage : Usage Hints) : List Reg :=
  usage.alloc.visible ++ usage.alloc.shadowed ++ usage.temporaries ++ usage.reserved

def start (alloc : RegisterAllocator Hints) (params : List (String × Bool)) : Usage Hints :=
  let (regs, alloc) := alloc.reset.allocParameters params
  ⟨alloc, [], [], regs⟩

def perform (usage : Usage Hints) : Use → Usage Hints
  | .allocLocal name isMutable =>
    let (reg, alloc) := usage.alloc.allocLocal name isMutable
    { usage with alloc, handedOut := reg :: usage.handedOut }
  | .allocTemp =>
    let (reg, alloc) := usage.alloc.allocTemp
    { usage with alloc, temporaries := reg :: usage.temporaries, handedOut := reg :: usage.handedOut }
  | .allocFresh =>
    let (reg, alloc) := usage.alloc.allocFresh
    { usage with alloc, temporaries := reg :: usage.temporaries, handedOut := reg :: usage.handedOut }
  | .reserve count =>
    let (start, alloc) := usage.alloc.reserve count
    { usage with
      alloc
      reserved := RegisterAllocator.range start count ++ usage.reserved
      handedOut := RegisterAllocator.range start count ++ usage.handedOut }
  | .enterScope => { usage with alloc := usage.alloc.enterScope }
  | .exitScope => { usage with alloc := usage.alloc.exitScope.2 }
  | .freeTemp reg =>
    { usage with alloc := usage.alloc.freeTemp reg, temporaries := usage.temporaries.erase reg }

def demand (alloc : RegisterAllocator Hints) : Use → Nat
  | .allocLocal _ _ => 1
  | .allocTemp => if alloc.recycleTemps && !alloc.freeList.isEmpty then 0 else 1
  | .allocFresh => 1
  | .reserve count => count.toNat
  | .enterScope => 0
  | .exitScope => 0
  | .freeTemp _ => 0

/-- The call stays below 65535 registers and frees only an outstanding temporary. -/
def Permitted (usage : Usage Hints) (use : Use) : Prop :=
  usage.alloc.nextReg.toNat + demand usage.alloc use < 65535 ∧
    ∀ reg, use = .freeTemp reg → reg ∈ usage.temporaries

/-- A run whose calls are all permitted where they are made. -/
inductive Reaches : Usage Hints → Usage Hints → Prop where
  | refl (usage : Usage Hints) : Reaches usage usage
  | step {usage later : Usage Hints} (use : Use) (reaches : Reaches usage later)
      (permitted : later.Permitted use) : Reaches usage (later.perform use)

end Usage

namespace RegisterAllocator

variable {alloc : RegisterAllocator Hints}

def held (alloc : RegisterAllocator Hints) (reg : Reg) : Nat :=
  alloc.visible.count reg + alloc.shadowed.count reg + alloc.freeList.count reg

theorem visible_erase {name : String} {info : RegisterInfo} (hit : alloc.lookup name = some info)
    (later : RegisterAllocator Hints) (erased : later.vars = alloc.vars.erase name) (reg : Reg) :
    alloc.visible.count reg = later.visible.count reg + [info.reg].count reg := by
  have mem : ⟨name, info⟩ ∈ alloc.vars.entries := AList.mem_lookup_iff.mp hit
  rcases exists_of_kerase (mem_keys_of_mem mem) with ⟨other, front, back, -, split, rest⟩
  have eq : other = info := by
    have here : (⟨name, other⟩ : Sigma fun _ : String => RegisterInfo) ∈ alloc.vars.entries := by
      rw [split]
      exact mem_append_right front (.head _)
    exact Option.some_inj.mp ((AList.mem_lookup_iff.mpr here).symm.trans hit)
  unfold visible
  rw [erased, show (alloc.vars.erase name).entries = _ from rest, split, eq]
  simp only [map_append, map_cons, count_append, count_cons, count_nil]
  omega

theorem visible_insert (vars : AList fun _ : String => RegisterInfo) (name : String) (info : RegisterInfo)
    (reg : Reg) : ((vars.insert name info).entries.map (·.2.reg)).count reg =
      [info.reg].count reg + ((vars.erase name).entries.map (·.2.reg)).count reg := by
  show ((⟨name, info⟩ :: (vars.erase name).entries :
    List (Sigma fun _ : String => RegisterInfo)).map (·.2.reg)).count reg = _
  rw [map_cons, ← singleton_append, count_append]

theorem visible_erase_le (vars : AList fun _ : String => RegisterInfo) (name : String) (reg : Reg) :
    ((vars.erase name).entries.map (·.2.reg)).count reg ≤ (vars.entries.map (·.2.reg)).count reg :=
  ((kerase_sublist name vars.entries).map _).count_le reg

theorem held_removeVars (ns : List String) (alloc : RegisterAllocator Hints) (reg : Reg) :
    (removeVars ns alloc).2.held reg ≤ alloc.held reg := by
  induction ns generalizing alloc with
  | nil => exact Nat.le_refl _
  | cons name ns ih =>
    unfold removeVars
    cases hit : alloc.lookup name with
    | none => exact ih alloc
    | some info =>
      apply Nat.le_trans (ih _)
      have moved := visible_erase hit { alloc with vars := alloc.vars.erase name } rfl reg
      unfold held
      unfold visible shadowed at *
      dsimp only at *
      split
      · rw [count_cons (a := reg)]
        rw [count_cons, count_nil] at moved
        omega
      · omega

theorem visible_restoreVars (es : List (String × RegisterInfo × Option Hints))
    (vars : AList fun _ : String => RegisterInfo) (reg : Reg) :
    ((restoreVars es vars).entries.map (·.2.reg)).count reg ≤
      (es.map (·.2.1.reg)).count reg + (vars.entries.map (·.2.reg)).count reg := by
  induction es with
  | nil =>
    rw [map_nil, count_nil, Nat.zero_add]
    exact Nat.le_refl _
  | cons e es ih =>
    have kept := visible_erase_le (restoreVars es vars) e.1 reg
    have fst : ((e :: es).map (·.2.1.reg)).count reg =
        [e.2.1.reg].count reg + (es.map (·.2.1.reg)).count reg := by
      rw [map_cons, ← singleton_append, count_append]
    rw [restoreVars_cons, visible_insert, fst]
    omega

theorem held_exitScope (alloc : RegisterAllocator Hints) (reg : Reg) :
    alloc.exitScope.2.held reg ≤ alloc.held reg := by
  cases stack : alloc.scopeStack with
  | nil =>
    have eq : alloc.exitScope.2 = alloc := by
      unfold exitScope exitScopeWithHints
      rw [stack]
    rw [eq]
  | cons scope outer =>
    have removed := held_removeVars scope.scopeVars { alloc with scopeStack := outer } reg
    have inner := scopeStack_removeVars scope.scopeVars { alloc with scopeStack := outer }
    have restored := visible_restoreVars scope.shadowedVars
      (removeVars scope.scopeVars { alloc with scopeStack := outer }).2.vars reg
    unfold exitScope exitScopeWithHints
    rw [stack]
    unfold held visible shadowed at *
    dsimp only at *
    rw [inner] at removed
    rw [inner, stack, flatMap_cons, count_append]
    omega

theorem held_allocLocal (alloc : RegisterAllocator Hints) (name : String) (isMutable : Bool) (reg : Reg) :
    (alloc.allocLocal name isMutable).2.held reg ≤ alloc.held reg + [(⟨alloc.nextReg⟩ : Reg)].count reg := by
  unfold allocLocal allocLocalWithHints allocFresh held visible shadowed shadow
  dsimp only
  rw [visible_insert]
  have kept := visible_erase_le alloc.vars name reg
  cases stack : alloc.scopeStack with
  | nil =>
    dsimp only
    omega
  | cons scope outer =>
    cases hit : alloc.lookup name with
    | none =>
      unfold lookup at hit ⊢
      dsimp only
      rw [hit]
      dsimp only
      rw [flatMap_cons, flatMap_cons, count_append]
      omega
    | some old =>
      have moved := visible_erase hit { alloc with vars := alloc.vars.erase name } rfl reg
      unfold visible at moved
      unfold lookup at hit ⊢
      dsimp only at moved ⊢
      rw [hit]
      dsimp only
      rw [flatMap_cons, flatMap_cons, map_append, count_append, count_append,
        count_append]
      show _ + (_ + [old.reg].count reg + _) + _ ≤ _
      omega

theorem allocTemp_cases (alloc : RegisterAllocator Hints) :
    (∃ reg rest valueUses, alloc.freeList = reg :: rest ∧
      alloc.allocTemp = (reg, { alloc with freeList := rest, valueUses })) ∨
    ((alloc.recycleTemps && !alloc.freeList.isEmpty) = false ∧ alloc.allocTemp = alloc.allocFresh) := by
  unfold allocTemp
  cases alloc.recycleTemps with
  | false => exact .inr ⟨rfl, rfl⟩
  | true =>
    cases alloc.freeList with
    | nil => exact .inr ⟨rfl, rfl⟩
    | cons reg rest => exact .inl ⟨reg, rest, _, rfl, rfl⟩

theorem freeTemp_cases (alloc : RegisterAllocator Hints) (reg : Reg) :
    (∃ valueUses, alloc.freeTemp reg = { alloc with freeList := reg :: alloc.freeList, valueUses }) ∨
    alloc.freeTemp reg = alloc := by
  unfold freeTemp
  split
  · exact .inl ⟨_, rfl⟩
  · exact .inr rfl

theorem mem_range {start reg : Reg} {n : UInt16} (small : start.index.toNat + n.toNat < 65536)
    (mem : reg ∈ range start n) :
    start.index.toNat ≤ reg.index.toNat ∧ reg.index.toNat < start.index.toNat + n.toNat := by
  rcases List.mem_map.mp mem with ⟨i, inside, rfl⟩
  have bound := List.mem_range.mp inside
  have v : (start.index + UInt16.ofNat i).toNat = start.index.toNat + i := by
    rw [UInt16.toNat_add, UInt16.toNat_ofNat_of_lt' (by show i < 65536; omega)]
    omega
  show start.index.toNat ≤ (start.index + UInt16.ofNat i).toNat ∧ (start.index + UInt16.ofNat i).toNat < _
  omega

theorem nodup_range {start : Reg} {n : UInt16} (small : start.index.toNat + n.toNat < 65536) :
    (range start n).Nodup := by
  apply List.Nodup.map_on _ List.nodup_range
  intro i hlt j under same
  have fst := List.mem_range.mp hlt
  have snd := List.mem_range.mp under
  have sums : (start.index + UInt16.ofNat i).toNat = (start.index + UInt16.ofNat j).toNat :=
    congrArg (·.index.toNat) same
  rw [UInt16.toNat_add, UInt16.toNat_add, UInt16.toNat_ofNat_of_lt' (by show i < 65536; omega),
    UInt16.toNat_ofNat_of_lt' (by show j < 65536; omega)] at sums
  omega

theorem range_one (start : Reg) : range start 1 = [start] := by
  show [(⟨start.index + 0⟩ : Reg)] = [start]
  rw [UInt16.add_zero]

theorem registers_removeVars (ns : List String) (alloc : RegisterAllocator Hints) :
    (removeVars ns alloc).2.nextReg = alloc.nextReg ∧
      (removeVars ns alloc).2.peakUsage = alloc.peakUsage := by
  induction ns generalizing alloc with
  | nil => exact ⟨rfl, rfl⟩
  | cons name ns ih =>
    unfold removeVars
    cases alloc.lookup name with
    | none => exact ih alloc
    | some info => exact ih _

theorem registers_exitScope (alloc : RegisterAllocator Hints) :
    alloc.exitScope.2.nextReg = alloc.nextReg ∧ alloc.exitScope.2.peakUsage = alloc.peakUsage := by
  unfold exitScope exitScopeWithHints
  cases alloc.scopeStack with
  | nil => exact ⟨rfl, rfl⟩
  | cons scope outer => exact registers_removeVars scope.scopeVars { alloc with scopeStack := outer }

theorem bindParameters_cons (alloc : RegisterAllocator Hints) (idx : Nat) (param : String × Bool)
    (ps : List (String × Bool)) : ∃ info : RegisterInfo, ∃ valueUses, info.reg = ⟨UInt16.ofNat idx⟩ ∧
      alloc.bindParameters idx (param :: ps) =
        (⟨UInt16.ofNat idx⟩ ::
          (bindParameters { alloc with valueUses, vars := alloc.vars.insert param.1 info } (idx + 1) ps).1,
          (bindParameters { alloc with valueUses, vars := alloc.vars.insert param.1 info } (idx + 1) ps).2) :=
  ⟨_, _, rfl, rfl⟩

theorem bindParameters_regs (ps : List (String × Bool)) (alloc : RegisterAllocator Hints) (idx : Nat) :
    (alloc.bindParameters idx ps).1 =
      (List.range ps.length).map fun i => ⟨UInt16.ofNat idx + UInt16.ofNat i⟩ := by
  induction ps generalizing alloc idx with
  | nil => rfl
  | cons param ps ih =>
    rcases alloc.bindParameters_cons idx param ps with ⟨info, valueUses, -, hb⟩
    rw [hb, ih, length_cons, range_succ_eq_map, map_cons, map_map]
    apply congr (congrArg List.cons _) _
    · show (⟨_⟩ : Reg) = ⟨_ + 0⟩
      rw [UInt16.add_zero]
    · apply map_congr_left
      intro i _
      show (⟨_⟩ : Reg) = ⟨_⟩
      rw [Nat.succ_eq_add_one, UInt16.ofNat_add, UInt16.ofNat_add, UInt16.add_assoc,
        UInt16.add_comm (UInt16.ofNat 1)]

theorem peakUsage_bindParameters (ps : List (String × Bool)) (alloc : RegisterAllocator Hints) (idx : Nat) :
    (alloc.bindParameters idx ps).2.peakUsage = alloc.peakUsage := by
  induction ps generalizing alloc idx with
  | nil => rfl
  | cons param ps ih =>
    rcases alloc.bindParameters_cons idx param ps with ⟨info, valueUses, -, hb⟩
    rw [hb]
    exact ih ..

theorem held_bindParameters (ps : List (String × Bool)) (alloc : RegisterAllocator Hints) (idx : Nat)
    (reg : Reg) : (alloc.bindParameters idx ps).2.held reg ≤
      alloc.held reg + (alloc.bindParameters idx ps).1.count reg := by
  induction ps generalizing alloc idx with
  | nil => exact Nat.le_refl _
  | cons param ps ih =>
    rcases alloc.bindParameters_cons idx param ps with ⟨info, valueUses, register, hb⟩
    have rest := ih { alloc with valueUses, vars := alloc.vars.insert param.1 info } (idx + 1)
    have kept := visible_erase_le alloc.vars param.1 reg
    have fst : ∀ regs : List Reg, (info.reg :: regs).count reg = [info.reg].count reg + regs.count reg := by
      intro regs
      rw [← singleton_append, count_append]
    rw [hb, ← register, fst]
    unfold held visible shadowed at *
    dsimp only at *
    rw [visible_insert] at rest
    omega

end RegisterAllocator

namespace Usage

def held (usage : Usage Hints) (reg : Reg) : Nat :=
  usage.alloc.held reg + usage.temporaries.count reg + usage.reserved.count reg

structure Sound (usage : Usage Hints) : Prop where
  once : ∀ reg, usage.held reg ≤ 1
  below : ∀ reg, 0 < usage.held reg → reg.index.toNat < usage.alloc.nextReg.toNat
  returned : ∀ reg ∈ usage.handedOut, reg.index.toNat < usage.alloc.nextReg.toNat
  peak : usage.alloc.nextReg.toNat ≤ usage.alloc.peakUsage.toNat

variable {usage later : Usage Hints}

theorem Sound.keep (sound : usage.Sound) (held : ∀ reg, later.held reg ≤ usage.held reg)
    (next : later.alloc.nextReg = usage.alloc.nextReg) (peak : later.alloc.peakUsage = usage.alloc.peakUsage)
    (returned : ∀ reg ∈ later.handedOut, reg ∈ usage.handedOut ∨ 0 < usage.held reg) : later.Sound where
  once reg := (held reg).trans (sound.once reg)
  below reg pos := next ▸ sound.below reg (pos.trans_le (held reg))
  returned := by
    intro reg mem
    rw [next]
    rcases returned reg mem with old | pos
    · exact sound.returned reg old
    · exact sound.below reg pos
  peak := by
    rw [next, peak]
    exact sound.peak

theorem Sound.grow (hs : usage.Sound) (n : UInt16)
    (small : usage.alloc.nextReg.toNat + n.toNat < 65535)
    (held : ∀ reg, later.held reg ≤
      usage.held reg + (RegisterAllocator.range ⟨usage.alloc.nextReg⟩ n).count reg)
    (next : later.alloc.nextReg = usage.alloc.nextReg + n)
    (peak : later.alloc.peakUsage = max usage.alloc.peakUsage (usage.alloc.nextReg + n))
    (ret : later.handedOut = RegisterAllocator.range ⟨usage.alloc.nextReg⟩ n ++ usage.handedOut) :
    later.Sound := by
  have wide : later.alloc.nextReg.toNat = usage.alloc.nextReg.toNat + n.toNat := by
    rw [next, UInt16.toNat_add]
    omega
  have inside : ∀ reg ∈ RegisterAllocator.range ⟨usage.alloc.nextReg⟩ n,
      usage.alloc.nextReg.toNat ≤ reg.index.toNat ∧
        reg.index.toNat < usage.alloc.nextReg.toNat + n.toNat :=
    fun reg mem => RegisterAllocator.mem_range (by show usage.alloc.nextReg.toNat + _ < _; omega) mem
  have single : (RegisterAllocator.range ⟨usage.alloc.nextReg⟩ n).Nodup :=
    RegisterAllocator.nodup_range (by show usage.alloc.nextReg.toNat + _ < _; omega)
  constructor
  · intro reg
    have bound := held reg
    by_cases mem : reg ∈ RegisterAllocator.range ⟨usage.alloc.nextReg⟩ n
    · have fresh : ¬ 0 < usage.held reg := fun pos => by
        have under := hs.below reg pos
        have above := (inside reg mem).1
        omega
      have one := nodup_iff_count_le_one.mp single reg
      omega
    · rw [count_eq_zero_of_not_mem mem] at bound
      exact bound.trans (hs.once reg)
  · intro reg pos
    have bound := held reg
    by_cases mem : reg ∈ RegisterAllocator.range ⟨usage.alloc.nextReg⟩ n
    · have under := (inside reg mem).2
      omega
    · rw [count_eq_zero_of_not_mem mem] at bound
      have under := hs.below reg (pos.trans_le bound)
      omega
  · intro reg mem
    rw [ret] at mem
    rcases mem_append.mp mem with new | old
    · have under := (inside reg new).2
      omega
    · have under := hs.returned reg old
      omega
  · rw [peak, ← next]
    show later.alloc.nextReg.toNat ≤
      (if usage.alloc.peakUsage ≤ later.alloc.nextReg then later.alloc.nextReg else usage.alloc.peakUsage).toNat
    split
    · exact Nat.le_refl _
    · rename_i above
      rw [UInt16.le_iff_toNat_le] at above
      omega

theorem sound_start (alloc : RegisterAllocator Hints) (ps : List (String × Bool))
    (small : ps.length < 65535) : (start alloc ps).Sound := by
  have empty : (⟨alloc.reset, [], [], []⟩ : Usage Hints).Sound :=
    ⟨fun _ => Nat.zero_le 1, fun _ pos => absurd pos (Nat.lt_irrefl 0), nofun, Nat.le_refl 0⟩
  have counted : (UInt16.ofNat ps.length).toNat = ps.length :=
    UInt16.toNat_ofNat_of_lt' (by show ps.length < 65536; omega)
  have regs : (alloc.reset.bindParameters 0 ps).1 =
      RegisterAllocator.range ⟨0⟩ (UInt16.ofNat ps.length) := by
    rw [RegisterAllocator.bindParameters_regs]
    unfold RegisterAllocator.range
    rw [counted]
    rfl
  apply empty.grow (UInt16.ofNat ps.length)
  · show 0 + (UInt16.ofNat ps.length).toNat < 65535
    omega
  · intro reg
    have hb := RegisterAllocator.held_bindParameters ps alloc.reset 0 reg
    rw [regs] at hb
    exact hb
  · exact (UInt16.zero_add _).symm
  · show max (alloc.reset.bindParameters 0 ps).2.peakUsage _ = max 0 (0 + _)
    rw [RegisterAllocator.peakUsage_bindParameters, UInt16.zero_add]
    rfl
  · show (alloc.reset.bindParameters 0 ps).1 = _
    rw [regs, append_nil]
    rfl

theorem Sound.allocFresh (hs : usage.Sound) (small : usage.alloc.nextReg.toNat + 1 < 65535) :
    (⟨usage.alloc.allocFresh.2, ⟨usage.alloc.nextReg⟩ :: usage.temporaries, usage.reserved,
      ⟨usage.alloc.nextReg⟩ :: usage.handedOut⟩ : Usage Hints).Sound := by
  apply hs.grow 1 small
  · intro reg
    have fst : ((⟨usage.alloc.nextReg⟩ : Reg) :: usage.temporaries).count reg =
        [(⟨usage.alloc.nextReg⟩ : Reg)].count reg + usage.temporaries.count reg := by
      rw [← singleton_append, count_append]
    show usage.alloc.held reg + List.count reg (_ :: usage.temporaries) + usage.reserved.count reg ≤
      usage.alloc.held reg + usage.temporaries.count reg + usage.reserved.count reg + _
    rw [RegisterAllocator.range_one, fst]
    omega
  · rfl
  · rfl
  · rw [RegisterAllocator.range_one]
    rfl

theorem Sound.perform (hs : usage.Sound) {use : Use} (permitted : usage.Permitted use) :
    (usage.perform use).Sound := by
  rcases permitted with ⟨small, frees⟩
  cases use with
  | allocLocal name isMutable =>
    apply hs.grow 1 small
    · intro reg
      have hb := usage.alloc.held_allocLocal name isMutable reg
      show (usage.alloc.allocLocal name isMutable).2.held reg + usage.temporaries.count reg +
        usage.reserved.count reg ≤
          usage.alloc.held reg + usage.temporaries.count reg + usage.reserved.count reg + _
      rw [RegisterAllocator.range_one]
      omega
    · rfl
    · rfl
    · rw [RegisterAllocator.range_one]
      rfl
  | allocFresh => exact hs.allocFresh small
  | allocTemp =>
    rcases usage.alloc.allocTemp_cases with ⟨reg, rest, valueUses, free, taken⟩ | ⟨none, taken⟩
    · have recycled : usage.perform .allocTemp = ⟨{ usage.alloc with freeList := rest, valueUses },
          reg :: usage.temporaries, usage.reserved, reg :: usage.handedOut⟩ := by
        unfold Usage.perform
        rw [taken]
      have hh : 0 < usage.held reg := by
        have free : 0 < usage.alloc.freeList.count reg := by
          rw [free]
          exact count_pos_iff.mpr (.head _)
        unfold held RegisterAllocator.held
        omega
      rw [recycled]
      apply hs.keep
      · intro other
        unfold held RegisterAllocator.held RegisterAllocator.visible RegisterAllocator.shadowed
        dsimp only
        rw [free, count_cons, count_cons]
        omega
      · rfl
      · rfl
      · intro other mem
        rcases mem_cons.mp mem with rfl | old
        · exact .inr hh
        · exact .inl old
    · have hf : usage.perform .allocTemp = usage.perform .allocFresh := by
        unfold Usage.perform
        rw [taken]
      unfold demand at small
      rw [none] at small
      rw [hf]
      exact hs.allocFresh small
  | reserve n =>
    apply hs.grow n small
    · intro reg
      show usage.alloc.held reg + usage.temporaries.count reg +
        (RegisterAllocator.range ⟨usage.alloc.nextReg⟩ n ++ usage.reserved).count reg ≤
          usage.alloc.held reg + usage.temporaries.count reg + usage.reserved.count reg + _
      rw [count_append]
      omega
    · rfl
    · rfl
    · rfl
  | enterScope =>
    apply hs.keep
    · intro reg
      exact Nat.le_refl _
    · rfl
    · rfl
    · exact fun reg mem => .inl mem
  | exitScope =>
    have eq := usage.alloc.registers_exitScope
    apply hs.keep
    · intro reg
      have hb := usage.alloc.held_exitScope reg
      show usage.alloc.exitScope.2.held reg + usage.temporaries.count reg + usage.reserved.count reg ≤
        usage.alloc.held reg + usage.temporaries.count reg + usage.reserved.count reg
      omega
    · exact eq.1
    · exact eq.2
    · exact fun reg mem => .inl mem
  | freeTemp freed =>
    have outstanding : 0 < usage.temporaries.count freed := count_pos_iff.mpr (frees freed rfl)
    have lt : ∀ reg, (usage.temporaries.erase freed).count reg + [freed].count reg =
        usage.temporaries.count reg := by
      intro reg
      rw [count_erase, count_cons, count_nil]
      split
      · rename_i eq
        rw [← eq_of_beq eq]
        omega
      · omega
    rcases usage.alloc.freeTemp_cases freed with ⟨valueUses, released⟩ | kept
    · apply hs.keep
      · intro reg
        have moved := lt reg
        have fst : (freed :: usage.alloc.freeList).count reg =
            [freed].count reg + usage.alloc.freeList.count reg := by
          rw [← singleton_append, count_append]
        unfold Usage.perform held
        dsimp only
        rw [released]
        unfold RegisterAllocator.held RegisterAllocator.visible RegisterAllocator.shadowed
        dsimp only
        omega
      · exact congrArg (·.nextReg) released
      · exact congrArg (·.peakUsage) released
      · exact fun reg mem => .inl mem
    · apply hs.keep
      · intro reg
        have moved := lt reg
        unfold Usage.perform held
        dsimp only
        rw [kept]
        omega
      · exact congrArg (·.nextReg) kept
      · exact congrArg (·.peakUsage) kept
      · exact fun reg mem => .inl mem

theorem Sound.reaches (hs : usage.Sound) (reaches : Reaches usage later) : later.Sound := by
  induction reaches with
  | refl => exact hs
  | step use _ permitted ih => exact ih.perform permitted

/-- No two live values share a register, no live register is free, and every register handed out is counted. -/
theorem live_registers_apart (alloc : RegisterAllocator Hints) (params : List (String × Bool))
    (small : params.length < 65535) (usage : Usage Hints) (reaches : Reaches (start alloc params) usage) :
    usage.live.Nodup ∧ (∀ reg ∈ usage.live, reg ∉ usage.alloc.freeList) ∧ usage.alloc.freeList.Nodup ∧
      ∀ reg ∈ usage.handedOut, reg.index < usage.alloc.registerCount := by
  have sound := (sound_start alloc params small).reaches reaches
  have counted : ∀ reg, usage.live.count reg + usage.alloc.freeList.count reg ≤ 1 := by
    intro reg
    have once := sound.once reg
    unfold held RegisterAllocator.held at once
    unfold live
    rw [count_append, count_append, count_append]
    omega
  constructor
  · apply nodup_iff_count_le_one.mpr
    intro reg
    have bound := counted reg
    omega
  constructor
  · intro reg alive free
    have first := count_pos_iff.mpr alive
    have second := count_pos_iff.mpr free
    have bound := counted reg
    omega
  constructor
  · apply nodup_iff_count_le_one.mpr
    intro reg
    have bound := counted reg
    omega
  · intro reg member
    have under := sound.returned reg member
    have peak := sound.peak
    apply UInt16.lt_iff_toNat_lt.mpr
    show _ < usage.alloc.peakUsage.toNat
    omega

theorem live_registers_apart_shadowed :
    let entered := start (RegisterAllocator.new : RegisterAllocator Unit) [("x", false)]
    let usage := (((entered.perform .allocTemp).perform (.allocLocal "x" true)).perform
      (.freeTemp ⟨1⟩)).perform (.reserve 2)
    usage.live.Nodup ∧ (∀ reg ∈ usage.live, reg ∉ usage.alloc.freeList) ∧ usage.alloc.freeList.Nodup ∧
      ∀ reg ∈ usage.handedOut, reg.index < usage.alloc.registerCount := by
  intro entered usage
  apply live_registers_apart RegisterAllocator.new [("x", false)] (by decide) usage
  apply Reaches.step (.reserve 2) _ ⟨by decide, nofun⟩
  apply Reaches.step (.freeTemp ⟨1⟩) _ ⟨by decide, fun reg same => (by cases same; decide)⟩
  apply Reaches.step (.allocLocal "x" true) _ ⟨by decide, nofun⟩
  exact Reaches.step .allocTemp (.refl _) ⟨by decide, nofun⟩

/-- The register that an empty reservation returns is not counted. -/
theorem empty_reservation_uncounted :
    let alloc := ((RegisterAllocator.new : RegisterAllocator Unit).reset.allocParameters []).2
    let (start, later) := alloc.reserve 0
    (alloc.nextReg.toNat + (0 : UInt16).toNat < 65535) ∧ ¬ start.index < later.registerCount := by
  decide

end Usage

end Codegen
