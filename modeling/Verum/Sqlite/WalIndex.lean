import Mathlib.Tactic.Ring
import Mathlib.Order.Interval.Finset.Nat

namespace Sqlite.WalIndex

def hashtableSize : Nat := 8192

def framesPerGroup : Nat := 4096

def hashPrime : Int := 383

/-- The slots hold frames of the group, which are counted from 1, and 0 where they are empty. -/
structure HashGroup where
  groupIndex : Nat
  slots : Fin hashtableSize → Nat
  frames : Fin framesPerGroup → Int
  populated : Nat

def hashGroupNew (groupIndex : Nat) : HashGroup := ⟨groupIndex, fun _ => 0, fun _ => 0, 0⟩

/-- The product is one of 64 bits, and the remainder has its sign. -/
def hashRemainder (pageNo : Int) : Int :=
  let h := ((pageNo * hashPrime).bmod (2 ^ 64)).tmod hashtableSize
  if h < 0 then h + hashtableSize else h

theorem hashRemainder_range (pageNo : Int) : 0 ≤ hashRemainder pageNo ∧ hashRemainder pageNo < hashtableSize := by
  have size : (0 : Int) < hashtableSize := by decide
  have above := Int.tmod_lt_of_pos ((pageNo * hashPrime).bmod (2 ^ 64)) size
  have below := Int.lt_tmod_of_pos ((pageNo * hashPrime).bmod (2 ^ 64)) size
  unfold hashRemainder
  dsimp only
  split <;> omega

def hashFor (pageNo : Int) : Fin hashtableSize :=
  ⟨(hashRemainder pageNo).toNat, by
    have := hashRemainder_range pageNo
    omega⟩

/-- The slot `d` steps behind another one. -/
def probed (slot : Fin hashtableSize) (d : Nat) : Fin hashtableSize :=
  ⟨(slot + d) % hashtableSize, Nat.mod_lt _ (by decide)⟩

/-- The probe loop, with the rounds left to it. -/
def insertFrom (slots : Fin hashtableSize → Nat) (frame : Nat) :
    Nat → Fin hashtableSize → Option (Fin hashtableSize → Nat)
  | 0, _ => none
  | rounds + 1, slot =>
    if slots slot = 0 then some (Function.update slots slot frame) else insertFrom slots frame rounds (probed slot 1)

namespace HashGroup

protected def insert (group : HashGroup) (frameInGroup : Nat) (pageNo : Int) : HashGroup :=
  if inside : 1 ≤ frameInGroup ∧ frameInGroup ≤ framesPerGroup then
    let frames := Function.update group.frames ⟨frameInGroup - 1, by omega⟩ pageNo
    match insertFrom group.slots frameInGroup hashtableSize (hashFor pageNo) with
    | some slots => { group with frames := frames, slots := slots, populated := group.populated + 1 }
    | none => { group with frames := frames }
  else group

/-- The better one of the best frame so far and the one in a slot. -/
def better (group : HashGroup) (pageNo : Int) (best frame : Nat) : Nat :=
  if inside : 1 ≤ frame ∧ frame ≤ framesPerGroup then
    if group.frames ⟨frame - 1, by omega⟩ = pageNo ∧ frame > best then frame else best
  else best

def lookupFrom (group : HashGroup) (pageNo : Int) : Nat → Fin hashtableSize → Nat → Nat
  | 0, _, best => best
  | rounds + 1, slot, best =>
    if group.slots slot = 0 then best
    else lookupFrom group pageNo rounds (probed slot 1) (group.better pageNo best (group.slots slot))

def lookup (group : HashGroup) (pageNo : Int) : Option Nat :=
  let best := group.lookupFrom pageNo hashtableSize (hashFor pageNo) 0
  if best = 0 then none else some best

end HashGroup

def groupForFrame (frameIdx : Nat) : Nat := if frameIdx = 0 then 0 else (frameIdx - 1) / framesPerGroup

def framePositionInGroup (frameIdx : Nat) : Nat := if frameIdx = 0 then 0 else (frameIdx - 1) % framesPerGroup + 1

/-- The loop that adds empty groups, with the number of its rounds. -/
def pushGroups : Nat → List HashGroup → List HashGroup
  | 0, groups => groups
  | rounds + 1, groups => pushGroups rounds (groups ++ [hashGroupNew groups.length])

def ensureGroupFor (groups : List HashGroup) (frameIdx : Nat) : List HashGroup :=
  pushGroups (groupForFrame frameIdx + 1 - groups.length) groups

/-- The headers, which no lookup reads, are left out. -/
def registerFrame (groups : List HashGroup) (frameIdx : Nat) (pageNo : Int) : List HashGroup :=
  (ensureGroupFor groups frameIdx).modify (groupForFrame frameIdx)
    fun group => group.insert (framePositionInGroup frameIdx) pageNo

/-- The walk over the groups before `g`, from the last one on. -/
def lookupBelow (groups : List HashGroup) (pageNo : Int) : Nat → Option Nat
  | 0 => none
  | g + 1 =>
    match groups[g]?.bind fun group => group.lookup pageNo with
    | some pos => some (g * framesPerGroup + pos)
    | none => lookupBelow groups pageNo g

def lookupPage (groups : List HashGroup) (pageNo : Int) : Option Nat := lookupBelow groups pageNo groups.length

section Probing

variable {slots : Fin hashtableSize → Nat} {start : Fin hashtableSize} {rounds k : Nat}

theorem probed_succ (slot : Fin hashtableSize) (d : Nat) : probed (probed slot d) 1 = probed slot (d + 1) := by
  ext
  simp only [probed, Nat.mod_add_mod, Nat.add_assoc]

theorem probed_zero (slot : Fin hashtableSize) : probed slot 0 = slot := by
  ext
  exact Nat.mod_eq_of_lt slot.isLt

theorem exists_probed (start slot : Fin hashtableSize) : ∃ d < hashtableSize, probed start d = slot := by
  refine ⟨(slot + hashtableSize - start) % hashtableSize, Nat.mod_lt _ (by decide), ?_⟩
  ext
  have small := start.isLt
  have back : start.val + (slot.val + hashtableSize - start.val) = slot.val + hashtableSize := by omega
  simp only [probed, Nat.add_mod_mod, back, Nat.add_mod_right, Nat.mod_eq_of_lt slot.isLt]

/-- The slots before the `d`th one are filled. -/
def Filled (slots : Fin hashtableSize → Nat) (start : Fin hashtableSize) (d : Nat) : Prop :=
  ∀ e < d, slots (probed start e) ≠ 0

theorem Filled.succ (filled : Filled slots start k) (here : slots (probed start k) ≠ 0) : Filled slots start (k + 1)
    := by
  intro e less
  rcases Nat.lt_succ_iff_lt_or_eq.mp less with before | rfl
  · exact filled e before
  · exact here

theorem insertFrom_finds (frame : Nat) (empty : ∃ slot, slots slot = 0) (all : k + rounds = hashtableSize)
    (filled : Filled slots start k) :
    ∃ d < hashtableSize, slots (probed start d) = 0 ∧ Filled slots start d ∧
      insertFrom slots frame rounds (probed start k) = some (Function.update slots (probed start d) frame) := by
  induction rounds generalizing k with
  | zero =>
    obtain ⟨slot, zero⟩ := empty
    obtain ⟨d, small, rfl⟩ := exists_probed start slot
    exact absurd zero (filled d (by omega))
  | succ rounds ih =>
    rw [insertFrom]
    split
    · next zero => exact ⟨k, by omega, zero, filled, rfl⟩
    · next some =>
      rw [probed_succ]
      exact ih (by omega) (filled.succ some)

end Probing

/-- A group holds the registered frames behind `base`: their pages, and a slot on the way from the hash of each. -/
structure HashGroup.Holds (group : HashGroup) (base : Nat) (known : Finset Nat) (pageOf : Nat → Int) : Prop where
  frames : ∀ pos (inside : pos < framesPerGroup), base + pos + 1 ∈ known →
    group.frames ⟨pos, inside⟩ = pageOf (base + pos + 1)
  reached : ∀ pos < framesPerGroup, base + pos + 1 ∈ known →
    ∃ d < hashtableSize, group.slots (probed (hashFor (pageOf (base + pos + 1))) d) = pos + 1 ∧
      Filled group.slots (hashFor (pageOf (base + pos + 1))) d
  recorded : ∀ slot, group.slots slot ≠ 0 → group.slots slot ≤ framesPerGroup ∧ base + group.slots slot ∈ known
  room : (Finset.univ.filter fun slot => group.slots slot ≠ 0).card ≤
    ((Finset.range framesPerGroup).filter fun pos => base + pos + 1 ∈ known).card

namespace HashGroup.Holds

variable {group : HashGroup} {base f : Nat} {known : Finset Nat} {pageOf : Nat → Int} {pageNo : Int}

theorem new (groupIndex base : Nat) (pageOf : Nat → Int) (none : ∀ pos < framesPerGroup, base + pos + 1 ∉ known) :
    (hashGroupNew groupIndex).Holds base known pageOf where
  frames pos inside mem := absurd mem (none pos inside)
  reached pos inside mem := absurd mem (none pos inside)
  recorded _ filled := absurd rfl filled
  room := by simp [hashGroupNew]

theorem other (holds : group.Holds base known pageOf) (outside : ∀ pos < framesPerGroup, base + pos + 1 ≠ f) :
    group.Holds base (insert f known) (Function.update pageOf f pageNo) := by
  have kept {pos : Nat} (inside : pos < framesPerGroup) :
      (base + pos + 1 ∈ insert f known ↔ base + pos + 1 ∈ known) ∧
        Function.update pageOf f pageNo (base + pos + 1) = pageOf (base + pos + 1) :=
    ⟨Finset.mem_insert.trans (or_iff_right (outside pos inside)), Function.update_of_ne (outside pos inside) _ _⟩
  constructor
  · intro pos inside mem
    rw [(kept inside).2]
    exact holds.frames pos inside ((kept inside).1.mp mem)
  · intro pos inside mem
    rw [(kept inside).2]
    exact holds.reached pos inside ((kept inside).1.mp mem)
  · intro slot filled
    exact ⟨(holds.recorded slot filled).1, Finset.mem_insert_of_mem (holds.recorded slot filled).2⟩
  · exact holds.room.trans (Finset.card_le_card fun pos mem => by
      rw [Finset.mem_filter] at mem ⊢
      exact ⟨mem.1, Finset.mem_insert_of_mem mem.2⟩)

theorem exists_empty (holds : group.Holds base known pageOf) : ∃ slot, group.slots slot = 0 := by
  by_contra full
  have all : (Finset.univ.filter fun slot => group.slots slot ≠ 0) = Finset.univ :=
    Finset.filter_true_of_mem fun slot _ => fun zero => full ⟨slot, zero⟩
  have room := holds.room.trans (Finset.card_filter_le _ _)
  rw [all, Finset.card_univ, Fintype.card_fin, Finset.card_range] at room
  exact absurd room (by decide)

theorem insert_fresh {pos : Nat} (holds : group.Holds base known pageOf) (pageNo : Int)
    (inside : pos < framesPerGroup) (fresh : base + pos + 1 ∉ known) :
    (group.insert (pos + 1) pageNo).Holds base (insert (base + pos + 1) known)
      (Function.update pageOf (base + pos + 1) pageNo) := by
  have start : Filled group.slots (hashFor pageNo) 0 := nofun
  obtain ⟨d, small, zero, filled, run⟩ := insertFrom_finds (pos + 1) holds.exists_empty (Nat.zero_add _) start
  rw [probed_zero] at run
  have grown : group.insert (pos + 1) pageNo =
      { group with
        frames := Function.update group.frames ⟨pos, inside⟩ pageNo
        slots := Function.update group.slots (probed (hashFor pageNo) d) (pos + 1)
        populated := group.populated + 1 } := by
    rw [HashGroup.insert, dif_pos ⟨Nat.succ_pos pos, inside⟩, run]
    rfl
  rw [grown]
  have still {slot : Fin hashtableSize} (some : group.slots slot ≠ 0) :
      Function.update group.slots (probed (hashFor pageNo) d) (pos + 1) slot = group.slots slot :=
    Function.update_of_ne (fun same => some (by rw [same, zero])) _ _
  have stays {h : Fin hashtableSize} {e : Nat} (before : Filled group.slots h e) :
      Filled (Function.update group.slots (probed (hashFor pageNo) d) (pos + 1)) h e := by
    intro i less
    rw [still (before i less)]
    exact before i less
  constructor
  · intro other inside' mem
    dsimp only
    by_cases same : other = pos
    · subst same
      rw [Function.update_self, Function.update_self]
    · have apart : base + other + 1 ≠ base + pos + 1 := by omega
      rw [Function.update_of_ne apart, Function.update_of_ne (fun eq => same (Fin.mk.inj eq))]
      exact holds.frames other inside' (Finset.mem_of_mem_insert_of_ne mem apart)
  · intro other inside' mem
    dsimp only
    by_cases same : other = pos
    · subst same
      rw [Function.update_self]
      exact ⟨d, small, Function.update_self _ _ _, stays filled⟩
    · have apart : base + other + 1 ≠ base + pos + 1 := by omega
      rw [Function.update_of_ne apart]
      obtain ⟨e, less, at', before⟩ := holds.reached other inside' (Finset.mem_of_mem_insert_of_ne mem apart)
      refine ⟨e, less, ?_, stays before⟩
      rw [still (by rw [at']; exact Nat.succ_ne_zero other), at']
  · intro slot some
    dsimp only at some ⊢
    by_cases same : slot = probed (hashFor pageNo) d
    · subst same
      rw [Function.update_self]
      exact ⟨inside, Finset.mem_insert_self _ _⟩
    · rw [Function.update_of_ne same] at some ⊢
      exact ⟨(holds.recorded slot some).1, Finset.mem_insert_of_mem (holds.recorded slot some).2⟩
  · have more : ((Finset.range framesPerGroup).filter fun p => base + p + 1 ∈ insert (base + pos + 1) known) =
        insert pos ((Finset.range framesPerGroup).filter fun p => base + p + 1 ∈ known) := by
      ext p
      simp only [Finset.mem_filter, Finset.mem_insert, Finset.mem_range, Nat.add_right_cancel_iff,
        Nat.add_left_cancel_iff]
      constructor
      · rintro ⟨small, rfl | mem⟩
        · exact .inl rfl
        · exact .inr ⟨small, mem⟩
      · rintro (rfl | ⟨small, mem⟩)
        · exact ⟨inside, .inl rfl⟩
        · exact ⟨small, .inr mem⟩
    have absent : pos ∉ (Finset.range framesPerGroup).filter fun p => base + p + 1 ∈ known := fun mem =>
      fresh (Finset.mem_filter.mp mem).2
    rw [more, Finset.card_insert_of_notMem absent]
    refine (Finset.card_le_card (t := insert (probed (hashFor pageNo) d) (Finset.univ.filter fun slot =>
      group.slots slot ≠ 0)) fun slot mem => ?_).trans ((Finset.card_insert_le _ _).trans (Nat.succ_le_succ holds.room))
    by_cases same : slot = probed (hashFor pageNo) d
    · exact Finset.mem_insert.mpr (.inl same)
    · rw [Finset.mem_filter] at mem
      dsimp only at mem
      rw [Function.update_of_ne same] at mem
      exact Finset.mem_insert_of_mem (Finset.mem_filter.mpr mem)

theorem better_recorded (holds : group.Holds base known pageOf) {slot : Fin hashtableSize}
    (some : group.slots slot ≠ 0) (best : Nat) :
    group.better pageNo best (group.slots slot) =
      if pageOf (base + group.slots slot) = pageNo ∧ group.slots slot > best then group.slots slot else best := by
  obtain ⟨range, mem⟩ := holds.recorded slot some
  obtain ⟨pos, eq⟩ := Nat.exists_eq_succ_of_ne_zero some
  rw [eq] at range mem ⊢
  rw [better, dif_pos ⟨Nat.succ_pos pos, range⟩]
  simp only [Nat.succ_eq_add_one, Nat.add_sub_cancel, holds.frames pos range mem, Nat.add_assoc]

/-- The best frame holds the page, and is not below any frame seen in the first `k` slots. -/
def BestOf (group : HashGroup) (base : Nat) (known : Finset Nat) (pageOf : Nat → Int) (pageNo : Int) (k best : Nat)
    : Prop :=
  (best = 0 ∨ best ≤ framesPerGroup ∧ base + best ∈ known ∧ pageOf (base + best) = pageNo) ∧
    ∀ e < k, pageOf (base + group.slots (probed (hashFor pageNo) e)) = pageNo →
      group.slots (probed (hashFor pageNo) e) ≤ best

theorem lookupFrom_spec (holds : group.Holds base known pageOf) {rounds k best : Nat}
    (all : k + rounds = hashtableSize)
    (filled : Filled group.slots (hashFor pageNo) k) (sofar : BestOf group base known pageOf pageNo k best) :
    ∃ last, group.lookupFrom pageNo rounds (probed (hashFor pageNo) k) best = last ∧
      (last = 0 ∨ last ≤ framesPerGroup ∧ base + last ∈ known ∧ pageOf (base + last) = pageNo) ∧
      ∀ pos < framesPerGroup, base + pos + 1 ∈ known → pageOf (base + pos + 1) = pageNo → pos + 1 ≤ last := by
  induction rounds generalizing k best with
  | zero =>
    refine ⟨best, rfl, sofar.1, fun pos inside mem page => ?_⟩
    obtain ⟨d, less, at', -⟩ := holds.reached pos inside mem
    rw [page] at at'
    have seen := sofar.2 d (by omega)
    rw [at'] at seen
    exact seen page
  | succ rounds ih =>
    rw [lookupFrom]
    split
    · next zero =>
      refine ⟨best, rfl, sofar.1, fun pos inside mem page => ?_⟩
      obtain ⟨d, less, at', before⟩ := holds.reached pos inside mem
      rw [page] at at' before
      have early : d < k := by
        by_contra late
        rcases Nat.lt_or_eq_of_le (Nat.le_of_not_lt late) with later | rfl
        · exact before k later zero
        · exact absurd (at'.symm.trans zero) (Nat.succ_ne_zero pos)
      have seen := sofar.2 d early
      rw [at'] at seen
      exact seen page
    · next some =>
      rw [probed_succ, better_recorded holds some]
      refine ih (by omega) (filled.succ some) ?_
      obtain ⟨range, mem⟩ := holds.recorded _ some
      unfold BestOf
      split
      · next new =>
        refine ⟨.inr ⟨range, mem, new.1⟩, fun e less page => ?_⟩
        rcases Nat.lt_succ_iff_lt_or_eq.mp less with before | rfl
        · exact (sofar.2 e before page).trans new.2.le
        · exact Nat.le_refl _
      · next old =>
        refine ⟨sofar.1, fun e less page => ?_⟩
        rcases Nat.lt_succ_iff_lt_or_eq.mp less with before | rfl
        · exact sofar.2 e before page
        · exact Nat.le_of_not_lt fun more => old ⟨page, more⟩

theorem lookup_spec (holds : group.Holds base known pageOf) (pageNo : Int) :
    (∀ pos,
    group.lookup pageNo = some pos → 1 ≤ pos ∧ pos ≤ framesPerGroup ∧ base + pos ∈ known ∧
      pageOf (base + pos) = pageNo) ∧
      ∀ pos < framesPerGroup, base + pos + 1 ∈ known → pageOf (base + pos + 1) = pageNo →
        ∃ last, group.lookup pageNo = some last ∧ pos + 1 ≤ last := by
  have none : Filled group.slots (hashFor pageNo) 0 ∧ BestOf group base known pageOf pageNo 0 0 :=
    ⟨nofun, .inl rfl, nofun⟩
  obtain ⟨last, run, good, bound⟩ := holds.lookupFrom_spec (Nat.zero_add _) none.1 none.2
  rw [probed_zero] at run
  rw [lookup, run]
  constructor
  · intro pos found
    rw [Option.ite_none_left_eq_some, Option.some.injEq] at found
    obtain ⟨some, rfl⟩ := found
    exact ⟨Nat.pos_of_ne_zero some, good.resolve_left some⟩
  · intro pos inside mem page
    have low := bound pos inside mem page
    exact ⟨last, if_neg (by omega), low⟩

end HashGroup.Holds

section Index

variable {groups : List HashGroup} {known : Finset Nat} {pageOf : Nat → Int}

/-- Every group holds its registered frames, and every registered frame has a group. -/
structure Indexed (groups : List HashGroup) (known : Finset Nat) (pageOf : Nat → Int) : Prop where
  holds : ∀ g (group : HashGroup), groups[g]? = some group → group.Holds (g * framesPerGroup) known pageOf
  covered : ∀ f ∈ known, 1 ≤ f ∧ groupForFrame f < groups.length

theorem groupForFrame_succ (f : Nat) : groupForFrame (f + 1) = f / framesPerGroup := rfl

theorem frame_parts (f : Nat) :
    f + 1 = groupForFrame (f + 1) * framesPerGroup + f % framesPerGroup + 1 ∧
      framePositionInGroup (f + 1) = f % framesPerGroup + 1 :=
  ⟨by rw [groupForFrame_succ, Nat.mul_comm, Nat.div_add_mod], rfl⟩

theorem groupForFrame_parts {g pos : Nat} (inside : pos < framesPerGroup) :
    groupForFrame (g * framesPerGroup + pos + 1) = g := by
  rw [groupForFrame_succ, Nat.mul_comm, Nat.mul_add_div (by decide), Nat.div_eq_of_lt inside, Nat.add_zero]

theorem pushGroups_length (groups : List HashGroup) (rounds : Nat) :
    (pushGroups rounds groups).length = groups.length + rounds := by
  induction rounds generalizing groups with
  | zero => rfl
  | succ rounds ih =>
    rw [pushGroups, ih, List.length_append, List.length_singleton]
    omega

theorem ensureGroupFor_covers (groups : List HashGroup) (frameIdx : Nat) :
    groupForFrame frameIdx < (ensureGroupFor groups frameIdx).length := by
  rw [ensureGroupFor, pushGroups_length]
  omega

theorem Indexed.pushGroups (indexed : Indexed groups known pageOf) (rounds : Nat) :
    Indexed (pushGroups rounds groups) known pageOf := by
  induction rounds generalizing groups with
  | zero => exact indexed
  | succ rounds ih =>
    have pushed : Indexed (groups ++ [hashGroupNew groups.length]) known pageOf := by
      constructor
      · intro g group at'
        rw [List.getElem?_append] at at'
        split at at'
        · exact indexed.holds g group at'
        · next beyond =>
          rw [List.getElem?_singleton, Option.ite_none_right_eq_some, Option.some.injEq] at at'
          obtain ⟨zero, rfl⟩ := at'
          refine HashGroup.Holds.new _ _ _ fun pos inside mem => ?_
          have before := (indexed.covered _ mem).2
          rw [groupForFrame_parts inside] at before
          exact beyond before
      · intro f mem
        rw [List.length_append]
        exact ⟨(indexed.covered f mem).1, Nat.lt_add_right _ (indexed.covered f mem).2⟩
    exact ih pushed

theorem Indexed.registerFrame (indexed : Indexed groups known pageOf) {f : Nat} (fresh : f + 1 ∉ known)
    (pageNo : Int) :
    Indexed (registerFrame groups (f + 1) pageNo) (insert (f + 1) known) (Function.update pageOf (f + 1) pageNo) := by
  have ensured := indexed.pushGroups (groupForFrame (f + 1) + 1 - groups.length)
  obtain ⟨parts, position⟩ := frame_parts f
  have inside : f % framesPerGroup < framesPerGroup := Nat.mod_lt f (by decide)
  constructor
  · intro g group at'
    rw [Sqlite.WalIndex.registerFrame, List.getElem?_modify, Option.map_eq_map, Option.map_eq_some_iff] at at'
    obtain ⟨before, at'', rfl⟩ := at'
    have holds := ensured.holds g before at''
    split
    · next same =>
      subst same
      rw [position]
      rw [parts] at fresh
      have new := holds.insert_fresh pageNo inside fresh
      rwa [← parts] at new
    · next apart =>
      refine holds.other fun pos small eq => apart ?_
      rw [← eq, groupForFrame_parts small]
  · intro other mem
    rw [Sqlite.WalIndex.registerFrame, List.length_modify]
    rcases Finset.mem_insert.mp mem with rfl | before
    · exact ⟨Nat.succ_pos f, ensureGroupFor_covers groups (f + 1)⟩
    · exact ensured.covered other before

theorem Indexed.lookupBelow_spec (indexed : Indexed groups known pageOf) (pageNo : Int) (n : Nat)
    (le : n ≤ groups.length) :
    (∀ f, lookupBelow groups pageNo n = some f → f ∈ known ∧ pageOf f = pageNo) ∧
      ∀ f ∈ known, groupForFrame f < n → pageOf f = pageNo → ∃ last, lookupBelow groups pageNo n = some last ∧
        f ≤ last := by
  induction n with
  | zero => exact ⟨nofun, fun f mem less => absurd less (Nat.not_lt_zero _)⟩
  | succ g ih =>
    obtain ⟨sound, newest⟩ := ih (Nat.le_of_succ_le le)
    have holds := indexed.holds g _ (List.getElem?_eq_getElem le)
    obtain ⟨right, best⟩ := holds.lookup_spec pageNo
    rw [lookupBelow, List.getElem?_eq_getElem le, Option.bind_some]
    have early {f : Nat} (mem : f ∈ known) (less : groupForFrame f < g + 1) (page : pageOf f = pageNo) :
        groupForFrame f < g ∨
          ∃ last, groups[g].lookup pageNo = some last ∧ f ≤ g * framesPerGroup + last := by
      rcases Nat.lt_succ_iff_lt_or_eq.mp less with before | same
      · exact .inl before
      · obtain ⟨pos, rfl⟩ := Nat.exists_eq_succ_of_ne_zero (Nat.ne_of_gt (indexed.covered f mem).1)
        have parts := (frame_parts pos).1
        rw [same] at parts
        rw [Nat.succ_eq_add_one, parts] at mem page
        obtain ⟨last, hit, low⟩ := best _ (Nat.mod_lt pos (by decide)) mem page
        exact .inr ⟨last, hit, by omega⟩
    cases found : groups[g].lookup pageNo with
    | none =>
      refine ⟨sound, fun f mem less page => ?_⟩
      rcases early mem less page with before | ⟨last, hit, -⟩
      · exact newest f mem before page
      · exact absurd (found.symm.trans hit) nofun
    | some pos =>
      obtain ⟨low, high, mem, page⟩ := right pos found
      refine ⟨?_, fun f mem less page => ?_⟩
      · rintro f ⟨rfl⟩
        exact ⟨mem, page⟩
      · refine ⟨_, rfl, ?_⟩
        rcases early mem less page with before | ⟨last, hit, bound⟩
        · obtain ⟨older, rfl⟩ := Nat.exists_eq_succ_of_ne_zero (Nat.ne_of_gt (indexed.covered f mem).1)
          rw [Nat.succ_eq_add_one, groupForFrame_succ, Nat.div_lt_iff_lt_mul (by decide)] at before
          omega
        · cases found.symm.trans hit
          exact bound

/-- The calls, from the first one on. -/
def registerAll (groups : List HashGroup) (calls : List (Nat × Int)) : List HashGroup :=
  calls.foldl (fun groups call => registerFrame groups call.1 call.2) groups

theorem Indexed.registerAll {calls : List (Nat × Int)} (indexed : Indexed groups known pageOf)
    (valid : ∀ call ∈ calls, 1 ≤ call.1 ∧ call.1 ∉ known) (once : (calls.map Prod.fst).Nodup) :
    ∃ known' pageOf', Indexed (registerAll groups calls) known' pageOf' ∧
      ∀ f pageNo, f ∈ known' ∧ pageOf' f = pageNo ↔ f ∈ known ∧ pageOf f = pageNo ∨ (f, pageNo) ∈ calls := by
  induction calls generalizing groups known pageOf with
  | nil => exact ⟨known, pageOf, indexed, fun f pageNo => by simp⟩
  | cons call calls ih =>
    obtain ⟨frame, page⟩ := call
    obtain ⟨pos, fresh⟩ := valid (frame, page) (.head _)
    obtain ⟨f, rfl⟩ := Nat.exists_eq_succ_of_ne_zero (Nat.ne_of_gt pos)
    rw [List.map_cons, List.nodup_cons] at once
    have next := indexed.registerFrame fresh page
    obtain ⟨known', pageOf', all, exact⟩ := ih next (fun other mem => by
      refine ⟨(valid other (.tail _ mem)).1, fun again => ?_⟩
      rcases Finset.mem_insert.mp again with same | before
      · exact once.1 (List.mem_map.mpr ⟨other, mem, same⟩)
      · exact (valid other (.tail _ mem)).2 before) once.2
    refine ⟨known', pageOf', all, fun other pageNo => (exact other pageNo).trans ?_⟩
    rw [Finset.mem_insert, List.mem_cons, Prod.mk.injEq]
    by_cases same : other = f + 1
    · subst same
      have gone : (f + 1, pageNo) ∉ calls := fun mem => once.1 (List.mem_map.mpr ⟨_, mem, rfl⟩)
      simp [fresh, gone, eq_comm]
    · simp [same]

/-- The calls register every frame at most once, in any order; every probe ends at an empty slot. -/
theorem lookupPage_newest {calls : List (Nat × Int)} (valid : ∀ call ∈ calls, 1 ≤ call.1)
    (once : (calls.map Prod.fst).Nodup) (pageNo : Int) :
    (∀ f, lookupPage (registerAll [] calls) pageNo = some f ↔
      (f, pageNo) ∈ calls ∧ ∀ other, (other, pageNo) ∈ calls → other ≤ f) ∧
    (lookupPage (registerAll [] calls) pageNo = none ↔ ∀ f, (f, pageNo) ∉ calls) ∧
    (∀ group ∈ registerAll [] calls, ∃ slot, group.slots slot = 0) ∧
    ∀ groups frameIdx, groupForFrame frameIdx < (ensureGroupFor groups frameIdx).length := by
  have none : Indexed [] ∅ (fun _ => 0) := ⟨nofun, nofun⟩
  obtain ⟨known, pageOf, indexed, exact⟩ := none.registerAll (fun call mem => ⟨valid call mem, nofun⟩) once
  simp only [Finset.notMem_empty, false_and, false_or] at exact
  obtain ⟨sound, newest⟩ := indexed.lookupBelow_spec pageNo _ (Nat.le_refl _)
  have found (f : Nat) (mem : (f, pageNo) ∈ calls) :
      ∃ last, lookupPage (registerAll [] calls) pageNo = some last ∧ f ≤ last := by
    obtain ⟨isKnown, page⟩ := (exact f pageNo).mpr mem
    exact newest f isKnown (indexed.covered f isKnown).2 page
  refine ⟨fun f => ⟨fun hit => ⟨(exact f pageNo).mp (sound f hit), fun other mem => ?_⟩, ?_⟩, ⟨fun miss f mem => ?_,
    ?_⟩, ?_,
    ensureGroupFor_covers⟩
  · obtain ⟨last, hit', le⟩ := found other mem
    cases hit.symm.trans hit'
    exact le
  · rintro ⟨mem, greatest⟩
    obtain ⟨last, hit, le⟩ := found f mem
    rw [hit, Option.some.injEq]
    exact Nat.le_antisymm (greatest last ((exact last pageNo).mp (sound last hit))) le
  · obtain ⟨last, hit, -⟩ := found f mem
    exact absurd (miss.symm.trans hit) nofun
  · intro absent
    by_contra some
    obtain ⟨f, hit⟩ := Option.ne_none_iff_exists'.mp some
    exact absent f ((exact f pageNo).mp (sound f hit))
  · intro group mem
    obtain ⟨g, at'⟩ := List.mem_iff_getElem?.mp mem
    exact (indexed.holds g group at').exists_empty

theorem lookupPage_newest_rewritten : lookupPage (registerAll [] [(1, 5), (4097, 5)]) 5 = some 4097 :=
  ((lookupPage_newest (by decide) (by decide) 5).1 4097).mpr ⟨by decide, by simp⟩

end Index

end Sqlite.WalIndex
