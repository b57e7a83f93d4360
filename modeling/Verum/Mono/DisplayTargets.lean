import Verum.Mono.Specializer

open List

namespace Mono.BytecodeSpecializer

open Nat

open Vbc

variable {instrs : List Instruction} {sites : List DisplaySite} {textNew formatterNew : UInt32} {base : UInt16}

/-- The new position of an old one: each site before it inserts six instructions. -/
def image (sites : List DisplaySite) (k : Nat) : Nat := k + 6 * sites.countP (·.idx < k)

/-- The sites as they are collected: in order, each at a `ToString` of its source. -/
structure Sites (instrs : List Instruction) (sites : List DisplaySite) : Prop where
  ordered : sites.Pairwise (·.idx < ·.idx)
  found : ∀ site ∈ sites, ∃ dst, instrs[site.idx]? = some (.toString dst ⟨site.src⟩)

/-- Every jump of a list in index form targets an instruction or the end. -/
def TargetsInRange (instrs : List Instruction) : Prop :=
  ∀ (i : Nat) (instr : Instruction) (offset : Int32), instrs[i]? = some instr → jumpOffset instr = some offset →
    0 ≤ (i : Int) + offset.toInt ∧ (i : Int) + offset.toInt ≤ instrs.length

theorem image_cons (site : DisplaySite) (sites : List DisplaySite) (k : Nat) :
    image (site :: sites) k = image sites k + if site.idx < k then 6 else 0 := by
  unfold image
  rw [countP_cons]
  split
  · rename_i pre
    rw [if_pos (of_decide_eq_true pre)]
    omega
  · rename_i after
    rw [if_neg fun pre => after (decide_eq_true pre)]
    omega

theorem image_of_before {k : Nat} (pre : ∀ site ∈ sites, k ≤ site.idx) : image sites k = k := by
  have none : sites.countP (·.idx < k) = 0 := by
    rw [countP_eq_zero]
    intro site mem
    have after := pre site mem
    simp [after]
  unfold image
  rw [none]
  rfl

theorem le_image (sites : List DisplaySite) (k : Nat) : k ≤ image sites k := Nat.le_add_right ..

theorem image_lt_image {i k : Nat} (lt : i < k) : image sites i < image sites k := by
  have counts : sites.countP (·.idx < i) ≤ sites.countP (·.idx < k) := by
    apply countP_mono_left
    intro site _ pre
    exact decide_eq_true (lt_trans (of_decide_eq_true pre) lt)
  unfold image
  omega

theorem image_injective {i k : Nat} (eq : image sites i = image sites k) : i = k := by
  rcases lt_trichotomy i k with lt | equal | greater
  · exact absurd eq (Nat.ne_of_lt (image_lt_image lt))
  · exact equal
  · exact absurd eq.symm (Nat.ne_of_lt (image_lt_image greater))

theorem image_after_site {site : DisplaySite} (mem : site ∈ sites) {k : Nat} (after : site.idx < k) :
    image sites site.idx + 7 ≤ image sites k := by
  have counts : sites.countP (·.idx < site.idx) + 1 ≤ sites.countP (·.idx < k) := by
    induction sites with
    | nil => cases mem
    | cons head tail ih =>
      rw [countP_cons, countP_cons]
      rcases mem_cons.mp mem with rfl | hin
      · have mono : tail.countP (·.idx < site.idx) ≤ tail.countP (·.idx < k) := by
          apply countP_mono_left
          intro other _ pre
          exact decide_eq_true (lt_trans (of_decide_eq_true pre) after)
        simp only [Nat.lt_irrefl, decide_false, Bool.false_eq_true, if_false, after, decide_true, if_true]
        omega
      · have rest := ih hin
        by_cases pre : head.idx < site.idx
        · simp only [pre, decide_true, if_true, lt_trans pre after]
          omega
        · simp only [pre, decide_false, Bool.false_eq_true, if_false]
          omega
  unfold image
  omega

theorem getElem?_spliceAt {idx : Nat} {seq : List Instruction} (hin : idx < instrs.length) (p : Nat) :
    (spliceAt idx seq instrs)[p]? =
      if p < idx then instrs[p]? else if p < idx + seq.length then seq[p - idx]? else instrs[p + 1 - seq.length]? := by
  have start : (instrs.take idx).length = idx := by
    rw [length_take]
    omega
  unfold spliceAt
  rw [append_assoc, List.getElem?_append, start]
  split
  · rename_i pre
    exact List.getElem?_take_of_lt pre
  · rw [List.getElem?_append]
    split
    · rename_i hw
      rw [if_pos (by omega)]
    · rename_i beyond
      rw [if_neg (by omega), List.getElem?_drop]
      congr 1
      omega

theorem length_spliceAt {idx : Nat} {seq : List Instruction} (hin : idx < instrs.length) :
    (spliceAt idx seq instrs).length + 1 = instrs.length + seq.length := by
  unfold spliceAt
  rw [length_append, length_append, length_take, length_drop]
  omega

/-- The registers of site `j`: those of the sites after it come first. -/
def freshOf (base : UInt16) (sites : List DisplaySite) (j : Nat) : Nat → Reg :=
  freshReg base (UInt16.ofNat (sites.length - 1 - j))

/-- What the splices make of the instructions, before the jumps are repaired. -/
structure Spliced (textNew formatterNew : UInt32) (base : UInt16) (instrs : List Instruction)
    (sites : List DisplaySite) (expanded : Expanded) : Prop where
  length : expanded.instrs.length = instrs.length + 6 * sites.length
  insertedAt : expanded.insertedAt = (sites.map (·.idx)).reverse
  expansions : expanded.expansions = UInt16.ofNat sites.length
  others : ∀ i, (∀ site ∈ sites, site.idx ≠ i) → i < instrs.length → expanded.instrs[image sites i]? = instrs[i]?
  chains : ∀ j site dst, sites[j]? = some site → instrs[site.idx]? = some (.toString dst ⟨site.src⟩) → ∀ t < 7,
    expanded.instrs[image sites site.idx + t]? =
      (displayChain textNew formatterNew site.fmt dst site.src (freshOf base sites j))[t]?

theorem spliced (valid : Sites instrs sites) : Spliced textNew formatterNew base instrs sites
    (sites.foldr (expandSite textNew formatterNew base) ⟨instrs, [], 0⟩) := by
  induction sites with
  | nil =>
    refine ⟨rfl, rfl, rfl, fun _ _ _ => rfl, ?_⟩
    intro j site dst isSite
    cases isSite
  | cons site sites ih =>
    rcases pairwise_cons.mp valid.ordered with ⟨fst, ord⟩
    have rest := ih ⟨ord, fun other mem => valid.found other (.tail _ mem)⟩
    rcases valid.found site (.head _) with ⟨dst, hit⟩
    have hin : site.idx < instrs.length := (List.getElem?_eq_some_iff.mp hit).1
    have here : image sites site.idx = site.idx :=
      image_of_before fun other mem => le_of_lt (fst other mem)
    have still := rest.others site.idx (fun other mem => ne_of_gt (fst other mem)) hin
    rw [here, hit] at still
    rw [foldr_cons]
    generalize List.foldr (expandSite textNew formatterNew base) ⟨instrs, [], 0⟩ sites = expanded at rest still ⊢
    have hw : site.idx < expanded.instrs.length := (List.getElem?_eq_some_iff.mp still).1
    unfold expandSite
    rw [still]
    dsimp only
    have seven : ∀ hf, (displayChain textNew formatterNew site.fmt dst site.src hf).length = 7 := fun _ => rfl
    refine ⟨?_, ?_, ?_, ?_, ?_⟩
    · have length := @length_spliceAt expanded.instrs site.idx (displayChain textNew formatterNew site.fmt dst site.src
        (freshReg base expanded.expansions)) hw
      rw [seven, rest.length] at length
      dsimp only
      rw [length_cons]
      omega
    · rw [rest.insertedAt, map_cons, reverse_cons]
    · dsimp only
      rw [rest.expansions, length_cons, UInt16.ofNat_add]
      rfl
    · intro i other isInside
      have differs := other site (.head _)
      have hl := rest.others i (fun other' mem => other other' (.tail _ mem)) isInside
      rw [getElem?_spliceAt hw, image_cons, seven]
      by_cases pre : site.idx < i
      · have low := le_image sites i
        rw [if_pos pre, if_neg (by omega), if_neg (by omega), ← hl]
        congr 1
      · have eq : image sites i = i := by
          apply image_of_before
          intro other' mem
          have after := fst other' mem
          omega
        rw [if_neg pre, Nat.add_zero, eq, if_pos (by omega), ← hl, eq]
    · intro j other dst' isOther isFound t few
      rw [getElem?_spliceAt hw, image_cons, seven]
      cases j with
      | zero =>
        cases isOther
        rw [hit] at isFound
        cases isFound
        rw [if_neg (Nat.lt_irrefl _), Nat.add_zero, here, if_neg (by omega), if_pos (by omega), Nat.add_sub_cancel_left,
          rest.expansions]
        rfl
      | succ j =>
        have mem : other ∈ sites := mem_of_getElem? isOther
        have after := fst other mem
        have low := le_image sites other.idx
        have chain := rest.chains j other dst' isOther isFound t few
        have eq : freshOf base (site :: sites) (j + 1) = freshOf base sites j := by
          unfold freshOf
          rw [length_cons]
          congr 2
          omega
        rw [if_pos after, if_neg (by omega), if_neg (by omega), eq, ← chain]
        congr 1
        omega

theorem shiftFor_eq (sites : List DisplaySite) (k : Nat) :
    (k : Int) + shiftFor (sites.map (·.idx)).reverse k = image sites k := by
  have sum : shiftFor (sites.map (·.idx)).reverse k = 6 * (sites.countP (·.idx < k) : Int) := by
    unfold shiftFor
    rw [map_reverse, sum_reverse]
    induction sites with
    | nil => rfl
    | cons site sites ih =>
      rw [map_cons, map_cons, sum_cons, ih, countP_cons]
      by_cases pre : site.idx < k
      · simp [pre]
        omega
      · simp [pre]
  rw [sum]
  unfold image
  omega

theorem getElem?_modify_ne {i p : Nat} (differs : i ≠ p) (f : Instruction → Instruction) (instrs : List Instruction) :
    (instrs.modify i f)[p]? = instrs[p]? := by
  rw [List.getElem?_modify]
  simp [differs]

theorem retarget_miss {insertedAt : List Nat} (place : ∀ k : Nat, (k : Int) + shiftFor insertedAt k = image sites k)
    {oldIdx p : Nat} {targets : List (Option Int)}
    (misses : ∀ j tgt, targets[j]? = some (some tgt) → image sites (oldIdx + j) ≠ p) (instrs : List Instruction) :
    (retarget insertedAt oldIdx targets instrs)[p]? = instrs[p]? := by
  induction targets generalizing oldIdx instrs with
  | nil => rfl
  | cons tgt targets ih =>
    have hl : ∀ j tgt, targets[j]? = some (some tgt) → image sites (oldIdx + 1 + j) ≠ p := by
      intro j tgt isTarget
      have misses := misses (j + 1) tgt isTarget
      rwa [← add_assoc, add_right_comm] at misses
    cases tgt with
    | none => exact ih hl instrs
    | some tgt =>
      unfold retarget
      dsimp only
      rw [ih hl, place, Int.toNat_natCast]
      exact getElem?_modify_ne (misses 0 tgt rfl) _ _

theorem retarget_hit {insertedAt : List Nat} (place : ∀ k : Nat, (k : Int) + shiftFor insertedAt k = image sites k)
    (oldIdx : Nat) {j : Nat} {targets : List (Option Int)} {tgt : Int}
    (isTarget : targets[j]? = some (some tgt)) (instrs : List Instruction) :
    (retarget insertedAt oldIdx targets instrs)[image sites (oldIdx + j)]? =
      instrs[image sites (oldIdx + j)]?.map (setJumpOffset (Int32.ofInt
        (tgt + shiftFor insertedAt (max tgt 0).toNat - image sites (oldIdx + j)))) := by
  induction targets generalizing oldIdx j instrs with
  | nil => cases isTarget
  | cons head targets ih =>
    cases j with
    | zero =>
      cases isTarget
      unfold retarget
      dsimp only
      rw [Nat.add_zero, place, Int.toNat_natCast, retarget_miss place, List.getElem?_modify]
      · simp
      · intro j other _ eq
        have equal := image_injective eq
        omega
    | succ j =>
      have shifted : oldIdx + (j + 1) = oldIdx + 1 + j := by omega
      rw [shifted]
      cases head with
      | none => exact ih (oldIdx + 1) isTarget instrs
      | some other =>
        unfold retarget
        dsimp only
        rw [ih (oldIdx + 1) isTarget, place, Int.toNat_natCast, getElem?_modify_ne]
        intro eq
        have equal := image_injective eq
        omega

theorem absTargets_getElem? (instrs : List Instruction) (j : Nat) :
    (absTargets instrs)[j]? =
      instrs[j]?.map fun instr => (jumpOffset instr).map fun off => (j : Int) + off.toInt := by
  unfold absTargets
  rw [List.getElem?_mapIdx]

/-- Jumps keep their targets, expansions use registers of their own, and the rest is unchanged. -/
structure KeepsTargets (textNew formatterNew : UInt32) (base : UInt16) (instrs : List Instruction)
    (sites : List DisplaySite) (result : List Instruction) : Prop where
  length : result.length = image sites instrs.length
  jumps : ∀ i instr offset, instrs[i]? = some instr → jumpOffset instr = some offset → ∃ repaired,
    result[image sites i]? = some (setJumpOffset repaired instr) ∧
    (image sites i : Int) + repaired.toInt = image sites ((i : Int) + offset.toInt).toNat
  others : ∀ i instr, instrs[i]? = some instr → jumpOffset instr = none → (∀ site ∈ sites, site.idx ≠ i) →
    result[image sites i]? = some instr
  expanded : ∃ fresh : Nat → Nat → Reg,
    (∀ j site dst, sites[j]? = some site → instrs[site.idx]? = some (.toString dst ⟨site.src⟩) → ∀ t < 7,
      result[image sites site.idx + t]? = (displayChain textNew formatterNew site.fmt dst site.src (fresh j))[t]?) ∧
    (∀ j < sites.length, ∀ k < 6, base.toNat ≤ (fresh j k).index.toNat) ∧
    ∀ j < sites.length, ∀ j' < sites.length, ∀ k < 6, ∀ k' < 6, fresh j k = fresh j' k' → j = j'

/-- The new registers and offsets fit the widths of the fields that hold them. -/
def ExpansionFits (base : UInt16) (instrs : List Instruction) (sites : List DisplaySite) : Prop :=
  base.toNat + 6 * sites.length ≤ 2 ^ 16 ∧
  ∀ (i : Nat) (instr : Instruction) (offset : Int32), instrs[i]? = some instr → jumpOffset instr = some offset →
    -2 ^ 31 ≤ (image sites ((i : Int) + offset.toInt).toNat : Int) - image sites i ∧
    (image sites ((i : Int) + offset.toInt).toNat : Int) - image sites i < 2 ^ 31

theorem not_site_of_other {i : Nat} {instr : Instruction} (valid : Sites instrs sites) (hit : instrs[i]? = some instr)
    (other : ∀ dst src, instr ≠ .toString dst src) : ∀ site ∈ sites, site.idx ≠ i := by
  intro site mem eq
  rcases valid.found site mem with ⟨dst, isString⟩
  rw [eq, hit] at isString
  exact other dst _ (Option.some.inj isString)

theorem image_ne_chain {site : DisplaySite} (mem : site ∈ sites) {i t : Nat} (differs : site.idx ≠ i) (few : t < 7) :
    image sites i ≠ image sites site.idx + t := by
  rcases lt_or_gt_of_ne differs with after | pre
  · have beyond := image_after_site mem after
    omega
  · have hlt := @image_lt_image sites i site.idx pre
    omega

theorem length_retarget (insertedAt : List Nat) (oldIdx : Nat) (targets : List (Option Int)) (instrs : List Instruction) :
    (retarget insertedAt oldIdx targets instrs).length = instrs.length := by
  induction targets generalizing oldIdx instrs with
  | nil => rfl
  | cons tgt targets ih =>
    cases tgt with
    | none => exact ih _ _
    | some tgt =>
      unfold retarget
      dsimp only
      rw [ih, length_modify]

theorem expandSites_spec (valid : Sites instrs sites) (hr : TargetsInRange instrs) :
    (expandSites textNew formatterNew base sites instrs).1.length = image sites instrs.length ∧
    (∀ (i : Nat) (instr : Instruction) (off : Int32), instrs[i]? = some instr → jumpOffset instr = some off →
      (expandSites textNew formatterNew base sites instrs).1[image sites i]? =
        some (setJumpOffset (Int32.ofInt ((image sites ((i : Int) + off.toInt).toNat : Int) - image sites i)) instr)) ∧
    (∀ (i : Nat) (instr : Instruction), instrs[i]? = some instr → jumpOffset instr = none →
      (∀ site ∈ sites, site.idx ≠ i) →
      (expandSites textNew formatterNew base sites instrs).1[image sites i]? = some instr) ∧
    ∀ j site dst, sites[j]? = some site → instrs[site.idx]? = some (.toString dst ⟨site.src⟩) → ∀ t < 7,
      (expandSites textNew formatterNew base sites instrs).1[image sites site.idx + t]? =
        (displayChain textNew formatterNew site.fmt dst site.src (freshOf base sites j))[t]? := by
  have done := @spliced instrs sites textNew formatterNew base valid
  unfold expandSites
  dsimp only
  generalize sites.foldr (expandSite textNew formatterNew base) ⟨instrs, [], 0⟩ = expanded at done ⊢
  have place : ∀ k : Nat, (k : Int) + shiftFor expanded.insertedAt k = image sites k := by
    rw [done.insertedAt]
    exact shiftFor_eq sites
  refine ⟨?_, ?_, ?_, ?_⟩
  · rw [length_retarget, done.length]
    have all : sites.countP (·.idx < instrs.length) = sites.length := by
      rw [countP_eq_length]
      intro site mem
      rcases valid.found site mem with ⟨dst, hit⟩
      exact decide_eq_true (List.getElem?_eq_some_iff.mp hit).1
    unfold image
    rw [all]
  · intro i instr off hit isJump
    have tgt : (absTargets instrs)[i]? = some (some ((i : Int) + off.toInt)) := by
      rw [absTargets_getElem?, hit, Option.map_some, isJump]
      rfl
    have here := retarget_hit place 0 tgt expanded.instrs
    have hin : i < instrs.length := (List.getElem?_eq_some_iff.mp hit).1
    have notSite : ∀ site ∈ sites, site.idx ≠ i := by
      apply not_site_of_other valid hit
      rintro dst src rfl
      cases isJump
    rw [zero_add, done.others i notSite hin, hit, Option.map_some] at here
    rw [here]
    have low := (hr i instr off hit isJump).1
    have eq := place ((i : Int) + off.toInt).toNat
    have distance : (i : Int) + off.toInt + shiftFor expanded.insertedAt (max ((i : Int) + off.toInt) 0).toNat =
        image sites ((i : Int) + off.toInt).toNat := by
      rw [← eq, Int.max_eq_left low, Int.toNat_of_nonneg low]
    rw [distance]
  · intro i instr hit notJump notSite
    rw [retarget_miss place]
    · rw [done.others i notSite (List.getElem?_eq_some_iff.mp hit).1, hit]
    · intro j tgt isTarget eq
      have equal := image_injective eq
      rw [zero_add] at equal
      rw [equal, absTargets_getElem?, hit, Option.map_some, notJump] at isTarget
      cases isTarget
  · intro j site dst isSite hit t few
    rw [retarget_miss place]
    · exact done.chains j site dst isSite hit t few
    · intro k tgt isTarget
      rw [zero_add]
      apply image_ne_chain (mem_of_getElem? isSite) _ few
      rintro rfl
      rw [absTargets_getElem?, hit] at isTarget
      cases isTarget

theorem displayChain_injective {fmt : UInt32} {dst : Reg} {src : UInt16} {hf other : Nat → Reg}
    (eq : ∀ t < 7, (displayChain textNew formatterNew fmt dst src hf)[t]? =
      (displayChain textNew formatterNew fmt dst src other)[t]?) : ∀ k < 6, hf k = other k := by
  have equal : displayChain textNew formatterNew fmt dst src hf =
      displayChain textNew formatterNew fmt dst src other := by
    apply ext_getElem?
    intro t
    by_cases few : t < 7
    · exact eq t few
    · rw [List.getElem?_eq_none (not_lt.mp few), List.getElem?_eq_none (not_lt.mp few)]
  unfold displayChain at equal
  simp only [List.cons.injEq, Instruction.call.injEq, Instruction.refObj.injEq, Instruction.mov.injEq] at equal
  rcases equal with ⟨⟨zero, -⟩, ⟨one, -⟩, ⟨two, -⟩, ⟨three, -⟩, ⟨four, -⟩, ⟨five, -⟩, -⟩
  intro k few
  have cases : k = 0 ∨ k = 1 ∨ k = 2 ∨ k = 3 ∨ k = 4 ∨ k = 5 := by omega
  rcases cases with rfl | rfl | rfl | rfl | rfl | rfl
  · exact zero
  · exact one
  · exact two
  · exact three
  · exact four
  · exact five

theorem toNat_freshOf (base : UInt16) (sites : List DisplaySite) (j k : Nat) :
    (freshOf base sites j k).index.toNat = (base.toNat + 6 * (sites.length - 1 - j) + k) % 2 ^ 16 := by
  unfold freshOf freshReg
  simp only [UInt16.toNat_add, UInt16.toNat_mul, UInt16.toNat_ofNat', UInt16.reduceToNat]
  omega

theorem freshOf_apart_iff (base : UInt16) (sites : List DisplaySite) :
    ((∀ j < sites.length, ∀ k < 6, base.toNat ≤ (freshOf base sites j k).index.toNat) ∧
      ∀ j < sites.length, ∀ j' < sites.length, ∀ k < 6, ∀ k' < 6,
        freshOf base sites j k = freshOf base sites j' k' → j = j') ↔
      base.toNat + 6 * sites.length ≤ 2 ^ 16 := by
  have hb : base.toNat < 2 ^ 16 := base.toNat_lt
  constructor
  · rintro ⟨above, ne⟩
    apply Nat.le_of_not_lt
    intro exceeds
    have wraps : ∃ j k, j < sites.length ∧ k < 6 ∧ base.toNat + 6 * (sites.length - 1 - j) + k = 2 ^ 16 := by
      refine ⟨sites.length - 1 - (2 ^ 16 - base.toNat) / 6, (2 ^ 16 - base.toNat) % 6, ?_, ?_, ?_⟩
      · omega
      · omega
      · omega
    rcases wraps with ⟨j, k, hin, few, sum⟩
    have zero : (freshOf base sites j k).index.toNat = 0 := by
      rw [toNat_freshOf, sum, mod_self]
    have low := above j hin k few
    rw [zero] at low
    have fst : (freshOf base sites (sites.length - 1) 0).index.toNat = 0 := by
      rw [toNat_freshOf]
      omega
    have eq : freshOf base sites j k = freshOf base sites (sites.length - 1) 0 := by
      have idx : (freshOf base sites j k).index = (freshOf base sites (sites.length - 1) 0).index :=
        UInt16.toNat_inj.mp (zero.trans fst.symm)
      exact congrArg Reg.mk idx
    have equal := ne j hin (sites.length - 1) (by omega) k few 0 (by decide) eq
    omega
  · intro hf
    constructor
    · intro j hin k few
      rw [toNat_freshOf]
      omega
    · intro j hin j' inside' k few k' few' eq
      have idx := congrArg (fun reg : Reg => reg.index.toNat) eq
      rw [toNat_freshOf, toNat_freshOf, mod_eq_of_lt (by omega), mod_eq_of_lt (by omega)] at idx
      omega

theorem toInt_ofInt_iff (n : Int) : (Int32.ofInt n).toInt = n ↔ -2 ^ 31 ≤ n ∧ n < 2 ^ 31 := by
  constructor
  · intro eq
    rw [← eq]
    exact ⟨Int32.le_toInt _, Int32.toInt_lt _⟩
  · intro hf
    exact Int32.toInt_ofInt_of_le hf.1 hf.2

/-- The expansion keeps the targets exactly when the registers and the offsets it computes fit their fields. -/
theorem expandSites_keepsTargets_iff (textNew formatterNew : UInt32) (base : UInt16) (instrs : List Instruction)
    (sites : List DisplaySite) (valid : Sites instrs sites) (inRange : TargetsInRange instrs) :
    KeepsTargets textNew formatterNew base instrs sites (expandSites textNew formatterNew base sites instrs).1 ↔
      ExpansionFits base instrs sites := by
  rcases @expandSites_spec instrs sites textNew formatterNew base valid inRange with ⟨length, jumps, others, chains⟩
  constructor
  · intro keeps
    constructor
    · apply (freshOf_apart_iff base sites).mp
      rcases keeps.expanded with ⟨fresh, found, above, apart⟩
      have same : ∀ j < sites.length, ∀ k < 6, fresh j k = freshOf base sites j k := by
        intro j inside
        have isSite := List.getElem?_eq_getElem inside
        rcases valid.found _ (getElem_mem inside) with ⟨dst, isString⟩
        apply displayChain_injective
        intro t few
        exact (found j _ dst isSite isString t few).symm.trans (chains j _ dst isSite isString t few)
      constructor
      · intro j inside k few
        rw [← same j inside k few]
        exact above j inside k few
      · intro j inside j' inside' k few k' few' equal
        rw [← same j inside k few, ← same j' inside' k' few'] at equal
        exact apart j inside j' inside' k few k' few' equal
    · intro i instr offset found isJump
      rcases keeps.jumps i instr offset found isJump with ⟨repaired, -, distance⟩
      have low := repaired.le_toInt
      have high := repaired.toInt_lt
      omega
  · rintro ⟨fits, near⟩
    refine ⟨length, ?_, others, freshOf base sites, chains, (freshOf_apart_iff base sites).mpr fits⟩
    intro i instr offset found isJump
    refine ⟨_, jumps i instr offset found isJump, ?_⟩
    rw [(toInt_ofInt_iff _).mpr (near i instr offset found isJump)]
    omega

/-- A loop around a `ToString`. -/
def stringLoop : List Instruction := [.toString ⟨1⟩ ⟨0⟩, .jmp (-1)]

theorem stringLoop_sites : Sites stringLoop [⟨0, 0, 7⟩] := by
  refine ⟨pairwise_singleton .., ?_⟩
  intro site mem
  rw [mem_singleton.mp mem]
  exact ⟨⟨1⟩, rfl⟩

theorem stringLoop_jump {i : Nat} {instr : Instruction} {off : Int32} (hit : stringLoop[i]? = some instr)
    (isJump : jumpOffset instr = some off) : i = 1 ∧ off = -1 := by
  match i with
  | 0 =>
    cases hit
    cases isJump
  | 1 =>
    cases hit
    cases isJump
    exact ⟨rfl, rfl⟩
  | i + 2 => cases hit

theorem stringLoop_inRange : TargetsInRange stringLoop := by
  intro i instr off hit isJump
  rcases stringLoop_jump hit isJump with ⟨rfl, rfl⟩
  decide

/-- With two registers in use the loop keeps its target. -/
theorem stringLoop_keepsTargets :
    KeepsTargets 1 2 2 stringLoop [⟨0, 0, 7⟩] (expandSites 1 2 2 [⟨0, 0, 7⟩] stringLoop).1 := by
  apply (expandSites_keepsTargets_iff 1 2 2 stringLoop [⟨0, 0, 7⟩] stringLoop_sites stringLoop_inRange).mpr
  refine ⟨by decide, ?_⟩
  intro i instr offset found isJump
  rcases stringLoop_jump found isJump with ⟨rfl, rfl⟩
  decide

/-- With 65535 registers in use the second fresh register wraps to register 0. -/
theorem stringLoop_wraps : Sites stringLoop [⟨0, 0, 7⟩] ∧ TargetsInRange stringLoop ∧
    ¬ KeepsTargets 1 2 65535 stringLoop [⟨0, 0, 7⟩] (expandSites 1 2 65535 [⟨0, 0, 7⟩] stringLoop).1 := by
  refine ⟨stringLoop_sites, stringLoop_inRange, ?_⟩
  intro keeps
  rcases keeps.expanded with ⟨fresh, found, above, -⟩
  have second : some (Instruction.refObj ⟨0⟩ ⟨65535⟩) = some (.refObj (fresh 0 1) (fresh 0 0)) :=
    found 0 ⟨0, 0, 7⟩ ⟨1⟩ rfl rfl 1 (by decide)
  have low := above 0 (by decide) 1 (by decide)
  rw [← (Instruction.refObj.inj (Option.some.inj second)).1] at low
  exact absurd low (by decide)

end Mono.BytecodeSpecializer
