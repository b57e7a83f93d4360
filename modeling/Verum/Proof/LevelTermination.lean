import Verum.Proof.Level

namespace Proof

theorem weight_levelOffsetNode (base : Level) (n : UInt32) :
    (levelOffsetNode base n).weight ≤ base.weight + n.toNat := by
  simp only [levelOffsetNode]
  split
  · omega
  · next nz =>
    have pos : n.toNat ≠ 0 := fun zero => nz (UInt32.toNat.inj zero)
    split
    · simp only [Level.weight]; omega
    · simp only [Level.weight]; omega

theorem weight_levelAddOffset (base : Level) (amount : UInt32) :
    (levelAddOffset base amount).weight ≤ base.weight + amount.toNat := by
  fun_induction levelAddOffset base amount with
  | case1 base => omega
  | case2 amount nz n next hf => simp [Level.weight]
  | case3 amount nz n wide =>
    have excess := toNat_excess wide
    have hb := UInt32.toNat_lt n
    have node := weight_levelOffsetNode (.concrete (UInt32.ofNat (2 ^ 32 - 1)))
      (amount - (UInt32.ofNat (2 ^ 32 - 1) - n))
    simp only [Level.weight] at node ⊢
    omega
  | case4 amount nz inner sum hf ih =>
    rw [checkedAdd_some hf] at ih
    have one : (1 : UInt32).toNat = 1 := rfl
    simp only [Level.weight]
    omega
  | case5 _ _ _ _ | case7 _ _ _ _ _ | case8 _ _ _ => exact weight_levelOffsetNode _ _
  | case6 amount nz inner prior sum hf ih =>
    rw [checkedAdd_some hf] at ih
    simp only [Level.weight]
    omega

theorem weight_levelStripSucc (lvl : Level) (n : UInt32)
    (available : n.toNat ≤ lvl.headSuccessors) :
    (levelStripSucc lvl n).weight + n.toNat ≤ lvl.weight := by
  fun_induction levelStripSucc lvl n with
  | case1 lvl => simp
  | case2 n nz inner ih =>
    have pred := toNat_pred nz
    simp only [Level.headSuccessors] at available
    have step := ih (by omega)
    simp only [Level.weight]
    omega
  | case3 n nz inner amount le ih =>
    have within := UInt32.le_iff_toNat_le.mp le
    have less := UInt32.toNat_sub_of_le _ _ le
    simp only [Level.headSuccessors] at available
    have step := ih (by omega)
    simp only [Level.weight]
    omega
  | case4 n nz inner amount more =>
    have within : n ≤ amount := UInt32.le_of_lt (UInt32.not_le.mp more)
    have less := UInt32.toNat_sub_of_le _ _ within
    have bound := UInt32.le_iff_toNat_le.mp within
    have added := weight_levelAddOffset inner (amount - n)
    simp only [Level.weight]
    omega
  | case5 lvl n nz notSucc notOffset =>
    cases lvl with
    | succ inner => exact absurd rfl (notSucc inner)
    | offset inner amount => exact absurd rfl (notOffset inner amount)
    | _ =>
      simp only [Level.headSuccessors] at available
      omega

def mass (summands : List Level) : Nat := (summands.map fun level => level.weight + 1).sum

@[simp] theorem mass_nil : mass [] = 0 := rfl

@[simp] theorem mass_cons (lvl : Level) (rest : List Level) :
    mass (lvl :: rest) = lvl.weight + 1 + mass rest := by simp [mass]

@[simp] theorem mass_append (front back : List Level) : mass (front ++ back) = mass front + mass back := by
  simp [mass]

theorem mass_perm {front back : List Level} (perm : front.Perm back) : mass front = mass back := by
  induction perm with
  | nil => rfl
  | cons lvl _ ih => simp [ih]
  | swap a b rest => simp only [mass_cons]; omega
  | trans _ _ fst snd => exact fst.trans snd

theorem mass_flattenMax (lvl : Level) : mass (flattenMax lvl) = lvl.weight + 1 := by
  induction lvl with
  | max a b iha ihb => simp [flattenMax, iha, ihb, Level.weight]; omega
  | _ => simp [flattenMax]

theorem mass_dedup (ss : List Level) : mass (dedup ss) ≤ mass ss := by
  fun_induction dedup ss with
  | case1 b rest ih => rw [mass_cons]; omega
  | case2 a b rest ne ih => simp only [mass_cons] at ih ⊢; omega
  | case3 short => exact Nat.le_refl _

theorem mass_mergeConcrete (conc : Option UInt32) (ss : List Level) :
    2 * (mergeConcrete conc ss).1.toList.length + mass (mergeConcrete conc ss).2 ≤
      2 * conc.toList.length + mass ss := by
  fun_induction mergeConcrete conc ss with
  | case1 conc => exact Nat.le_refl _
  | case2 conc n rest ih =>
    simp only [mass_cons, Level.weight, Option.toList_some, List.length_singleton] at ih ⊢
    omega
  | case3 conc other rest symbolic ih =>
    simp only [mass_cons] at ih ⊢
    omega

theorem weight_foldl_max (earlier : List Level) (last : Level) :
    (earlier.foldl (fun acc x => Level.max x acc) last).weight = mass earlier + last.weight := by
  induction earlier generalizing last with
  | nil => simp
  | cons lvl rest ih =>
    rw [List.foldl_cons, ih]
    simp only [Level.weight, mass_cons]
    omega

theorem weight_levelAssembleMax (conc : Option UInt32) (symbolic : List Level)
    (ne : symbolic ≠ []) :
    (levelAssembleMax conc symbolic).weight + 1 ≤ 2 * conc.toList.length + mass symbolic := by
  simp only [levelAssembleMax]
  generalize (conc == some 0 && !symbolic.isEmpty) = dropZero
  have total : mass (((if dropZero then none else conc).map Level.concrete).toList ++ symbolic) ≤
      2 * conc.toList.length + mass symbolic := by
    cases dropZero <;> cases conc <;> simp [Level.weight]
  rw [← mass_perm (List.reverse_perm _)] at total
  split
  · next empty => simp [ne] at empty
  · next last earlier reversed =>
    rw [reversed, mass_cons] at total
    rw [weight_foldl_max]
    omega

theorem mass_levelStripSucc (n : UInt32) (symbolic : List Level)
    (available : ∀ lvl ∈ symbolic, n.toNat ≤ lvl.headSuccessors) :
    mass (symbolic.map (levelStripSucc · n)) + symbolic.length * n.toNat ≤ mass symbolic := by
  induction symbolic with
  | nil => simp
  | cons lvl rest ih =>
    have head := weight_levelStripSucc lvl n (available lvl (by simp))
    have tail := ih fun lvl mem => available lvl (by simp [mem])
    simp only [List.map_cons, mass_cons, List.length_cons, Nat.add_mul]
    omega

theorem levelMaxCanonical_cases (a b : Level) :
    (∃ lvl, lvl.weight ≤ a.weight + b.weight + 1 ∧
      ∀ normalize, levelMaxCanonical normalize a b = lvl) ∨
    ∃ lvl n, lvl.weight ≤ a.weight + b.weight ∧
      lvl.weight + n.toNat ≤ a.weight + b.weight + 1 ∧
      ∀ normalize, levelMaxCanonical normalize a b = levelAddOffset (normalize lvl) n := by
  simp only [levelMaxCanonical]
  have merged := mass_mergeConcrete none (flattenMax a ++ flattenMax b)
  simp only [mass_append, mass_flattenMax, Option.toList_none, List.length_nil] at merged
  generalize mergeConcrete none (flattenMax a ++ flattenMax b) = split at merged ⊢
  obtain ⟨conc, ss⟩ := split
  have sorted : mass (dedup (ss.insertionSort fun x y => levelStructCmp x y ≠ .gt)) ≤
      mass ss := by
    rw [← mass_perm (List.perm_insertionSort (fun x y => levelStructCmp x y ≠ .gt) ss)]
    exact mass_dedup _
  simp only at merged ⊢
  generalize dedup (ss.insertionSort fun x y => levelStructCmp x y ≠ .gt) = symbolic at sorted ⊢
  split
  · next factored =>
    obtain ⟨two, pos⟩ := factored
    have least := (levelCommonSuccDepth_le conc symbolic).1
    generalize levelCommonSuccDepth conc symbolic = n at least pos ⊢
    have counted : 0 < n.toNat := UInt32.lt_iff_toNat_lt.mp pos
    have ne : symbolic ≠ [] := by
      intro empty
      subst empty
      cases conc <;> simp at two
    have stripped := mass_levelStripSucc n symbolic least
    have inner := weight_levelAssembleMax (conc.map (saturatingSub · n))
      (symbolic.map (levelStripSucc · n)) (by simpa using ne)
    have eq : (conc.map (saturatingSub · n)).toList.length = conc.toList.length := by
      cases conc <;> rfl
    have several : n.toNat ≤ symbolic.length * n.toNat :=
      Nat.le_mul_of_pos_left _ (List.length_pos_iff.mpr ne)
    rw [eq] at inner
    exact .inr ⟨_, n, by omega, by omega, fun _ => rfl⟩
  · refine .inl ⟨_, ?_, fun _ => rfl⟩
    rcases symbolic with _ | ⟨lvl, rest⟩
    · cases conc <;> simp [levelAssembleMax, Level.weight]
    · have assembled := weight_levelAssembleMax conc (lvl :: rest) (by simp)
      omega

theorem weight_pos (lvl : Level) : 0 < lvl.weight := by
  cases lvl <;> simp only [Level.weight] <;> omega

theorem normalizeWithin_stable (bound : Nat) (lvl : Level) (he : lvl.weight ≤ bound) :
    (lvl.normalizeWithin bound).weight ≤ lvl.weight ∧
      lvl.normalizeWithin (bound + 1) = lvl.normalizeWithin bound := by
  induction bound generalizing lvl with
  | zero =>
    have pos := weight_pos lvl
    omega
  | succ bound ih =>
    cases lvl with
    | concrete n | var name => exact ⟨Nat.le_refl _, rfl⟩
    | succ inner =>
      obtain ⟨lighter, stable⟩ := ih inner (by simp only [Level.weight] at he; omega)
      have added := weight_levelAddOffset (inner.normalizeWithin bound) 1
      have one : (1 : UInt32).toNat = 1 := rfl
      refine ⟨?_, by simp only [Level.normalizeWithin, stable]⟩
      simp only [Level.normalizeWithin, Level.weight]
      omega
    | offset base amount =>
      obtain ⟨lighter, stable⟩ := ih base (by simp only [Level.weight] at he; omega)
      have added := weight_levelAddOffset (base.normalizeWithin bound) amount
      refine ⟨?_, by simp only [Level.normalizeWithin, stable]⟩
      simp only [Level.normalizeWithin, Level.weight]
      omega
    | max a b =>
      simp only [Level.weight] at he
      obtain ⟨lighterA, stableA⟩ := ih a (by omega)
      obtain ⟨lighterB, stableB⟩ := ih b (by omega)
      simp only [Level.normalizeWithin, Level.weight, stableA, stableB]
      rcases levelMaxCanonical_cases (a.normalizeWithin bound) (b.normalizeWithin bound) with
        ⟨lvl, weight, canonical⟩ | ⟨lvl, count, inner, weight, canonical⟩
      · rw [canonical, canonical]
        exact ⟨by omega, rfl⟩
      · obtain ⟨lighter, stable⟩ := ih lvl (by omega)
        have added := weight_levelAddOffset (lvl.normalizeWithin bound) count
        rw [canonical, canonical, stable]
        exact ⟨by omega, rfl⟩

theorem normalizeWithin_eq (hb : Nat) (lvl : Level) (he : lvl.weight ≤ hb) :
    lvl.normalizeWithin hb = lvl.normalize := by
  induction hb, he using Nat.le_induction with
  | base => rfl
  | succ hb he ih => rw [(normalizeWithin_stable hb lvl he).2, ih]

theorem normalize_max (a b : Level) :
    (Level.max a b).normalize = levelMaxCanonical Level.normalize a.normalize b.normalize := by
  have left := normalizeWithin_eq (a.weight + b.weight) a (by omega)
  have right := normalizeWithin_eq (a.weight + b.weight) b (by omega)
  have lighterA := (normalizeWithin_stable a.weight a (Nat.le_refl _)).1
  have lighterB := (normalizeWithin_stable b.weight b (Nat.le_refl _)).1
  change (Level.max a b).normalizeWithin (a.weight + b.weight + 1) = _
  simp only [Level.normalizeWithin, left, right]
  rcases levelMaxCanonical_cases a.normalize b.normalize with
    ⟨lvl, weight, canonical⟩ | ⟨lvl, n, inner, weight, canonical⟩
  · rw [canonical, canonical]
  · have he : lvl.weight ≤ a.weight + b.weight := Nat.le_trans inner (Nat.add_le_add lighterA lighterB)
    rw [canonical, canonical, normalizeWithin_eq _ lvl he]

end Proof
