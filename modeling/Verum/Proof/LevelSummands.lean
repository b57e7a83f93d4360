import Verum.Proof.LevelExactness

namespace Proof

section Order

variable {a b : Level}

theorem levelStructCmp_eq : levelStructCmp a b = .eq ↔ a = b := by
  induction a generalizing b with
  | concrete n | var x => cases b <;> simp [levelStructCmp, Level.rank]
  | succ a ih | offset a n ih => cases b <;> simp [levelStructCmp, Level.rank, ih]
  | max a a' ih ih' => cases b <;> simp [levelStructCmp, Level.rank, ih, ih']

theorem levelStructCmp_swap (a b : Level) : (levelStructCmp a b).swap = levelStructCmp b a := by
  induction a generalizing b with
  | concrete n | var x => cases b <;> simp [levelStructCmp, Level.rank, ← Std.OrientedCmp.eq_swap]
  | succ a ih => cases b <;> simp [levelStructCmp, Level.rank, ← Std.OrientedCmp.eq_swap, ih]
  | max a a' ih ih' =>
    cases b <;> simp [levelStructCmp, Level.rank, ← Std.OrientedCmp.eq_swap, Ordering.swap_then, ih, ih']
  | offset a n ih =>
    cases b <;> simp [levelStructCmp, Level.rank, ← Std.OrientedCmp.eq_swap, Ordering.swap_then, ih]

def Before (a b : Level) : Prop := levelStructCmp a b = .lt

theorem Before.irrefl (a : Level) : ¬ Before a a := by
  intro pre
  rw [Before, levelStructCmp_eq.mpr rfl] at pre
  cases pre

theorem before_total (notAfter : levelStructCmp a b ≠ .gt) : Before a b ∨ a = b := by
  cases ord : levelStructCmp a b with
  | lt => exact .inl ord
  | eq => exact .inr (levelStructCmp_eq.mp ord)
  | gt => exact absurd ord notAfter

theorem before_of_rank (lower : a.rank < b.rank) : Before a b := by
  unfold Before
  cases a <;> cases b <;> first | rfl | simp [Level.rank] at lower

theorem Before.rank_le (pre : Before a b) : a.rank ≤ b.rank := by
  unfold Before at pre
  cases a <;> cases b <;> first | cases pre; done | simp [Level.rank]

theorem before_offset {n m : UInt32} :
    Before (.offset a n) (.offset b m) ↔ Before a b ∨ a = b ∧ compare n m = .lt := by
  unfold Before
  rw [levelStructCmp, Ordering.then_eq_lt, levelStructCmp_eq]

theorem before_max {a' b' : Level} : Before (.max a a') (.max b b') ↔ Before a b ∨ a = b ∧ Before a' b' := by
  unfold Before
  rw [levelStructCmp, Ordering.then_eq_lt, levelStructCmp_eq]

theorem pair_trans {α β : Type} {r : α → α → Prop} {q : β → β → Prop} {a b c : α} {x y z : β}
    (trans : r a b → r b c → r a c) (trans' : q x y → q y z → q x z) (fst : r a b ∨ a = b ∧ q x y)
    (snd : r b c ∨ b = c ∧ q y z) : r a c ∨ a = c ∧ q x z := by
  rcases fst with lt | ⟨rfl, lt⟩
  · rcases snd with less' | ⟨rfl, -⟩
    · exact .inl (trans lt less')
    · exact .inl lt
  · rcases snd with less' | ⟨rfl, less'⟩
    · exact .inl less'
    · exact .inr ⟨rfl, trans' lt less'⟩

theorem Before.trans {c : Level} (first : Before a b) (snd : Before b c) : Before a c := by
  induction a generalizing b c with
  | concrete n | var x =>
    rcases (first.rank_le.trans snd.rank_le).lt_or_eq with lower | same
    · exact before_of_rank lower
    · have sameMiddle := le_antisymm first.rank_le (same ▸ snd.rank_le)
      cases b <;> cases c <;> first | simp [Level.rank] at same sameMiddle; done | skip
      exact @Std.TransCmp.lt_trans _ compare _ _ _ _ first snd
  | succ a ih =>
    rcases (first.rank_le.trans snd.rank_le).lt_or_eq with lower | same
    · exact before_of_rank lower
    · have sameMiddle := le_antisymm first.rank_le (same ▸ snd.rank_le)
      cases b <;> cases c <;> first | simp [Level.rank] at same sameMiddle; done | skip
      exact ih first snd
  | max a a' ih ih' =>
    rcases (first.rank_le.trans snd.rank_le).lt_or_eq with lower | same
    · exact before_of_rank lower
    · have sameMiddle := le_antisymm first.rank_le (same ▸ snd.rank_le)
      cases b <;> cases c <;> first | simp [Level.rank] at same sameMiddle; done | skip
      rw [before_max] at *
      exact pair_trans ih ih' first snd
  | offset a n ih =>
    rcases (first.rank_le.trans snd.rank_le).lt_or_eq with lower | same
    · exact before_of_rank lower
    · have sameMiddle := le_antisymm first.rank_le (same ▸ snd.rank_le)
      cases b <;> cases c <;> first | simp [Level.rank] at same sameMiddle; done | skip
      rw [before_offset] at *
      exact @pair_trans _ _ _ (fun n m => compare n m = .lt) _ _ _ _ _ _ ih Std.TransCmp.lt_trans first snd

end Order

section Arranging

def sortSummands (s : List Level) : List Level := s.insertionSort fun x y => levelStructCmp x y ≠ .gt

def arrange (s : List Level) : List Level := dedup (sortSummands s)

variable {s t : List Level}

theorem mem_dedup {x : Level} : x ∈ dedup s ↔ x ∈ s := by
  fun_induction dedup s with
  | case1 a rest ih => rw [ih]; simp
  | case2 a b rest different ih => rw [List.mem_cons, ih, List.mem_cons (a := x) (b := a)]
  | case3 s _ => exact Iff.rfl

theorem notAfter_trans {a b c : Level} (fst : levelStructCmp a b ≠ .gt) (snd : levelStructCmp b c ≠ .gt) :
    levelStructCmp a c ≠ .gt := by
  rcases before_total fst with lt | rfl
  · rcases before_total snd with less' | rfl
    · rw [lt.trans less']
      decide
    · exact fst
  · exact snd

theorem notAfter_total (a b : Level) : levelStructCmp a b ≠ .gt ∨ levelStructCmp b a ≠ .gt := by
  rw [← levelStructCmp_swap a b]
  cases levelStructCmp a b <;> decide

theorem dedup_pairwise (sorted : s.Pairwise fun x y => levelStructCmp x y ≠ .gt) : (dedup s).Pairwise Before := by
  fun_induction dedup s with
  | case1 a rest ih => exact ih sorted.of_cons
  | case2 a b rest different ih =>
    refine List.pairwise_cons.mpr ⟨?_, ih sorted.of_cons⟩
    intro y mem
    rw [mem_dedup] at mem
    have firstNext : Before a b :=
      (before_total (List.rel_of_pairwise_cons sorted List.mem_cons_self)).resolve_right different
    rcases List.mem_cons.mp mem with rfl | hl
    · exact firstNext
    · rcases before_total (List.rel_of_pairwise_cons sorted.of_cons hl) with lt | rfl
      · exact firstNext.trans lt
      · exact firstNext
  | case3 s short =>
    cases s with
    | nil => exact .nil
    | cons a rest =>
      cases rest with
      | nil => exact List.pairwise_singleton _ a
      | cons b rest => exact absurd rfl (short a b rest)

theorem mem_arrange {x : Level} : x ∈ arrange s ↔ x ∈ s := by
  unfold arrange sortSummands
  rw [mem_dedup, List.mem_insertionSort]

theorem arrange_pairwise (s : List Level) : (arrange s).Pairwise Before := by
  refine dedup_pairwise ?_
  have trans : IsTrans Level fun x y => levelStructCmp x y ≠ .gt := ⟨fun _ _ _ => notAfter_trans⟩
  have total : Std.Total fun x y : Level => levelStructCmp x y ≠ .gt := ⟨notAfter_total⟩
  exact List.pairwise_insertionSort _ s

theorem nodup_of_before (ord : s.Pairwise Before) : s.Nodup := by
  refine ord.imp ?_
  rintro a b pre rfl
  exact pre.irrefl

theorem eq_of_before (ord : s.Pairwise Before) (ordered' : t.Pairwise Before) (ms : ∀ x, x ∈ s ↔ x ∈ t) :
    s = t := by
  have perm := (List.perm_ext_iff_of_nodup (nodup_of_before ord) (nodup_of_before ordered')).mpr ms
  exact List.Perm.eq_of_pairwise (fun _ _ _ _ fst snd => absurd (fst.trans snd) (Before.irrefl _)) ord
    ordered' perm

theorem arrange_congr (ms : ∀ x, x ∈ s ↔ x ∈ t) : arrange s = arrange t :=
  eq_of_before (arrange_pairwise s) (arrange_pairwise t) fun x => by rw [mem_arrange, mem_arrange, ms]

theorem arrange_of_before (ord : s.Pairwise Before) (ms : ∀ x, x ∈ t ↔ x ∈ s) : arrange t = s :=
  eq_of_before (arrange_pairwise t) ord fun x => by rw [mem_arrange, ms]

end Arranging

section Tops

def joinConcrete : Option UInt32 → Option UInt32 → Option UInt32
  | none, b => b
  | a, none => a
  | some n, some m => some (Max.max n m)

attribute [grind =] joinConcrete

@[simp] theorem joinConcrete_none (a : Option UInt32) : joinConcrete a none = a := by cases a <;> rfl

theorem max_comm (n m : UInt32) : Max.max n m = Max.max m n := by
  rw [← UInt32.toNat_inj, toNat_max, toNat_max, Nat.max_comm]

theorem max_assoc (n m k : UInt32) : Max.max (Max.max n m) k = Max.max n (Max.max m k) := by
  rw [← UInt32.toNat_inj]
  simp only [toNat_max, Nat.max_assoc]

theorem joinConcrete_comm (a b : Option UInt32) : joinConcrete a b = joinConcrete b a := by
  cases a <;> cases b <;> simp [joinConcrete, max_comm]

theorem joinConcrete_assoc (a b c : Option UInt32) :
    joinConcrete (joinConcrete a b) c = joinConcrete a (joinConcrete b c) := by
  cases a <;> cases b <;> cases c <;> simp [joinConcrete, max_assoc]

theorem joinConcrete_self (a : Option UInt32) : joinConcrete a a = a := by
  cases a with
  | none => rfl
  | some n => rw [joinConcrete, Option.some.injEq, ← UInt32.toNat_inj, toNat_max, Nat.max_self]

theorem joinConcrete_eq_zero {a b : Option UInt32} (zero : joinConcrete a b = some 0) : a = some 0 ∨ b = some 0 := by
  cases a with
  | none => exact .inr zero
  | some n =>
    cases b with
    | none => exact .inl zero
    | some m =>
      have v := congrArg UInt32.toNat (Option.some.inj zero)
      rw [toNat_max] at v
      have isZero : n.toNat = (0 : UInt32).toNat := by
        show n.toNat = 0
        change Max.max n.toNat m.toNat = 0 at v
        omega
      exact .inl (congrArg some (UInt32.toNat_inj.mp isZero))

theorem mergeConcrete_from (concrete : Option UInt32) (s : List Level) :
    mergeConcrete concrete s = (joinConcrete concrete (mergeConcrete none s).1, (mergeConcrete none s).2) := by
  induction s generalizing concrete with
  | nil => simp [mergeConcrete]
  | cons lvl s ih =>
    cases lvl with
    | concrete n =>
      have start : (some (concrete.elim n (Max.max · n)) : Option UInt32) = joinConcrete concrete (some n) := by
        cases concrete <;> rfl
      rw [mergeConcrete, start, ih, mergeConcrete, ih (some _), ← joinConcrete_assoc]
      rfl
    | var x | succ a | max a b | offset a n => simp only [mergeConcrete, ih concrete]

theorem mergeConcrete_append (s t : List Level) :
    mergeConcrete none (s ++ t) =
      (joinConcrete (mergeConcrete none s).1 (mergeConcrete none t).1,
        (mergeConcrete none s).2 ++ (mergeConcrete none t).2) := by
  induction s with
  | nil => rfl
  | cons lvl s ih =>
    cases lvl with
    | concrete n =>
      rw [List.cons_append, mergeConcrete, mergeConcrete, mergeConcrete_from _ (s ++ t), mergeConcrete_from _ s, ih,
        ← joinConcrete_assoc]
    | var x | succ a | max a b | offset a n => simp only [List.cons_append, mergeConcrete, ih]

def Level.topConcrete (a : Level) : Option UInt32 := (mergeConcrete none (flattenMax a)).1

def Level.topSymbolic (a : Level) : List Level := (mergeConcrete none (flattenMax a)).2

/-- What `levelMaxCanonical` assembles, or factors a common successor out of. -/
def summands (a b : Level) : Option UInt32 × List Level :=
  (joinConcrete a.topConcrete b.topConcrete, arrange (a.topSymbolic ++ b.topSymbolic))

/-- `levelMaxCanonical` takes its factoring branch. -/
def Factors (a b : Level) : Prop :=
  2 ≤ (summands a b).2.length + (summands a b).1.toList.length ∧
    0 < levelCommonSuccDepth (summands a b).1 (summands a b).2

instance (a b : Level) : Decidable (Factors a b) := by
  unfold Factors
  infer_instance

def commonSuccessors (a b : Level) : UInt32 := levelCommonSuccDepth (summands a b).1 (summands a b).2

/-- The interior left when the common successor prefix is factored out. -/
def interior (a b : Level) : Level :=
  levelAssembleMax ((summands a b).1.map (saturatingSub · (commonSuccessors a b)))
    ((summands a b).2.map (levelStripSucc · (commonSuccessors a b)))

theorem levelMaxCanonical_eq (normalize : Level → Level) (a b : Level) :
    levelMaxCanonical normalize a b =
      if Factors a b then levelAddOffset (normalize (interior a b)) (commonSuccessors a b)
      else levelAssembleMax (summands a b).1 (summands a b).2 := by
  unfold levelMaxCanonical
  rw [mergeConcrete_append]
  rfl

end Tops

end Proof
