import Mathlib.Data.Finset.Sort
import Mathlib.Data.List.Lex

open List

/-- An ordered set: iterated in ascending order and compared by what it iterates over. -/
@[ext]
structure BTreeSet (α : Type) where
  toFinset : Finset α

namespace BTreeSet

variable {α : Type} [LinearOrder α]

def iter (set : BTreeSet α) : List α := set.toFinset.sort

omit [LinearOrder α] in
theorem toFinset_injective : Function.Injective (toFinset : BTreeSet α → Finset α) := fun _ _ => BTreeSet.ext

theorem iter_injective : Function.Injective (iter : BTreeSet α → List α) := by
  intro left right eq
  apply toFinset_injective
  rw [← Finset.sort_toFinset left.toFinset (· ≤ ·), ← Finset.sort_toFinset right.toFinset (· ≤ ·)]
  exact congrArg List.toFinset eq

instance : LinearOrder (BTreeSet α) := LinearOrder.lift' iter iter_injective

@[simp]
theorem mem_iter (set : BTreeSet α) (element : α) : element ∈ set.iter ↔ element ∈ set.toFinset := by
  simp [iter]

end BTreeSet

namespace Antichain

variable {C : Type} [LinearOrder C]

/-- A clause that implies a kept one is dropped; it drops the kept ones that imply it. -/
def absorb (implies : C → C → Bool) (kept : List C) (clause : C) : List C :=
  if kept.any (implies clause) then kept
  else kept.filter (fun existing => !implies existing clause) ++ [clause]

def minimal (implies : C → C → Bool) (clauses : List C) : List C :=
  (clauses.foldl (absorb implies) []).mergeSort (· ≤ ·)

/-- Sorted, and no clause implies another one. -/
structure Canonical (implies : C → C → Bool) (clauses : List C) : Prop where
  sorted : clauses.Pairwise (· < ·)
  antichain : ∀ left ∈ clauses, ∀ right ∈ clauses, implies left right = true → left = right

theorem Canonical.nil (implies : C → C → Bool) : Canonical implies [] :=
  ⟨List.Pairwise.nil, by simp⟩

theorem Canonical.singleton (implies : C → C → Bool) (clause : C) : Canonical implies [clause] :=
  ⟨pairwise_singleton _ _, by simp⟩

section Absorb

variable {implies : C → C → Bool}
variable {kept clauses : List C} {clause existing : C}

omit [LinearOrder C] in
theorem mem_of_mem_absorb (has : existing ∈ absorb implies kept clause) :
    existing ∈ kept ∨ existing = clause := by
  unfold absorb at has
  split at has
  · exact .inl has
  · rcases mem_append.mp has with old | new
    · exact .inl (mem_of_mem_filter old)
    · exact .inr (mem_singleton.mp new)

omit [LinearOrder C] in
theorem exists_absorb_implied (refl : ∀ c, implies c c = true) (has : existing ∈ kept ∨ existing = clause) :
    ∃ weaker ∈ absorb implies kept clause, implies existing weaker = true := by
  unfold absorb
  split
  · rename_i absorbed
    rcases has with old | rfl
    · exact ⟨existing, old, refl existing⟩
    · exact any_eq_true.mp absorbed
  · by_cases stronger : implies existing clause = true
    · exact ⟨clause, by simp, stronger⟩
    · rcases has with old | rfl
      · refine ⟨existing, ?_, refl existing⟩
        simp only [mem_append, mem_filter]
        exact .inl ⟨old, by simpa using stronger⟩
      · exact absurd (refl existing) stronger

omit [LinearOrder C] in
theorem absorb_pairwise
    (separate : kept.Pairwise fun left right => implies left right = false ∧ implies right left = false) :
    (absorb implies kept clause).Pairwise fun left right =>
      implies left right = false ∧ implies right left = false := by
  unfold absorb
  split
  · exact separate
  · rename_i free
    rw [pairwise_append]
    refine ⟨separate.filter _, pairwise_singleton _ _, ?_⟩
    intro existing old new isNew
    rw [mem_singleton.mp isNew]
    rw [mem_filter] at old
    simp only [any_eq_true, not_exists, not_and, Bool.not_eq_true] at free
    exact ⟨by simpa using old.2, free existing old.1⟩

omit [LinearOrder C] in
theorem mem_of_mem_foldl_absorb (has : clause ∈ clauses.foldl (absorb implies) kept) :
    clause ∈ kept ∨ clause ∈ clauses := by
  induction clauses generalizing kept with
  | nil => exact .inl has
  | cons first clauses ih =>
    rcases ih has with old | new
    · rcases mem_of_mem_absorb old with older | rfl
      · exact .inl older
      · simp
    · simp [new]

omit [LinearOrder C] in
theorem exists_foldl_absorb_implied (refl : ∀ c, implies c c = true)
    (trans : ∀ a b c, implies a b = true → implies b c = true → implies a c = true) (kept : List C)
    (has : clause ∈ kept ∨ clause ∈ clauses) :
    ∃ weaker ∈ clauses.foldl (absorb implies) kept, implies clause weaker = true := by
  induction clauses generalizing kept clause with
  | nil =>
    refine ⟨clause, ?_, refl clause⟩
    simpa using has
  | cons first clauses ih =>
    rw [mem_cons, ← or_assoc] at has
    rcases has with old | new
    · obtain ⟨middle, kept', implied⟩ := exists_absorb_implied refl old
      obtain ⟨weaker, last, implied'⟩ := ih _ (.inl kept')
      exact ⟨weaker, last, trans _ _ _ implied implied'⟩
    · exact ih _ (.inr new)

omit [LinearOrder C] in
theorem foldl_absorb_pairwise (implies : C → C → Bool) (clauses kept : List C)
    (separate : kept.Pairwise fun left right => implies left right = false ∧ implies right left = false) :
    (clauses.foldl (absorb implies) kept).Pairwise fun left right =>
      implies left right = false ∧ implies right left = false := by
  induction clauses generalizing kept with
  | nil => exact separate
  | cons first clauses ih => exact ih _ (absorb_pairwise separate)

end Absorb

section Minimal

variable {implies : C → C → Bool}
variable {clauses : List C} {clause : C}

theorem mem_of_mem_minimal (has : clause ∈ minimal implies clauses) : clause ∈ clauses := by
  rw [minimal, mem_mergeSort] at has
  simpa using mem_of_mem_foldl_absorb has

theorem exists_minimal_implied (refl : ∀ c, implies c c = true)
    (trans : ∀ a b c, implies a b = true → implies b c = true → implies a c = true) (has : clause ∈ clauses) :
    ∃ weaker ∈ minimal implies clauses, implies clause weaker = true := by
  obtain ⟨weaker, kept, implied⟩ := exists_foldl_absorb_implied refl trans [] (.inr has)
  exact ⟨weaker, by rwa [minimal, mem_mergeSort], implied⟩

theorem minimal_canonical (refl : ∀ c, implies c c = true) (clauses : List C) :
    Canonical implies (minimal implies clauses) := by
  have separate := foldl_absorb_pairwise implies clauses [] List.Pairwise.nil
  have nd : (clauses.foldl (absorb implies) []).Nodup := by
    refine separate.imp ?_
    intro left right apart eq
    rw [eq, refl right] at apart
    exact absurd apart.1 (by simp)
  have ascending : (minimal implies clauses).Pairwise (· ≤ ·) := pairwise_mergeSort' (· ≤ ·) _
  constructor
  · have nodup : (minimal implies clauses).Nodup := nodup_mergeSort.mpr nd
    exact (ascending.and nodup).imp fun both => lt_of_le_of_ne both.1 both.2
  · intro left leftMem right rightMem implied
    rw [minimal, mem_mergeSort] at leftMem rightMem
    by_contra ne
    have : Std.Symm fun left right => implies left right = false ∧ implies right left = false :=
      ⟨fun _ _ both => ⟨both.2, both.1⟩⟩
    have apart := separate.forall leftMem rightMem ne
    rw [implied] at apart
    exact absurd apart.1 (by simp)

theorem Canonical.eq_of_implied (antisymm : ∀ a b, implies a b = true → implies b a = true → a = b)
    (trans : ∀ a b c, implies a b = true → implies b c = true → implies a c = true)
    {left right : List C} (leftCanonical : Canonical implies left) (rightCanonical : Canonical implies right)
    (forth : ∀ c ∈ left, ∃ d ∈ right, implies c d = true)
    (back : ∀ d ∈ right, ∃ c ∈ left, implies d c = true) : left = right := by
  have subset {these those : List C} (canonical : Canonical implies these)
      (there : ∀ c ∈ these, ∃ d ∈ those, implies c d = true)
      (again : ∀ d ∈ those, ∃ c ∈ these, implies d c = true) : ∀ c ∈ these, c ∈ those := by
    intro clause has
    obtain ⟨other, otherMem, implied⟩ := there clause has
    obtain ⟨third, thirdMem, implied'⟩ := again other otherMem
    have eq := canonical.antichain clause has third thirdMem (trans _ _ _ implied implied')
    rw [← eq] at implied'
    rwa [antisymm _ _ implied implied']
  apply List.Perm.eq_of_pairwise' (r := (· < ·)) leftCanonical.sorted rightCanonical.sorted
  rw [perm_ext_iff_of_nodup (leftCanonical.sorted.imp ne_of_lt) (rightCanonical.sorted.imp ne_of_lt)]
  intro clause
  exact ⟨subset leftCanonical forth back clause, subset rightCanonical back forth clause⟩

theorem sup_minimal {A : Type} [SemilatticeSup A] [OrderBot A] (refl : ∀ c, implies c c = true)
    (trans : ∀ a b c, implies a b = true → implies b c = true → implies a c = true)
    (v : C → A) (monotone : ∀ a b, implies a b = true → v a ≤ v b) (clauses : List C) :
    (minimal implies clauses).toFinset.sup v = clauses.toFinset.sup v := by
  apply le_antisymm
  · apply Finset.sup_mono
    intro clause has
    rw [mem_toFinset] at has ⊢
    exact mem_of_mem_minimal has
  · apply Finset.sup_le
    intro clause has
    rw [mem_toFinset] at has
    obtain ⟨weaker, kept, implied⟩ := exists_minimal_implied refl trans has
    exact (monotone _ _ implied).trans (Finset.le_sup (f := v) (mem_toFinset.mpr kept))

end Minimal

end Antichain
