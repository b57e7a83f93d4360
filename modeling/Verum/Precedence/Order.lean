import Mathlib.Data.Set.Finite.List

open List

namespace Precedence

open Relation

variable {α : Type*} {pairs : List (α × α)} {order : List α} {a b c x : α}

def Before (pairs : List (α × α)) (a b : α) : Prop := (a, b) ∈ pairs

def Acyclic (pairs : List (α × α)) : Prop := ∀ c, ¬ TransGen (Before pairs) c c

/-- A cycle leads to the element, so that it can never come next. -/
def Blocked (pairs : List (α × α)) (x : α) : Prop :=
  ∃ c, TransGen (Before pairs) c c ∧ ReflTransGen (Before pairs) c x

theorem not_cycle_of_acc (accessible : Acc (Before pairs) x) : ¬ TransGen (Before pairs) x x := by
  replace accessible := accessible.transGen
  induction accessible with
  | intro x accessible ih =>
    intro cycle
    exact ih x cycle cycle

theorem acc_of_path (accessible : Acc (Before pairs) x) (path : ReflTransGen (Before pairs) c x) :
    Acc (Before pairs) c := by
  induction path with
  | refl => exact accessible
  | tail _ step ih => exact ih (accessible.inv step)

theorem acc_iff_not_blocked : Acc (Before pairs) x ↔ ¬ Blocked pairs x := by
  constructor
  · rintro accessible ⟨c, cycle, path⟩
    exact not_cycle_of_acc (acc_of_path accessible path) cycle
  · intro free
    -- the elements before `x` are finitely many, and none of them lies on a cycle
    let Earlier := {y : α // TransGen (Before pairs) y x}
    have finite : Finite Earlier := by
      apply (Set.Finite.subset (finite_toSet (pairs.map Prod.fst)) _).to_subtype
      intro y path
      obtain ⟨z, step, _⟩ := TransGen.head'_iff.mp path
      exact mem_map.mpr ⟨(y, z), step, rfl⟩
    let R : Earlier → Earlier → Prop := fun y z => TransGen (Before pairs) y.1 z.1
    have trans : IsTrans Earlier R := ⟨fun _ _ _ first snd => first.trans snd⟩
    have irrefl : Std.Irrefl R := ⟨fun y cycle => free ⟨y.1, cycle, y.2.to_reflTransGen⟩⟩
    have wellFounded : WellFounded R := Finite.wellFounded_of_trans_of_irrefl R
    have accessible : ∀ y : Earlier, Acc (Before pairs) y.1 := by
      intro y
      induction y using wellFounded.induction with
      | _ y ih =>
        constructor
        intro z step
        exact ih ⟨z, .head step y.2⟩ (.single step)
    constructor
    intro y step
    exact accessible ⟨y, .single step⟩

theorem acyclic_iff_not_blocked : Acyclic pairs ↔ ∀ x, ¬ Blocked pairs x := by
  constructor
  · rintro acyclic x ⟨c, cycle, _⟩
    exact acyclic c cycle
  · intro free c cycle
    exact free c ⟨c, cycle, .refl⟩

/-- Every element of the list follows all the elements that have to come before it. -/
def Ordered (pairs : List (α × α)) (order : List α) : Prop :=
  ∀ front x back, order = front ++ x :: back → ∀ a, Before pairs a x → a ∈ front

theorem Ordered.snoc (ord : Ordered pairs order) (earlier : ∀ a, Before pairs a x → a ∈ order) :
    Ordered pairs (order ++ [x]) := by
  intro front y back split a pre
  rcases eq_nil_or_concat back with rfl | ⟨back, last, rfl⟩
  · obtain ⟨rfl, eq⟩ := append_inj' split rfl
    cases eq
    exact earlier a pre
  · rw [concat_eq_append, ← cons_append, ← append_assoc] at split
    exact ord front y back (append_inj' split rfl).1 a pre

theorem Ordered.acc (ord : Ordered pairs order) {front back : List α} (split : order = front ++ back) :
    ∀ x ∈ front, Acc (Before pairs) x := by
  induction front using List.reverseRecOn generalizing back with
  | nil => exact fun x mem => absurd mem not_mem_nil
  | append_singleton front last ih =>
    rw [append_assoc, singleton_append] at split
    have earlier := ih split
    intro x mem
    rcases mem_append.mp mem with mem | mem
    · exact earlier x mem
    · rw [mem_singleton] at mem
      subst mem
      constructor
      intro a pre
      exact earlier a (ord front x back split a pre)

theorem Ordered.idxOf_lt [DecidableEq α] (ord : Ordered pairs order) (pre : Before pairs a b)
    (hin : b ∈ order) : order.idxOf a < order.idxOf b := by
  obtain ⟨front, back, split, hf⟩ := eq_append_cons_of_mem hin
  have earlier := ord front b back split a pre
  rw [split, idxOf_append_of_mem earlier, idxOf_append_of_notMem hf, idxOf_cons_self]
  exact idxOf_lt_length_of_mem earlier

end Precedence
