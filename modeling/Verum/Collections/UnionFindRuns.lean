import Verum.Collections.UnionFind

namespace Collections

open Partition

variable {α σ : Type}

/-- The operations on disjoint sets, whichever way these are stored. -/
structure DisjointSets (α σ : Type) where
  find : σ → α → Except Panic (α × σ)
  union : σ → α → α → Except Panic (Bool × σ)
  sameSet : σ → α → α → Except Panic (Bool × σ)
  componentSize : σ → α → Except Panic (Nat × σ)
  componentCount : σ → Int

inductive SetCall (α : Type) where
  | find (x : α)
  | union (a b : α)
  | sameSet (a b : α)
  | componentSize (x : α)

namespace SetCall

def elements : SetCall α → List α
  | find x => [x]
  | union a b => [a, b]
  | sameSet a b => [a, b]
  | componentSize x => [x]

def pairs : SetCall α → List (α × α)
  | union a b => [(a, b)]
  | _ => []

end SetCall

def DisjointSets.perform (ops : DisjointSets α σ) (sets : σ) : SetCall α → Except Panic σ
  | .find x => do
    let (_, sets) ← ops.find sets x
    .ok sets
  | .union a b => do
    let (_, sets) ← ops.union sets a b
    .ok sets
  | .sameSet a b => do
    let (_, sets) ← ops.sameSet sets a b
    .ok sets
  | .componentSize x => do
    let (_, sets) ← ops.componentSize sets x
    .ok sets

/-- The answers that belong to the equivalence closure of the pairs united. -/
structure Answers (ops : DisjointSets α σ) (accepted known : Set α) (pairs : List (α × α)) (sets : σ) : Prop where
  find : ∀ x ∈ accepted, ∃ r sets', ops.find sets x = .ok (r, sets') ∧ Joined pairs x r
  union : ∀ a ∈ accepted, ∀ b ∈ accepted,
    ∃ united sets', ops.union sets a b = .ok (united, sets') ∧ (united = true ↔ ¬ Joined pairs a b)
  sameSet : ∀ a ∈ accepted, ∀ b ∈ accepted,
    ∃ same sets', ops.sameSet sets a b = .ok (same, sets') ∧ (same = true ↔ Joined pairs a b)
  componentSize : ∀ x ∈ accepted, ∃ sets', ops.componentSize sets x = .ok ({y | Joined pairs x y}.ncard, sets')
  componentCount : ops.componentCount sets = (classes pairs known).ncard

/-- The answers are right, and a `find` changes none of them. -/
def AnswersExactly (ops : DisjointSets α σ) (accepted known : Set α) (pairs : List (α × α)) (sets : σ) : Prop :=
  Answers ops accepted known pairs sets ∧
    ∀ x ∈ accepted, ∃ r sets', ops.find sets x = .ok (r, sets') ∧ Answers ops accepted known pairs sets'

namespace UnionFindInt

def sets : DisjointSets Nat UnionFindInt := { find, union, sameSet, componentSize, componentCount }

def run (calls : List (SetCall Nat)) (uf : UnionFindInt) : Except Panic UnionFindInt := calls.foldlM sets.perform uf

variable {n : Nat} {pairs : List (Nat × Nat)} {uf : UnionFindInt}

theorem Holds.answers (hh : Holds n pairs uf) : Answers sets {x | x < n} {x | x < n} pairs uf where
  find x hin := by
    obtain ⟨r, uf', call, holds', _, leads, _⟩ := hh.find_holds hin
    exact ⟨r, uf', call, (holds'.tracks.same_iff leads (.root leads.isRoot)).mp rfl⟩
  union a insideA b insideB := by
    obtain ⟨united, uf', call, answer, _⟩ := hh.union_holds insideA insideB
    exact ⟨united, uf', call, answer⟩
  sameSet a insideA b insideB := by
    obtain ⟨eq, uf', call, answer, _⟩ := hh.sameSet_holds insideA insideB
    exact ⟨eq, uf', call, answer⟩
  componentSize x hin := by
    obtain ⟨uf', call, _⟩ := hh.componentSize_holds hin
    exact ⟨uf', call⟩
  componentCount := by
    have hr : {x | x < n} = (Finset.range n : Set Nat) := by
      ext x
      simp
    rw [hr]
    exact hh.tracks.components_eq

theorem Holds.answersExactly (hh : Holds n pairs uf) : AnswersExactly sets {x | x < n} {x | x < n} pairs uf := by
  refine ⟨hh.answers, ?_⟩
  intro x hin
  obtain ⟨r, uf', call, holds', _⟩ := hh.find_holds hin
  exact ⟨r, uf', call, holds'.answers⟩

theorem Holds.perform (hh : Holds n pairs uf) {call : SetCall Nat} (hin : ∀ x ∈ call.elements, x < n) :
    ∃ uf', sets.perform uf call = .ok uf' ∧ Holds n (call.pairs ++ pairs) uf' := by
  cases call with
  | find x =>
    obtain ⟨r, uf', call, holds', _⟩ := hh.find_holds (hin x (by simp [SetCall.elements]))
    exact ⟨uf', by simp [DisjointSets.perform, sets, call], holds'⟩
  | union a b =>
    obtain ⟨united, uf', call, _, holds'⟩ := hh.union_holds (hin a (by simp [SetCall.elements]))
      (hin b (by simp [SetCall.elements]))
    exact ⟨uf', by simp [DisjointSets.perform, sets, call], holds'⟩
  | sameSet a b =>
    obtain ⟨eq, uf', call, _, holds'⟩ := hh.sameSet_holds (hin a (by simp [SetCall.elements]))
      (hin b (by simp [SetCall.elements]))
    exact ⟨uf', by simp [DisjointSets.perform, sets, call], holds'⟩
  | componentSize x =>
    obtain ⟨uf', call, holds'⟩ := hh.componentSize_holds (hin x (by simp [SetCall.elements]))
    exact ⟨uf', by simp [DisjointSets.perform, sets, call], holds'⟩

theorem Holds.run (calls : List (SetCall Nat)) (hh : Holds n pairs uf)
    (hin : ∀ call ∈ calls, ∀ x ∈ call.elements, x < n) :
    ∃ uf' pairs', UnionFindInt.run calls uf = .ok uf' ∧ Holds n pairs' uf' ∧
      ∀ pair, pair ∈ pairs' ↔ pair ∈ pairs ∨ pair ∈ calls.flatMap SetCall.pairs := by
  induction calls generalizing uf pairs with
  | nil => exact ⟨uf, pairs, rfl, hh, by simp⟩
  | cons call calls ih =>
    obtain ⟨uf₁, step, hh⟩ := hh.perform (hin call List.mem_cons_self)
    obtain ⟨uf₂, pairs', rest, hh, ms⟩ := ih hh fun call member => hin call (.tail _ member)
    refine ⟨uf₂, pairs', ?_, hh, ?_⟩
    · rw [UnionFindInt.run, List.foldlM_cons, step, okBind]
      exact rest
    · intro pair
      rw [ms, List.mem_append, List.flatMap_cons, List.mem_append, or_comm (a := pair ∈ call.pairs), or_assoc]

end UnionFindInt

namespace UnionFind

inductive Call (T : Type) where
  | make (x : T)
  | on (call : SetCall T)

namespace Call

variable {T : Type}

def pairs : Call T → List (T × T)
  | make _ => []
  | on call => call.pairs

def registers : Call T → List T
  | make x => [x]
  | on (.union a b) => [a, b]
  | on _ => []

end Call

variable {T : Type} [DecidableEq T]

def sets : DisjointSets T (UnionFind T) := { find, union, sameSet, componentSize, componentCount }

def perform (uf : UnionFind T) : Call T → Except Panic (UnionFind T)
  | .make x => .ok (uf.make x)
  | .on call => sets.perform uf call

def run (calls : List (Call T)) (uf : UnionFind T) : Except Panic (UnionFind T) := calls.foldlM perform uf

variable {pairs : List (T × T)} {uf : UnionFind T}

theorem Holds.answers (hh : Holds pairs uf) : Answers sets Set.univ uf.known pairs uf where
  find x _ := by
    obtain ⟨r, uf', call, holds', _, leads, _⟩ := hh.find_holds x
    exact ⟨r, uf', call, (Tracks.same_iff holds' leads (.root leads.isRoot)).mp rfl⟩
  union a _ b _ := by
    obtain ⟨united, uf', call, answer, _⟩ := hh.union_holds a b
    exact ⟨united, uf', call, answer⟩
  sameSet a _ b _ := by
    obtain ⟨eq, uf', call, answer, _⟩ := hh.sameSet_holds a b
    exact ⟨eq, uf', call, answer⟩
  componentSize x _ := by
    obtain ⟨uf', call, _⟩ := hh.componentSize_holds x
    exact ⟨uf', call⟩
  componentCount := Tracks.components_eq hh

theorem Holds.answersExactly (hh : Holds pairs uf) : AnswersExactly sets Set.univ uf.known pairs uf := by
  refine ⟨hh.answers, ?_⟩
  intro x _
  obtain ⟨r, uf', call, holds', knows, _⟩ := hh.find_holds x
  exact ⟨r, uf', call, knows ▸ holds'.answers⟩

theorem Holds.perform (hh : Holds pairs uf) (call : Call T) :
    ∃ uf', uf.perform call = .ok uf' ∧ Holds (call.pairs ++ pairs) uf' ∧
      ∀ x, x ∈ uf'.known ↔ x ∈ uf.known ∨ x ∈ call.registers := by
  cases call with
  | make x =>
    obtain ⟨holds', knows⟩ := hh.make_holds x
    refine ⟨uf.make x, rfl, holds', ?_⟩
    intro y
    rw [knows, Finset.mem_insert, or_comm, Call.registers, List.mem_singleton]
  | on call =>
    cases call with
    | find x =>
      obtain ⟨r, uf', call, holds', knows, _⟩ := hh.find_holds x
      exact ⟨uf', by simp [UnionFind.perform, DisjointSets.perform, sets, call], holds', by simp [knows, Call.registers]⟩
    | union a b =>
      obtain ⟨united, uf', call, _, holds', knows⟩ := hh.union_holds a b
      refine ⟨uf', by simp [UnionFind.perform, DisjointSets.perform, sets, call], holds', ?_⟩
      intro x
      simp only [knows, Finset.mem_insert, Call.registers, List.mem_cons, List.not_mem_nil]
      tauto
    | sameSet a b =>
      obtain ⟨eq, uf', call, _, holds', knows⟩ := hh.sameSet_holds a b
      exact ⟨uf', by simp [UnionFind.perform, DisjointSets.perform, sets, call], holds', by simp [knows, Call.registers]⟩
    | componentSize x =>
      obtain ⟨uf', call, holds', knows⟩ := hh.componentSize_holds x
      exact ⟨uf', by simp [UnionFind.perform, DisjointSets.perform, sets, call], holds', by simp [knows, Call.registers]⟩

theorem Holds.run (calls : List (Call T)) (hh : Holds pairs uf) :
    ∃ uf' pairs', UnionFind.run calls uf = .ok uf' ∧ Holds pairs' uf' ∧
      (∀ pair, pair ∈ pairs' ↔ pair ∈ pairs ∨ pair ∈ calls.flatMap Call.pairs) ∧
      ∀ x, x ∈ uf'.known ↔ x ∈ uf.known ∨ x ∈ calls.flatMap Call.registers := by
  induction calls generalizing uf pairs with
  | nil => exact ⟨uf, pairs, rfl, hh, by simp, by simp⟩
  | cons call calls ih =>
    obtain ⟨uf₁, step, hh, first⟩ := hh.perform call
    obtain ⟨uf₂, pairs', rest, hh, ms, knows⟩ := ih hh
    refine ⟨uf₂, pairs', ?_, hh, ?_, ?_⟩
    · rw [UnionFind.run, List.foldlM_cons, step, okBind]
      exact rest
    · intro pair
      rw [ms, List.mem_append, List.flatMap_cons, List.mem_append, or_comm (a := pair ∈ call.pairs), or_assoc]
    · intro x
      rw [knows, first, List.flatMap_cons, List.mem_append, or_assoc]

end UnionFind

/-- Both structures compute the equivalence closure of the pairs united, over every run. -/
theorem union_find_computes_closure :
    (∀ (n : Int) (calls : List (SetCall Nat)), (∀ call ∈ calls, ∀ x ∈ call.elements, (x : Int) < n) →
      ∃ uf, UnionFindInt.run calls (.new n) = .ok uf ∧
        AnswersExactly UnionFindInt.sets {x | (x : Int) < n} {x | (x : Int) < n} (calls.flatMap SetCall.pairs) uf) ∧
    ∀ (T : Type) [DecidableEq T] (calls : List (UnionFind.Call T)),
      ∃ uf, UnionFind.run calls .new = .ok uf ∧
        AnswersExactly UnionFind.sets Set.univ {x | x ∈ calls.flatMap UnionFind.Call.registers}
          (calls.flatMap UnionFind.Call.pairs) uf := by
  constructor
  · intro n calls inside
    have below : ∀ x : Nat, (x : Int) < n ↔ x < n.toNat := by omega
    obtain ⟨uf, pairs, run, holds, members⟩ := (UnionFindInt.new_holds n).run calls
      fun call member x used => (below x).mp (inside call member x used)
    refine ⟨uf, run, ?_⟩
    simp only [below]
    apply UnionFindInt.Holds.answersExactly
    exact ⟨holds.parents, holds.ranks, holds.sizes, holds.tracks.of_mem_iff (by simp [members])⟩
  · intro T _ calls
    obtain ⟨uf, pairs, run, holds, members, knows⟩ := (UnionFind.new_holds (T := T)).run calls
    have known : {x | x ∈ calls.flatMap UnionFind.Call.registers} = (uf.known : Set T) := by
      ext x
      rw [Finset.mem_coe, knows, Set.mem_ofPred_eq, UnionFind.mem_known]
      simp [UnionFind.new]
    refine ⟨uf, run, ?_⟩
    rw [known]
    exact UnionFind.Holds.answersExactly (Tracks.of_mem_iff holds (by simp [members]))

theorem union_find_computes_closure_small :
    (∀ call ∈ ([.union 0 1, .sameSet 1 0] : List (SetCall Nat)), ∀ x ∈ call.elements, (x : Int) < 3) ∧
      ∃ uf, UnionFindInt.run [.union 0 1, .sameSet 1 0] (.new 3) = .ok uf ∧
        AnswersExactly UnionFindInt.sets {x | (x : Int) < 3} {x | (x : Int) < 3} [(0, 1)] uf := by
  have inside : ∀ call ∈ ([.union 0 1, .sameSet 1 0] : List (SetCall Nat)), ∀ x ∈ call.elements, (x : Int) < 3 := by
    decide
  exact ⟨inside, union_find_computes_closure.1 3 _ inside⟩

end Collections
