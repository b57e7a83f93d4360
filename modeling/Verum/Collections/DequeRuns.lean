import Verum.Collections.DequeRefinement

namespace Collections

open Function

/-- Calls on numbered deques; `splitOff` stores its result in `other`. -/
inductive DequeCall (T : Type) where
  | pushFront (x : Nat) (value : T)
  | pushBack (x : Nat) (value : T)
  | popFront (x : Nat)
  | popBack (x : Nat)
  | get (x : Nat) (idx : Int)
  | set (x : Nat) (idx : Int) (value : T)
  | swap (x : Nat) (i j : Int)
  | insert (x : Nat) (idx : Int) (value : T)
  | remove (x : Nat) (idx : Int)
  | reverse (x : Nat)
  | retain (x : Nat) (f : T → Bool)
  | extractIf (x : Nat) (pred : T → Bool)
  | dedup (x : Nat)
  | dedupBy (x : Nat) (same : T → T → Bool)
  | append (x other : Nat)
  | splitOff (x : Nat) (at' : Int) (other : Nat)
  | reserve (x : Nat) (additional : Int)
  | shrinkToFit (x : Nat)
  | asSlices (x : Nat)

inductive Returned (T : Type) where
  | unit
  | element (value : Option T)
  | elements (values : List T)
  | count (removed : Nat)
  | slices (first second : List T)

def Returned.joined {T : Type} : Returned T → Returned T
  | .slices first second => .elements (first ++ second)
  | returned => returned

namespace DequeCall

variable {T : Type} [BEq T] (memory : Memory)

def perform (deques : Nat → Deque T) : DequeCall T → Except Panic ((Nat → Deque T) × Returned T)
  | .pushFront x value => do
    let deque ← (deques x).pushFront memory value
    .ok (update deques x deque, .unit)
  | .pushBack x value => do
    let deque ← (deques x).pushBack memory value
    .ok (update deques x deque, .unit)
  | .popFront x => do
    let (deque, value) ← (deques x).popFront
    .ok (update deques x deque, .element value)
  | .popBack x => do
    let (deque, value) ← (deques x).popBack
    .ok (update deques x deque, .element value)
  | .get x idx => do
    let value ← (deques x).get idx
    .ok (deques, .element value)
  | .set x idx value => do
    let (deque, old) ← (deques x).set idx value
    .ok (update deques x deque, .element old)
  | .swap x i j => do
    let deque ← (deques x).swap i j
    .ok (update deques x deque, .unit)
  | .insert x idx value => do
    let deque ← (deques x).insert memory idx value
    .ok (update deques x deque, .unit)
  | .remove x idx => do
    let (deque, value) ← (deques x).remove idx
    .ok (update deques x deque, .element value)
  | .reverse x => do
    let deque ← (deques x).reverse
    .ok (update deques x deque, .unit)
  | .retain x f => do
    let deque ← (deques x).retain f
    .ok (update deques x deque, .unit)
  | .extractIf x pred => do
    let (deque, extracted) ← (deques x).extractIf pred
    .ok (update deques x deque, .elements extracted)
  | .dedup x => do
    let (deque, removed) ← (deques x).dedup
    .ok (update deques x deque, .count removed)
  | .dedupBy x same => do
    let (deque, removed) ← (deques x).dedupBy same
    .ok (update deques x deque, .count removed)
  | .append x other => do
    let (deque, emptied) ← (deques x).append memory (deques other)
    .ok (update (update deques x deque) other emptied, .unit)
  | .splitOff x at' other => do
    let (front, back) ← (deques x).splitOff memory at'
    .ok (update (update deques x front) other back, .unit)
  | .reserve x additional => do
    let deque ← (deques x).reserve memory additional
    .ok (update deques x deque, .unit)
  | .shrinkToFit x => do
    let deque ← (deques x).shrinkToFit memory
    .ok (update deques x deque, .unit)
  | .asSlices x => do
    let (first, second) ← (deques x).asSlices
    .ok (deques, .slices first second)

def performList (lists : Nat → List T) : DequeCall T → (Nat → List T) × Returned T
  | .pushFront x value => (update lists x (value :: lists x), .unit)
  | .pushBack x value => (update lists x (lists x ++ [value]), .unit)
  | .popFront x => (update lists x (lists x).tail, .element (lists x).head?)
  | .popBack x => (update lists x (lists x).dropLast, .element (lists x).getLast?)
  | .get x idx => (lists, .element (if idx < 0 then none else (lists x)[idx.toNat]?))
  | .set x idx value =>
    (update lists x (if idx < 0 then lists x else (lists x).set idx.toNat value),
      .element (if idx < 0 then none else (lists x)[idx.toNat]?))
  | .swap x i j => (update lists x (Deque.swapped (lists x) i.toNat j.toNat), .unit)
  | .insert x idx value => (update lists x ((lists x).insertIdx idx.toNat value), .unit)
  | .remove x idx =>
    (update lists x (if idx < 0 then lists x else (lists x).eraseIdx idx.toNat),
      .element (if idx < 0 then none else (lists x)[idx.toNat]?))
  | .reverse x => (update lists x (lists x).reverse, .unit)
  | .retain x f => (update lists x ((lists x).filter f), .unit)
  | .extractIf x pred =>
    (update lists x ((lists x).filter fun item => !pred item), .elements ((lists x).filter pred))
  | .dedup x =>
    let runs := (lists x).destutter fun a b => (b != a) = true
    (update lists x runs, .count ((lists x).length - runs.length))
  | .dedupBy x same =>
    let runs := (lists x).destutter fun a b => ¬ same a b = true
    (update lists x runs, .count ((lists x).length - runs.length))
  | .append x other => (update (update lists x (lists x ++ lists other)) other [], .unit)
  | .splitOff x at' other =>
    (update (update lists x ((lists x).take at'.toNat)) other ((lists x).drop at'.toNat), .unit)
  | .reserve _ _ => (lists, .unit)
  | .shrinkToFit _ => (lists, .unit)
  | .asSlices x => (lists, .elements (lists x))

/-- The asserted bounds hold, and a deque is not appended to itself. -/
def InRange (lists : Nat → List T) : DequeCall T → Prop
  | .swap x i j => (0 ≤ i ∧ i < (lists x).length) ∧ 0 ≤ j ∧ j < (lists x).length
  | .insert x idx _ => 0 ≤ idx ∧ idx ≤ (lists x).length
  | .splitOff x at' _ => 0 ≤ at' ∧ at' ≤ (lists x).length
  | .append x other => x ≠ other
  | _ => True

/-- The layout of a deque and its elements, read off the buffer from the head on. -/
structure Stores (deque : Deque T) (xs : List T) : Prop where
  layout : deque.cap = 0 ∧ deque.head = 0 ∨ (∃ k, deque.cap = 2 ^ k) ∧ deque.head < deque.cap
  len_le : deque.len ≤ deque.cap
  length : deque.len = xs.length
  cells : ∀ i < xs.length, deque.data ((deque.head + i) % deque.cap) = xs[i]?

omit [BEq T] in
theorem stores_of_represents {deque : Deque T} {xs : List T} (rep : Deque.Represents deque xs) :
    Stores deque xs where
  layout := rep.layout
  len_le := rep.len_le
  length := rep.length
  cells i hr := by
    have length := rep.length
    have hb := rep.len_le
    rw [← rep.wrapIndex_eq (by omega), ← rep.cells i hr]
    rfl

section Steps

variable {memory} {deques : Nat → Deque T} {lists : Nat → List T}

abbrev AllRepresent (deques : Nat → Deque T) (lists : Nat → List T) : Prop :=
  ∀ x, Deque.Represents (deques x) (lists x)

omit [BEq T] in
theorem allRepresent_update (represent : AllRepresent deques lists) {deque : Deque T} {xs : List T}
    (rep : Deque.Represents deque xs) (x : Nat) :
    AllRepresent (update deques x deque) (update lists x xs) := by
  intro y
  rw [update_apply, update_apply]
  split
  · exact rep
  · exact represent y

omit [BEq T] in
theorem update_succeeds (represent : AllRepresent deques lists) {out : Except Panic (Deque T)} {xs : List T}
    (x : Nat) (succeeds : Succeeds out fun deque => Deque.Represents deque xs) :
    Succeeds (do let deque ← out; .ok (update deques x deque, (Returned.unit : Returned T))) fun res =>
      AllRepresent res.1 (update lists x xs) ∧ res.2.joined = .unit :=
  succeeds.bind fun _ rep => .ok ⟨allRepresent_update represent rep x, rfl⟩

omit [BEq T] in
theorem update_returns {α : Type} (represent : AllRepresent deques lists) {out : Except Panic (Deque T × α)}
    {xs : List T} {v : α} (x : Nat) (ret : α → Returned T) (plain : (ret v).joined = ret v)
    (succeeds : Succeeds out fun res => Deque.Represents res.1 xs ∧ res.2 = v) :
    Succeeds (do let (deque, v) ← out; .ok (update deques x deque, ret v)) fun res =>
      AllRepresent res.1 (update lists x xs) ∧ res.2.joined = ret v := by
  refine succeeds.bind ?_
  rintro ⟨deque, hit⟩ ⟨rep, rfl⟩
  exact .ok ⟨allRepresent_update represent rep x, plain⟩

theorem perform_succeeds (represent : AllRepresent deques lists) (call : DequeCall T) (hr : call.InRange lists) :
    Succeeds (perform memory deques call) fun res =>
      AllRepresent res.1 (performList lists call).1 ∧ res.2.joined = (performList lists call).2 := by
  cases call with
  | pushFront x v => exact update_succeeds represent x (Deque.pushFront_succeeds (represent x) v)
  | pushBack x v => exact update_succeeds represent x (Deque.pushBack_succeeds (represent x) v)
  | popFront x => exact update_returns represent x .element rfl (Deque.popFront_succeeds (represent x))
  | popBack x => exact update_returns represent x .element rfl (Deque.popBack_succeeds (represent x))
  | get x idx =>
    refine (Deque.get_succeeds (represent x) idx).bind ?_
    rintro v rfl
    exact .ok ⟨represent, rfl⟩
  | set x idx v => exact update_returns represent x .element rfl (Deque.set_succeeds (represent x) idx v)
  | swap x i j =>
    obtain ⟨⟨pos, hlt⟩, positive', below'⟩ := hr
    obtain ⟨i, rfl⟩ := Int.eq_ofNat_of_zero_le pos
    obtain ⟨j, rfl⟩ := Int.eq_ofNat_of_zero_le positive'
    exact update_succeeds represent x (Deque.swap_succeeds (represent x) (by omega) (by omega))
  | insert x idx v =>
    obtain ⟨pos, hlt⟩ := hr
    obtain ⟨idx, rfl⟩ := Int.eq_ofNat_of_zero_le pos
    exact update_succeeds represent x (Deque.insert_succeeds (represent x) (by omega) v)
  | remove x idx => exact update_returns represent x .element rfl (Deque.remove_succeeds (represent x) idx)
  | reverse x => exact update_succeeds represent x (Deque.reverse_succeeds (represent x))
  | retain x f => exact update_succeeds represent x (Deque.retain_spec (represent x) f)
  | extractIf x pred => exact update_returns represent x .elements rfl (Deque.extractIf_spec (represent x) pred)
  | dedup x =>
    have spec := Deque.dedupBy_spec (represent x) fun prev item => !(item != prev)
    simp only [Bool.not_eq_true, Bool.not_eq_false'] at spec
    exact update_returns represent x .count rfl spec
  | dedupBy x eq => exact update_returns represent x .count rfl (Deque.dedupBy_spec (represent x) eq)
  | append x other =>
    refine (Deque.append_succeeds (represent x) (represent other)).bind ?_
    rintro ⟨deque, emptied⟩ ⟨longer, empty⟩
    exact .ok ⟨allRepresent_update (allRepresent_update represent longer x) empty other, rfl⟩
  | splitOff x at' other =>
    obtain ⟨pos, hlt⟩ := hr
    obtain ⟨at', rfl⟩ := Int.eq_ofNat_of_zero_le pos
    refine (Deque.splitOff_succeeds (represent x) (by omega)).bind ?_
    rintro ⟨deque, split⟩ ⟨front, back⟩
    exact .ok ⟨allRepresent_update (allRepresent_update represent front x) back other, rfl⟩
  | reserve x additional =>
    have kept : Succeeds ((deques x).reserve memory additional) fun deque => Deque.Represents deque (lists x) :=
      Deque.reserve_succeeds (represent x) additional
    have succeeds := update_succeeds represent x kept
    rwa [update_eq_self] at succeeds
  | shrinkToFit x =>
    have kept : Succeeds ((deques x).shrinkToFit memory) fun deque => Deque.Represents deque (lists x) :=
      Deque.shrinkToFit_succeeds (represent x)
    have succeeds := update_succeeds represent x kept
    rwa [update_eq_self] at succeeds
  | asSlices x =>
    refine (Deque.asSlices_succeeds (represent x)).bind ?_
    rintro ⟨fst, snd⟩ joined
    exact .ok ⟨represent, congrArg Returned.elements joined⟩

end Steps

section Runs

def run (deques : Nat → Deque T) : List (DequeCall T) → Except Panic ((Nat → Deque T) × List (Returned T))
  | [] => .ok (deques, [])
  | call :: calls => do
    let (deques, returned) ← perform memory deques call
    let (deques, later) ← run deques calls
    .ok (deques, returned :: later)

def runList (lists : Nat → List T) : List (DequeCall T) → (Nat → List T) × List (Returned T)
  | [] => (lists, [])
  | call :: calls =>
    let (lists, returned) := performList lists call
    let (lists, later) := runList lists calls
    (lists, returned :: later)

def InRangeFrom (lists : Nat → List T) : List (DequeCall T) → Prop
  | [] => True
  | call :: calls => call.InRange lists ∧ InRangeFrom (performList lists call).1 calls

theorem run_succeeds {deques : Nat → Deque T} {lists : Nat → List T} (represent : AllRepresent deques lists)
    (calls : List (DequeCall T)) (hr : InRangeFrom lists calls) :
    Succeeds (run memory deques calls) fun res =>
      AllRepresent res.1 (runList lists calls).1 ∧ res.2.map Returned.joined = (runList lists calls).2 := by
  induction calls generalizing deques lists with
  | nil => exact .ok ⟨represent, rfl⟩
  | cons call calls ih =>
    obtain ⟨fst, hl⟩ := hr
    refine (perform_succeeds represent call fst).bind ?_
    rintro ⟨deques, ret⟩ ⟨represent, joined⟩
    refine (ih represent hl).bind ?_
    rintro ⟨deques, returneds⟩ ⟨represent, joineds⟩
    exact .ok ⟨represent, congrArg₂ List.cons joined joineds⟩

theorem run_refines (memory : Memory) (calls : List (DequeCall T)) (inRange : InRangeFrom (fun _ => []) calls) :
    Succeeds (run memory (fun _ => Deque.new) calls) fun result =>
      (∀ x, Stores (result.1 x) ((runList (fun _ => []) calls).1 x)) ∧
        result.2.map Returned.joined = (runList (fun _ => []) calls).2 :=
  (run_succeeds memory (fun _ => Deque.represents_new) calls inRange).mono fun _ refined =>
    ⟨fun x => stores_of_represents (refined.1 x), refined.2⟩

/-- Front and back insertions, an insertion in the middle, a removal and a reversal, with memory for
every request. -/
def sampleCalls : List (DequeCall Nat) :=
  [.pushBack 0 1, .pushFront 0 2, .pushBack 0 3, .insert 0 1 4, .pushFront 0 5, .remove 0 2, .reverse 0,
    .splitOff 0 2 1, .append 0 1, .asSlices 0]

theorem run_refines_sample :
    (∃ result, run ⟨8, fun _ => true⟩ (fun _ => Deque.new) sampleCalls = .ok result) ∧
      InRangeFrom (fun _ => []) sampleCalls ∧
      Succeeds (run ⟨8, fun _ => true⟩ (fun _ => Deque.new) sampleCalls) fun result =>
        (∀ x, Stores (result.1 x) ((runList (fun _ => []) sampleCalls).1 x)) ∧
          result.2.map Returned.joined = (runList (fun _ => []) sampleCalls).2 := by
  have inRange : InRangeFrom (fun _ => []) sampleCalls := by
    simp [sampleCalls, InRangeFrom, InRange, performList]
  exact ⟨⟨_, rfl⟩, inRange, run_refines ⟨8, fun _ => true⟩ sampleCalls inRange⟩

end Runs

end DequeCall

end Collections
