import Verum.Collections.MapRefinement

namespace Collections

inductive MapCall (K V : Type) where
  | insert (key : K) (value : V)
  | remove (key : K)
  | removeEntry (key : K)
  | clear
  | reserve (additional : Int)
  | get (key : K)
  | getKeyValue (key : K)
  | containsKey (key : K)
  | len
  deriving DecidableEq

inductive Answer (K V : Type) where
  | unit
  | value (found : Option V)
  | entry (found : Option (K × V))
  | present (found : Bool)
  | count (len : Nat)
  deriving DecidableEq

namespace Map

variable {K V : Type} [BEq K]

instance (map : Map K V) (key : K) : Decidable (map.Absent key) :=
  decidable_of_iff (∀ j < map.cap, 0 < (map.entries j).hash → ∀ entry ∈ (map.entries j).contents, ¬ (entry.1 == key)) <| by
    constructor
    · intro all j inRange entry positive isEntry
      exact all j inRange positive entry isEntry
    · intro absent j inRange positive entry isEntry
      exact absent j inRange entry positive isEntry

instance (map : Map K V) (hash : Int) (t : Nat) : Decidable (map.Reuses hash t) :=
  inferInstanceAs (Decidable (_ ∧ _))

instance (map : Map K V) (hash : Int) (psl r : Nat) : Decidable (map.Harmless hash psl r) :=
  inferInstanceAs (Decidable (∀ j < map.cap, 0 < (map.entries j).hash → ∀ d < (map.entries j).psl, _ → _))

instance (hashValue : K → Int) (map : Map K V) (key : K) : Decidable (KeepsOrder hashValue map key) :=
  inferInstanceAs (Decidable (∀ t < map.cap, _ → _))

end Map

namespace MapCall

open Association

variable {K V : Type} [BEq K] (memory : Memory) (hashValue : K → Int)

def perform (map : Map K V) : MapCall K V → Except Panic (Map K V × Answer K V)
  | .insert key value => do
    let (map, old) ← map.insert memory hashValue key value
    .ok (map, .value old)
  | .remove key => do
    let (map, removed) ← map.remove memory hashValue key
    .ok (map, .value removed)
  | .removeEntry key => do
    let (map, removed) ← map.removeEntry memory hashValue key
    .ok (map, .entry removed)
  | .clear => .ok (map.clear, .unit)
  | .reserve additional => do
    let map ← map.reserve memory additional
    .ok (map, .unit)
  | .get key => do
    let found ← map.get hashValue key
    .ok (map, .value found)
  | .getKeyValue key => do
    let found ← map.getKeyValue hashValue key
    .ok (map, .entry found)
  | .containsKey key => do
    let found ← map.containsKey hashValue key
    .ok (map, .present found)
  | .len => .ok (map, .count map.len)

def performAssociation (entries : List (K × V)) : MapCall K V → List (K × V) × Answer K V
  | .insert key value => (assign entries key value, .value ((lookup entries key).map Prod.snd))
  | .remove key => (erase entries key, .value ((lookup entries key).map Prod.snd))
  | .removeEntry key => (erase entries key, .entry (lookup entries key))
  | .clear => ([], .unit)
  | .reserve _ => (entries, .unit)
  | .get key => (entries, .value ((lookup entries key).map Prod.snd))
  | .getKeyValue key => (entries, .entry (lookup entries key))
  | .containsKey key => (entries, .present (lookup entries key).isSome)
  | .len => (entries, .count entries.length)

/-- The hash has an absolute value, and an insertion into a table that is not rebuilt first keeps the
order of the table. -/
def Safe (map : Map K V) : MapCall K V → Prop
  | .insert key _ => hashValue key ≠ -2 ^ 63 ∧
    (map.len + map.tombstones < map.cap * loadFactorNum / loadFactorDen → map.KeepsOrder hashValue key)
  | _ => True

instance (map : Map K V) : (call : MapCall K V) → Decidable (call.Safe hashValue map)
  | .insert _ _ => inferInstanceAs (Decidable (_ ∧ (_ → _)))
  | .remove _ | .removeEntry _ | .clear | .reserve _ | .get _ | .getKeyValue _ | .containsKey _ | .len => .isTrue trivial

def run (map : Map K V) : List (MapCall K V) → Except Panic (Map K V × List (Answer K V))
  | [] => .ok (map, [])
  | call :: calls => do
    let (map, answer) ← perform memory hashValue map call
    let (map, answers) ← run map calls
    .ok (map, answer :: answers)

def runAssociation (entries : List (K × V)) : List (MapCall K V) → List (K × V) × List (Answer K V)
  | [] => (entries, [])
  | call :: calls =>
    let (entries, answer) := performAssociation entries call
    let (entries, answers) := runAssociation entries calls
    (entries, answer :: answers)

/-- Every call is safe in the state that the calls before it have led to. -/
def SafeFrom (map : Map K V) : List (MapCall K V) → Prop
  | [] => True
  | call :: calls => call.Safe hashValue map ∧
    match perform memory hashValue map call with
    | .ok (map, _) => SafeFrom map calls
    | .error _ => True

instance decidableSafeFrom : (map : Map K V) → (calls : List (MapCall K V)) →
    Decidable (SafeFrom memory hashValue map calls)
  | _, [] => .isTrue trivial
  | map, call :: calls =>
    let later : Decidable (match perform memory hashValue map call with
        | .ok (map, _) => SafeFrom memory hashValue map calls
        | .error _ => True) :=
      match perform memory hashValue map call with
      | .ok (map, _) => decidableSafeFrom map calls
      | .error _ => .isTrue trivial
    @instDecidableAnd _ _ inferInstance later

section Refinement

variable {hashValue} [EquivBEq K] (consistent : ∀ a b : K, a == b → hashValue a = hashValue b)
include consistent

theorem perform_succeeds {map : Map K V} {es : List (K × V)} (rep : map.Represents hashValue es)
    (call : MapCall K V) (safe : call.Safe hashValue map) :
    Succeeds (perform memory hashValue map call) fun res =>
      res.1.Represents hashValue (performAssociation es call).1 ∧
        res.2 = (performAssociation es call).2 := by
  cases call with
  | insert key v =>
    refine (rep.insert_succeeds consistent memory v safe.1 safe.2).bind ?_
    rintro ⟨map, old⟩ ⟨rep, rfl⟩
    exact .ok ⟨rep, rfl⟩
  | remove key =>
    refine (rep.remove_succeeds consistent memory key).bind ?_
    rintro ⟨map, removed⟩ ⟨rep, rfl⟩
    exact .ok ⟨rep, rfl⟩
  | removeEntry key =>
    refine (rep.removeEntry_succeeds consistent memory key).bind ?_
    rintro ⟨map, removed⟩ ⟨rep, rfl⟩
    exact .ok ⟨rep, rfl⟩
  | clear => exact .ok ⟨rep.clear_represents, rfl⟩
  | reserve additional =>
    exact (rep.reserve_succeeds memory additional).bind fun map rep => .ok ⟨rep, rfl⟩
  | get key =>
    rw [perform, rep.get_eq consistent]
    exact .ok ⟨rep, rfl⟩
  | getKeyValue key =>
    rw [perform, rep.getKeyValue_eq consistent]
    exact .ok ⟨rep, rfl⟩
  | containsKey key =>
    rw [perform, rep.containsKey_eq consistent]
    exact .ok ⟨rep, rfl⟩
  | len => exact .ok ⟨rep, by rw [rep.len_eq]; rfl⟩

theorem run_succeeds {map : Map K V} {es : List (K × V)} (rep : map.Represents hashValue es)
    (calls : List (MapCall K V)) (safe : SafeFrom memory hashValue map calls) :
    Succeeds (run memory hashValue map calls) fun res =>
      res.1.Represents hashValue (runAssociation es calls).1 ∧
        res.2 = (runAssociation es calls).2 := by
  induction calls generalizing map es with
  | nil => exact .ok ⟨rep, rfl⟩
  | cons call calls ih =>
    obtain ⟨first, hl⟩ := safe
    have performed := perform_succeeds memory consistent rep call first
    rw [run]
    cases out : perform memory hashValue map call with
    | error panic =>
      rw [out] at performed
      exact performed
    | ok res =>
      obtain ⟨map, answer⟩ := res
      rw [out] at performed hl
      obtain ⟨rep, isAnswer⟩ := performed
      refine (ih rep hl).bind ?_
      rintro ⟨map, answers⟩ ⟨rep, areAnswers⟩
      exact .ok ⟨rep, congrArg₂ List.cons isAnswer areAnswers⟩

end Refinement

end MapCall

/-- The slots hold the entries of a finite map, each of them in one slot, and `len` counts them. -/
structure Map.Stores {K V : Type} [BEq K] (map : Map K V) (entries : List (K × V)) : Prop where
  once : ∀ i < map.cap, ∀ entry, 0 < (map.entries i).hash → (map.entries i).contents = some entry →
    map.OnlyAt entry.1 i
  holds : map.contents.Perm entries
  distinct : Map.Distinct entries
  counted : map.len = entries.length

theorem Map.Represents.stores {K V : Type} [BEq K] [EquivBEq K] {hashValue : K → Int} {map : Map K V}
    {es : List (K × V)} (rep : map.Represents hashValue es) : map.Stores es := by
  refine ⟨?_, rep.contents_perm, rep.distinct, rep.len_eq⟩
  cases rep with
  | unallocated noTable =>
    intro i hr
    omega
  | table hs => exact hs.unique

namespace MapCall

section FiniteMap

variable {K V : Type} [BEq K] (memory : Memory) (hashValue : K → Int)

/-- From an empty map the calls answer as on a finite map and leave the entries of the finite map. -/
def RunsAsFiniteMap (calls : List (MapCall K V)) : Prop :=
  Succeeds (run memory hashValue Map.new calls) fun result =>
    result.1.Stores (runAssociation [] calls).1 ∧ result.2 = (runAssociation [] calls).2

theorem runsAsFiniteMap_of_safe [EquivBEq K] (consistent : ∀ a b : K, a == b → hashValue a = hashValue b)
    (calls : List (MapCall K V)) (safe : SafeFrom memory hashValue Map.new calls) :
    RunsAsFiniteMap memory hashValue calls :=
  (run_succeeds memory consistent Map.represents_new calls safe).mono fun _ refined => ⟨refined.1.stores, refined.2⟩

end FiniteMap

/-- Three keys with one hash, two removals and insertions over their deleted slots. -/
def sampleCalls : List (MapCall Nat Nat) :=
  [.insert 1 10, .insert 2 20, .insert 3 30, .insert 2 21, .get 2, .remove 2, .insert 4 40, .containsKey 2,
    .removeEntry 3, .getKeyValue 4, .reserve 40, .insert 5 50, .len, .clear, .get 1]

theorem runsAsFiniteMap_sample :
    SafeFrom ⟨32, fun _ => true⟩ (fun _ => 7) Map.new sampleCalls ∧
      (∃ result, run ⟨32, fun _ => true⟩ (fun _ => 7) Map.new sampleCalls = .ok result) ∧
      RunsAsFiniteMap ⟨32, fun _ => true⟩ (fun _ => 7) sampleCalls := by
  have safe : SafeFrom ⟨32, fun _ => true⟩ (fun _ => 7) Map.new sampleCalls := by decide +kernel
  exact ⟨safe, ⟨_, rfl⟩, runsAsFiniteMap_of_safe ⟨32, fun _ => true⟩ (fun _ => 7) (fun _ _ _ => rfl) sampleCalls safe⟩

/-- The deleted slot of the first key is reused for the second, which stands further on. -/
def reinsertion : List (MapCall Nat Nat) := [.insert 1 10, .insert 2 20, .remove 1, .insert 2 21]

theorem reinsertion_not_runsAsFiniteMap : ¬ RunsAsFiniteMap ⟨32, fun _ => true⟩ (fun _ => 7) reinsertion := by
  intro refines
  have answers : (run ⟨32, fun _ => true⟩ (fun _ => 7) Map.new reinsertion).map Prod.snd =
      .ok [.value none, .value none, .value (some 10), .value none] := rfl
  rw [RunsAsFiniteMap] at refines
  cases outcome : run ⟨32, fun _ => true⟩ (fun _ => 7) Map.new reinsertion with
  | error panic =>
    rw [outcome] at answers
    cases answers
  | ok result =>
    rw [outcome] at refines answers
    have differ := (Except.ok.inj answers).symm.trans refines.2
    revert differ
    decide

end MapCall

end Collections
