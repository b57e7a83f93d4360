import Verum.Collections.Memory
import Mathlib.Data.List.AList
import Mathlib.Data.List.Induction

namespace Collections

/-- The store is a finite map. -/
structure LruCache (K V : Type) where
  store : AList fun _ : K => V
  order : List K
  capacity : Int
  hits : UInt64
  misses : UInt64
  evicted : UInt64

namespace LruCache

variable {K V : Type} [DecidableEq K]

def new (capacity : Int) : LruCache K V :=
  { store := ∅, order := [], capacity := if capacity < 1 then 1 else capacity, hits := 0, misses := 0, evicted := 0 }

def len (cache : LruCache K V) : Int := cache.store.keys.length

def removeFromOrder (cache : LruCache K V) (key : K) : LruCache K V := { cache with order := cache.order.erase key }

def touch (cache : LruCache K V) (key : K) : LruCache K V :=
  let cache := cache.removeFromOrder key
  { cache with order := cache.order ++ [key] }

def evictOne (cache : LruCache K V) : LruCache K V :=
  match cache.order with
  | [] => cache
  | victim :: rest =>
    { cache with order := rest, store := cache.store.erase victim, evicted := cache.evicted + 1 }

def insert (cache : LruCache K V) (key : K) (value : V) : Option V × LruCache K V :=
  let prior := cache.store.lookup key
  let cache := { cache with store := cache.store.erase key }
  let cache := if prior.isSome then cache.removeFromOrder key else cache
  let isNew := prior.isNone
  let cache := if isNew ∧ cache.len ≥ cache.capacity then cache.evictOne else cache
  (prior, { cache with store := cache.store.insert key value, order := cache.order ++ [key] })

def get (cache : LruCache K V) (key : K) : Option V × LruCache K V :=
  if key ∉ cache.store then (none, { cache with misses := cache.misses + 1 })
  else
    let cache := { cache with hits := cache.hits + 1 }
    let cache := cache.touch key
    (cache.store.lookup key, cache)

def peek (cache : LruCache K V) (key : K) : Option V := cache.store.lookup key

def remove (cache : LruCache K V) (key : K) : Option V × LruCache K V :=
  let v := cache.store.lookup key
  let cache := { cache with store := cache.store.erase key }
  (v, if v.isSome then cache.removeFromOrder key else cache)

def clear (cache : LruCache K V) : LruCache K V := { cache with store := ∅, order := [] }

end LruCache

/-- What an LRU cache is for: its entries from the least to the most recently used one. -/
abbrev Recency (K V : Type) := List (K × V)

namespace Recency

variable {K V : Type} [DecidableEq K]

def remove (entries : Recency K V) (key : K) : Recency K V := entries.filter fun entry => entry.1 ≠ key

/-- A present key is overwritten; the oldest entry makes room for a new one. -/
def insert (capacity : Nat) (entries : Recency K V) (key : K) (value : V) : Recency K V :=
  if (entries.lookup key).isSome then entries.remove key ++ [(key, value)]
  else if capacity ≤ entries.length then entries.tail ++ [(key, value)]
  else entries ++ [(key, value)]

def get (entries : Recency K V) (key : K) : Recency K V :=
  match entries.lookup key with
  | some value => entries.remove key ++ [(key, value)]
  | none => entries

end Recency

inductive LruCall (K V : Type) where
  | get (key : K)
  | insert (key : K) (value : V)
  | peek (key : K)
  | remove (key : K)
  | clear

namespace LruCall

variable {K V : Type} [DecidableEq K]

/-- The answer of a call, `none` for `clear`, and the cache it leaves. -/
def perform (cache : LruCache K V) : LruCall K V → Option V × LruCache K V
  | get key => cache.get key
  | insert key value => cache.insert key value
  | peek key => (cache.peek key, cache)
  | remove key => cache.remove key
  | clear => (none, cache.clear)

def run (calls : List (LruCall K V)) (cache : LruCache K V) : LruCache K V :=
  calls.foldl (fun cache call => (call.perform cache).2) cache

def model (capacity : Nat) (entries : Recency K V) : LruCall K V → Option V × Recency K V
  | get key => (entries.lookup key, entries.get key)
  | insert key value => (entries.lookup key, entries.insert capacity key value)
  | peek key => (entries.lookup key, entries)
  | remove key => (entries.lookup key, entries.remove key)
  | clear => (none, [])

def modelRun (capacity : Nat) (calls : List (LruCall K V)) : Recency K V :=
  calls.foldl (fun entries call => (call.model capacity entries).2) []

def uses (key : K) : LruCall K V → Bool
  | get other => other = key
  | insert other _ => other = key
  | _ => false

/-- The number of the last `get` or `insert` of a key, counted from one. -/
def lastUse (calls : List (LruCall K V)) (key : K) : Nat := calls.length - calls.reverse.findIdx (uses key)

end LruCall

section Refinement

variable {K V : Type} [DecidableEq K] {cache : LruCache K V} {entries : Recency K V} {key other : K} {value : V}

theorem lookup_remove (entries : Recency K V) (key other : K) :
    (entries.remove key).lookup other = if other = key then none else entries.lookup other :=
  lookup_filter_ne entries key other

theorem lookup_isSome_iff : (entries.lookup key).isSome ↔ key ∈ entries.map Prod.fst := by
  induction entries with
  | nil => simp
  | cons e entries ih =>
    rw [List.lookup_cons, List.map_cons, List.mem_cons]
    split
    · rename_i eq
      simp [beq_iff_eq.mp eq]
    · rename_i different
      rw [ih]
      simp [ne_of_beq_false different]

theorem lookup_push (entries : Recency K V) (key other : K) (value : V) (ha : ¬ (entries.lookup key).isSome) :
    (entries ++ [(key, value)]).lookup other = if other = key then some value else entries.lookup other := by
  rw [List.lookup_append, List.lookup_cons]
  by_cases eq : other = key
  · rw [if_pos eq, eq, Option.not_isSome_iff_eq_none.mp ha, beq_self_eq_true]
    rfl
  · rw [if_neg eq, beq_false_of_ne eq]
    exact Option.or_none

theorem lookup_removed (entries : Recency K V) (key : K) : ¬ ((entries.remove key).lookup key).isSome := by
  rw [lookup_remove, if_pos rfl]
  exact Bool.false_ne_true

/-- The two structures of the cache hold one recency list between them. -/
structure Refines (cache : LruCache K V) (entries : Recency K V) : Prop where
  order : cache.order = entries.map Prod.fst
  nodup : cache.order.Nodup
  lookup : ∀ key, cache.store.lookup key = entries.lookup key
  bounded : (entries.length : Int) ≤ cache.capacity
  positive : 1 ≤ cache.capacity

namespace Refines

theorem mem_store (refines : Refines cache entries) : key ∈ cache.store ↔ key ∈ cache.order := by
  rw [← AList.lookup_isSome, refines.lookup, lookup_isSome_iff, refines.order]

theorem perm (refines : Refines cache entries) : cache.order.Perm cache.store.keys := by
  rw [List.perm_ext_iff_of_nodup refines.nodup cache.store.keys_nodup]
  intro key
  rw [← refines.mem_store, AList.mem_keys]

theorem len (refines : Refines cache entries) : cache.len = entries.length := by
  rw [LruCache.len, ← refines.perm.length_eq, refines.order, List.length_map]

theorem order_remove (refines : Refines cache entries) (key : K) :
    cache.order.erase key = (entries.remove key).map Prod.fst := by
  rw [refines.nodup.erase_eq_filter, refines.order, List.filter_map, Recency.remove]
  congr 1
  apply List.filter_congr
  intro e _
  rw [Function.comp_apply, bne, decide_not, beq_eq_decide]

theorem new (capacity : Int) : Refines (LruCache.new capacity : LruCache K V) [] where
  order := rfl
  nodup := List.nodup_nil
  lookup key := AList.lookup_empty key
  bounded := by
    change (0 : Int) ≤ if capacity < 1 then 1 else capacity
    split <;> omega
  positive := by
    change (1 : Int) ≤ if capacity < 1 then 1 else capacity
    split <;> omega

theorem remove (refines : Refines cache entries) (key : K) :
    Refines { cache with store := cache.store.erase key, order := cache.order.erase key } (entries.remove key) where
  order := refines.order_remove key
  nodup := refines.nodup.erase key
  lookup other := by
    rw [lookup_remove]
    split
    · rename_i same
      rw [same, AList.lookup_erase]
    · rename_i different
      rw [AList.lookup_erase_ne different, refines.lookup]
  bounded := by
    have shorter : (entries.remove key).length ≤ entries.length := List.length_filter_le _ _
    have bounded := refines.bounded
    change ((entries.remove key).length : Int) ≤ cache.capacity
    omega
  positive := refines.positive

theorem push (refines : Refines cache entries) (fresh : key ∉ cache.order) (value : V)
    (room : (entries.length : Int) < cache.capacity) :
    Refines { cache with store := cache.store.insert key value, order := cache.order ++ [key] }
      (entries ++ [(key, value)]) where
  order := by
    rw [refines.order, List.map_append]
    rfl
  nodup := List.nodup_append.mpr ⟨refines.nodup, List.nodup_singleton _, by grind⟩
  lookup other := by
    have absent : ¬ (entries.lookup key).isSome := by
      rw [lookup_isSome_iff, ← refines.order]
      exact fresh
    rw [lookup_push _ _ _ _ absent]
    split
    · rename_i same
      rw [same, AList.lookup_insert]
    · rename_i different
      rw [AList.lookup_insert_ne different, refines.lookup]
  bounded := by
    rw [List.length_append, List.length_singleton]
    push_cast
    exact room
  positive := refines.positive

theorem evictOne (refines : Refines cache entries) : Refines cache.evictOne entries.tail := by
  cases entries with
  | nil =>
    have empty : cache.order = [] := refines.order
    rw [LruCache.evictOne, empty]
    exact refines
  | cons entry entries =>
    have order : cache.order = entry.1 :: entries.map Prod.fst := refines.order
    obtain ⟨fresh, nodup⟩ := List.nodup_cons.mp (order ▸ refines.nodup)
    have same : entries = Recency.remove (entry :: entries) entry.1 := by
      rw [Recency.remove, List.filter_cons_of_neg (by simp), List.filter_eq_self.mpr]
      intro other mem
      rw [decide_eq_true_eq]
      intro same
      exact fresh (List.mem_map.mpr ⟨other, mem, same⟩)
    have removed := refines.remove entry.1
    rw [order, List.erase_cons_head, ← same] at removed
    simp only [LruCache.evictOne, order, List.tail_cons]
    exact ⟨removed.order, removed.nodup, removed.lookup, removed.bounded, removed.positive⟩

theorem length_remove_lt (has : key ∈ entries.map Prod.fst) : (entries.remove key).length < entries.length := by
  apply List.length_filter_lt_length_iff_exists.mpr
  obtain ⟨e, mem, eq⟩ := List.mem_map.mp has
  exact ⟨e, mem, by simpa using eq⟩

theorem capacity_evictOne (cache : LruCache K V) : cache.evictOne.capacity = cache.capacity := by
  rw [LruCache.evictOne]
  split <;> rfl

theorem erase_absent (refines : Refines cache entries) (absent : key ∉ entries.map Prod.fst) :
    Refines { cache with store := cache.store.erase key } entries where
  order := refines.order
  nodup := refines.nodup
  lookup other := by
    by_cases same : other = key
    · subst same
      have none : entries.lookup other = none := Option.not_isSome_iff_eq_none.mp (mt lookup_isSome_iff.mp absent)
      rw [AList.lookup_erase, none]
    · rw [AList.lookup_erase_ne same, refines.lookup]
  bounded := refines.bounded
  positive := refines.positive

theorem insert (refines : Refines cache entries) (key : K) (value : V) :
    (cache.insert key value).1 = entries.lookup key ∧
      Refines (cache.insert key value).2 (entries.insert cache.capacity.toNat key value) := by
  refine ⟨refines.lookup key, ?_⟩
  rw [LruCache.insert, Recency.insert, refines.lookup]
  by_cases present : (entries.lookup key).isSome
  · have isNew : (entries.lookup key).isNone = false := by simpa using Option.isSome_iff_ne_none.mp present
    simp only [present, isNew, if_true, Bool.false_eq_true, false_and, if_false]
    have removed := refines.remove key
    apply removed.push (refines.nodup.not_mem_erase)
    have shorter := length_remove_lt (lookup_isSome_iff.mp present)
    have bounded := refines.bounded
    change ((entries.remove key).length : Int) < cache.capacity
    omega
  · have isNew : (entries.lookup key).isNone = true := by simpa only [Option.isSome_iff_ne_none, not_not,
      Option.isNone_iff_eq_none] using present
    simp only [present, isNew, Bool.false_eq_true, if_false, true_and]
    have absent : key ∉ entries.map Prod.fst := mt lookup_isSome_iff.mpr present
    have erased : Refines { cache with store := cache.store.erase key } entries := refines.erase_absent absent
    rw [erased.len]
    have bounded := refines.bounded
    have pos := refines.positive
    by_cases full : cache.capacity ≤ entries.length
    · have evicted := erased.evictOne
      rw [if_pos (by simpa using full), if_pos (by omega)]
      have fresh : key ∉ (LruCache.evictOne { cache with store := cache.store.erase key }).order := by
        rw [evicted.order]
        exact fun mem => absent (List.map_subset _ (List.tail_sublist _).subset mem)
      apply evicted.push fresh
      rw [capacity_evictOne, List.length_tail]
      change ((entries.length - 1 : Nat) : Int) < cache.capacity
      omega
    · rw [if_neg (by simpa using full), if_neg (by omega)]
      have fresh : key ∉ cache.order := refines.order ▸ absent
      apply erased.push fresh
      change (entries.length : Int) < cache.capacity
      omega

theorem get (refines : Refines cache entries) (key : K) :
    (cache.get key).1 = entries.lookup key ∧ Refines (cache.get key).2 (entries.get key) := by
  rw [LruCache.get, Recency.get]
  cases hit : entries.lookup key with
  | none =>
    have ha : key ∉ cache.store := by
      rw [← AList.lookup_isSome, refines.lookup, hit]
      exact Bool.false_ne_true
    rw [if_pos ha]
    exact ⟨rfl, refines.order, refines.nodup, refines.lookup, refines.bounded, refines.positive⟩
  | some value =>
    have has : key ∈ cache.store := by
      rw [← AList.lookup_isSome, refines.lookup, hit]
      rfl
    rw [if_neg (not_not.mpr has)]
    refine ⟨(refines.lookup key).trans hit, ?_⟩
    have renewed : ∀ other, cache.store.lookup other = (entries.remove key ++ [(key, value)]).lookup other := by
      intro other
      rw [lookup_push _ _ _ _ (lookup_removed entries key), lookup_remove, refines.lookup]
      split
      · rename_i eq
        rw [eq, hit]
      · rfl
    refine ⟨?_, ?_, renewed, ?_, refines.positive⟩
    · change cache.order.erase key ++ [key] = _
      rw [refines.order_remove, List.map_append]
      rfl
    · change (cache.order.erase key ++ [key]).Nodup
      have hf : key ∉ cache.order.erase key := refines.nodup.not_mem_erase
      exact List.nodup_append.mpr ⟨refines.nodup.erase key, List.nodup_singleton _, by grind⟩
    · have shorter := length_remove_lt (lookup_isSome_iff.mp (hit ▸ rfl : (entries.lookup key).isSome))
      have bounded := refines.bounded
      change ((entries.remove key ++ [(key, value)]).length : Int) ≤ cache.capacity
      rw [List.length_append, List.length_singleton]
      omega

theorem perform (refines : Refines cache entries) (call : LruCall K V) :
    (call.perform cache).1 = (call.model cache.capacity.toNat entries).1 ∧
      Refines (call.perform cache).2 (call.model cache.capacity.toNat entries).2 ∧
      (call.perform cache).2.capacity = cache.capacity := by
  cases call with
  | get key =>
    have capacity : (cache.get key).2.capacity = cache.capacity := by
      rw [LruCache.get]
      split <;> rfl
    exact ⟨(refines.get key).1, (refines.get key).2, capacity⟩
  | insert key value =>
    have capacity : (cache.insert key value).2.capacity = cache.capacity := by
      simp only [LruCache.insert]
      split
      · split
        · exact capacity_evictOne _
        · rfl
      · split
        · exact capacity_evictOne _
        · rfl
    exact ⟨(refines.insert key value).1, (refines.insert key value).2, capacity⟩
  | peek key => exact ⟨refines.lookup key, refines, rfl⟩
  | remove key =>
    refine ⟨refines.lookup key, ?_, ?_⟩
    · change Refines (cache.remove key).2 (entries.remove key)
      rw [LruCache.remove, refines.lookup]
      split
      · exact refines.remove key
      · rename_i absent
        have absent := mt lookup_isSome_iff.mpr absent
        have erased := refines.erase_absent absent
        have same : entries.remove key = entries := by
          apply List.filter_eq_self.mpr
          intro entry mem
          rw [decide_eq_true_eq]
          exact fun same => absent (List.mem_map.mpr ⟨entry, mem, same⟩)
        rw [same]
        exact erased
    · change (cache.remove key).2.capacity = cache.capacity
      rw [LruCache.remove]
      split <;> rfl
  | clear =>
    have pos := refines.positive
    exact ⟨rfl, ⟨rfl, List.nodup_nil, fun key => AList.lookup_empty key, by change (0 : Int) ≤ cache.capacity; omega,
      pos⟩, rfl⟩

theorem run (calls : List (LruCall K V)) (refines : Refines cache entries) :
    Refines (LruCall.run calls cache)
        (calls.foldl (fun entries call => (call.model cache.capacity.toNat entries).2) entries) ∧
      (LruCall.run calls cache).capacity = cache.capacity := by
  induction calls generalizing cache entries with
  | nil => exact ⟨refines, rfl⟩
  | cons call calls ih =>
    obtain ⟨_, next, capacity⟩ := refines.perform call
    have rest := ih next
    rw [capacity] at rest
    exact rest

end Refines

end Refinement

section LastUse

variable {K V : Type} [DecidableEq K] {calls : List (LruCall K V)} {call : LruCall K V} {entries : Recency K V}
variable {capacity : Nat} {key : K}

namespace LruCall

theorem lastUse_le : lastUse calls key ≤ calls.length := Nat.sub_le _ _

theorem lastUse_snoc_used (used : call.uses key) : lastUse (calls ++ [call]) key = calls.length + 1 := by
  simp [lastUse, List.findIdx_cons, used]

theorem lastUse_snoc_unused (unused : call.uses key = false) : lastUse (calls ++ [call]) key = lastUse calls key := by
  simp [lastUse, List.findIdx_cons, unused]

def ByLastUse (calls : List (LruCall K V)) (entries : Recency K V) : Prop :=
  (entries.map Prod.fst).Pairwise fun first second => lastUse calls first < lastUse calls second

theorem ByLastUse.sublist {fewer : Recency K V} (sorted : ByLastUse calls entries) (sub : fewer.Sublist entries)
    (unused : ∀ key ∈ fewer.map Prod.fst, call.uses key = false) : ByLastUse (calls ++ [call]) fewer := by
  have pairwise := List.Pairwise.sublist (sub.map Prod.fst) sorted
  apply pairwise.imp_of_mem
  intro first snd inFirst inSecond lt
  rwa [lastUse_snoc_unused (unused first inFirst), lastUse_snoc_unused (unused snd inSecond)]

theorem ByLastUse.push {fewer : Recency K V} (sorted : ByLastUse calls entries) (sub : fewer.Sublist entries)
    (unused : ∀ key ∈ fewer.map Prod.fst, call.uses key = false) (used : call.uses key) (value : V) :
    ByLastUse (calls ++ [call]) (fewer ++ [(key, value)]) := by
  rw [ByLastUse, List.map_append, List.pairwise_append]
  refine ⟨sorted.sublist sub unused, List.pairwise_singleton _ _, ?_⟩
  intro first inFirst snd inSecond
  rw [List.map_singleton, List.mem_singleton] at inSecond
  rw [inSecond, lastUse_snoc_used used, lastUse_snoc_unused (unused first inFirst)]
  exact Nat.lt_succ_of_le lastUse_le

theorem unused_of_ne {other : K} (uses : ∀ other, call.uses other = decide (key = other)) (different : other ≠ key) :
    call.uses other = false := by rw [uses, decide_eq_false different.symm]

theorem remove_ne {other : K} (mem : other ∈ (entries.remove key).map Prod.fst) : other ≠ key := by
  obtain ⟨e, hin, rfl⟩ := List.mem_map.mp mem
  have kept := (List.mem_filter.mp hin).2
  simpa using kept

theorem absent_ne {other : K} (ha : ¬ (entries.lookup key).isSome) (mem : other ∈ entries.map Prod.fst) :
    other ≠ key := by
  intro eq
  exact ha (lookup_isSome_iff.mpr (eq ▸ mem))

theorem ByLastUse.step (sorted : ByLastUse calls entries) (call : LruCall K V) :
    ByLastUse (calls ++ [call]) (call.model capacity entries).2 := by
  cases call with
  | get key =>
    change ByLastUse _ (entries.get key)
    rw [Recency.get]
    cases hit : entries.lookup key with
    | none =>
      apply sorted.sublist (List.Sublist.refl _)
      intro other mem
      exact unused_of_ne (fun _ => rfl) (absent_ne (by rw [hit]; exact Bool.false_ne_true) mem)
    | some value =>
      apply sorted.push List.filter_sublist _ (by simp [uses])
      intro other mem
      exact unused_of_ne (fun _ => rfl) (remove_ne mem)
  | insert key value =>
    change ByLastUse _ (entries.insert capacity key value)
    rw [Recency.insert]
    split
    · apply sorted.push List.filter_sublist _ (by simp [uses])
      intro other mem
      exact unused_of_ne (fun _ => rfl) (remove_ne mem)
    · rename_i ha
      split
      · apply sorted.push (List.tail_sublist _) _ (by simp [uses])
        intro other mem
        have hin := List.map_subset _ (List.tail_sublist _).subset mem
        exact unused_of_ne (fun _ => rfl) (absent_ne ha hin)
      · apply sorted.push (List.Sublist.refl _) _ (by simp [uses])
        intro other mem
        exact unused_of_ne (fun _ => rfl) (absent_ne ha mem)
  | peek key => exact sorted.sublist (List.Sublist.refl _) fun _ _ => rfl
  | remove key => exact sorted.sublist List.filter_sublist fun _ _ => rfl
  | clear => exact List.Pairwise.nil

theorem byLastUse_modelRun (capacity : Nat) (calls : List (LruCall K V)) :
    ByLastUse calls (modelRun capacity calls) := by
  induction calls using List.reverseRecOn with
  | nil => exact List.Pairwise.nil
  | append_singleton calls call ih =>
    rw [modelRun, List.foldl_append]
    exact ih.step call

end LruCall

/-- The cache is its recency list, over every run. -/
theorem lru_refines_recency (capacity : Int) (calls : List (LruCall K V)) :
    let cache := LruCall.run calls (LruCache.new capacity)
    let bound := if capacity < 1 then 1 else capacity
    let entries := LruCall.modelRun bound.toNat calls
    (cache.capacity = bound ∧ cache.order = entries.map Prod.fst ∧
      (∀ key, cache.store.lookup key = entries.lookup key) ∧
      ∀ call : LruCall K V, (call.perform cache).1 = (call.model bound.toNat entries).1) ∧
    (cache.order.Nodup ∧ cache.order.Perm cache.store.keys ∧ cache.len ≤ cache.capacity) ∧
    (∀ key value, key ∉ cache.store → cache.capacity ≤ cache.len → ∃ victim ∈ cache.store,
      (∀ other ∈ cache.store, other ≠ victim → LruCall.lastUse calls victim < LruCall.lastUse calls other) ∧
      ∀ other, (cache.insert key value).2.store.lookup other =
        if other = key then some value else if other = victim then none else cache.store.lookup other) ∧
    ∀ key value, key ∈ cache.store ∨ cache.len < cache.capacity →
      ∀ other, (cache.insert key value).2.store.lookup other =
        if other = key then some value else cache.store.lookup other := by
  intro cache bound entries
  obtain ⟨refines, same⟩ := (Refines.new (K := K) (V := V) capacity).run calls
  replace refines : Refines cache entries := refines
  replace same : cache.capacity = bound := same
  have sorted : LruCall.ByLastUse calls entries := LruCall.byLastUse_modelRun bound.toNat calls
  have len := refines.len
  have lookups : ∀ key value other, (cache.insert key value).2.store.lookup other =
      (entries.insert bound.toNat key value).lookup other := by
    intro key value other
    rw [← same]
    exact (refines.insert key value).2.lookup other
  have positive := refines.positive
  refine ⟨⟨same, refines.order, refines.lookup, ?_⟩, ⟨refines.nodup, refines.perm, ?_⟩, ?_, ?_⟩
  · intro call
    rw [← same]
    exact (refines.perform call).1
  · rw [len]
    exact refines.bounded
  · intro key value fresh full
    have absent : ¬ (entries.lookup key).isSome := by rwa [← refines.lookup, AList.lookup_isSome]
    rw [len] at full
    cases split : entries with
    | nil =>
      rw [split] at full
      simp at full
      omega
    | cons oldest rest =>
      have order : cache.order = oldest.1 :: rest.map Prod.fst := by rw [refines.order, split, List.map_cons]
      have nodup := refines.nodup
      rw [order] at nodup
      obtain ⟨outside, _⟩ := List.nodup_cons.mp nodup
      have stored : oldest.1 ∈ cache.store := by
        rw [refines.mem_store, order]
        exact .head _
      refine ⟨oldest.1, stored, ?_, ?_⟩
      · intro other present different
        rw [refines.mem_store, order] at present
        rw [LruCall.ByLastUse, split, List.map_cons, List.pairwise_cons] at sorted
        exact sorted.1 other ((List.mem_cons.mp present).resolve_left different)
      · intro other
        have absentRest : ¬ (rest.lookup key).isSome := by
          rw [lookup_isSome_iff] at absent ⊢
          intro member
          rw [split, List.map_cons] at absent
          exact absent (.tail _ member)
        rw [lookups, Recency.insert, if_neg absent, if_pos (by omega), refines.lookup, split, List.tail_cons,
          lookup_push _ _ _ _ absentRest, List.lookup_cons]
        by_cases isOldest : other = oldest.1
        · have gone : rest.lookup other = none := by
            apply Option.not_isSome_iff_eq_none.mp
            rw [lookup_isSome_iff, isOldest]
            exact outside
          rw [if_pos isOldest, gone]
        · rw [if_neg isOldest, beq_false_of_ne isOldest]
  · intro key value room other
    rw [lookups, Recency.insert, refines.lookup]
    by_cases present : (entries.lookup key).isSome
    · rw [if_pos present, lookup_push _ _ _ _ (lookup_removed entries key), lookup_remove]
      split <;> rfl
    · have absent : key ∉ cache.store := by rwa [← AList.lookup_isSome, refines.lookup]
      have space := room.resolve_left absent
      rw [if_neg present, if_neg (by omega), lookup_push _ _ _ _ present]

theorem lru_refines_recency_full :
    let cache := LruCall.run [.insert 1 "a"] (LruCache.new 1)
    ∃ victim ∈ cache.store, ∀ other, (cache.insert 2 "b").2.store.lookup other =
      if other = 2 then some "b" else if other = victim then none else cache.store.lookup other := by
  obtain ⟨victim, stored, _, lookups⟩ := (lru_refines_recency 1 [.insert 1 "a"]).2.2.1 2 "b" (by decide) (by decide)
  exact ⟨victim, stored, lookups⟩

/-- The first key was read last, so that the second one goes. -/
example : (LruCall.run [.insert 1 "a", .insert 2 "b", .get 1, .insert 3 "c"] (LruCache.new 2)).order = [1, 3] := by
  decide

end LastUse

end Collections
