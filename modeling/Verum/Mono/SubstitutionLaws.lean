import Verum.Mono.Traversal

namespace Mono

open Vbc

def liftBy (amount : Nat) : ParameterMap := fun id depth => do
  let shift ← checkedDepth depth amount
  liftedParameter id shift

theorem liftBy_iff {n d : Nat} {id : TypeParamId} {r : TypeRef} :
    liftBy n id d = .ok r ↔ id.id.toNat + (d + n) < 2 ^ 16 ∧
      r = .generic ⟨UInt16.ofNat (id.id.toNat + (d + n))⟩ := by
  unfold liftBy checkedDepth
  split
  · exact liftedParameter_iff
  · rename_i exceeds
    exact ⟨nofun, fun eq => absurd eq.1 (by omega)⟩

theorem toNat_ofNat16 {n : Nat} (hf : n < 2 ^ 16) : (UInt16.ofNat n).toNat = n :=
  UInt16.toNat_ofNat_of_lt' hf

theorem toNat_outer (id : TypeParamId) (d : Nat) :
    (UInt16.ofNat (id.id.toNat - d)).toNat = id.id.toNat - d :=
  toNat_ofNat16 (Nat.lt_of_le_of_lt (Nat.sub_le ..) id.id.toNat_lt)

theorem liftBy_generic_iff {n d : Nat} {id : TypeParamId} {r : TypeRef} :
    mapFreeParameters (liftBy n) (.generic id) d = .ok r ↔
      if d ≤ id.id.toNat then id.id.toNat + n < 2 ^ 16 ∧
        r = .generic ⟨UInt16.ofNat (id.id.toNat + n)⟩
      else r = .generic id := by
  rw [mapFreeParameters_generic]
  split
  · rename_i free
    rw [liftBy_iff, toNat_outer]
    have eq : id.id.toNat - d + (d + n) = id.id.toNat + n := by omega
    rw [eq]
  · exact ⟨fun eq => (Except.ok.inj eq).symm, fun eq => congrArg _ eq.symm⟩

theorem keep_generic (id : TypeParamId) (d : Nat) :
    mapFreeParameters liftedParameter (.generic id) d = .ok (.generic id) := by
  rw [mapFreeParameters_generic]
  split
  · rename_i free
    have hb := id.id.toNat_lt
    rw [liftedParameter_iff, toNat_outer, Nat.sub_add_cancel free]
    exact ⟨hb, by rw [UInt16.ofNat_toNat]⟩
  · rfl

theorem liftFreeParameters_eq (ty : TypeRef) (n : Nat) :
    liftFreeParameters ty n = mapFreeParameters (liftBy n) ty 0 := rfl

theorem keep_of_mapped {map : ParameterMap} {t r : TypeRef} {d : Nat} (small : d < 2 ^ 32)
    (mapped : mapFreeParameters map t d = .ok r) : mapFreeParameters liftedParameter t d = .ok t := by
  induction t using TypeRef.parts_induction generalizing r d with
  | node t ih =>
    cases node : t.isGeneric with
    | true =>
      rcases exists_generic node with ⟨id, rfl⟩
      exact keep_generic id d
    | false =>
      rcases (mapFreeParameters_iff node small).mp mapped with ⟨hf, parts, each, -⟩
      apply (mapFreeParameters_iff node small).mpr
      refine ⟨hf, t.parts, ?_, (TypeRef.rebuild_parts t).symm⟩
      apply List.forall₂_same.mpr
      intro part mem
      rcases (exists_mem_of_forall₂ each).1 part mem with ⟨res, -, onPart⟩
      exact ih part mem hf onPart

theorem liftBy_generic_free {n d : Nat} {id : TypeParamId} (free : d ≤ id.id.toNat)
    (hf : id.id.toNat + n < 2 ^ 16) : mapFreeParameters (liftBy n) (.generic id) d =
      .ok (.generic ⟨UInt16.ofNat (id.id.toNat + n)⟩) := by
  rw [liftBy_generic_iff, if_pos free]
  exact ⟨hf, rfl⟩

theorem liftBy_generic_bound {n d : Nat} {id : TypeParamId} (hb : ¬ d ≤ id.id.toNat) :
    mapFreeParameters (liftBy n) (.generic id) d = .ok (.generic id) := by
  rw [liftBy_generic_iff, if_neg hb]

theorem liftFreeParameters_add {a b : Nat} {ty r : TypeRef} :
    liftFreeParameters ty (a + b) = .ok r ↔
      ∃ m, liftFreeParameters ty a = .ok m ∧ liftFreeParameters m b = .ok r := by
  simp only [liftFreeParameters_eq]
  constructor
  · intro lifted
    have start := keep_of_mapped (by decide) lifted
    refine @mapFreeParameters_transfer _ _ (liftBy a) _ (congruent_mapFreeParameters (k := liftBy b)) 0 0 0 0 ?_
      (Nat.zero_le _) (Nat.zero_le _) ty 0 (by decide) (by decide) _ _ start lifted
    intro id n x y smallF smallG fst snd
    rw [keep_generic] at fst
    cases fst
    by_cases free : 0 + n ≤ id.id.toNat
    · rw [liftBy_generic_iff, if_pos free] at snd
      rcases snd with ⟨hf, rfl⟩
      have room : id.id.toNat + a < 2 ^ 16 := by omega
      refine ⟨_, liftBy_generic_free free room, ?_⟩
      have after := toNat_ofNat16 room
      rw [liftBy_generic_free (by dsimp only; omega) (by dsimp only; omega), after, Nat.add_assoc]
    · rw [liftBy_generic_bound free] at snd
      cases snd
      exact ⟨_, liftBy_generic_bound free, liftBy_generic_bound free⟩
  · rintro ⟨m, fst, snd⟩
    have joined : ∃ z, mapFreeParameters (liftBy (a + b)) ty 0 = .ok z ∧ z = r := by
      refine @mapFreeParameters_transfer _ _ (liftBy (a + b)) _ congruent_eq 0 0 0 0 ?_
        (Nat.zero_le _) (Nat.zero_le _) ty 0 (by decide) (by decide) _ _ fst snd
      intro id n x y smallF smallG fst snd
      by_cases free : 0 + n ≤ id.id.toNat
      · rw [liftBy_generic_iff, if_pos free] at fst
        rcases fst with ⟨hf, rfl⟩
        have after := toNat_ofNat16 hf
        rw [liftBy_generic_iff, if_pos (by dsimp only; omega)] at snd
        rcases snd with ⟨fits', rfl⟩
        dsimp only at fits' ⊢
        rw [after] at fits' ⊢
        exact ⟨_, liftBy_generic_free free (by omega), by rw [Nat.add_assoc]⟩
      · rw [liftBy_generic_bound free] at fst
        cases fst
        rw [liftBy_generic_bound free] at snd
        cases snd
        exact ⟨_, liftBy_generic_bound free, rfl⟩
    rcases joined with ⟨z, lifted, rfl⟩
    exact lifted

theorem liftBy_inside {inner outer : Nat} {ty y z w : TypeRef} (both : liftFreeParameters ty (outer + inner) = .ok y)
    (fst : liftFreeParameters ty inner = .ok z) (snd : mapFreeParameters (liftBy outer) z inner = .ok w) :
    y = w := by
  rw [liftFreeParameters_eq] at both fst
  have start := keep_of_mapped (by decide) both
  refine @mapFreeParameters_agree _ _ (liftBy inner) _ (inverts_mapFreeParameters (k := liftBy outer)) 0 0 0 inner
    ?_ ty 0 _ _ _ _ start both fst snd
  intro id n x y z w hk onBoth onInner onOuter
  rw [keep_generic] at hk
  cases hk
  by_cases free : 0 + n ≤ id.id.toNat
  · rw [liftBy_generic_iff, if_pos free] at onBoth onInner
    rcases onInner with ⟨hf, rfl⟩
    have after := toNat_ofNat16 hf
    rw [liftBy_generic_iff, if_pos (by dsimp only; omega)] at onOuter
    dsimp only at onOuter
    rw [onBoth.2, onOuter.2, after]
    congr 3
    omega
  · rw [liftBy_generic_bound free] at onBoth onInner
    cases onBoth
    cases onInner
    rw [liftBy_generic_bound (by omega)] at onOuter
    cases onOuter
    rfl

theorem replace_generic_free {s : TypeSubstitution} {id : TypeParamId} {d : Nat} (free : d ≤ id.id.toNat) :
    mapFreeParameters s.replace (.generic id) d =
      s.replace ⟨UInt16.ofNat (id.id.toNat - d)⟩ d := by
  rw [mapFreeParameters_generic, if_pos free]

theorem replace_generic_bound {s : TypeSubstitution} {id : TypeParamId} {d : Nat}
    (hb : ¬ d ≤ id.id.toNat) : mapFreeParameters s.replace (.generic id) d = .ok (.generic id) := by
  rw [mapFreeParameters_generic, if_neg hb]

theorem replace_unbound {s : TypeSubstitution} {id : TypeParamId} (unbound : s id = none) (d : Nat) :
    s.replace id d = liftedParameter id d := by
  unfold TypeSubstitution.replace
  rw [unbound]

theorem replace_bound {s : TypeSubstitution} {id : TypeParamId} {image : TypeRef} (hb : s id = some image)
    (d : Nat) : s.replace id d = liftFreeParameters image d := by
  unfold TypeSubstitution.replace
  rw [hb]

theorem lifted_outer {id : TypeParamId} {n extra : Nat} (free : n ≤ id.id.toNat) {r : TypeRef} :
    liftedParameter ⟨UInt16.ofNat (id.id.toNat - n)⟩ (n + extra) = .ok r ↔
      id.id.toNat + extra < 2 ^ 16 ∧ r = .generic ⟨UInt16.ofNat (id.id.toNat + extra)⟩ := by
  have eq : id.id.toNat - n + (n + extra) = id.id.toNat + extra := by omega
  rw [liftedParameter_iff, toNat_outer, eq]

theorem replace_liftBy {s : TypeSubstitution} {n : Nat} {image image' x y w : TypeRef}
    (lifted : liftFreeParameters image n = .ok x) (after : mapFreeParameters s.replace x n = .ok y)
    (applied : s.apply image = .ok image') (moved : liftFreeParameters image' n = .ok w) : y = w := by
  rw [liftFreeParameters_eq] at lifted moved
  unfold TypeSubstitution.apply at applied
  refine @mapFreeParameters_agree _ _ s.replace _ (inverts_mapFreeParameters (k := liftBy n)) 0 n 0 0
    ?_ image 0 _ _ _ _ lifted after applied moved
  intro id m x y z w onLift onAfter onApply onMove
  rw [Nat.zero_add] at onLift onApply onMove
  by_cases free : m ≤ id.id.toNat
  · rw [liftBy_generic_iff, if_pos free] at onLift
    rcases onLift with ⟨hf, rfl⟩
    have isAfter := toNat_ofNat16 hf
    rw [replace_generic_free (by dsimp only; omega)] at onAfter
    rw [replace_generic_free free] at onApply
    have eq : (UInt16.ofNat (id.id.toNat + n)).toNat - (n + m) = id.id.toNat - m := by omega
    rw [eq] at onAfter
    cases image : s ⟨UInt16.ofNat (id.id.toNat - m)⟩ with
    | none =>
      rw [replace_unbound image, Nat.add_comm n m, lifted_outer free] at onAfter
      have kept : z = .generic id := by
        have moved := (@lifted_outer id m 0 free z).mp (replace_unbound image m ▸ onApply)
        rw [moved.2, Nat.add_zero, UInt16.ofNat_toNat]
      rw [kept, liftBy_generic_iff, if_pos (by omega)] at onMove
      rw [onAfter.2, onMove.2]
    | some inner =>
      rw [replace_bound image] at onAfter onApply
      exact liftBy_inside onAfter onApply onMove
  · rw [liftBy_generic_bound free] at onLift
    cases onLift
    rw [replace_generic_bound (by omega)] at onAfter
    rw [replace_generic_bound free] at onApply
    cases onAfter
    cases onApply
    rw [liftBy_generic_bound free] at onMove
    cases onMove
    rfl

/-- `u` does first what `t` does and then what `s` does, parameter by parameter. -/
def Composes (s t u : TypeSubstitution) : Prop :=
  ∀ id, match t id with
    | some image => ∃ image', s.apply image = .ok image' ∧ u id = some image'
    | none => u id = s id

theorem Composes.apply {s t u : TypeSubstitution} (composes : Composes s t u) {ty x y w : TypeRef}
    (fst : t.apply ty = .ok x) (snd : s.apply x = .ok y) (once : u.apply ty = .ok w) : y = w := by
  unfold TypeSubstitution.apply at fst snd once
  refine @mapFreeParameters_agree _ _ u.replace _ inverts_eq 0 0 0 0 ?_ ty 0 _ _ _ _ fst snd once rfl
  intro id n x y z w onFirst onSecond onOnce eq
  subst eq
  rw [Nat.zero_add] at onFirst onSecond onOnce
  by_cases free : n ≤ id.id.toNat
  · rw [replace_generic_free free] at onFirst onOnce
    have law := composes ⟨UInt16.ofNat (id.id.toNat - n)⟩
    cases image : t ⟨UInt16.ofNat (id.id.toNat - n)⟩ with
    | some inner =>
      rw [image] at law
      rcases law with ⟨inner', applied, hb⟩
      rw [replace_bound image] at onFirst
      rw [replace_bound hb] at onOnce
      exact replace_liftBy onFirst onSecond applied onOnce
    | none =>
      rw [image] at law
      have kept : x = .generic id := by
        have moved := (@lifted_outer id n 0 free x).mp (replace_unbound image n ▸ onFirst)
        rw [moved.2, Nat.add_zero, UInt16.ofNat_toNat]
      rw [kept, replace_generic_free free] at onSecond
      unfold TypeSubstitution.replace at onSecond onOnce
      rw [law, onSecond] at onOnce
      exact Except.ok.inj onOnce
  · rw [replace_generic_bound free] at onFirst onOnce
    cases onFirst
    rw [replace_generic_bound free] at onSecond
    cases onSecond
    exact Except.ok.inj onOnce

def freeParameters (ty : TypeRef) : Set TypeParamId := {id | ∃ total, Occurs ty 0 id total}

theorem occurs_generic_iff {name id : TypeParamId} {d total : Nat} :
    Occurs (.generic name) d id total ↔
      d ≤ name.id.toNat ∧ id = ⟨UInt16.ofNat (name.id.toNat - d)⟩ ∧ total = d := by
  constructor
  · intro occurs
    cases occurs with
    | here free => exact ⟨free, rfl, rfl⟩
    | inside mem _ => cases mem
  · rintro ⟨free, rfl, rfl⟩
    exact .here free

theorem not_occurs_lifted {image x : TypeRef} {n d total : Nat} {id : TypeParamId}
    (hc : freeParameters image = ∅) (lifted : liftFreeParameters image n = .ok x) :
    ¬ Occurs x d id total := by
  intro occurs
  rw [← Nat.zero_add d] at occurs
  rcases occurs.outward with ⟨id, total, occurs⟩
  rcases (occurs_mapFreeParameters (by decide) lifted).mp occurs with ⟨src, under, -, inner, -⟩
  have mem : src ∈ freeParameters image := ⟨under, inner⟩
  rw [hc] at mem
  exact mem

theorem freeParameters_apply {s : TypeSubstitution} (hc : ∀ id image, s id = some image → freeParameters image = ∅)
    {ty r : TypeRef} (applied : s.apply ty = .ok r) : freeParameters r = freeParameters ty \ {id | s id ≠ none} := by
  ext id
  have through := fun total => @occurs_mapFreeParameters s.replace ty r 0 (by decide) applied id total
  constructor
  · rintro ⟨total, occurs⟩
    rcases (through total).mp occurs with ⟨src, under, image, inner, isImage, last⟩
    cases hb : s src with
    | some repl =>
      rw [replace_bound hb] at isImage
      exact absurd last (not_occurs_lifted (hc src repl hb) isImage)
    | none =>
      rw [replace_unbound hb, liftedParameter_iff] at isImage
      rcases isImage with ⟨hf, rfl⟩
      rw [occurs_generic_iff] at last
      have eq : id = src := by
        rw [last.2.1, toNat_ofNat16 hf, Nat.add_sub_cancel, UInt16.ofNat_toNat]
      subst eq
      exact ⟨⟨under, inner⟩, fun outside => outside hb⟩
  · rintro ⟨⟨under, inner⟩, outside⟩
    have unbound : s id = none := Classical.not_not.mp outside
    have mappable := ((exists_mapFreeParameters_iff (by decide)).mp ⟨r, applied⟩).2 id under inner
    rcases mappable with ⟨image, isImage⟩
    refine ⟨under, (through under).mpr ⟨id, under, image, inner, isImage, ?_⟩⟩
    rw [replace_unbound unbound, liftedParameter_iff] at isImage
    rcases isImage with ⟨hf, rfl⟩
    rw [occurs_generic_iff, toNat_ofNat16 hf, Nat.add_sub_cancel, UInt16.ofNat_toNat]
    exact ⟨Nat.le_add_left .., rfl, rfl⟩

theorem exists_error_iff {ε α : Type} {x : Except ε α} : (∃ e, x = .error e) ↔ ¬ ∃ a, x = .ok a := by
  cases x with
  | error e | ok a => simp

theorem exists_liftBy_iff {n d : Nat} {id : TypeParamId} :
    (∃ r, liftBy n id d = .ok r) ↔ id.id.toNat + (d + n) < 2 ^ 16 := by
  simp only [liftBy_iff]
  exact ⟨fun ⟨_, hf, _⟩ => hf, fun hf => ⟨_, hf, rfl⟩⟩

theorem liftFreeParameters_error_iff {ty : TypeRef} {n : Nat} :
    (∃ e, liftFreeParameters ty n = .error e) ↔
      TooDeep ty 0 ∨ ∃ id total, Occurs ty 0 id total ∧ 65535 < id.id.toNat + (total + n) := by
  rw [exists_error_iff, liftFreeParameters_eq, exists_mapFreeParameters_iff (by decide), not_and_or, Classical.not_not]
  simp only [exists_liftBy_iff, Classical.not_forall]
  apply or_congr Iff.rfl
  constructor
  · rintro ⟨id, total, occurs, exceeds⟩
    exact ⟨id, total, occurs, by omega⟩
  · rintro ⟨id, total, occurs, exceeds⟩
    exact ⟨id, total, occurs, by omega⟩

theorem Occurs.fits {t : TypeRef} {d total : Nat} {id : TypeParamId} (occurs : Occurs t d id total) :
    id.id.toNat + total < 2 ^ 16 := by
  induction occurs with
  | @here name d free =>
    have bound := name.id.toNat_lt
    rw [toNat_outer, Nat.sub_add_cancel free]
    exact bound
  | inside _ _ ih => exact ih

theorem apply_error_iff {s : TypeSubstitution} {ty : TypeRef} :
    (∃ e, s.apply ty = .error e) ↔ TooDeep ty 0 ∨ ∃ id total image, Occurs ty 0 id total ∧ s id = some image ∧
      (TooDeep image 0 ∨ ∃ inner under, Occurs image 0 inner under ∧ 65535 < inner.id.toNat + (under + total)) := by
  rw [exists_error_iff]
  unfold TypeSubstitution.apply
  rw [exists_mapFreeParameters_iff (by decide), not_and_or, Classical.not_not]
  simp only [Classical.not_forall]
  apply or_congr Iff.rfl
  constructor
  · rintro ⟨id, total, occurs, fails⟩
    cases hb : s id with
    | none =>
      rw [replace_unbound hb] at fails
      exact absurd ⟨_, liftedParameter_iff.mpr ⟨occurs.fits, rfl⟩⟩ fails
    | some image =>
      rw [replace_bound hb] at fails
      exact ⟨id, total, image, occurs, hb, liftFreeParameters_error_iff.mp (exists_error_iff.mpr fails)⟩
  · rintro ⟨id, total, image, occurs, hb, exceeds⟩
    rw [← liftFreeParameters_error_iff] at exceeds
    refine ⟨id, total, occurs, ?_⟩
    rw [replace_bound hb]
    exact exists_error_iff.mp exceeds

/-- Substitutions compose, lifts add, closed images remove the bound parameters, and an error is returned
    exactly where an index or a depth leaves its range. -/
theorem typeSubstitution_laws :
    (∀ (s t u : TypeSubstitution) (ty x y w : TypeRef), Composes s t u → t.apply ty = .ok x → s.apply x = .ok y →
      u.apply ty = .ok w → y = w) ∧
    (∀ (ty r : TypeRef) (a b : Nat), liftFreeParameters ty (a + b) = .ok r ↔
      ∃ m, liftFreeParameters ty a = .ok m ∧ liftFreeParameters m b = .ok r) ∧
    (∀ (s : TypeSubstitution) (ty r : TypeRef), (∀ id image, s id = some image → freeParameters image = ∅) →
      s.apply ty = .ok r → freeParameters r = freeParameters ty \ {id | s id ≠ none}) ∧
    (∀ (ty : TypeRef) (amount : Nat), (∃ e, liftFreeParameters ty amount = .error e) ↔
      TooDeep ty 0 ∨ ∃ id total, Occurs ty 0 id total ∧ 65535 < id.id.toNat + (total + amount)) ∧
    ∀ (s : TypeSubstitution) (ty : TypeRef), (∃ e, s.apply ty = .error e) ↔
      TooDeep ty 0 ∨ ∃ id total image, Occurs ty 0 id total ∧ s id = some image ∧ (TooDeep image 0 ∨
        ∃ inner under, Occurs image 0 inner under ∧ 65535 < inner.id.toNat + (under + total)) := by
  refine ⟨?_, ?_, ?_, ?_, ?_⟩
  · intro s t u ty x y w composes first second once
    exact composes.apply first second once
  · intro ty r a b
    exact liftFreeParameters_add
  · intro s ty r closed applied
    exact freeParameters_apply closed applied
  · intro ty amount
    exact liftFreeParameters_error_iff
  · intro s ty
    exact apply_error_iff

end Mono
