import Verum.Mono.Substitution
import Mathlib.Data.List.Forall2

open List

namespace Mono

open Vbc

abbrev ParameterMap := TypeParamId → Nat → Except SubstitutionError TypeRef

theorem bind_ok_iff {ε α β : Type} {x : Except ε α} {f : α → Except ε β} {b : β} :
    (x >>= f) = .ok b ↔ ∃ a, x = .ok a ∧ f a = .ok b := by
  cases x with
  | error e => exact ⟨nofun, fun ⟨_, eq, _⟩ => nomatch eq⟩
  | ok a => exact ⟨fun run => ⟨a, rfl, run⟩, fun ⟨_, eq, run⟩ => Except.ok.inj eq ▸ run⟩

theorem ok_eq_pure {ε α : Type} (a : α) : (Except.ok a : Except ε α) = pure a := rfl

def enter (t : TypeRef) (depth : Nat) : Except SubstitutionError Nat :=
  match t with
  | .rank2Function _ count _ _ _ => checkedDepth depth count.toNat
  | _ => .ok depth

theorem mapEachParameters_append (map : ParameterMap) (fst snd : List TypeRef) (d : Nat) :
    mapEachParameters map (fst ++ snd) d = do
      let fst ← mapEachParameters map fst d
      let snd ← mapEachParameters map snd d
      return fst ++ snd := by
  induction fst with
  | nil =>
    rw [nil_append, mapEachParameters]
    cases mapEachParameters map snd d <;> rfl
  | cons head tail ih =>
    rw [cons_append, mapEachParameters, mapEachParameters, ih]
    cases mapFreeParameters map head d with
    | error e => rfl
    | ok head =>
      cases mapEachParameters map tail d with
      | error e => rfl
      | ok tail => cases mapEachParameters map snd d <;> rfl

theorem mapEachParameters_iff {map : ParameterMap} {d : Nat} {xs results : List TypeRef} :
    mapEachParameters map xs d = .ok results ↔
      List.Forall₂ (fun item res => mapFreeParameters map item d = .ok res) xs results := by
  induction xs generalizing results with
  | nil =>
    rw [mapEachParameters, forall₂_nil_left_iff]
    exact ⟨fun eq => (Except.ok.inj eq).symm, fun eq => congrArg _ eq.symm⟩
  | cons head tail ih =>
    rw [mapEachParameters]
    simp only [bind_ok_iff, forall₂_cons_left_iff, ih]
    constructor
    · rintro ⟨fst, isFirst, rest, isRest, eq⟩
      exact ⟨fst, rest, isFirst, isRest, (Except.ok.inj eq).symm⟩
    · rintro ⟨fst, rest, isFirst, isRest, eq⟩
      exact ⟨fst, isFirst, rest, isRest, congrArg _ eq.symm⟩

theorem mapFreeParameters_node (map : ParameterMap) {t : TypeRef} (node : t.isGeneric = false) (d : Nat) :
    mapFreeParameters map t d = do
      let inner ← enter t d
      let parts ← mapEachParameters map t.parts inner
      return t.rebuild parts := by
  cases t with
  | generic id => cases node
  | associatedProjection base qualifier assoc args =>
    cases qualifier with
    | none =>
      simp [mapFreeParameters, mapQualifierParameters, mapEachParameters, enter, TypeRef.parts, TypeRef.rebuild,
        TypeRef.qualifierArgs, ok_eq_pure]
    | some application =>
      have qualified : mapQualifierParameters map (some application) d = do
          let args ← mapEachParameters map application.args d
          return some ⟨application.protocol, args⟩ := by
        rw [mapQualifierParameters, mapApplicationParameters]
        cases mapEachParameters map application.args d <;> rfl
      unfold mapFreeParameters enter TypeRef.parts TypeRef.qualifierArgs
      rw [qualified]
      simp only [mapEachParameters, mapEachParameters_append, TypeRef.rebuild, ok_eq_pure, pure_bind]
      cases mapFreeParameters map base d with
      | error e => rfl
      | ok base =>
        cases mapped : mapEachParameters map application.args d with
        | error e => rfl
        | ok results =>
          have length := (mapEachParameters_iff.mp mapped).length_eq
          cases mapEachParameters map args d with
          | error e => rfl
          | ok args => simp [ok_eq_pure, length]
  | _ =>
    simp [mapFreeParameters, mapEachParameters, mapEachParameters_append, enter, TypeRef.parts, TypeRef.rebuild,
      ok_eq_pure]

theorem enter_iff {t : TypeRef} {d inner : Nat} (small : d < 2 ^ 32) :
    enter t d = .ok inner ↔ inner = d + t.binders ∧ d + t.binders < 2 ^ 32 := by
  cases t with
  | rank2Function isAsync n ps returnType contexts =>
    show checkedDepth d n.toNat = .ok inner ↔ inner = d + n.toNat ∧ d + n.toNat < 2 ^ 32
    unfold checkedDepth
    split
    · rename_i hf
      exact ⟨fun eq => ⟨(Except.ok.inj eq).symm, hf⟩, fun eq => congrArg _ eq.1.symm⟩
    · rename_i exceeds
      exact ⟨nofun, fun eq => absurd eq.2 exceeds⟩
  | _ => exact ⟨fun eq => ⟨(Except.ok.inj eq).symm, small⟩, fun eq => congrArg _ eq.1.symm⟩

variable {map f g h k : ParameterMap}

theorem mapFreeParameters_iff {t r : TypeRef} (node : t.isGeneric = false) {d : Nat} (small : d < 2 ^ 32) :
    mapFreeParameters map t d = .ok r ↔ d + t.binders < 2 ^ 32 ∧ ∃ parts,
      List.Forall₂ (fun part res => mapFreeParameters map part (d + t.binders) = .ok res) t.parts parts ∧
      r = t.rebuild parts := by
  rw [mapFreeParameters_node map node]
  simp only [bind_ok_iff, mapEachParameters_iff, enter_iff small]
  constructor
  · rintro ⟨inner, ⟨rfl, hf⟩, parts, mapped, eq⟩
    exact ⟨hf, parts, mapped, (Except.ok.inj eq).symm⟩
  · rintro ⟨hf, parts, mapped, rfl⟩
    exact ⟨_, ⟨rfl, hf⟩, parts, mapped, rfl⟩

theorem mapFreeParameters_generic (id : TypeParamId) (d : Nat) :
    mapFreeParameters map (.generic id) d =
      if d ≤ id.id.toNat then map ⟨UInt16.ofNat (id.id.toNat - d)⟩ d else .ok (.generic id) := by
  rw [mapFreeParameters]

theorem exists_generic {t : TypeRef} (generic : t.isGeneric = true) : ∃ id, t = .generic id := by
  cases t with
  | generic id => exact ⟨id, rfl⟩
  | _ => cases generic

theorem forall₂_transfer {α : Type} {A B C D : α → α → Prop} {xs mid results : List α}
    (step : ∀ item ∈ xs, ∀ x y, A item x → B x y → ∃ z, C item z ∧ D z y)
    (fst : List.Forall₂ A xs mid) (snd : List.Forall₂ B mid results) :
    ∃ others, List.Forall₂ C xs others ∧ List.Forall₂ D others results := by
  induction fst generalizing results with
  | nil =>
    rw [forall₂_nil_left_iff.mp snd]
    exact ⟨[], .nil, .nil⟩
  | cons here _ ih =>
    rcases forall₂_cons_left_iff.mp snd with ⟨y, rest, there, hl, rfl⟩
    rcases step _ (.head _) _ _ here there with ⟨z, left, right⟩
    rcases ih (fun item mem => step item (.tail _ mem)) hl with ⟨others, lefts, rights⟩
    exact ⟨z :: others, .cons left lefts, .cons right rights⟩

/-- A relation between types under binders that holds of types built from related parts. -/
def Congruent (K : TypeRef → Nat → TypeRef → Prop) : Prop :=
  ∀ (t : TypeRef) (depth : Nat) (parts results : List TypeRef), t.isGeneric = false → parts.length = t.parts.length → results.length = t.parts.length →
    depth + t.binders < 2 ^ 32 → List.Forall₂ (fun part result => K part (depth + t.binders) result) parts results →
    K (t.rebuild parts) depth (t.rebuild results)

theorem congruent_eq : Congruent fun t _ r => t = r := by
  intro t d parts results node length length' hf eq
  have equal : parts = results := forall₂_eq_eq_eq ▸ eq
  rw [equal]

theorem congruent_mapFreeParameters : Congruent fun t d r => mapFreeParameters k t d = .ok r := by
  intro t d parts results node length length' hf mapped
  have small : d < 2 ^ 32 := by omega
  apply (mapFreeParameters_iff ((TypeRef.isGeneric_rebuild t parts).trans node) small).mpr
  rw [TypeRef.binders_rebuild, TypeRef.parts_rebuild length]
  exact ⟨hf, results, mapped, (TypeRef.rebuild_rebuild length results length').symm⟩

theorem mapFreeParameters_transfer {K : TypeRef → Nat → TypeRef → Prop} (congruent : Congruent K)
    {df dg dh dk : Nat}
    (leaf : ∀ id n x y, df + n < 2 ^ 32 → dg + n < 2 ^ 32 → mapFreeParameters f (.generic id) (df + n) = .ok x →
      mapFreeParameters g x (dg + n) = .ok y →
      ∃ z, mapFreeParameters h (.generic id) (dh + n) = .ok z ∧ K z (dk + n) y)
    (lowH : dh ≤ max df dg) (lowK : dk ≤ max df dg) (t : TypeRef) {n : Nat} (smallF : df + n < 2 ^ 32)
    (smallG : dg + n < 2 ^ 32) {x y : TypeRef} (fst : mapFreeParameters f t (df + n) = .ok x)
    (snd : mapFreeParameters g x (dg + n) = .ok y) :
    ∃ z, mapFreeParameters h t (dh + n) = .ok z ∧ K z (dk + n) y := by
  induction t using TypeRef.parts_induction generalizing n x y with
  | node t ih =>
    cases node : t.isGeneric with
    | true =>
      rcases exists_generic node with ⟨id, rfl⟩
      exact leaf id n x y smallF smallG fst snd
    | false =>
      rcases (mapFreeParameters_iff node smallF).mp fst with ⟨fitsF, parts, mapped, rfl⟩
      have length := mapped.length_eq
      have nodeX : (t.rebuild parts).isGeneric = false := (TypeRef.isGeneric_rebuild t parts).trans node
      rcases (mapFreeParameters_iff nodeX smallG).mp snd with ⟨fitsG, results, mapped', rfl⟩
      rw [TypeRef.binders_rebuild] at fitsG mapped'
      rw [TypeRef.parts_rebuild length.symm] at mapped'
      have length' := mapped'.length_eq
      have step : ∀ part ∈ t.parts, ∀ x y, mapFreeParameters f part (df + n + t.binders) = .ok x →
          mapFreeParameters g x (dg + n + t.binders) = .ok y →
          ∃ z, mapFreeParameters h part (dh + n + t.binders) = .ok z ∧ K z (dk + n + t.binders) y := by
        intro part mem x y onF onG
        rw [Nat.add_assoc] at onF onG fitsF fitsG
        have inner := ih part mem fitsF fitsG onF onG
        rw [← Nat.add_assoc, ← Nat.add_assoc] at inner
        exact inner
      rcases forall₂_transfer step mapped mapped' with ⟨others, onH, onK⟩
      have lengthH := onH.length_eq
      have fitsH : dh + n + t.binders < 2 ^ 32 := by omega
      have fitsK : dk + n + t.binders < 2 ^ 32 := by omega
      refine ⟨t.rebuild others, (mapFreeParameters_iff node (by omega)).mpr ⟨fitsH, others, onH, rfl⟩, ?_⟩
      rw [TypeRef.rebuild_rebuild length.symm results (by omega)]
      exact congruent t (dk + n) others results node lengthH.symm (by omega) fitsK onK

theorem liftedParameter_iff {id : TypeParamId} {shift : Nat} {r : TypeRef} :
    liftedParameter id shift = .ok r ↔
      id.id.toNat + shift < 2 ^ 16 ∧ r = .generic ⟨UInt16.ofNat (id.id.toNat + shift)⟩ := by
  unfold liftedParameter
  split
  · rename_i hf
    exact ⟨fun eq => ⟨hf, (Except.ok.inj eq).symm⟩, fun eq => congrArg _ eq.2.symm⟩
  · rename_i exceeds
    exact ⟨nofun, fun eq => absurd eq.1 exceeds⟩

/-- A free parameter, its name in the outer scope and the binders around it. -/
inductive Occurs : TypeRef → Nat → TypeParamId → Nat → Prop
  | here {id : TypeParamId} {depth : Nat} : depth ≤ id.id.toNat →
      Occurs (.generic id) depth ⟨UInt16.ofNat (id.id.toNat - depth)⟩ depth
  | inside {t part : TypeRef} {depth total : Nat} {id : TypeParamId} : part ∈ t.parts →
      Occurs part (depth + t.binders) id total → Occurs t depth id total

/-- More binders somewhere than a `u32` counts. -/
inductive TooDeep : TypeRef → Nat → Prop
  | here {t : TypeRef} {depth : Nat} : 2 ^ 32 ≤ depth + t.binders → TooDeep t depth
  | inside {t part : TypeRef} {depth : Nat} : part ∈ t.parts → TooDeep part (depth + t.binders) → TooDeep t depth

theorem exists_forall₂_iff {α : Type} {A : α → α → Prop} {xs : List α} :
    (∃ results, List.Forall₂ A xs results) ↔ ∀ item ∈ xs, ∃ res, A item res := by
  induction xs with
  | nil => exact ⟨fun _ => nofun, fun _ => ⟨[], .nil⟩⟩
  | cons head tail ih =>
    rw [forall_mem_cons, ← ih]
    constructor
    · rintro ⟨results, related⟩
      rcases forall₂_cons_left_iff.mp related with ⟨fst, rest, here, hl, rfl⟩
      exact ⟨⟨fst, here⟩, rest, hl⟩
    · rintro ⟨⟨fst, here⟩, rest, hl⟩
      exact ⟨fst :: rest, .cons here hl⟩

theorem exists_mapFreeParameters_iff {t : TypeRef} {d : Nat} (small : d < 2 ^ 32) :
    (∃ r, mapFreeParameters map t d = .ok r) ↔
      ¬ TooDeep t d ∧ ∀ id total, Occurs t d id total → ∃ r, map id total = .ok r := by
  induction t using TypeRef.parts_induction generalizing d with
  | node t ih =>
    cases node : t.isGeneric with
    | true =>
      rcases exists_generic node with ⟨id, rfl⟩
      rw [mapFreeParameters_generic]
      have shallow : ¬ TooDeep (.generic id) d := by
        intro deep
        cases deep with
        | here exceeds => exact absurd small (Nat.not_lt.mpr exceeds)
        | inside mem _ => cases mem
      split
      · rename_i free
        constructor
        · intro mapped
          refine ⟨shallow, ?_⟩
          intro id' total occurs
          cases occurs with
          | here _ => exact mapped
          | inside mem _ => cases mem
        · exact fun both => both.2 _ _ (.here free)
      · rename_i bound
        refine ⟨fun _ => ⟨shallow, ?_⟩, fun _ => ⟨_, rfl⟩⟩
        intro id' total occurs
        cases occurs with
        | here free => exact absurd free bound
        | inside mem _ => cases mem
    | false =>
      simp only [mapFreeParameters_iff node small]
      have each : (∃ parts, List.Forall₂ (fun part res =>
          mapFreeParameters map part (d + t.binders) = .ok res) t.parts parts) ↔
          ∀ part ∈ t.parts, ∃ res, mapFreeParameters map part (d + t.binders) = .ok res :=
        exists_forall₂_iff
      constructor
      · rintro ⟨r, fits, parts, mapped, -⟩
        have visited := each.mp ⟨parts, mapped⟩
        constructor
        · intro deep
          cases deep with
          | here exceeds => exact absurd fits (Nat.not_lt.mpr exceeds)
          | inside mem inner => exact ((ih _ mem fits).mp (visited _ mem)).1 inner
        · intro id total occurs
          cases occurs with
          | here _ => cases node
          | inside mem inner => exact ((ih _ mem fits).mp (visited _ mem)).2 id total inner
      · rintro ⟨shallow, mappable⟩
        have fits : d + t.binders < 2 ^ 32 := Nat.not_le.mp fun exceeds => shallow (.here exceeds)
        have visited : ∀ part ∈ t.parts, ∃ res,
            mapFreeParameters map part (d + t.binders) = .ok res := by
          intro part mem
          apply (ih part mem fits).mpr
          exact ⟨fun deep => shallow (.inside mem deep), fun id total occurs => mappable id total (.inside mem occurs)⟩
        rcases each.mpr visited with ⟨parts, mapped⟩
        exact ⟨_, fits, parts, mapped, rfl⟩

theorem occurs_rebuild_iff {t : TypeRef} {parts : List TypeRef} (node : t.isGeneric = false)
    (length : parts.length = t.parts.length) {d total : Nat} {id : TypeParamId} :
    Occurs (t.rebuild parts) d id total ↔ ∃ part ∈ parts, Occurs part (d + t.binders) id total := by
  constructor
  · intro occurs
    generalize rebuilt : t.rebuild parts = whole at occurs
    cases occurs with
    | here free =>
      have generic := TypeRef.isGeneric_rebuild t parts
      rw [rebuilt, node] at generic
      cases generic
    | inside mem inner =>
      subst rebuilt
      rw [TypeRef.binders_rebuild] at inner
      rw [TypeRef.parts_rebuild length] at mem
      exact ⟨_, mem, inner⟩
  · rintro ⟨part, mem, inner⟩
    have among : part ∈ (t.rebuild parts).parts := by
      rw [TypeRef.parts_rebuild length]
      exact mem
    apply Occurs.inside among
    rw [TypeRef.binders_rebuild]
    exact inner

theorem exists_mem_of_forall₂ {α : Type} {A : α → α → Prop} {xs results : List α}
    (related : List.Forall₂ A xs results) :
    (∀ item ∈ xs, ∃ res ∈ results, A item res) ∧ ∀ res ∈ results, ∃ item ∈ xs, A item res := by
  induction related with
  | nil => exact ⟨nofun, nofun⟩
  | cons here _ ih =>
    constructor
    · rintro item mem
      rcases mem_cons.mp mem with rfl | hl
      · exact ⟨_, .head _, here⟩
      · rcases ih.1 item hl with ⟨res, hin, hh⟩
        exact ⟨res, .tail _ hin, hh⟩
    · rintro res mem
      rcases mem_cons.mp mem with rfl | hl
      · exact ⟨_, .head _, here⟩
      · rcases ih.2 res hl with ⟨item, hin, hh⟩
        exact ⟨item, .tail _ hin, hh⟩

theorem occurs_mapFreeParameters {t r : TypeRef} {d : Nat} (small : d < 2 ^ 32)
    (mapped : mapFreeParameters map t d = .ok r) {id : TypeParamId} {total : Nat} :
    Occurs r d id total ↔
      ∃ src under image, Occurs t d src under ∧ map src under = .ok image ∧ Occurs image under id total := by
  induction t using TypeRef.parts_induction generalizing r d with
  | node t ih =>
    cases node : t.isGeneric with
    | true =>
      rcases exists_generic node with ⟨name, rfl⟩
      rw [mapFreeParameters_generic] at mapped
      split at mapped
      · rename_i free
        constructor
        · exact fun occurs => ⟨_, _, r, .here free, mapped, occurs⟩
        · rintro ⟨src, under, image, occurs, isImage, inner⟩
          cases occurs with
          | here _ =>
            rw [mapped] at isImage
            exact Except.ok.inj isImage ▸ inner
          | inside mem _ => cases mem
      · rename_i bound
        rw [← Except.ok.inj mapped]
        have none : ∀ src under, ¬ Occurs (.generic name) d src under := by
          intro src under occurs
          cases occurs with
          | here free => exact bound free
          | inside mem _ => cases mem
        exact ⟨fun occurs => absurd occurs (none _ _), fun ⟨src, under, _, occurs, _⟩ => absurd occurs (none src under)⟩
    | false =>
      rcases (mapFreeParameters_iff node small).mp mapped with ⟨fits, parts, related, rfl⟩
      rw [occurs_rebuild_iff node related.length_eq.symm]
      have ms := exists_mem_of_forall₂ related
      constructor
      · rintro ⟨res, mem, occurs⟩
        rcases ms.2 res mem with ⟨part, among, onPart⟩
        rcases (ih part among fits onPart).mp occurs with ⟨src, under, image, inner, isImage, last⟩
        exact ⟨src, under, image, .inside among inner, isImage, last⟩
      · rintro ⟨src, under, image, occurs, isImage, last⟩
        cases occurs with
        | here _ => cases node
        | inside among inner =>
          rcases ms.1 _ among with ⟨res, mem, onPart⟩
          exact ⟨res, mem, (ih _ among fits onPart).mpr ⟨src, under, image, inner, isImage, last⟩⟩

theorem Occurs.outward {t : TypeRef} {d extra total : Nat} {id : TypeParamId}
    (occurs : Occurs t (d + extra) id total) : ∃ id total, Occurs t d id total := by
  generalize start : d + extra = inner at occurs
  induction occurs generalizing d with
  | here free => exact ⟨_, _, .here (by omega)⟩
  | @inside t part depth' total id mem _ ih =>
    have shifted : d + t.binders + extra = depth' + t.binders := by omega
    rcases ih shifted with ⟨id, total, occurs⟩
    exact ⟨id, total, .inside mem occurs⟩

theorem mapFreeParameters_inverts {t r : TypeRef} (node : t.isGeneric = false) {d : Nat}
    (mapped : mapFreeParameters map t d = .ok r) : ∃ parts,
      List.Forall₂ (fun part res => mapFreeParameters map part (d + t.binders) = .ok res) t.parts parts ∧
      r = t.rebuild parts := by
  rw [mapFreeParameters_node map node] at mapped
  rcases bind_ok_iff.mp mapped with ⟨inner, entered, mapped⟩
  rcases bind_ok_iff.mp mapped with ⟨parts, each, eq⟩
  have isDepth : inner = d + t.binders := by
    cases t with
    | rank2Function isAsync n ps returnType contexts =>
      unfold enter checkedDepth at entered
      dsimp only at entered
      split at entered
      · exact (Except.ok.inj entered).symm
      · cases entered
    | _ => exact (Except.ok.inj entered).symm
  subst isDepth
  exact ⟨parts, mapEachParameters_iff.mp each, (Except.ok.inj eq).symm⟩

/-- A relation between types under binders that holds only of types built from related parts. -/
def Inverts (K : TypeRef → Nat → TypeRef → Prop) : Prop :=
  ∀ (t : TypeRef) (depth : Nat) (parts : List TypeRef) (r : TypeRef), t.isGeneric = false →
    parts.length = t.parts.length → K (t.rebuild parts) depth r → ∃ results,
      List.Forall₂ (fun part result => K part (depth + t.binders) result) parts results ∧ r = t.rebuild results

theorem inverts_eq : Inverts fun t _ r => t = r := by
  intro t d parts r node length eq
  exact ⟨parts, forall₂_same.mpr fun _ _ => rfl, eq.symm⟩

theorem inverts_mapFreeParameters : Inverts fun t d r => mapFreeParameters k t d = .ok r := by
  intro t d parts r node length mapped
  rcases mapFreeParameters_inverts ((TypeRef.isGeneric_rebuild t parts).trans node) mapped with
    ⟨results, each, rfl⟩
  rw [TypeRef.binders_rebuild, TypeRef.parts_rebuild length] at each
  exact ⟨results, each, TypeRef.rebuild_rebuild length results (each.length_eq.symm.trans length)⟩

theorem forall₂_agree {α : Type} {A B C D : α → α → Prop} {items xs ys zs ws : List α}
    (step : ∀ item ∈ items, ∀ x y z w, A item x → B x y → C item z → D z w → y = w)
    (onA : List.Forall₂ A items xs) (onB : List.Forall₂ B xs ys) (onC : List.Forall₂ C items zs)
    (onD : List.Forall₂ D zs ws) : ys = ws := by
  induction onA generalizing ys zs ws with
  | nil =>
    rw [forall₂_nil_left_iff.mp onB]
    rw [forall₂_nil_left_iff.mp onC] at onD
    exact (forall₂_nil_left_iff.mp onD).symm
  | cons here _ ih =>
    rcases forall₂_cons_left_iff.mp onB with ⟨y, ys, hereB, laterB, rfl⟩
    rcases forall₂_cons_left_iff.mp onC with ⟨z, zs, hereC, laterC, rfl⟩
    rcases forall₂_cons_left_iff.mp onD with ⟨w, ws, hereD, laterD, rfl⟩
    rw [step _ (.head _) _ _ _ _ here hereB hereC hereD,
      ih (fun item mem => step item (.tail _ mem)) laterB laterC laterD]

theorem mapFreeParameters_agree {K : TypeRef → Nat → TypeRef → Prop} (inverts : Inverts K) {df dg dh dk : Nat}
    (leaf : ∀ id n x y z w, mapFreeParameters f (.generic id) (df + n) = .ok x →
      mapFreeParameters g x (dg + n) = .ok y → mapFreeParameters h (.generic id) (dh + n) = .ok z → K z (dk + n) w →
      y = w) (t : TypeRef) {n : Nat} {x y z w : TypeRef} (onF : mapFreeParameters f t (df + n) = .ok x)
    (onG : mapFreeParameters g x (dg + n) = .ok y) (onH : mapFreeParameters h t (dh + n) = .ok z)
    (onK : K z (dk + n) w) : y = w := by
  induction t using TypeRef.parts_induction generalizing n x y z w with
  | node t ih =>
    cases node : t.isGeneric with
    | true =>
      rcases exists_generic node with ⟨id, rfl⟩
      exact leaf id n x y z w onF onG onH onK
    | false =>
      rcases mapFreeParameters_inverts node onF with ⟨xs, eachF, rfl⟩
      rcases mapFreeParameters_inverts node onH with ⟨zs, eachH, rfl⟩
      rcases inverts_mapFreeParameters t _ xs y node eachF.length_eq.symm onG with ⟨ys, eachG, rfl⟩
      rcases inverts t _ zs w node eachH.length_eq.symm onK with ⟨ws, eachK, rfl⟩
      have step : ∀ part ∈ t.parts, ∀ x y z w, mapFreeParameters f part (df + n + t.binders) = .ok x →
          mapFreeParameters g x (dg + n + t.binders) = .ok y → mapFreeParameters h part (dh + n + t.binders) = .ok z →
          K z (dk + n + t.binders) w → y = w := by
        intro part mem x y z w
        rw [Nat.add_assoc, Nat.add_assoc, Nat.add_assoc, Nat.add_assoc]
        exact ih part mem
      rw [forall₂_agree step eachF eachG eachH eachK]

end Mono
