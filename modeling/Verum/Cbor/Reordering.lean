import Verum.Cbor.Encoding

open List

namespace Cbor

open CborValue

namespace CborValue

mutual

def maps : CborValue → List (List (CborValue × CborValue))
  | cborArray vs => elemMaps vs
  | cborMap es => es :: entryMaps es
  | cborTag _ v => maps v
  | _ => []

def elemMaps : List CborValue → List (List (CborValue × CborValue))
  | [] => []
  | v :: vs => maps v ++ elemMaps vs

def entryMaps : List (CborValue × CborValue) → List (List (CborValue × CborValue))
  | [] => []
  | (k, v) :: es => maps k ++ (maps v ++ entryMaps es)

end

mutual

def hiddenMaps : CborValue → List (List (CborValue × CborValue))
  | cborArray vs => hiddenElemMaps vs
  | cborMap es => hiddenEntryMaps es
  | cborTag _ v => maps v
  | _ => []

def hiddenElemMaps : List CborValue → List (List (CborValue × CborValue))
  | [] => []
  | v :: vs => hiddenMaps v ++ hiddenElemMaps vs

def hiddenEntryMaps : List (CborValue × CborValue) → List (List (CborValue × CborValue))
  | [] => []
  | (k, v) :: es => maps k ++ (hiddenMaps v ++ hiddenEntryMaps es)

end

attribute [grind =] maps hiddenMaps

variable {m es : List (CborValue × CborValue)} {vs : List CborValue} {v w : CborValue} {α : Type}

theorem mem_elemMaps : m ∈ elemMaps vs ↔ ∃ v ∈ vs, m ∈ maps v := by
  induction vs with
  | nil => simp [elemMaps]
  | cons v vs ih => simp [elemMaps, ih]

theorem mem_entryMaps : m ∈ entryMaps es ↔ ∃ e ∈ es, m ∈ maps e.1 ∨ m ∈ maps e.2 := by
  induction es with
  | nil => simp [entryMaps]
  | cons e es ih =>
    obtain ⟨k, v⟩ := e
    simp only [entryMaps, mem_append, ih, exists_mem_cons_iff]
    exact or_assoc.symm

theorem mem_hiddenElemMaps : m ∈ hiddenElemMaps vs ↔ ∃ v ∈ vs, m ∈ hiddenMaps v := by
  induction vs with
  | nil => simp [hiddenElemMaps]
  | cons v vs ih => simp [hiddenElemMaps, ih]

theorem mem_hiddenEntryMaps : m ∈ hiddenEntryMaps es ↔ ∃ e ∈ es, m ∈ maps e.1 ∨ m ∈ hiddenMaps e.2 := by
  induction es with
  | nil => simp [hiddenEntryMaps]
  | cons e es ih =>
    obtain ⟨k, v⟩ := e
    simp only [hiddenEntryMaps, mem_append, ih, exists_mem_cons_iff]
    exact or_assoc.symm

def EveryMap (p : List (CborValue × CborValue) → Prop) (v : CborValue) : Prop := ∀ m ∈ v.maps, p m

section EveryMap

variable {p : List (CborValue × CborValue) → Prop}

theorem everyMap_array {vs : List CborValue} : EveryMap p (cborArray vs) ↔ ∀ v ∈ vs, EveryMap p v := by
  unfold EveryMap
  simp only [maps, mem_elemMaps]
  constructor
  · intro every v isElem m mem
    exact every m ⟨v, isElem, mem⟩
  · rintro every m ⟨v, isElem, mem⟩
    exact every v isElem m mem

theorem everyMap_map {es : List (CborValue × CborValue)} :
    EveryMap p (cborMap es) ↔ p es ∧ ∀ e ∈ es, EveryMap p e.1 ∧ EveryMap p e.2 := by
  unfold EveryMap
  simp only [maps, mem_cons, mem_entryMaps]
  constructor
  · intro every
    refine ⟨every es (.inl rfl), ?_⟩
    intro e ie
    exact ⟨fun m mem => every m (.inr ⟨e, ie, .inl mem⟩), fun m mem => every m (.inr ⟨e, ie, .inr mem⟩)⟩
  · rintro ⟨whole, every⟩ m mem
    rcases mem with rfl | ⟨e, ie, inKey | inValue⟩
    · exact whole
    · exact (every e ie).1 m inKey
    · exact (every e ie).2 m inValue

theorem everyMap_tag {t : UInt64} {v : CborValue} : EveryMap p (cborTag t v) ↔ EveryMap p v := Iff.rfl

theorem EveryMap.imp {q : List (CborValue × CborValue) → Prop} {v : CborValue} (every : EveryMap p v)
    (weaker : ∀ m, p m → q m) : EveryMap q v := fun m mem => weaker m (every m mem)

end EveryMap

def DistinctKeys (v : CborValue) : Prop := EveryMap (fun es => (es.map Prod.fst).Nodup) v

def KeysIncrease (es : List (CborValue × CborValue)) : Prop := es.Pairwise fun e f => encode e.1 < encode f.1

def Canonical (v : CborValue) : Prop := EveryMap KeysIncrease v

def Exposed (v : CborValue) : Prop := ∀ m ∈ v.hiddenMaps, m.length ≤ 1

theorem Canonical.distinctKeys (canonical : Canonical v) : DistinctKeys v := by
  refine canonical.imp ?_
  intro es increase
  rw [List.Nodup, pairwise_map]
  refine increase.imp ?_
  intro e f lt eq
  rw [eq] at lt
  exact List.lt_irrefl _ lt

/-- Equal values: maps are equal up to the order of their entries. -/
inductive Same : CborValue → CborValue → Prop
  | refl (v : CborValue) : Same v v
  | array {vs ws : List CborValue} : vs.length = ws.length →
    (∀ (i : Nat) v w, vs[i]? = some v → ws[i]? = some w → Same v w) → Same (cborArray vs) (cborArray ws)
  | map {es fs others : List (CborValue × CborValue)} : es.length = fs.length →
    (∀ (i : Nat) e f, es[i]? = some e → fs[i]? = some f → Same e.1 f.1) →
    (∀ (i : Nat) e f, es[i]? = some e → fs[i]? = some f → Same e.2 f.2) → fs.Perm others →
    Same (cborMap es) (cborMap others)
  | tag (t : UInt64) {v w : CborValue} : Same v w → Same (cborTag t v) (cborTag t w)

theorem pointwise_of_mem {as bs : List α} (lengths : as.length = bs.length) {b : α} (mem : b ∈ bs) :
    ∃ (i : Nat) (a : α), as[i]? = some a ∧ bs[i]? = some b ∧ a ∈ as := by
  obtain ⟨i, hr, rfl⟩ := getElem_of_mem mem
  have inRange' : i < as.length := lengths ▸ hr
  exact ⟨i, as[i], List.getElem?_eq_getElem inRange', List.getElem?_eq_getElem hr, getElem_mem inRange'⟩

theorem map_eq_of_pointwise {β : Type} {f : α → β} {as bs : List α} (lengths : as.length = bs.length)
    (eq : ∀ (i : Nat) a b, as[i]? = some a → bs[i]? = some b → f a = f b) : as.map f = bs.map f := by
  apply ext_getElem
  · rw [length_map, length_map, lengths]
  · intro i hr inRange'
    rw [getElem_map, getElem_map]
    exact eq i _ _ (List.getElem?_eq_getElem _) (List.getElem?_eq_getElem _)

theorem pointwise_replace {R : α → α → Prop} (refl : ∀ a, R a a) {front rest : List α} {a b : α} (related : R a b)
    (i : Nat) (c d : α) (isC : (front ++ a :: rest)[i]? = some c) (isD : (front ++ b :: rest)[i]? = some d) :
    R c d := by
  induction front generalizing i with
  | nil =>
    cases i with
    | zero =>
      cases isC
      cases isD
      exact related
    | succ i =>
      cases Option.some.inj (isC.symm.trans isD)
      exact refl c
  | cons first front ih =>
    cases i with
    | zero =>
      cases isC
      cases isD
      exact refl _
    | succ i => exact ih i isC isD

theorem Same.array_replace {front rest : List CborValue} (eq : Same v w) :
    Same (cborArray (front ++ v :: rest)) (cborArray (front ++ w :: rest)) :=
  .array (by simp) (pointwise_replace .refl eq)

theorem Same.map_replace {front rest : List (CborValue × CborValue)} {e f : CborValue × CborValue}
    (keys : Same e.1 f.1) (vs : Same e.2 f.2) :
    Same (cborMap (front ++ e :: rest)) (cborMap (front ++ f :: rest)) :=
  .map (by simp) (pointwise_replace (R := fun (e f : CborValue × CborValue) => Same e.1 f.1) (fun _ => .refl _) keys)
    (pointwise_replace (R := fun (e f : CborValue × CborValue) => Same e.2 f.2) (fun _ => .refl _) vs) (.refl _)

theorem Same.fits (eq : Same v w) : Fits v → Fits w := by
  induction eq with
  | refl v => exact id
  | array lengths _ ih =>
    intro hf
    cases hf with
    | array short elems =>
      refine .array (lengths ▸ short) ?_
      intro w mem
      obtain ⟨i, v, isV, isW, isElem⟩ := pointwise_of_mem lengths mem
      exact ih i v w isV isW (elems v isElem)
  | map lengths _ _ perm keys vs =>
    intro hf
    cases hf with
    | map short fitKeys fitValues =>
      refine .map (perm.length_eq ▸ lengths ▸ short) ?_ ?_
      · intro f mem
        obtain ⟨i, e, isE, isF, ie⟩ := pointwise_of_mem lengths (perm.mem_iff.mpr mem)
        exact keys i e f isE isF (fitKeys e ie)
      · intro f mem
        obtain ⟨i, e, isE, isF, ie⟩ := pointwise_of_mem lengths (perm.mem_iff.mpr mem)
        exact vs i e f isE isF (fitValues e ie)
  | tag t _ ih =>
    intro hf
    cases hf with
    | tag _ inner => exact .tag t (ih inner)

theorem Same.eq_of_narrow (eq : Same v w) : EveryMap (fun m => m.length ≤ 1) v → v = w := by
  induction eq with
  | refl v => intro _; rfl
  | @array vs ws lengths _ ih =>
    intro narrow
    rw [everyMap_array] at narrow
    have elems := map_eq_of_pointwise (f := id) lengths
      fun i v w isV isW => ih i v w isV isW (narrow v (mem_of_getElem? isV))
    rw [map_id, map_id] at elems
    rw [elems]
  | @map es fs others lengths _ _ perm keys values =>
    intro narrow
    rw [everyMap_map] at narrow
    have entries := map_eq_of_pointwise (f := id) lengths fun i e f isE isF =>
      Prod.ext (keys i e f isE isF (narrow.2 e (mem_of_getElem? isE)).1)
        (values i e f isE isF (narrow.2 e (mem_of_getElem? isE)).2)
    rw [map_id, map_id] at entries
    subst entries
    have short := narrow.1
    match es, short, perm with
    | [], _, perm => rw [perm.nil_eq]
    | [e], _, perm => rw [singleton_perm.mp perm]
  | tag t _ ih =>
    intro narrow
    rw [ih narrow]

end CborValue

end Cbor
