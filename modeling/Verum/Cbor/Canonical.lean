import Verum.Cbor.Reordering

open List

namespace Cbor

open CborValue

local instance linearOrderUInt8 : LinearOrder UInt8 where
  le_refl := UInt8.le_refl
  le_trans _ _ _ := UInt8.le_trans
  le_antisymm _ _ := UInt8.le_antisymm
  le_total := UInt8.le_total
  lt_iff_le_not_ge a b := by
    rw [UInt8.not_le]
    exact ⟨fun less => ⟨UInt8.le_of_lt less, less⟩, And.right⟩
  toDecidableLE := inferInstance

theorem bytesLt_iff (a b : List UInt8) : bytesLt a b = true ↔ a < b := by
  induction a generalizing b with
  | nil =>
    cases b with
    | nil | cons b bs => simp [bytesLt]
  | cons a as ih =>
    cases b with
    | nil => simp [bytesLt]
    | cons b bs =>
      rw [bytesLt, cons_lt_cons_iff]
      rcases lt_trichotomy a b with lt | rfl | greater
      · simp [lt]
      · simp [ih]
      · simp [greater, greater.ne', not_lt_of_gt greater]

section Equations

theorem cloneElems_of {vs : List CborValue} (eq : ∀ v ∈ vs, cloneValue v = v) : cloneElems vs = vs := by
  induction vs with
  | nil => rfl
  | cons v vs ih => rw [cloneElems, eq v (by simp), ih fun v mem => eq v (.tail _ mem)]

variable {es : List (CborValue × CborValue)}

theorem cloneEntries_of (keys : ∀ e ∈ es, cloneValue e.1 = e.1) (values : ∀ e ∈ es, cloneValue e.2 = e.2) :
    cloneEntries es = es := by
  induction es with
  | nil => rfl
  | cons e es ih =>
    have others := ih (fun e mem => keys e (.tail _ mem)) fun e mem => values e (.tail _ mem)
    obtain ⟨k, v⟩ := e
    rw [cloneEntries, keys (k, v) (by simp), values (k, v) (by simp), others]

@[simp] theorem cloneValue_eq (v : CborValue) : cloneValue v = v := by
  induction v using CborValue.induct with
  | uint n | nint n | bytes bs | text bs | bool b | null | undefined | f64 bits => rfl
  | array vs ih => rw [cloneValue, cloneElems_of ih]
  | map es keys values => rw [cloneValue, cloneEntries_of keys values]
  | tag t v ih => rw [cloneValue, ih]

theorem canonicaliseElems_eq (vs : List CborValue) : canonicaliseElems vs = vs.map canonicalise := by
  induction vs with
  | nil => rfl
  | cons v vs ih => rw [canonicaliseElems, ih, map_cons]

def tagEntry (e : CborValue × CborValue) : Tagged := (encode e.1, e.1, canonicalise e.2)

theorem tagEntries_eq (es : List (CborValue × CborValue)) : tagEntries es = es.map tagEntry := by
  induction es with
  | nil => rfl
  | cons e es ih =>
    obtain ⟨k, v⟩ := e
    rw [tagEntries, ih, cloneValue_eq, map_cons]
    rfl

def sortedEntries (es : List (CborValue × CborValue)) : List (CborValue × CborValue) :=
  (mergeSortTagged (es.map tagEntry)).map Prod.snd

theorem canonicalise_array (vs : List CborValue) : canonicalise (cborArray vs) = cborArray (vs.map canonicalise) := by
  rw [canonicalise, canonicaliseElems_eq]

theorem canonicalise_map (es : List (CborValue × CborValue)) :
    canonicalise (cborMap es) = cborMap (sortedEntries es) := by
  rw [canonicalise, tagEntries_eq]
  simp only [cloneValue_eq]
  rfl

theorem canonicalise_tag (t : UInt64) (v : CborValue) : canonicalise (cborTag t v) = cborTag t v := cloneValue_eq _

theorem mergeSortTagged_perm (tagged : List Tagged) : (mergeSortTagged tagged).Perm tagged :=
  Sorting.mergeSort_perm _ tagged

theorem mem_sortedEntries {e : CborValue × CborValue} :
    e ∈ sortedEntries es ↔ ∃ d ∈ es, e = (d.1, canonicalise d.2) := by
  unfold sortedEntries
  rw [((mergeSortTagged_perm (es.map tagEntry)).map Prod.snd).mem_iff, map_map, mem_map]
  constructor
  · rintro ⟨d, ie, rfl⟩
    exact ⟨d, ie, rfl⟩
  · rintro ⟨d, ie, rfl⟩
    exact ⟨d, ie, rfl⟩

theorem sortedEntries_length (es : List (CborValue × CborValue)) : (sortedEntries es).length = es.length := by
  unfold sortedEntries
  rw [length_map, (mergeSortTagged_perm _).length_eq, length_map]

theorem tags_distinct (hf : ∀ e ∈ es, Fits e.1) (nd : (es.map Prod.fst).Nodup) :
    ((es.map tagEntry).map Prod.fst).Nodup := by
  rw [map_map, List.Nodup, pairwise_map]
  rw [List.Nodup, pairwise_map] at nd
  refine nd.imp_of_mem ?_
  intro e f mem mem' different eq
  exact different (encode_injective (hf e mem) (hf f mem') eq)

theorem sortedEntries_increase (hf : ∀ e ∈ es, Fits e.1) (nd : (es.map Prod.fst).Nodup) :
    KeysIncrease (sortedEntries es) := by
  have strict := Sorting.mergeSort_strict (fun a b : Tagged => bytesLt_iff a.1 b.1) (tags_distinct hf nd)
  unfold KeysIncrease sortedEntries mergeSortTagged
  rw [pairwise_map]
  refine strict.imp_of_mem ?_
  intro a b mem mem' lt
  rw [(Sorting.mergeSort_perm _ _).mem_iff, mem_map] at mem mem'
  obtain ⟨e, -, rfl⟩ := mem
  obtain ⟨f, -, rfl⟩ := mem'
  exact lt

theorem canonicalise_fits {v : CborValue} : Fits v → Fits (canonicalise v) := by
  induction v using CborValue.induct with
  | array vs ih =>
    intro hf
    cases hf with
    | array short elems =>
      rw [canonicalise_array]
      refine .array (by rw [length_map]; exact short) ?_
      intro w mem
      obtain ⟨v, isElem, rfl⟩ := mem_map.mp mem
      exact ih v isElem (elems v isElem)
  | map es _ ih =>
    intro hf
    cases hf with
    | map short keys values =>
      rw [canonicalise_map]
      refine .map (by rw [sortedEntries_length]; exact short) ?_ ?_
      · intro e mem
        obtain ⟨d, ie, rfl⟩ := mem_sortedEntries.mp mem
        exact keys d ie
      · intro e mem
        obtain ⟨d, ie, rfl⟩ := mem_sortedEntries.mp mem
        exact ih d ie (values d ie)
  | tag t v _ =>
    intro hf
    rw [canonicalise_tag]
    exact hf
  | uint n | nint n | bytes bs | text bs | bool b | null | undefined | f64 bits => exact id

theorem encodeCanonical_injective {v w : CborValue} (hf : Fits v) (fits' : Fits w)
    (eq : encodeCanonical v = encodeCanonical w) : canonicalise v = canonicalise w :=
  encode_injective (canonicalise_fits hf) (canonicalise_fits fits') eq

end Equations

section Sufficient

theorem exposed_array {vs : List CborValue} : Exposed (cborArray vs) ↔ ∀ v ∈ vs, Exposed v := by
  unfold Exposed
  simp only [hiddenMaps, mem_hiddenElemMaps]
  constructor
  · intro exposed v isElem m mem
    exact exposed m ⟨v, isElem, mem⟩
  · rintro exposed m ⟨v, isElem, mem⟩
    exact exposed v isElem m mem

theorem exposed_map {es : List (CborValue × CborValue)} :
    Exposed (cborMap es) ↔ ∀ e ∈ es, EveryMap (fun m => m.length ≤ 1) e.1 ∧ Exposed e.2 := by
  unfold Exposed EveryMap
  simp only [hiddenMaps, mem_hiddenEntryMaps]
  constructor
  · intro exposed e ie
    exact ⟨fun m mem => exposed m ⟨e, ie, .inl mem⟩, fun m mem => exposed m ⟨e, ie, .inr mem⟩⟩
  · rintro exposed m ⟨e, ie, inKey | inValue⟩
    · exact (exposed e ie).1 m inKey
    · exact (exposed e ie).2 m inValue

variable {v : CborValue}

theorem increase_of_narrow (narrow : EveryMap (fun m => m.length ≤ 1) v) : Canonical v := by
  refine narrow.imp ?_
  intro m short
  match m, short with
  | [], _ => exact .nil
  | [e], _ => exact pairwise_singleton _ e

theorem canonical_of_exposed : Fits v → DistinctKeys v → Exposed v → Canonical (canonicalise v) := by
  induction v using CborValue.induct with
  | array vs ih =>
    intro hf nd exposed
    cases hf with
    | array _ elems =>
      rw [canonicalise_array]
      refine everyMap_array.mpr ?_
      intro w mem
      obtain ⟨v, isElem, rfl⟩ := mem_map.mp mem
      exact ih v isElem (elems v isElem) (everyMap_array.mp nd v isElem) (exposed_array.mp exposed v isElem)
  | map es _ ih =>
    intro hf nd exposed
    cases hf with
    | map _ keys values =>
      obtain ⟨distinctHere, distinctInside⟩ := everyMap_map.mp nd
      rw [canonicalise_map]
      refine everyMap_map.mpr ⟨sortedEntries_increase keys distinctHere, ?_⟩
      intro e mem
      obtain ⟨d, ie, rfl⟩ := mem_sortedEntries.mp mem
      obtain ⟨narrow, exposedValue⟩ := exposed_map.mp exposed d ie
      exact ⟨increase_of_narrow narrow, ih d ie (values d ie) (distinctInside d ie).2 exposedValue⟩
  | tag t v _ =>
    intro _ _ exposed
    rw [canonicalise_tag]
    exact everyMap_tag.mpr (increase_of_narrow exposed)
  | _ =>
    intro _ _ _ m mem
    cases mem

theorem canonicalise_same {w : CborValue} (eq : Same v w) :
    Fits v → DistinctKeys v → Exposed v → canonicalise v = canonicalise w := by
  induction eq with
  | refl v => intro _ _ _; rfl
  | @array vs ws lengths _ ih =>
    intro hf nd exposed
    cases hf with
    | array _ elems =>
      rw [canonicalise_array, canonicalise_array]
      refine congrArg cborArray (map_eq_of_pointwise lengths ?_)
      intro i v w isV isW
      have isElem := mem_of_getElem? isV
      exact ih i v w isV isW (elems v isElem) (everyMap_array.mp nd v isElem)
        (exposed_array.mp exposed v isElem)
  | @map es fs others lengths keysSame _ perm _ values =>
    intro hf nd exposed
    cases hf with
    | map _ fitKeys fitValues =>
      obtain ⟨distinctHere, distinctInside⟩ := everyMap_map.mp nd
      have tags : es.map tagEntry = fs.map tagEntry := by
        refine map_eq_of_pointwise lengths ?_
        intro i e f isE isF
        have ie := mem_of_getElem? isE
        obtain ⟨narrow, exposedValue⟩ := exposed_map.mp exposed e ie
        have key := (keysSame i e f isE isF).eq_of_narrow narrow
        have value := values i e f isE isF (fitValues e ie) (distinctInside e ie).2 exposedValue
        unfold tagEntry
        rw [key, value]
      have tagsDistinct := tags_distinct fitKeys distinctHere
      have tagsPerm : (es.map tagEntry).Perm (others.map tagEntry) := by
        rw [tags]
        exact perm.map tagEntry
      have sortedPerm : (mergeSortTagged (es.map tagEntry)).Perm (mergeSortTagged (others.map tagEntry)) :=
        ((mergeSortTagged_perm _).trans tagsPerm).trans (mergeSortTagged_perm _).symm
      have unique := Sorting.eq_of_perm_strict sortedPerm
        (Sorting.mergeSort_strict (fun a b : Tagged => bytesLt_iff a.1 b.1) tagsDistinct)
        (Sorting.mergeSort_strict (fun a b : Tagged => bytesLt_iff a.1 b.1)
          ((tagsPerm.map Prod.fst).nodup_iff.mp tagsDistinct))
      rw [canonicalise_map, canonicalise_map]
      unfold sortedEntries
      rw [unique]
  | @tag t v w eq _ =>
    intro _ _ exposed
    rw [eq.eq_of_narrow exposed]

end Sufficient

section Necessary

variable {p : List (CborValue × CborValue) → Prop} {v : CborValue} {front rest : List (CborValue × CborValue)}
  {e f : CborValue × CborValue}

theorem everyMap_elems_replace {front rest : List CborValue} {w : CborValue}
    (every : ∀ u ∈ front ++ v :: rest, EveryMap p u) (everyNew : EveryMap p w) :
    ∀ u ∈ front ++ w :: rest, EveryMap p u := by
  intro u mem
  simp only [mem_append, mem_cons] at mem every
  rcases mem with inFront | rfl | inRest
  · exact every u (.inl inFront)
  · exact everyNew
  · exact every u (.inr (.inr inRest))

theorem everyMap_entries_replace (every : ∀ d ∈ front ++ e :: rest, EveryMap p d.1 ∧ EveryMap p d.2)
    (everyKey : EveryMap p f.1) (everyValue : EveryMap p f.2) :
    ∀ d ∈ front ++ f :: rest, EveryMap p d.1 ∧ EveryMap p d.2 := by
  intro d mem
  simp only [mem_append, mem_cons] at mem every
  rcases mem with inFront | rfl | inRest
  · exact every d (.inl inFront)
  · exact ⟨everyKey, everyValue⟩
  · exact every d (.inr (.inr inRest))

theorem nodup_replace (nd : ((front ++ e :: rest).map Prod.fst).Nodup)
    (hf : ∀ d ∈ front ++ e :: rest, d.1 ≠ f.1) : ((front ++ f :: rest).map Prod.fst).Nodup := by
  have fresh' : f.1 ∉ front.map Prod.fst ∧ f.1 ∉ rest.map Prod.fst := by
    constructor
    · intro mem
      obtain ⟨d, inFront, isKey⟩ := mem_map.mp mem
      exact hf d (by simp [inFront]) isKey
    · intro mem
      obtain ⟨d, inRest, isKey⟩ := mem_map.mp mem
      exact hf d (by simp [inRest]) isKey
  rw [map_append, map_cons] at nd ⊢
  rw [nodup_middle, nodup_cons] at nd ⊢
  exact ⟨by simpa using fresh', nd.2⟩

theorem unordered_of_wide :
    Canonical v → ∀ m ∈ v.maps, 2 ≤ m.length → ∃ w, Same v w ∧ DistinctKeys w ∧ ¬ Canonical w := by
  induction v using CborValue.induct with
  | array vs ih =>
    intro canonical m mem wide
    obtain ⟨v, isElem, inElem⟩ := mem_elemMaps.mp mem
    have elems := everyMap_array.mp canonical
    obtain ⟨w, eq, nd, unordered⟩ := ih v isElem (elems v isElem) m inElem wide
    obtain ⟨front, rest, rfl⟩ := append_of_mem isElem
    refine ⟨_, .array_replace eq, everyMap_array.mpr ?_, ?_⟩
    · exact everyMap_elems_replace (everyMap_array.mp canonical.distinctKeys) nd
    · intro canonical'
      exact unordered (everyMap_array.mp canonical' w (by simp))
  | map es keys values =>
    intro canonical m mem wide
    obtain ⟨increase, hin⟩ := everyMap_map.mp canonical
    obtain ⟨distinctHere, distinctInside⟩ := everyMap_map.mp canonical.distinctKeys
    rcases mem_cons.mp mem with rfl | deeper
    · match m, wide with
      | e :: f :: rest, _ =>
        have swap : (e :: f :: rest).Perm (f :: e :: rest) := .swap f e rest
        refine ⟨_, .map rfl (fun i a b isA isB => ?_) (fun i a b isA isB => ?_) swap, everyMap_map.mpr ⟨?_, ?_⟩, ?_⟩
        · cases Option.some.inj (isA.symm.trans isB)
          exact .refl _
        · cases Option.some.inj (isA.symm.trans isB)
          exact .refl _
        · exact (swap.map Prod.fst).nodup_iff.mp distinctHere
        · exact fun d ie => distinctInside d (swap.mem_iff.mpr ie)
        · intro canonical'
          have lt := rel_of_pairwise_cons increase (mem_cons_self)
          have greater := rel_of_pairwise_cons (everyMap_map.mp canonical').1 (mem_cons_self)
          exact lt_irrefl _ (lt_trans lt greater)
    · obtain ⟨⟨k, x⟩, ie, inEntry⟩ := mem_entryMaps.mp deeper
      rcases inEntry with inKey | inValue
      · obtain ⟨k', eq, nd, unordered⟩ := keys (k, x) ie (hin _ ie).1 m inKey wide
        obtain ⟨front, rest, rfl⟩ := append_of_mem ie
        refine ⟨_, .map_replace (f := (k', x)) eq (.refl x), everyMap_map.mpr ⟨?_, ?_⟩, ?_⟩
        · refine nodup_replace distinctHere ?_
          intro d ie isKey
          have canonicalKey := (hin d ie).1
          rw [isKey] at canonicalKey
          exact unordered canonicalKey
        · exact everyMap_entries_replace distinctInside nd (distinctInside _ ie).2
        · intro canonical'
          exact unordered ((everyMap_map.mp canonical').2 (k', x) (by simp)).1
      · obtain ⟨x', eq, nd, unordered⟩ := values (k, x) ie (hin _ ie).2 m inValue wide
        obtain ⟨front, rest, rfl⟩ := append_of_mem ie
        refine ⟨_, .map_replace (f := (k, x')) (.refl k) eq, everyMap_map.mpr ⟨?_, ?_⟩, ?_⟩
        · rw [map_append, map_cons] at distinctHere ⊢
          exact distinctHere
        · exact everyMap_entries_replace distinctInside (distinctInside _ ie).1 nd
        · intro canonical'
          exact unordered ((everyMap_map.mp canonical').2 (k, x') (by simp)).2
  | tag t v ih =>
    intro canonical m mem wide
    obtain ⟨w, eq, nd, unordered⟩ := ih canonical m mem wide
    exact ⟨cborTag t w, .tag t eq, nd, unordered⟩
  | _ =>
    intro _ m mem
    cases mem

theorem unordered_of_hidden : DistinctKeys v → Canonical (canonicalise v) →
    ∀ m ∈ v.hiddenMaps, 2 ≤ m.length → ∃ w, Same v w ∧ DistinctKeys w ∧ ¬ Canonical (canonicalise w) := by
  induction v using CborValue.induct with
  | array vs ih =>
    intro nd canonical m mem wide
    obtain ⟨v, isElem, inElem⟩ := mem_hiddenElemMaps.mp mem
    rw [canonicalise_array] at canonical
    have elems := everyMap_array.mp canonical
    obtain ⟨w, eq, distinct', unordered⟩ :=
      ih v isElem (everyMap_array.mp nd v isElem) (elems _ (mem_map_of_mem isElem)) m inElem wide
    obtain ⟨front, rest, rfl⟩ := append_of_mem isElem
    refine ⟨_, .array_replace eq, everyMap_array.mpr ?_, ?_⟩
    · exact everyMap_elems_replace (everyMap_array.mp nd) distinct'
    · intro canonical'
      rw [canonicalise_array] at canonical'
      exact unordered (everyMap_array.mp canonical' _ (by simp))
  | map es _ ih =>
    intro nd canonical m mem wide
    rw [canonicalise_map] at canonical
    obtain ⟨-, hin⟩ := everyMap_map.mp canonical
    obtain ⟨distinctHere, distinctInside⟩ := everyMap_map.mp nd
    have inside' : ∀ e ∈ es, Canonical e.1 ∧ Canonical (canonicalise e.2) :=
      fun e ie => hin _ (mem_sortedEntries.mpr ⟨e, ie, rfl⟩)
    obtain ⟨⟨k, x⟩, ie, inEntry⟩ := mem_hiddenEntryMaps.mp mem
    rcases inEntry with inKey | inValue
    · obtain ⟨k', eq, distinct', unordered⟩ := unordered_of_wide (inside' _ ie).1 m inKey wide
      obtain ⟨front, rest, rfl⟩ := append_of_mem ie
      refine ⟨_, .map_replace (f := (k', x)) eq (.refl x), everyMap_map.mpr ⟨?_, ?_⟩, ?_⟩
      · refine nodup_replace distinctHere ?_
        intro d ie isKey
        have canonicalKey := (inside' d ie).1
        rw [isKey] at canonicalKey
        exact unordered canonicalKey
      · exact everyMap_entries_replace distinctInside distinct' (distinctInside _ ie).2
      · intro canonical'
        rw [canonicalise_map] at canonical'
        have isWritten : (k', canonicalise x) ∈ sortedEntries (front ++ (k', x) :: rest) :=
          mem_sortedEntries.mpr ⟨(k', x), by simp, rfl⟩
        exact unordered ((everyMap_map.mp canonical').2 _ isWritten).1
    · obtain ⟨x', eq, distinct', unordered⟩ :=
        ih (k, x) ie (distinctInside _ ie).2 (inside' _ ie).2 m inValue wide
      obtain ⟨front, rest, rfl⟩ := append_of_mem ie
      refine ⟨_, .map_replace (f := (k, x')) (.refl k) eq, everyMap_map.mpr ⟨?_, ?_⟩, ?_⟩
      · rw [map_append, map_cons] at distinctHere ⊢
        exact distinctHere
      · exact everyMap_entries_replace distinctInside (distinctInside _ ie).1 distinct'
      · intro canonical'
        rw [canonicalise_map] at canonical'
        have isWritten : (k, canonicalise x') ∈ sortedEntries (front ++ (k, x') :: rest) :=
          mem_sortedEntries.mpr ⟨(k, x'), by simp, rfl⟩
        exact unordered ((everyMap_map.mp canonical').2 _ isWritten).2
  | tag t v _ =>
    intro _ canonical m mem wide
    rw [canonicalise_tag] at canonical
    obtain ⟨w, eq, nd, unordered⟩ := unordered_of_wide (everyMap_tag.mp canonical) m mem wide
    refine ⟨cborTag t w, .tag t eq, nd, ?_⟩
    rw [canonicalise_tag]
    exact unordered
  | _ =>
    intro _ _ m mem
    cases mem

end Necessary

/-- The canonical encoding does not depend on the order of the entries, and what it encodes has its keys in order. -/
def EncodesCanonically (v : CborValue) : Prop :=
  (∀ w, DistinctKeys w → Same v w → encodeCanonical v = encodeCanonical w) ∧ Canonical (canonicalise v)

/-- Exactly the values without a map of two entries inside a tag or a key have a canonical encoding. -/
theorem encodeCanonical_exact (v : CborValue) (fits : Fits v) (distinct : DistinctKeys v) :
    EncodesCanonically v ↔ Exposed v := by
  constructor
  · rintro ⟨same, canonical⟩ m mem
    by_contra wide
    obtain ⟨w, sameW, distinctW, unordered⟩ := unordered_of_hidden distinct canonical m mem (by omega)
    have equal := encodeCanonical_injective fits (sameW.fits fits) (same w distinctW sameW)
    exact unordered (equal ▸ canonical)
  · intro exposed
    refine ⟨?_, canonical_of_exposed fits distinct exposed⟩
    intro w _ same
    unfold encodeCanonical
    rw [canonicalise_same same fits distinct exposed]

def oneTwo : CborValue := cborMap [(cborUint 1, cborUint 0), (cborUint 2, cborUint 0)]

def twoOne : CborValue := cborMap [(cborUint 2, cborUint 0), (cborUint 1, cborUint 0)]

theorem oneTwo_fits : Fits oneTwo := by
  refine .map (by decide) ?_ ?_
  · simp only [forall_mem_cons, not_mem_nil, false_imp_iff, implies_true, and_true]
    exact ⟨.uint 1, .uint 2⟩
  · simp only [forall_mem_cons, not_mem_nil, false_imp_iff, implies_true, and_true]
    exact ⟨.uint 0, .uint 0⟩

theorem oneTwo_distinct : DistinctKeys oneTwo := by
  intro m mem
  have isWhole : m = [(cborUint 1, cborUint 0), (cborUint 2, cborUint 0)] := mem_singleton.mp mem
  subst isWhole
  simp

theorem twoOne_distinct : DistinctKeys twoOne := by
  intro m mem
  have isWhole : m = [(cborUint 2, cborUint 0), (cborUint 1, cborUint 0)] := mem_singleton.mp mem
  subst isWhole
  simp

theorem oneTwo_same : Same oneTwo twoOne := by
  refine @Same.map _ [(cborUint 1, cborUint 0), (cborUint 2, cborUint 0)] _ rfl ?_ ?_ (.swap _ _ _)
  · intro i e f isE isF
    cases Option.some.inj (isE.symm.trans isF)
    exact .refl _
  · intro i e f isE isF
    cases Option.some.inj (isE.symm.trans isF)
    exact .refl _

theorem encodeCanonical_exact_oneTwo : Fits oneTwo ∧ DistinctKeys oneTwo ∧ (EncodesCanonically oneTwo ↔ Exposed oneTwo) :=
  ⟨oneTwo_fits, oneTwo_distinct, encodeCanonical_exact oneTwo oneTwo_fits oneTwo_distinct⟩

/-- A tag hides the order of its map: one value has two signed forms. -/
theorem encodeCanonical_tag :
    Fits (cborTag 1 oneTwo) ∧ DistinctKeys (cborTag 1 oneTwo) ∧ DistinctKeys (cborTag 1 twoOne) ∧
      Same (cborTag 1 oneTwo) (cborTag 1 twoOne) ∧
      encodeCanonical (cborTag 1 oneTwo) ≠ encodeCanonical (cborTag 1 twoOne) :=
  ⟨.tag 1 oneTwo_fits, oneTwo_distinct, twoOne_distinct, .tag 1 oneTwo_same, by decide⟩

end Cbor
