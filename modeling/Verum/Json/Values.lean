import Verum.Json.ParserExact
import Verum.Json.JcsStrings

open List

namespace Json

namespace JsonValue

variable {F : Type}

theorem induct {motive : JsonValue F → Prop} (null : motive .jsonNull) (bool : ∀ b, motive (.jsonBool b))
    (int : ∀ n, motive (.jsonInt n)) (float : ∀ f, motive (.jsonFloat f)) (string : ∀ s, motive (.jsonString s))
    (array : ∀ vs, (∀ v ∈ vs, motive v) → motive (.jsonArray vs))
    (object : ∀ fs, (∀ field ∈ fs, motive field.2) → motive (.jsonObject fs)) (v : JsonValue F) :
    motive v :=
  match v with
  | .jsonNull => null
  | .jsonBool b => bool b
  | .jsonInt n => int n
  | .jsonFloat f => float f
  | .jsonString s => string s
  | .jsonArray vs => array vs fun v _ => induct null bool int float string array object v
  | .jsonObject fs => object fs fun field _ => induct null bool int float string array object field.2
termination_by sizeOf v
decreasing_by
  · rename_i mem
    have small := sizeOf_lt_of_mem mem
    simp only [JsonValue.jsonArray.sizeOf_spec]
    omega
  · rename_i mem
    have small := sizeOf_lt_of_mem mem
    have inner : sizeOf field.2 < sizeOf field := by
      cases field
      simp only [Prod.mk.sizeOf_spec]
      omega
    simp only [JsonValue.jsonObject.sizeOf_spec]
    omega

def ValidText (s : Text) : Prop := ∃ chars, s = Utf8.encode chars

/-- The strings are valid and the keys of every object are distinct. -/
inductive WellFormed : JsonValue F → Prop
  | null : WellFormed .jsonNull
  | bool (b : Bool) : WellFormed (.jsonBool b)
  | int (n : Int64) : WellFormed (.jsonInt n)
  | float (f : F) : WellFormed (.jsonFloat f)
  | string {s : Text} : ValidText s → WellFormed (.jsonString s)
  | array {vs : List (JsonValue F)} : (∀ v ∈ vs, WellFormed v) → WellFormed (.jsonArray vs)
  | object {fields : List (Text × JsonValue F)} : (∀ field ∈ fields, ValidText field.1) →
    (∀ field ∈ fields, WellFormed field.2) → (fields.map Prod.fst).Nodup → WellFormed (.jsonObject fields)

inductive FloatFree : JsonValue F → Prop
  | null : FloatFree .jsonNull
  | bool (b : Bool) : FloatFree (.jsonBool b)
  | int (n : Int64) : FloatFree (.jsonInt n)
  | string (s : Text) : FloatFree (.jsonString s)
  | array {vs : List (JsonValue F)} : (∀ v ∈ vs, FloatFree v) → FloatFree (.jsonArray vs)
  | object {fields : List (Text × JsonValue F)} : (∀ field ∈ fields, FloatFree field.2) →
    FloatFree (.jsonObject fields)

/-- The value is within the limits of the parser, with nesting at most `n`. -/
inductive Fits : Nat → JsonValue F → Prop
  | null (n : Nat) : Fits n .jsonNull
  | bool (n : Nat) (b : Bool) : Fits n (.jsonBool b)
  | int (n : Nat) (i : Int64) : Fits n (.jsonInt i)
  | float (n : Nat) (f : F) : Fits n (.jsonFloat f)
  | string (n : Nat) {s : Text} : s.length ≤ maxJsonStringBytes → Fits n (.jsonString s)
  | array {n : Nat} {vs : List (JsonValue F)} : (∀ v ∈ vs, Fits n v) → vs.length ≤ maxJsonArrayItems →
    Fits (n + 1) (.jsonArray vs)
  | object {n : Nat} {fields : List (Text × JsonValue F)} : (∀ field ∈ fields, field.1.length ≤ maxJsonStringBytes) →
    (∀ field ∈ fields, Fits n field.2) → fields.length ≤ maxJsonObjectKeys → Fits (n + 1) (.jsonObject fields)

/-- Equal values: objects are maps, whatever the order of their members. -/
inductive Same : JsonValue F → JsonValue F → Prop
  | null : Same .jsonNull .jsonNull
  | bool (b : Bool) : Same (.jsonBool b) (.jsonBool b)
  | int (n : Int64) : Same (.jsonInt n) (.jsonInt n)
  | float (f : F) : Same (.jsonFloat f) (.jsonFloat f)
  | string (s : Text) : Same (.jsonString s) (.jsonString s)
  | array {vs ws : List (JsonValue F)} : vs.length = ws.length →
    (∀ (i : Nat) v w, vs[i]? = some v → ws[i]? = some w → Same v w) → Same (.jsonArray vs) (.jsonArray ws)
  | object {fields others : List (Text × JsonValue F)} : (fields.map Prod.fst).Perm (others.map Prod.fst) →
    (∀ key v w, (key, v) ∈ fields → (key, w) ∈ others → Same v w) → Same (.jsonObject fields) (.jsonObject others)

variable {v w : JsonValue F}

theorem Same.symm (eq : Same v w) : Same w v := by
  induction eq with
  | null => exact .null
  | bool b => exact .bool b
  | int n => exact .int n
  | float f => exact .float f
  | string s => exact .string s
  | array lengths _ ih => exact .array lengths.symm fun i v w isV isW => ih i w v isW isV
  | object keys _ ih => exact .object keys.symm fun key v w isV isW => ih key w v isW isV

theorem Same.trans {u : JsonValue F} (first : Same u v) (snd : Same v w) : Same u w := by
  induction first generalizing w with
  | null | bool b | int n | float f | string s => exact snd
  | @array us vs lengths _ ih =>
    cases snd with
    | @array _ ws lengths' elems =>
      refine .array (lengths.trans lengths') ?_
      intro i u w isU isW
      have hr : i < vs.length := lengths ▸ (List.getElem?_eq_some_iff.mp isU).1
      exact ih i u _ isU (List.getElem?_eq_getElem hr)
        (elems i _ w (List.getElem?_eq_getElem hr) isW)
  | @object fs others keys _ ih =>
    cases snd with
    | @object _ lasts keys' ms =>
      refine .object (keys.trans keys') ?_
      intro key u w isU isW
      have isKey : key ∈ others.map Prod.fst := keys.mem_iff.mp (mem_map_of_mem isU)
      obtain ⟨⟨key', v⟩, isV, rfl⟩ := mem_map.mp isKey
      exact ih _ u v isU isV (ms _ v w isV isW)

theorem element_of_mem {vs ws : List (JsonValue F)} (lengths : vs.length = ws.length) (mem : w ∈ ws) :
    ∃ (i : Nat) (v : JsonValue F), vs[i]? = some v ∧ ws[i]? = some w ∧ v ∈ vs := by
  obtain ⟨i, hr, rfl⟩ := getElem_of_mem mem
  have inRange' : i < vs.length := lengths ▸ hr
  exact ⟨i, vs[i], List.getElem?_eq_getElem inRange', List.getElem?_eq_getElem hr, getElem_mem inRange'⟩

theorem field_of_mem {fs others : List (Text × JsonValue F)}
    (keys : (fs.map Prod.fst).Perm (others.map Prod.fst)) {other : Text × JsonValue F} (mem : other ∈ others) :
    ∃ v, (other.1, v) ∈ fs := by
  have isKey := keys.mem_iff.mpr (mem_map_of_mem mem)
  obtain ⟨⟨key, v⟩, isField, isSame⟩ := mem_map.mp isKey
  exact ⟨v, isSame ▸ isField⟩

theorem WellFormed.of_same (eq : Same v w) : WellFormed v → WellFormed w := by
  induction eq with
  | null | bool b | int n | float f | string s => exact id
  | array lengths _ ih =>
    intro wf
    cases wf with
    | array elems =>
      refine .array ?_
      intro w mem
      obtain ⟨i, v, isV, isW, isElement⟩ := element_of_mem lengths mem
      exact ih i v w isV isW (elems v isElement)
  | object keys _ ih =>
    intro wf
    cases wf with
    | object valid vs nd =>
      refine .object ?_ ?_ (keys.nodup_iff.mp nd)
      · intro other mem
        obtain ⟨v, isField⟩ := field_of_mem keys mem
        exact valid (other.1, v) isField
      · intro other mem
        obtain ⟨v, isField⟩ := field_of_mem keys mem
        exact ih other.1 v other.2 isField mem (vs _ isField)

theorem FloatFree.of_same (eq : Same v w) : FloatFree v → FloatFree w := by
  induction eq with
  | null | bool b | int n | float f | string s => exact id
  | array lengths _ ih =>
    intro floatFree
    cases floatFree with
    | array elems =>
      refine .array ?_
      intro w mem
      obtain ⟨i, v, isV, isW, isElement⟩ := element_of_mem lengths mem
      exact ih i v w isV isW (elems v isElement)
  | object keys _ ih =>
    intro floatFree
    cases floatFree with
    | object vs =>
      refine .object ?_
      intro other mem
      obtain ⟨v, isField⟩ := field_of_mem keys mem
      exact ih other.1 v other.2 isField mem (vs _ isField)

theorem Fits.of_same (eq : Same v w) {n : Nat} : Fits n v → Fits n w := by
  induction eq generalizing n with
  | null | bool b | int n | float f | string s => exact id
  | array lengths _ ih =>
    intro hf
    cases hf with
    | array elems few =>
      refine .array ?_ (lengths ▸ few)
      intro w mem
      obtain ⟨i, v, isV, isW, isElement⟩ := element_of_mem lengths mem
      exact ih i v w isV isW (elems v isElement)
  | object keys _ ih =>
    intro hf
    cases hf with
    | object short vs few =>
      refine .object ?_ ?_ ?_
      · intro other mem
        obtain ⟨v, isField⟩ := field_of_mem keys mem
        exact short (other.1, v) isField
      · intro other mem
        obtain ⟨v, isField⟩ := field_of_mem keys mem
        exact ih other.1 v other.2 isField mem (vs _ isField)
      · have lengths := keys.length_eq
        rw [length_map, length_map] at lengths
        rw [← lengths]
        exact few

def KeyBefore (a b : Text) : Prop :=
  ∃ chars others, a = Utf8.encode chars ∧ b = Utf8.encode others ∧ Utf16.encode chars < Utf16.encode others

/-- Every object lists its members in the order of their keys. -/
inductive Ordered : JsonValue F → Prop
  | null : Ordered .jsonNull
  | bool (b : Bool) : Ordered (.jsonBool b)
  | int (n : Int64) : Ordered (.jsonInt n)
  | float (f : F) : Ordered (.jsonFloat f)
  | string (s : Text) : Ordered (.jsonString s)
  | array {vs : List (JsonValue F)} : (∀ v ∈ vs, Ordered v) → Ordered (.jsonArray vs)
  | object {fields : List (Text × JsonValue F)} : fields.Pairwise (fun field other => KeyBefore field.1 other.1) →
    (∀ field ∈ fields, Ordered field.2) → Ordered (.jsonObject fields)

theorem KeyBefore.lt {a b : Text} (pre : KeyBefore a b) : Jcs.utf8ToUtf16 a < Jcs.utf8ToUtf16 b := by
  obtain ⟨chars, others, rfl, rfl, less⟩ := pre
  rw [Jcs.utf8ToUtf16_encode, Jcs.utf8ToUtf16_encode]
  exact less

theorem ordered_unique (eq : Same v w) (ord : Ordered v) (ordered' : Ordered w) : v = w := by
  induction eq with
  | null | bool b | int n | float f | string s => rfl
  | @array vs ws lengths _ ih =>
    cases ord with
    | array elems =>
      cases ordered' with
      | array elements' =>
        congr 1
        refine ext_getElem lengths ?_
        intro i hr inRange'
        exact ih i _ _ (List.getElem?_eq_getElem hr) (List.getElem?_eq_getElem inRange')
          (elems _ (getElem_mem hr)) (elements' _ (getElem_mem inRange'))
  | @object fs others keys _ ih =>
    cases ord with
    | object inOrder values =>
      cases ordered' with
      | object inOrder' values' =>
        have sorted : (fs.map Prod.fst).Pairwise fun a b => Jcs.utf8ToUtf16 a < Jcs.utf8ToUtf16 b :=
          pairwise_map.mpr (inOrder.imp KeyBefore.lt)
        have sorted' : (others.map Prod.fst).Pairwise fun a b => Jcs.utf8ToUtf16 a < Jcs.utf8ToUtf16 b :=
          pairwise_map.mpr (inOrder'.imp KeyBefore.lt)
        have sameKeys := Sorting.eq_of_perm_strict keys sorted sorted'
        have lengths : fs.length = others.length := by simpa using congrArg List.length sameKeys
        congr 1
        refine ext_getElem lengths ?_
        intro i hr inRange'
        have sameKey : fs[i].1 = others[i].1 := by
          have isKey := getElem_of_eq sameKeys (i := i) (by simpa using hr)
          simpa using isKey
        have isField : (others[i].1, fs[i].2) ∈ fs := by
          rw [← sameKey]
          exact getElem_mem hr
        refine Prod.ext sameKey ?_
        exact ih _ _ _ isField (getElem_mem inRange') (values _ (getElem_mem hr))
          (values' _ (getElem_mem inRange'))

end JsonValue

end Json
