import Verum.Json.Values

open Utf8

open List

namespace Json

open Grammar JsonValue

namespace Jcs

variable {F : Type}

mutual

/-- The compact text of a value, with the members of an object as they are listed. -/
def print : JsonValue F → Text
  | .jsonNull => ascii "null"
  | .jsonBool b => if b then ascii "true" else ascii "false"
  | .jsonInt n => emitInt n
  | .jsonFloat _ => []
  | .jsonString s => emitString s
  | .jsonArray vs => 0x5B :: (printElems vs ++ [0x5D])
  | .jsonObject fields => 0x7B :: (printMembers fields ++ [0x7D])

def printElems : List (JsonValue F) → Text
  | [] => []
  | [v] => print v
  | v :: w :: vs => print v ++ 0x2C :: printElems (w :: vs)

def printMembers : List (Text × JsonValue F) → Text
  | [] => []
  | [(key, v)] => emitString key ++ 0x3A :: print v
  | (key, v) :: field :: fields => (emitString key ++ 0x3A :: print v) ++ 0x2C :: printMembers (field :: fields)

end

attribute [grind =] print printElems printMembers

section Keys

theorem sortKeysUtf16_perm (keys : List Text) : (sortKeysUtf16 keys).Perm keys := by
  have sorted := (Sorting.mergeSort_perm (fun a b => utf16Lt a.1 b.1)
    (keys.map fun key => (utf8ToUtf16 key, key))).map Prod.snd
  rw [map_map] at sorted
  exact sorted.trans (.of_eq (map_id keys))

theorem utf8ToUtf16_injective {a b : Text} (valid : ValidText a) (valid' : ValidText b)
    (eq : utf8ToUtf16 a = utf8ToUtf16 b) : a = b := by
  obtain ⟨chars, rfl⟩ := valid
  obtain ⟨others, rfl⟩ := valid'
  rw [utf8ToUtf16_encode, utf8ToUtf16_encode] at eq
  rw [Utf16.encode_injective eq]

theorem keyBefore_of_lt {a b : Text} (valid : ValidText a) (valid' : ValidText b)
    (lt : utf8ToUtf16 a < utf8ToUtf16 b) : KeyBefore a b := by
  obtain ⟨chars, rfl⟩ := valid
  obtain ⟨others, rfl⟩ := valid'
  rw [utf8ToUtf16_encode, utf8ToUtf16_encode] at lt
  exact ⟨chars, others, rfl, rfl, lt⟩

theorem sortKeysUtf16_ordered {keys : List Text} (valid : ∀ key ∈ keys, ValidText key) (nd : keys.Nodup) :
    (sortKeysUtf16 keys).Pairwise KeyBefore := by
  have validSorted : ∀ key ∈ sortKeysUtf16 keys, ValidText key :=
    fun key mem => valid key ((sortKeysUtf16_perm keys).mem_iff.mp mem)
  have paired : ((keys.map fun key => (utf8ToUtf16 key, key)).map Prod.fst).Nodup := by
    rw [map_map]
    exact nd.map_on fun a isA b isB eq => utf8ToUtf16_injective (valid a isA) (valid b isB) eq
  have units : ∀ pair ∈ Sorting.mergeSort (fun a b => utf16Lt a.1 b.1) (keys.map fun key => (utf8ToUtf16 key, key)),
      pair.1 = utf8ToUtf16 pair.2 := by
    intro pair mem
    rw [(Sorting.mergeSort_perm _ _).mem_iff, mem_map] at mem
    obtain ⟨key, -, rfl⟩ := mem
    rfl
  have strict := Sorting.mergeSort_strict (fun a b => utf16Lt_iff a.1 b.1) paired
  unfold sortKeysUtf16 at validSorted ⊢
  rw [pairwise_map]
  refine strict.imp_of_mem ?_
  intro pair other mem mem' lt
  rw [units pair mem, units other mem'] at lt
  exact keyBefore_of_lt (validSorted _ (mem_map_of_mem mem)) (validSorted _ (mem_map_of_mem mem')) lt

end Keys

section Emission

variable {emitFloat : F → Except JcsError Text}

def Emits (emitFloat : F → Except JcsError Text) (v w : JsonValue F) : Prop :=
  Same v w ∧ Ordered w ∧ emit emitFloat v = .ok (print w)

theorem emitElems_prints {vs : List (JsonValue F)} (emits : ∀ v ∈ vs, ∃ w, Emits emitFloat v w) :
    ∃ ws, List.Forall₂ (fun v w => Same v w ∧ Ordered w) vs ws ∧ emitElems emitFloat vs = .ok (printElems ws) := by
  induction vs with
  | nil => exact ⟨[], .nil, by rw [emitElems]; rfl⟩
  | cons v vs ih =>
    obtain ⟨w, eq, ord, isFirst⟩ := emits v (by simp)
    obtain ⟨ws, others, isOthers⟩ := ih fun v' mem => emits v' (mem_cons_of_mem v mem)
    refine ⟨w :: ws, .cons ⟨eq, ord⟩ others, ?_⟩
    cases others with
    | nil => rw [emitElems, isFirst, printElems]
    | cons _ _ =>
      rw [emitElems, isFirst, isOthers, printElems]
      rfl

variable {fields : List (Text × JsonValue F)} {v : JsonValue F}

theorem get?_of_mem (nd : (fields.map Prod.fst).Nodup) {key : Text} (mem : (key, v) ∈ fields) :
    Fields.get? key fields = some v := by
  induction fields with
  | nil => exact absurd mem not_mem_nil
  | cons field fields ih =>
    rw [map_cons, nodup_cons] at nd
    unfold Fields.get? at ih ⊢
    rw [List.find?_cons]
    rcases mem_cons.mp mem with rfl | hl
    · simp
    · have other : ¬ field.1 = key := by
        intro isKey
        rw [isKey] at nd
        exact nd.1 (mem_map_of_mem (f := Prod.fst) hl)
      simp only [other, decide_false]
      exact ih nd.2 hl

theorem emitMember_prints (nd : (fields.map Prod.fst).Nodup) {key : Text} {w : JsonValue F}
    (mem : (key, v) ∈ fields) (emits : Emits emitFloat v w) :
    emitMember emitFloat fields key = .ok (emitString key ++ 0x3A :: print w) := by
  have isValue := get?_of_mem nd mem
  rw [emitMember]
  split
  · rename_i v' hit
    obtain rfl := Option.some.inj (hit.symm.trans isValue)
    rw [emits.2.2]
    rfl
  · rename_i missing
    exact absurd (isValue.symm.trans missing) (by simp)

theorem emitMembers_prints (nd : (fields.map Prod.fst).Nodup)
    (emits : ∀ field ∈ fields, ∃ w, Emits emitFloat field.2 w) {keys : List Text}
    (present : ∀ key ∈ keys, key ∈ fields.map Prod.fst) :
    ∃ others : List (Text × JsonValue F), others.map Prod.fst = keys ∧
      (∀ other ∈ others, ∃ v, (other.1, v) ∈ fields ∧ Same v other.2 ∧ Ordered other.2) ∧
      emitMembers emitFloat fields keys = .ok (printMembers others) := by
  induction keys with
  | nil => exact ⟨[], rfl, by simp, by rw [emitMembers]; rfl⟩
  | cons key keys ih =>
    obtain ⟨⟨key', v⟩, isField, rfl⟩ := mem_map.mp (present key (by simp))
    obtain ⟨w, isEmitted⟩ := emits _ isField
    obtain ⟨others, isKeys, sources, isOthers⟩ := ih fun key mem => present key (.tail _ mem)
    refine ⟨(key', w) :: others, by rw [map_cons, isKeys], ?_, ?_⟩
    · intro other mem
      rcases mem_cons.mp mem with rfl | hl
      · exact ⟨v, isField, isEmitted.1, isEmitted.2.1⟩
      · exact sources other hl
    · have isMember := emitMember_prints nd isField isEmitted
      cases others with
      | nil =>
        rw [← isKeys, map_nil, emitMembers, isMember, printMembers]
      | cons other others =>
        rw [← isKeys, map_cons, emitMembers, isMember]
        rw [← isKeys, map_cons] at isOthers
        rw [isOthers, printMembers]
        rfl

theorem emit_prints (emitFloat : F → Except JcsError Text) (wf : WellFormed v) (floatFree : FloatFree v) :
    ∃ w, Emits emitFloat v w := by
  induction v using JsonValue.induct with
  | null => exact ⟨_, .null, .null, by rw [emit, print]⟩
  | bool b => exact ⟨_, .bool b, .bool b, by rw [emit, print]⟩
  | int n => exact ⟨_, .int n, .int n, by rw [emit, print]⟩
  | float f => exact absurd floatFree (by rintro ⟨⟩)
  | string s => exact ⟨_, .string s, .string s, by rw [emit, print]⟩
  | array vs ih =>
    cases wf with
    | array wf =>
      cases floatFree with
      | array floatFree =>
        obtain ⟨ws, elems, isText⟩ :=
          emitElems_prints fun v mem => ih v mem (wf v mem) (floatFree v mem)
        refine ⟨.jsonArray ws, .array elems.length_eq ?_, .array ?_, ?_⟩
        · intro i v w isV isW
          obtain ⟨hr, rfl⟩ := List.getElem?_eq_some_iff.mp isV
          obtain ⟨inRange', rfl⟩ := List.getElem?_eq_some_iff.mp isW
          exact ((forall₂_iff_get.mp elems).2 i hr inRange').1
        · intro w mem
          obtain ⟨i, v, isV, isW, -⟩ := element_of_mem elems.length_eq mem
          obtain ⟨hr, rfl⟩ := List.getElem?_eq_some_iff.mp isV
          obtain ⟨inRange', rfl⟩ := List.getElem?_eq_some_iff.mp isW
          exact ((forall₂_iff_get.mp elems).2 i hr inRange').2
        · rw [emit, isText, print]
          rfl
  | object fields ih =>
    cases wf with
    | object valid wf nd =>
      cases floatFree with
      | object floatFree =>
        have perm := sortKeysUtf16_perm (fields.map Prod.fst)
        have validKeys : ∀ key ∈ fields.map Prod.fst, ValidText key := by
          intro key mem
          obtain ⟨field, isField, rfl⟩ := mem_map.mp mem
          exact valid field isField
        obtain ⟨others, isKeys, sources, isText⟩ :=
          emitMembers_prints nd (fun field mem => ih field mem (wf field mem) (floatFree field mem))
            (fun key mem => perm.mem_iff.mp mem)
        have inOrder := sortKeysUtf16_ordered validKeys nd
        rw [← isKeys] at inOrder perm
        rw [pairwise_map] at inOrder
        refine ⟨.jsonObject others, .object perm.symm ?_, .object inOrder ?_, ?_⟩
        · intro key v w isV isW
          obtain ⟨v', isField, eq, -⟩ := sources (key, w) isW
          obtain rfl := Option.some.inj ((get?_of_mem nd isV).symm.trans (get?_of_mem nd isField))
          exact eq
        · intro other mem
          obtain ⟨v, -, -, ord⟩ := sources other mem
          exact ord
        · rw [emit, isText, print]
          rfl

end Emission

section Printing

variable {toFloat : Text → F} {strict : Bool}
variable {fields : List (Text × JsonValue F)} {n : Nat} {vs : List (JsonValue F)}

theorem lastWins_fresh {ms : List (Text × JsonValue F)} (hf : Fresh fields ms) :
    lastWins fields ms = fields ++ ms := by
  induction ms generalizing fields with
  | nil => exact (append_nil fields).symm
  | cons m ms ih =>
    obtain ⟨free, hl⟩ := fresh_cons.mp hf
    have appended : ∀ fields : List (Text × JsonValue F), Fields.containsKey m.1 fields = false →
        Fields.insert m.1 m.2 fields = fields ++ [m] := by
      intro fields free
      induction fields with
      | nil => rfl
      | cons field fields ihFields =>
        simp only [Fields.containsKey, any_cons, Bool.or_eq_false_iff, decide_eq_false_iff_not] at free
        rw [Fields.insert, if_neg free.1, ihFields free.2, cons_append]
    rw [lastWins_cons, ih hl, appended fields free, append_assoc, singleton_append]

/-- A compact text is read as the value it prints, whatever comes after it. -/
def Reads (toFloat : Text → F) (strict : Bool) (n : Nat) (v : JsonValue F) : Prop :=
  ∃ chars, print v = encode chars ∧
    ∀ rest, Derives (textNumbers toFloat) strict n (chars ++ rest) (.value v) rest

theorem printString_reads {s : Text} (valid : ValidText s) (short : s.length ≤ maxJsonStringBytes) :
    ∃ chars, emitString s = encode chars ∧ ∀ rest, StringText (chars ++ rest) s rest := by
  obtain ⟨text, rfl⟩ := valid
  refine ⟨_, emitString_encode text, ?_⟩
  intro rest
  rw [cons_append, append_assoc]
  exact .mk (stringBody_escaped text rest) short

theorem printElems_reads (ne : vs ≠ []) (reads : ∀ v ∈ vs, Reads toFloat strict n v) :
    ∃ chars, printElems vs = encode chars ∧
      ∀ rest, Derives (textNumbers toFloat) strict n (chars ++ ']' :: rest) (.elements vs) rest := by
  induction vs with
  | nil => exact absurd rfl ne
  | cons v vs ih =>
    obtain ⟨fst, isFirst, readsFirst⟩ := reads v (by simp)
    cases vs with
    | nil =>
      refine ⟨fst, by rw [printElems, isFirst], ?_⟩
      intro rest
      exact .lastElement (.done _) (readsFirst _) (.done _)
    | cons w vs =>
      obtain ⟨others, isOthers, readsOthers⟩ := ih (by simp) fun v' mem => reads v' (mem_cons_of_mem v mem)
      refine ⟨fst ++ ',' :: others, ?_, ?_⟩
      · rw [printElems, isFirst, isOthers, encode_append, encode_cons, encodeChar_ascii (by decide)]
        rfl
      · intro rest
        rw [append_assoc]
        exact .moreElements (.done _) (readsFirst _) (.done _) (readsOthers rest)

theorem printMembers_reads (ne : fields ≠ []) (valid : ∀ field ∈ fields, ValidText field.1)
    (short : ∀ field ∈ fields, field.1.length ≤ maxJsonStringBytes)
    (reads : ∀ field ∈ fields, Reads toFloat strict n field.2) : ∃ chars, printMembers fields = encode chars ∧
      ∀ rest, Derives (textNumbers toFloat) strict n (chars ++ '}' :: rest) (.members fields) rest := by
  induction fields with
  | nil => exact absurd rfl ne
  | cons field fields ih =>
    obtain ⟨key, v⟩ := field
    obtain ⟨keyText, isKey, readsKey⟩ := printString_reads (valid (key, v) (by simp)) (short (key, v) (by simp))
    obtain ⟨fst, isFirst, readsFirst⟩ := reads (key, v) (by simp)
    have isMember : emitString key ++ 0x3A :: print v = encode (keyText ++ ':' :: fst) := by
      rw [isKey, isFirst, encode_append, encode_cons ':', encodeChar_ascii (by decide)]
      rfl
    cases fields with
    | nil =>
      refine ⟨keyText ++ ':' :: fst, by rw [printMembers, isMember], ?_⟩
      intro rest
      rw [append_assoc]
      exact .lastMember (.done _) (readsKey _) (.done _) (.done _) (readsFirst _) (.done _)
    | cons other fields =>
      obtain ⟨others, isOthers, readsOthers⟩ :=
        ih (by simp) (fun field mem => valid field (.tail _ mem))
          (fun field mem => short field (.tail _ mem))
          (fun field mem => reads field (.tail _ mem))
      refine ⟨(keyText ++ ':' :: fst) ++ ',' :: others, ?_, ?_⟩
      · rw [printMembers, isMember, isOthers, encode_append _ (',' :: others), encode_cons ',',
          encodeChar_ascii (by decide)]
        rfl
      · intro rest
        rw [append_assoc, append_assoc]
        exact .moreMembers (.done _) (readsKey _) (.done _) (.done _) (readsFirst _) (.done _) (readsOthers rest)

theorem print_reads (toFloat : Text → F) (strict : Bool) {v : JsonValue F} (wf : WellFormed v)
    (floatFree : FloatFree v) (hf : Fits n v) : Reads toFloat strict n v := by
  induction v using JsonValue.induct generalizing n with
  | null => exact ⟨['n', 'u', 'l', 'l'], by rw [print]; rfl, fun rest => .null rest⟩
  | bool b =>
    cases b with
    | false => exact ⟨['f', 'a', 'l', 's', 'e'], by rw [print]; rfl, fun rest => .false rest⟩
    | true => exact ⟨['t', 'r', 'u', 'e'], by rw [print]; rfl, fun rest => .true rest⟩
  | int i =>
    refine ⟨Text.decimalText i.toInt, by rw [print, Text.emitInt_eq], ?_⟩
    intro rest
    have derives : Derives (textNumbers toFloat) strict n (Text.decimalText i.toInt ++ rest)
        (.value (denote (textNumbers toFloat) false (Text.decimalText i.toInt))) rest :=
      .number rest (Text.decimalText_number i.toInt)
    have isValue : denote (textNumbers toFloat) false (Text.decimalText i.toInt) = .jsonInt i := by
      have reads := Text.parseInt_emitInt i
      rw [Text.emitInt_eq] at reads
      simp [denote, Parser.numberValue, textNumbers, reads]
    rw [isValue] at derives
    exact derives
  | float f => exact absurd floatFree (by rintro ⟨⟩)
  | string s =>
    cases wf with
    | string valid =>
      cases hf with
      | string _ short =>
        obtain ⟨chars, isText, reads⟩ := printString_reads valid short
        exact ⟨chars, by rw [print, isText], fun rest => .string (reads rest)⟩
  | array vs ih =>
    cases wf with
    | array wf =>
      cases floatFree with
      | array floatFree =>
        cases hf with
        | @array n _ hf few =>
          by_cases empty : vs = []
          · refine ⟨['[', ']'], by rw [empty, print]; rfl, ?_⟩
            intro rest
            rw [empty]
            exact .emptyArray (.done _)
          · obtain ⟨chars, isText, reads⟩ := printElems_reads empty fun v mem =>
              ih v mem (wf v mem) (floatFree v mem) (hf v mem)
            refine ⟨'[' :: (chars ++ [']']), ?_, ?_⟩
            · rw [print, isText, encode_cons, encode_append, encodeChar_ascii (by decide)]
              rfl
            · intro rest
              rw [cons_append, append_assoc]
              exact .array (reads rest) few
  | object fields ih =>
    cases wf with
    | object valid wf nd =>
      cases floatFree with
      | object floatFree =>
        cases hf with
        | @object n _ short hf few =>
          by_cases empty : fields = []
          · refine ⟨['{', '}'], by rw [empty, print]; rfl, ?_⟩
            intro rest
            rw [empty]
            exact .emptyObject (.done _)
          · obtain ⟨chars, isText, reads⟩ := printMembers_reads empty valid short fun field mem =>
              ih field mem (wf field mem) (floatFree field mem) (hf field mem)
            refine ⟨'{' :: (chars ++ ['}']), ?_, ?_⟩
            · rw [print, isText, encode_cons, encode_append, encodeChar_ascii (by decide)]
              rfl
            · intro rest
              have isSame : lastWins [] fields = fields := lastWins_fresh (fresh_of_nodup.mpr nd)
              have derives := Derives.object (reads rest) (by rw [isSame]; exact few) (fun _ => nd)
              rw [isSame] at derives
              rw [cons_append, append_assoc]
              exact derives

theorem validText_append {a b : Text} (valid : ValidText a) (valid' : ValidText b) : ValidText (a ++ b) := by
  obtain ⟨chars, rfl⟩ := valid
  obtain ⟨others, rfl⟩ := valid'
  exact ⟨chars ++ others, (encode_append chars others).symm⟩

theorem validText_cons {b : UInt8} {a : Text} (low : b < 0x80) (valid : ValidText a) : ValidText (b :: a) := by
  obtain ⟨chars, rfl⟩ := valid
  have small : b.toNat < 0x80 := low
  have num : (Char.ofNat b.toNat).toNat = b.toNat := toNat_ofNat (.inl (by omega))
  refine ⟨Char.ofNat b.toNat :: chars, ?_⟩
  rw [encode_cons, encodeChar_ascii (by rw [num]; exact small), num]
  simp

theorem printElems_valid (valid : ∀ v ∈ vs, ValidText (print v)) : ValidText (printElems vs) := by
  induction vs with
  | nil => exact ⟨[], rfl⟩
  | cons v vs ih =>
    cases vs with
    | nil =>
      rw [printElems]
      exact valid v (by simp)
    | cons w vs =>
      rw [printElems]
      exact validText_append (valid v (by simp))
        (validText_cons (by decide) (ih fun v' mem => valid v' (mem_cons_of_mem v mem)))

theorem printMembers_valid (keys : ∀ field ∈ fields, ValidText field.1)
    (valid : ∀ field ∈ fields, ValidText (print field.2)) : ValidText (printMembers fields) := by
  induction fields with
  | nil => exact ⟨[], rfl⟩
  | cons field fields ih =>
    obtain ⟨key, v⟩ := field
    have fst : ValidText (emitString key ++ 0x3A :: print v) := by
      have quoted : ValidText (emitString key) := by
        obtain ⟨chars, isKey⟩ := keys (key, v) (by simp)
        rw [show key = encode chars from isKey, emitString_encode]
        exact ⟨_, rfl⟩
      exact validText_append quoted (validText_cons (by decide) (valid (key, v) (by simp)))
    cases fields with
    | nil =>
      rw [printMembers]
      exact fst
    | cons other fields =>
      rw [printMembers]
      exact validText_append fst (validText_cons (by decide)
        (ih (fun field mem => keys field (.tail _ mem))
          (fun field mem => valid field (.tail _ mem))))

theorem print_valid {v : JsonValue F} (wf : WellFormed v) (floatFree : FloatFree v) :
    ValidText (print v) := by
  have bracket {text : Text} {b : UInt8} (low : b < 0x80) (valid : ValidText text) : ValidText (text ++ [b]) :=
    validText_append valid (validText_cons low ⟨[], rfl⟩)
  induction v using JsonValue.induct with
  | null => exact ⟨['n', 'u', 'l', 'l'], by rw [print]; rfl⟩
  | bool b =>
    cases b with
    | false => exact ⟨['f', 'a', 'l', 's', 'e'], by rw [print]; rfl⟩
    | true => exact ⟨['t', 'r', 'u', 'e'], by rw [print]; rfl⟩
  | int i => exact ⟨Text.decimalText i.toInt, by rw [print, Text.emitInt_eq]⟩
  | float f => exact absurd floatFree (by rintro ⟨⟩)
  | string s =>
    cases wf with
    | string valid =>
      obtain ⟨chars, rfl⟩ := valid
      exact ⟨_, by rw [print, emitString_encode]⟩
  | array vs ih =>
    cases wf with
    | array wf =>
      cases floatFree with
      | array floatFree =>
        rw [print]
        exact validText_cons (by decide) (bracket (by decide)
          (printElems_valid fun v mem => ih v mem (wf v mem) (floatFree v mem)))
  | object fields ih =>
    cases wf with
    | object valid wf _ =>
      cases floatFree with
      | object floatFree =>
        rw [print]
        exact validText_cons (by decide) (bracket (by decide) (printMembers_valid valid fun field mem =>
          ih field mem (wf field mem) (floatFree field mem)))

end Printing

end Jcs

end Json
