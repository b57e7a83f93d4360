import Verum.Cbor.Value

open List

namespace Cbor

open CborValue

namespace CborValue

theorem sizeOf_elem {v : CborValue} {vs : List CborValue} (mem : v ∈ vs) : sizeOf v < sizeOf (cborArray vs) := by
  have small := sizeOf_lt_of_mem mem
  simp only [cborArray.sizeOf_spec]
  omega

variable {e : CborValue × CborValue} {es : List (CborValue × CborValue)}

theorem sizeOf_key (mem : e ∈ es) : sizeOf e.1 < sizeOf (cborMap es) := by
  have small := sizeOf_lt_of_mem mem
  obtain ⟨k, v⟩ := e
  simp only [Prod.mk.sizeOf_spec, cborMap.sizeOf_spec] at small ⊢
  omega

theorem sizeOf_value (mem : e ∈ es) : sizeOf e.2 < sizeOf (cborMap es) := by
  have small := sizeOf_lt_of_mem mem
  obtain ⟨k, v⟩ := e
  simp only [Prod.mk.sizeOf_spec, cborMap.sizeOf_spec] at small ⊢
  omega

theorem induct {motive : CborValue → Prop} (uint : ∀ n, motive (cborUint n)) (nint : ∀ n, motive (cborNint n))
    (bytes : ∀ bs, motive (cborBytes bs)) (text : ∀ bs, motive (cborText bs))
    (array : ∀ vs, (∀ v ∈ vs, motive v) → motive (cborArray vs))
    (map : ∀ es, (∀ e ∈ es, motive e.1) → (∀ e ∈ es, motive e.2) → motive (cborMap es))
    (tag : ∀ t v, motive v → motive (cborTag t v)) (bool : ∀ b, motive (cborBool b)) (null : motive cborNull)
    (undefined : motive cborUndefined) (f64 : ∀ bits, motive (cborF64 bits)) (v : CborValue) : motive v :=
  match v with
  | cborUint n => uint n
  | cborNint n => nint n
  | cborBytes bs => bytes bs
  | cborText bs => text bs
  | cborArray vs =>
    array vs fun v _ => induct uint nint bytes text array map tag bool null undefined f64 v
  | cborMap es =>
    map es (fun e _ => induct uint nint bytes text array map tag bool null undefined f64 e.1)
      fun e _ => induct uint nint bytes text array map tag bool null undefined f64 e.2
  | cborTag t v => tag t v (induct uint nint bytes text array map tag bool null undefined f64 v)
  | cborBool b => bool b
  | cborNull => null
  | cborUndefined => undefined
  | cborF64 bits => f64 bits
termination_by sizeOf v
decreasing_by
  · exact sizeOf_elem ‹_›
  · exact sizeOf_key ‹_›
  · exact sizeOf_value ‹_›
  · simp only [cborTag.sizeOf_spec]
    omega

/-- The lengths are lengths of lists of the source: they are signed words. -/
inductive Fits : CborValue → Prop
  | uint (n : UInt64) : Fits (cborUint n)
  | nint (n : UInt64) : Fits (cborNint n)
  | bytes {bs : List UInt8} : bs.length < 2 ^ 63 → Fits (cborBytes bs)
  | text {bs : List UInt8} : bs.length < 2 ^ 63 → Fits (cborText bs)
  | array {vs : List CborValue} : vs.length < 2 ^ 63 → (∀ v ∈ vs, Fits v) → Fits (cborArray vs)
  | map {es : List (CborValue × CborValue)} : es.length < 2 ^ 63 → (∀ e ∈ es, Fits e.1) → (∀ e ∈ es, Fits e.2) →
    Fits (cborMap es)
  | tag (t : UInt64) {v : CborValue} : Fits v → Fits (cborTag t v)
  | bool (b : Bool) : Fits (cborBool b)
  | null : Fits cborNull
  | undefined : Fits cborUndefined
  | f64 (bits : UInt64) : Fits (cborF64 bits)

def major : CborValue → UInt8
  | cborUint _ => 0
  | cborNint _ => 1
  | cborBytes _ => 2
  | cborText _ => 3
  | cborArray _ => 4
  | cborMap _ => 5
  | cborTag _ _ => 6
  | _ => 7

end CborValue

theorem writeHead_first (major : UInt8) (small : major < 8) (len : UInt64) (rest : List UInt8) :
    ∃ b others, writeHead major len ++ rest = b :: others ∧ b.toNat / 32 = major.toNat := by
  refine ⟨_, _, by rw [writeHead_eq, cons_append], ?_⟩
  have short := minorOf_lt len.toNat
  rw [firstByte major small short]
  omega

theorem encodeInto_first (v : CborValue) (rest : List UInt8) :
    ∃ b others, encodeInto v ++ rest = b :: others ∧ b.toNat / 32 = v.major.toNat := by
  cases v with
  | cborUint n => exact writeHead_first 0 (by decide) n rest
  | cborNint n => exact writeHead_first 1 (by decide) n rest
  | cborBytes bs =>
    rw [encodeInto, append_assoc]
    exact writeHead_first 2 (by decide) _ _
  | cborText bs =>
    rw [encodeInto, append_assoc]
    exact writeHead_first 3 (by decide) _ _
  | cborArray vs =>
    rw [encodeInto, append_assoc]
    exact writeHead_first 4 (by decide) _ _
  | cborMap es =>
    rw [encodeInto, append_assoc]
    exact writeHead_first 5 (by decide) _ _
  | cborTag t v =>
    rw [encodeInto, append_assoc]
    exact writeHead_first 6 (by decide) _ _
  | cborBool b =>
    refine ⟨_, _, rfl, ?_⟩
    cases b
    · rfl
    · rfl
  | cborNull | cborUndefined | cborF64 bits => exact ⟨_, _, rfl, rfl⟩

variable {rest rest' : List UInt8}

theorem major_eq {v w : CborValue} (eq : encodeInto v ++ rest = encodeInto w ++ rest') : v.major = w.major := by
  obtain ⟨b, others, isFirst, isMajor⟩ := encodeInto_first v rest
  obtain ⟨b', others', isFirst', isMajor'⟩ := encodeInto_first w rest'
  rw [isFirst, isFirst', List.cons.injEq] at eq
  rw [eq.1, isMajor'] at isMajor
  exact (UInt8.toNat_inj.mp isMajor).symm

/-- The encoding of `v` is not the beginning of the encoding of another value. -/
def Unique (v : CborValue) : Prop :=
  Fits v → ∀ w rest rest', Fits w → encodeInto v ++ rest = encodeInto w ++ rest' → v = w ∧ rest = rest'

theorem length_unique {n m : Nat} (hf : n < 2 ^ 63) (fits' : m < 2 ^ 63) (eq : n.toUInt64 = m.toUInt64) : n = m := by
  have equal := congrArg UInt64.toNat eq
  rw [UInt64.toNat_ofNat', UInt64.toNat_ofNat'] at equal
  omega

theorem elems_unique {vs ws : List CborValue} (lengths : vs.length = ws.length) (unique : ∀ v ∈ vs, Unique v)
    (hf : ∀ v ∈ vs, Fits v) (fits' : ∀ w ∈ ws, Fits w) (eq : encodeElems vs ++ rest = encodeElems ws ++ rest') :
    vs = ws ∧ rest = rest' := by
  induction vs generalizing ws with
  | nil =>
    cases ws with
    | nil => exact ⟨rfl, eq⟩
    | cons w ws => cases lengths
  | cons v vs ih =>
    cases ws with
    | nil => cases lengths
    | cons w ws =>
      rw [encodeElems, encodeElems, append_assoc, append_assoc] at eq
      obtain ⟨rfl, others⟩ := unique v (by simp) (hf v (by simp)) w _ _ (fits' w (by simp)) eq
      obtain ⟨rfl, isRest⟩ := ih (Nat.succ.inj lengths) (fun v mem => unique v (.tail _ mem))
        (fun v mem => hf v (.tail _ mem)) (fun w mem => fits' w (.tail _ mem)) others
      exact ⟨rfl, isRest⟩

theorem entries_unique {es fs : List (CborValue × CborValue)} (lengths : es.length = fs.length)
    (keys : ∀ e ∈ es, Unique e.1) (values : ∀ e ∈ es, Unique e.2) (fitKeys : ∀ e ∈ es, Fits e.1)
    (fitValues : ∀ e ∈ es, Fits e.2) (fitKeys' : ∀ f ∈ fs, Fits f.1) (fitValues' : ∀ f ∈ fs, Fits f.2)
    (eq : encodeEntries es ++ rest = encodeEntries fs ++ rest') : es = fs ∧ rest = rest' := by
  induction es generalizing fs with
  | nil =>
    cases fs with
    | nil => exact ⟨rfl, eq⟩
    | cons f fs => cases lengths
  | cons e es ih =>
    cases fs with
    | nil => cases lengths
    | cons f fs =>
      obtain ⟨k, v⟩ := e
      obtain ⟨k', v'⟩ := f
      simp only [encodeEntries, append_assoc] at eq
      obtain ⟨rfl, afterKey⟩ := keys (k, v) (by simp) (fitKeys (k, v) (by simp)) k' _ _ (fitKeys' (k', v') (by simp)) eq
      obtain ⟨rfl, others⟩ :=
        values (k, v) (by simp) (fitValues (k, v) (by simp)) v' _ _ (fitValues' (k, v') (by simp)) afterKey
      obtain ⟨rfl, isRest⟩ := ih (Nat.succ.inj lengths) (fun e mem => keys e (.tail _ mem))
        (fun e mem => values e (.tail _ mem)) (fun e mem => fitKeys e (.tail _ mem))
        (fun e mem => fitValues e (.tail _ mem)) (fun f mem => fitKeys' f (.tail _ mem))
        (fun f mem => fitValues' f (.tail _ mem)) others
      exact ⟨rfl, isRest⟩

theorem string_unique {major : UInt8} (small : major < 8) {bs cs : List UInt8} (hf : bs.length < 2 ^ 63)
    (fits' : cs.length < 2 ^ 63)
    (eq : (writeHead major bs.length.toUInt64 ++ bs) ++ rest = (writeHead major cs.length.toUInt64 ++ cs) ++ rest') :
    bs = cs ∧ rest = rest' := by
  rw [append_assoc, append_assoc] at eq
  obtain ⟨-, isLength, others⟩ := writeHead_unique small small eq
  exact append_inj others (length_unique hf fits' isLength)

theorem encodeInto_unique (v : CborValue) : Unique v := by
  induction v using CborValue.induct with
  | uint n | nint n =>
    intro hf w rest rest' fits' eq
    cases w with cases major_eq eq
    | _ =>
      obtain ⟨-, rfl, isRest⟩ := writeHead_unique (by decide) (by decide) eq
      exact ⟨rfl, isRest⟩
  | bytes bs | text bs =>
    intro hf w rest rest' fits' eq
    cases w with cases major_eq eq
    | _ =>
      cases hf
      cases fits'
      obtain ⟨rfl, isRest⟩ := string_unique (by decide) ‹_› ‹_› eq
      exact ⟨rfl, isRest⟩
  | array vs ih =>
    intro hf w rest rest' fits' eq
    cases w with cases major_eq eq
    | cborArray ws =>
      cases hf with
      | array short elems =>
        cases fits' with
        | array short' elems' =>
          rw [encodeInto, encodeInto, append_assoc, append_assoc] at eq
          obtain ⟨-, isLength, others⟩ := writeHead_unique (by decide) (by decide) eq
          obtain ⟨rfl, isRest⟩ := elems_unique (length_unique short short' isLength) ih elems elems' others
          exact ⟨rfl, isRest⟩
  | map es keys values =>
    intro hf w rest rest' fits' eq
    cases w with cases major_eq eq
    | cborMap fs =>
      cases hf with
      | map short fitKeys fitValues =>
        cases fits' with
        | map short' fitKeys' fitValues' =>
          rw [encodeInto, encodeInto, append_assoc, append_assoc] at eq
          obtain ⟨-, isLength, others⟩ := writeHead_unique (by decide) (by decide) eq
          obtain ⟨rfl, isRest⟩ := entries_unique (length_unique short short' isLength) keys values fitKeys fitValues
            fitKeys' fitValues' others
          exact ⟨rfl, isRest⟩
  | tag t v ih =>
    intro hf w rest rest' fits' eq
    cases w with cases major_eq eq
    | cborTag t' v' =>
      cases hf with
      | tag _ fitsInner =>
        cases fits' with
        | tag _ fitsInner' =>
          rw [encodeInto, encodeInto, append_assoc, append_assoc] at eq
          obtain ⟨-, rfl, others⟩ := writeHead_unique (by decide) (by decide) eq
          obtain ⟨rfl, isRest⟩ := ih fitsInner v' rest rest' fitsInner' others
          exact ⟨rfl, isRest⟩
  | bool b =>
    intro hf w rest rest' fits' eq
    cases w with cases major_eq eq
    | cborBool b' => cases b <;> cases b' <;> simp_all [encodeInto]
    | cborNull => cases b <;> simp [encodeInto] at eq
    | cborUndefined => cases b <;> simp [encodeInto] at eq
    | cborF64 bits => cases b <;> simp [encodeInto] at eq
  | null =>
    intro hf w rest rest' fits' eq
    cases w with cases major_eq eq
    | cborBool b' => cases b' <;> simp [encodeInto] at eq
    | cborNull => exact ⟨rfl, List.cons.inj eq |>.2⟩
    | cborUndefined => simp [encodeInto] at eq
    | cborF64 bits => simp [encodeInto] at eq
  | undefined =>
    intro hf w rest rest' fits' eq
    cases w with cases major_eq eq
    | cborBool b' => cases b' <;> simp [encodeInto] at eq
    | cborNull => simp [encodeInto] at eq
    | cborUndefined => exact ⟨rfl, List.cons.inj eq |>.2⟩
    | cborF64 bits => simp [encodeInto] at eq
  | f64 bits =>
    intro hf w rest rest' fits' eq
    cases w with cases major_eq eq
    | cborBool b' => cases b' <;> simp [encodeInto] at eq
    | cborNull => simp [encodeInto] at eq
    | cborUndefined => simp [encodeInto] at eq
    | cborF64 bits' =>
      rw [encodeInto, encodeInto, eightBytes_eq, eightBytes_eq, cons_append, cons_append, List.cons.injEq]
        at eq
      obtain ⟨isBits, isRest⟩ := append_inj eq.2 (by rw [bigEndian_length, bigEndian_length])
      have equal := bigEndian_injective bits.toNat_lt bits'.toNat_lt isBits
      rw [UInt64.toNat_inj.mp equal]
      exact ⟨rfl, isRest⟩

theorem encode_injective {v w : CborValue} (hf : Fits v) (fits' : Fits w) (eq : encode v = encode w) : v = w :=
  (encodeInto_unique v hf w [] [] fits' (congrArg (· ++ []) eq)).1

end Cbor
