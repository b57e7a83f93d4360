import Verum.Json.Canonical

open Utf8

open List

namespace Json

open Grammar JsonValue

namespace Jcs

variable {F : Type}

section Denoted

variable {nums : Numbers F} {strict : Bool}

/-- What derived values keep: they are well formed and within the limits. -/
def Sized (n : Nat) : Derived F → Prop
  | .value v => WellFormed v ∧ Fits n v
  | .elements vs => ∀ v ∈ vs, WellFormed v ∧ Fits n v
  | .members ms => ∀ m ∈ ms, (ValidText m.1 ∧ m.1.length ≤ maxJsonStringBytes) ∧ WellFormed m.2 ∧ Fits n m.2

variable {text rest : List Char} {fs ms : List (Text × JsonValue F)} {m : Text × JsonValue F}

theorem stringText_sized {s : Text} (string : StringText text s rest) :
    ValidText s ∧ s.length ≤ maxJsonStringBytes := by
  cases string with
  | mk _ short => exact ⟨⟨_, rfl⟩, short⟩

theorem mem_insert {key : Text} {v : JsonValue F} (mem : m ∈ Fields.insert key v fs) :
    m = (key, v) ∨ m ∈ fs := by
  induction fs with
  | nil => exact .inl (mem_singleton.mp mem)
  | cons field fs ih =>
    rw [Fields.insert] at mem
    split at mem
    · rcases mem_cons.mp mem with isNew | hl
      · exact .inl isNew
      · exact .inr (.tail _ hl)
    · rcases mem_cons.mp mem with isField | hl
      · exact .inr (mem_cons.mpr (.inl isField))
      · rcases ih hl with isNew | isField
        · exact .inl isNew
        · exact .inr (.tail _ isField)

theorem mem_lastWins (mem : m ∈ lastWins fs ms) : m ∈ fs ∨ m ∈ ms := by
  induction ms generalizing fs with
  | nil => exact .inl mem
  | cons fst ms ih =>
    rcases ih mem with inserted | hl
    · rcases mem_insert inserted with rfl | isField
      · exact .inr (by simp)
      · exact .inl isField
    · exact .inr (.tail _ hl)

theorem insert_keys (key : Text) (v : JsonValue F) (fs : List (Text × JsonValue F)) :
    (Fields.insert key v fs).map Prod.fst =
      if key ∈ fs.map Prod.fst then fs.map Prod.fst else fs.map Prod.fst ++ [key] := by
  induction fs with
  | nil => rfl
  | cons field fs ih =>
    rw [Fields.insert]
    by_cases eq : field.1 = key
    · rw [if_pos eq, map_cons, map_cons, eq, if_pos (by simp)]
    · rw [if_neg eq, map_cons, map_cons, ih]
      have other : key ∈ field.1 :: fs.map Prod.fst ↔ key ∈ fs.map Prod.fst := by
        simp [Ne.symm eq]
      simp only [other]
      split
      · rfl
      · rfl

theorem nodup_lastWins (nd : (fs.map Prod.fst).Nodup) : ((lastWins fs ms).map Prod.fst).Nodup := by
  induction ms generalizing fs with
  | nil => exact nd
  | cons m ms ih =>
    refine ih ?_
    rw [insert_keys]
    split
    · exact nd
    · rename_i outside
      exact nd.append (nodup_singleton _) (disjoint_singleton.mpr outside)

theorem denote_sized (nums : Numbers F) (n : Nat) (isFloat : Bool) (text : List Char) :
    WellFormed (denote nums isFloat text) ∧ Fits n (denote nums isFloat text) := by
  unfold denote Parser.numberValue
  split
  · cases nums.parseFloat (encode text) with
    | none => exact ⟨.null, .null n⟩
    | some f => exact ⟨.float f, .float n f⟩
  · split
    · rename_i i _
      exact ⟨.int i, .int n i⟩
    · cases nums.parseFloat (encode text) with
      | none => exact ⟨.null, .null n⟩
      | some f => exact ⟨.float f, .float n f⟩

theorem derives_sized {n : Nat} {derived : Derived F} (derives : Derives nums strict n text derived rest) :
    Sized n derived := by
  induction derives with
  | null rest => exact ⟨.null, .null _⟩
  | true rest | false rest => exact ⟨.bool _, .bool _ _⟩
  | number rest _ => exact denote_sized nums _ _ _
  | string isString =>
    obtain ⟨valid, short⟩ := stringText_sized isString
    exact ⟨.string valid, .string _ short⟩
  | emptyArray _ => exact ⟨.array (by simp), .array (by simp) (Nat.zero_le _)⟩
  | array _ few ih => exact ⟨.array fun v mem => (ih v mem).1, .array (fun v mem => (ih v mem).2) few⟩
  | emptyObject _ => exact ⟨.object (by simp) (by simp) nodup_nil, .object (by simp) (by simp) (Nat.zero_le _)⟩
  | @object n _ _ ms _ few _ ih =>
    have sized : ∀ m ∈ lastWins [] ms,
        (ValidText m.1 ∧ m.1.length ≤ maxJsonStringBytes) ∧ WellFormed m.2 ∧ Fits n m.2 := by
      intro m mem
      rcases mem_lastWins mem with none | isMember
      · exact absurd none not_mem_nil
      · exact ih m isMember
    refine ⟨.object ?_ ?_ (nodup_lastWins nodup_nil), .object ?_ ?_ few⟩
    · exact fun m mem => (sized m mem).1.1
    · exact fun m mem => (sized m mem).2.1
    · exact fun m mem => (sized m mem).1.2
    · exact fun m mem => (sized m mem).2.2
  | lastElement _ _ _ ih => exact fun v mem => mem_singleton.mp mem ▸ ih
  | moreElements _ _ _ _ ih others =>
    intro v mem
    rcases mem_cons.mp mem with rfl | hl
    · exact ih
    · exact others v hl
  | lastMember _ key _ _ _ _ ih =>
    exact fun m mem => mem_singleton.mp mem ▸ ⟨stringText_sized key, ih⟩
  | moreMembers _ key _ _ _ _ _ ih others =>
    intro m mem
    rcases mem_cons.mp mem with rfl | hl
    · exact ⟨stringText_sized key, ih⟩
    · exact others m hl

theorem document_sized {v : JsonValue F} (document : Document nums strict text v) :
    WellFormed v ∧ Fits maxJsonDepth v := by
  obtain ⟨start, rest, -, derives, -⟩ := document
  exact derives_sized derives

end Denoted

section Canonical

variable {emitFloat : F → Except JcsError Text} {toFloat : Text → F}
variable {v : JsonValue F}

theorem reads_document (reads : Reads toFloat false maxJsonDepth v) :
    parse (textNumbers toFloat) (print v) = .ok v := by
  obtain ⟨chars, isText, derives⟩ := reads
  rw [isText]
  have whole := derives []
  rw [append_nil] at whole
  exact (parseDocument_iff (Text.textNumbers_accept toFloat) false chars v).mpr ⟨chars, [], .done _, whole, .done _⟩

theorem canonicalize_same {w : JsonValue F} (wf : WellFormed v) (floatFree : FloatFree v)
    (eq : Same v w) : canonicalize emitFloat v = canonicalize emitFloat w := by
  obtain ⟨v', sameV, orderedV, isV⟩ := emit_prints emitFloat wf floatFree
  obtain ⟨w', sameW, orderedW, isW⟩ :=
    emit_prints emitFloat (wf.of_same eq) (floatFree.of_same eq)
  have unique := ordered_unique ((sameV.symm.trans eq).trans sameW) orderedV orderedW
  rw [canonicalize, canonicalize, isV, isW, unique]

theorem canonicalize_ordered (emitFloat : F → Except JcsError Text) (wf : WellFormed v)
    (floatFree : FloatFree v) : ∃ w, Same v w ∧ Ordered w ∧ canonicalize emitFloat v = .ok (print w) :=
  emit_prints emitFloat wf floatFree

theorem canonicalize_reads (emitFloat : F → Except JcsError Text) (toFloat : Text → F) (wf : WellFormed v)
    (floatFree : FloatFree v) :
    (∃ out w, canonicalize emitFloat v = .ok out ∧ parse (textNumbers toFloat) out = .ok w ∧ Same v w) ↔
      Fits maxJsonDepth v := by
  constructor
  · rintro ⟨out, w, isText, parses, eq⟩
    obtain ⟨w', same', -, isPrinted⟩ := emit_prints emitFloat wf floatFree
    rw [canonicalize, isPrinted] at isText
    obtain ⟨chars, isChars⟩ := print_valid (wf.of_same same') (floatFree.of_same same')
    rw [← Except.ok.inj isText, isChars] at parses
    have document := (parseDocument_iff (Text.textNumbers_accept toFloat) false chars w).mp parses
    exact (document_sized document).2.of_same eq.symm
  · intro hf
    obtain ⟨w, eq, -, isText⟩ := emit_prints emitFloat wf floatFree
    have reads := print_reads toFloat false (wf.of_same eq)
      (floatFree.of_same eq) (hf.of_same eq)
    exact ⟨print w, w, isText, reads_document reads, eq⟩

end Canonical

section Texts

variable (emitFloat : F → Except JcsError Text) (toFloat : Text → F)

def NothingAfter (text : List Char) : Prop :=
  ∀ v rest, FirstValue (textNumbers toFloat) text v rest → Ws rest []

def NoFloats (text : List Char) : Prop := ∀ v rest, FirstValue (textNumbers toFloat) text v rest → FloatFree v

/-- Canonical texts are those of whole documents, and tell apart the values that differ. -/
def CanonicalTexts (s t : List Char) : Prop :=
  ((∃ out, canonicalizeStr emitFloat toFloat (encode s) = .ok out) →
    ∃ v, Document (textNumbers toFloat) false s v) ∧
  ((∃ out, canonicalizeStr emitFloat toFloat (encode t) = .ok out) →
    ∃ v, Document (textNumbers toFloat) false t v) ∧
  ((∃ out, canonicalizeStr emitFloat toFloat (encode s) = .ok out ∧
      canonicalizeStr emitFloat toFloat (encode t) = .ok out) ↔
    ∃ v w, Document (textNumbers toFloat) false s v ∧ Document (textNumbers toFloat) false t w ∧ Same v w)

variable {emitFloat toFloat}
variable {text rest : List Char} {out : Text} {v : JsonValue F}

theorem canonicalizeStr_ok : canonicalizeStr emitFloat toFloat (encode text) = .ok out ↔
      ∃ v rest, FirstValue (textNumbers toFloat) text v rest ∧ canonicalize emitFloat v = .ok out := by
  have reads := parseValue_iff (Text.textNumbers_accept toFloat) text
  unfold canonicalizeStr
  constructor
  · intro runs
    split at runs
    · simp at runs
    · rename_i v isValue
      obtain ⟨rest, fst⟩ := (reads v).mp isValue
      exact ⟨v, rest, fst, runs⟩
  · rintro ⟨v, rest, fst, runs⟩
    rw [(reads v).mpr ⟨rest, fst⟩]
    exact runs

theorem firstValue_sized (fst : FirstValue (textNumbers toFloat) text v rest) :
    WellFormed v ∧ Fits maxJsonDepth v := by
  obtain ⟨start, -, derives, -⟩ := fst
  exact derives_sized derives

theorem canonicalizeStr_of_first (emitFloat : F → Except JcsError Text)
    (fst : FirstValue (textNumbers toFloat) text v rest) (floatFree : FloatFree v) :
    ∃ w, Same v w ∧ Ordered w ∧ canonicalizeStr emitFloat toFloat (encode text) = .ok (print w) := by
  obtain ⟨w, eq, ord, isText⟩ :=
    canonicalize_ordered emitFloat (firstValue_sized fst).1 floatFree
  exact ⟨w, eq, ord, canonicalizeStr_ok.mpr ⟨v, rest, fst, isText⟩⟩

theorem nothingAfter_of_document (noFloats : NoFloats toFloat text)
    (whole : (∃ out, canonicalizeStr emitFloat toFloat (encode text) = .ok out) →
      ∃ v, Document (textNumbers toFloat) false text v) : NothingAfter toFloat text := by
  intro v rest fst
  obtain ⟨w, -, -, runs⟩ := canonicalizeStr_of_first emitFloat fst (noFloats v rest fst)
  obtain ⟨v', document⟩ := whole ⟨_, runs⟩
  obtain ⟨rest', first', white⟩ := document_first.mp document
  exact (firstValue_unique (Text.textNumbers_accept toFloat) first' fst).2 white

theorem document_of_nothingAfter (nothing : NothingAfter toFloat text)
    (runs : canonicalizeStr emitFloat toFloat (encode text) = .ok out) :
    ∃ v, Document (textNumbers toFloat) false text v ∧ canonicalize emitFloat v = .ok out := by
  obtain ⟨v, rest, fst, isText⟩ := canonicalizeStr_ok.mp runs
  exact ⟨v, document_first.mpr ⟨rest, fst, nothing v rest fst⟩, isText⟩

theorem same_of_canonicalize (toFloat : Text → F) {w : JsonValue F} (sized : WellFormed v ∧ Fits maxJsonDepth v)
    (sized' : WellFormed w ∧ Fits maxJsonDepth w) (floatFree : FloatFree v) (floatFree' : FloatFree w)
    (isText : canonicalize emitFloat v = .ok out) (isText' : canonicalize emitFloat w = .ok out) : Same v w := by
  obtain ⟨_, v', isOut, reads, eq⟩ :=
    (canonicalize_reads emitFloat toFloat sized.1 floatFree).mpr sized.2
  obtain ⟨_, w', isOut', reads', same'⟩ :=
    (canonicalize_reads emitFloat toFloat sized'.1 floatFree').mpr sized'.2
  rw [← Except.ok.inj (isText.symm.trans isOut)] at reads
  rw [← Except.ok.inj (isText'.symm.trans isOut')] at reads'
  have unique := Except.ok.inj (reads.symm.trans reads')
  rw [← unique] at same'
  exact eq.trans same'.symm

theorem canonicalTexts_iff {s t : List Char} (noFloats : NoFloats toFloat s) (noFloats' : NoFloats toFloat t) :
    CanonicalTexts emitFloat toFloat s t ↔ NothingAfter toFloat s ∧ NothingAfter toFloat t := by
  constructor
  · rintro ⟨whole, whole', -⟩
    exact ⟨nothingAfter_of_document noFloats whole, nothingAfter_of_document noFloats' whole'⟩
  · rintro ⟨nothing, nothing'⟩
    refine ⟨?_, ?_, ?_, ?_⟩
    · rintro ⟨out, runs⟩
      obtain ⟨v, document, -⟩ := document_of_nothingAfter nothing runs
      exact ⟨v, document⟩
    · rintro ⟨out, runs⟩
      obtain ⟨v, document, -⟩ := document_of_nothingAfter nothing' runs
      exact ⟨v, document⟩
    · rintro ⟨out, runs, runs'⟩
      obtain ⟨v, document, isText⟩ := document_of_nothingAfter nothing runs
      obtain ⟨w, document', isText'⟩ := document_of_nothingAfter nothing' runs'
      refine ⟨v, w, document, document', ?_⟩
      obtain ⟨rest, fst, -⟩ := document_first.mp document
      obtain ⟨rest', first', -⟩ := document_first.mp document'
      exact same_of_canonicalize toFloat (document_sized document) (document_sized document') (noFloats v rest fst)
        (noFloats' w rest' first') isText isText'
    · rintro ⟨v, w, document, document', eq⟩
      obtain ⟨rest, fst, -⟩ := document_first.mp document
      obtain ⟨rest', first', -⟩ := document_first.mp document'
      have floatFree := noFloats v rest fst
      obtain ⟨u, -, -, isText⟩ :=
        canonicalize_ordered emitFloat (document_sized document).1 floatFree
      have isText' := (canonicalize_same (document_sized document).1 floatFree eq).symm.trans isText
      exact ⟨print u, canonicalizeStr_ok.mpr ⟨v, rest, fst, isText⟩,
        canonicalizeStr_ok.mpr ⟨w, rest', first', isText'⟩⟩

/-- Values have one canonical text, in order, which reads back within the limits; texts do where nothing comes after
their first value. -/
theorem canonicalize_exact (emitFloat : F → Except JcsError Text) (toFloat : Text → F) :
    (∀ v, WellFormed v → FloatFree v →
      (∀ w, Same v w → canonicalize emitFloat w = canonicalize emitFloat v) ∧
      (∃ w, Same v w ∧ Ordered w ∧ canonicalize emitFloat v = .ok (print w)) ∧
      ((∃ out w, canonicalize emitFloat v = .ok out ∧ parse (textNumbers toFloat) out = .ok w ∧ Same v w) ↔
        Fits maxJsonDepth v)) ∧
    ∀ s t, NoFloats toFloat s → NoFloats toFloat t →
      (CanonicalTexts emitFloat toFloat s t ↔ NothingAfter toFloat s ∧ NothingAfter toFloat t) := by
  refine ⟨?_, ?_⟩
  · intro v wellFormed floatFree
    refine ⟨?_, canonicalize_ordered emitFloat wellFormed floatFree,
      canonicalize_reads emitFloat toFloat wellFormed floatFree⟩
    intro w same
    exact (canonicalize_same wellFormed floatFree same).symm
  · intro s t noFloats noFloats'
    exact canonicalTexts_iff noFloats noFloats'

def refuseFloat (_ : Unit) : Except JcsError Text := .error (.unsupportedValue (ascii "NaN or Inf"))

def anyFloat (_ : Text) : Unit := ()

theorem noFloats_one : NoFloats anyFloat ['1'] := by
  intro v rest fst
  have reads := (parseValue_iff (Text.textNumbers_accept anyFloat) ['1'] v).mpr ⟨rest, fst⟩
  have isOne : parseValue (textNumbers anyFloat) (encode ['1']) = .ok (.jsonInt 1) := rfl
  rw [← Except.ok.inj (isOne.symm.trans reads)]
  exact .int 1

theorem canonicalize_exact_one :
    ((∀ w, Same (.jsonInt 1) w → canonicalize refuseFloat w = canonicalize refuseFloat (.jsonInt 1)) ∧
      (∃ w : JsonValue Unit, Same (.jsonInt 1) w ∧ Ordered w ∧
        canonicalize refuseFloat (.jsonInt 1) = .ok (print w)) ∧
      ((∃ out w, canonicalize refuseFloat (.jsonInt 1) = .ok out ∧ parse (textNumbers anyFloat) out = .ok w ∧
        Same (.jsonInt 1) w) ↔ Fits maxJsonDepth (.jsonInt 1 : JsonValue Unit))) ∧
    (CanonicalTexts refuseFloat anyFloat ['1'] ['1'] ↔ NothingAfter anyFloat ['1'] ∧ NothingAfter anyFloat ['1']) :=
  ⟨(canonicalize_exact refuseFloat anyFloat).1 (.jsonInt 1) (.int 1) (.int 1),
    (canonicalize_exact refuseFloat anyFloat).2 ['1'] ['1'] noFloats_one noFloats_one⟩

/-- What comes after the first value of a text is left out. -/
theorem canonicalizeStr_drops_rest :
    canonicalizeStr refuseFloat anyFloat (Utf8.encode ['1', ' ', '2']) = .ok (Utf8.encode ['1']) ∧
      ¬ CanonicalTexts refuseFloat anyFloat ['1', ' ', '2'] ['1'] := by
  have isOne : parseValue (textNumbers anyFloat) (encode ['1', ' ', '2']) = .ok (.jsonInt 1) := rfl
  have isText : canonicalize refuseFloat (.jsonInt 1) = .ok (encode ['1']) := by
    rw [canonicalize, emit, Text.emitInt_eq]
    rfl
  have runs : canonicalizeStr refuseFloat anyFloat (encode ['1', ' ', '2']) = .ok (encode ['1']) := by
    rw [canonicalizeStr, isOne]
    exact isText
  refine ⟨runs, ?_⟩
  rintro ⟨whole, -⟩
  obtain ⟨v, document⟩ := whole ⟨_, runs⟩
  have parses := (parseDocument_iff (Text.textNumbers_accept anyFloat) false ['1', ' ', '2'] v).mpr document
  have trailing : parse (textNumbers anyFloat) (encode ['1', ' ', '2']) =
      .error (.failed ⟨.trailingGarbage, 1, 3, ascii "unexpected content after JSON value"⟩) := rfl
  exact absurd (trailing.symm.trans parses) (by simp)

end Texts

end Jcs

end Json
