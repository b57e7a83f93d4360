import Verum.Json.CanonicalExact

open Utf8 List

namespace Json

open Grammar JsonValue Jcs

namespace Serializer

variable {F : Type}

/-- The loop over items. -/
def emitItems (lead ending : Text) (first : Bool) : List Text → Text
  | [] => ending
  | item :: items => (if first then lead else 0x2C :: lead) ++ (item ++ emitItems lead ending false items)

/-- Both printers: `line` ends a line and indents the next, and `gap` follows a colon. Strings are escaped as in
canonical texts. -/
def emitWith (floatText : F → Text) (line : Nat → Text) (gap : Text) (depth : Nat) : JsonValue F → Text
  | .jsonNull => ascii "null"
  | .jsonBool b => if b then ascii "true" else ascii "false"
  | .jsonInt i => encode (Text.decimalText i.toInt)
  | .jsonFloat f => floatText f
  | .jsonString s => Jcs.emitString s
  | .jsonArray a =>
    if a.isEmpty then ascii "[]"
    else 0x5B :: (emitItems (line (depth + 1)) (line depth) true
      (a.map fun v => emitWith floatText line gap (depth + 1) v) ++ [0x5D])
  | .jsonObject o =>
    if o.isEmpty then ascii "\x7b\x7d"
    else 0x7B :: (emitItems (line (depth + 1)) (line depth) true (o.map fun m =>
      Jcs.emitString m.1 ++ 0x3A :: (gap ++ emitWith floatText line gap (depth + 1) m.2)) ++ [0x7D])
termination_by v => v
decreasing_by
  · decreasing_tactic
  · rename_i mem
    have small := sizeOf_lt_of_mem mem
    cases m
    simp only [Prod.mk.sizeOf_spec, jsonObject.sizeOf_spec] at small ⊢
    omega

def emit (floatText : F → Text) (v : JsonValue F) : Text := emitWith floatText (fun _ => []) [] 0 v

def indent (depth : Nat) : Text := (replicate depth (ascii "  ")).flatten

def emitPretty (floatText : F → Text) (v : JsonValue F) (depth : Nat) : Text :=
  emitWith floatText (0x0A :: indent ·) [0x20] depth v

def stringify (floatText : F → Text) (v : JsonValue F) : Text := emit floatText v

def stringifyPretty (floatText : F → Text) (v : JsonValue F) : Text := emitPretty floatText v 0

variable {nums : Numbers F} {strict : Bool} {n : Nat} {lead ending gap text : Text} {v : JsonValue F}
variable {floatText : F → Text} {toFloat : Text → F} {chars : List Char}

/-- White space between tokens. -/
def Blank (text : Text) : Prop := ∃ blank, text = encode blank ∧ ∀ rest, Ws (blank ++ rest) rest

theorem blank_indent (depth : Nat) : Blank (indent depth) := by
  induction depth with
  | zero => exact ⟨[], rfl, .done⟩
  | succ depth ih =>
    obtain ⟨blank, isText, ws⟩ := ih
    exact ⟨' ' :: ' ' :: blank, congrArg ([0x20, 0x20] ++ ·) isText, fun rest => .step rfl (.step rfl (ws rest))⟩

/-- A text is read as a value, whatever comes after it. -/
def ReadsAs (nums : Numbers F) (strict : Bool) (n : Nat) (text : Text) (v : JsonValue F) : Prop :=
  ∃ chars, text = encode chars ∧ ∀ rest, Derives nums strict n (chars ++ rest) (.value v) rest

/-- A text is read as an item, the last one or not. -/
def ItemReads {α : Type} (nums : Numbers F) (strict : Bool) (n : Nat) (items : List α → Derived F) (close : Char)
    (text : Text) (x : α) : Prop :=
  ∃ chars, text = encode chars ∧ ∀ start tail, Ws start (chars ++ tail) →
    (∀ rest, Ws tail (close :: rest) → Derives nums strict n start (items [x]) rest) ∧
    ∀ next xs rest, Ws tail (',' :: next) → Derives nums strict n next (items xs) rest →
      Derives nums strict n start (items (x :: xs)) rest

theorem items_read {α : Type} {items : List α → Derived F} {close : Char} {f : α → Text} {xs : List α}
    (white : Blank lead) (closing : Blank ending) (ne : xs ≠ [])
    (each : ∀ x ∈ xs, ItemReads nums strict n items close (f x) x) :
    ∃ chars, emitItems lead ending true (xs.map f) = encode chars ∧
      ∀ rest, Derives nums strict n (chars ++ close :: rest) (items xs) rest := by
  obtain ⟨blank, rfl, ws⟩ := white
  obtain ⟨blank', rfl, ws'⟩ := closing
  induction xs with
  | nil => exact absurd rfl ne
  | cons x xs ih =>
    obtain ⟨fst, isFirst, reads⟩ := each x (by simp)
    rw [map_cons, emitItems, isFirst]
    cases xs with
    | nil =>
      refine ⟨blank ++ (fst ++ blank'), by simp [emitItems, encode_append], fun rest => ?_⟩
      rw [append_assoc, append_assoc]
      exact (reads _ _ (ws _)).1 rest (ws' _)
    | cons y xs =>
      obtain ⟨others, isOthers, readsOthers⟩ := ih (by simp) fun x mem => each x (.tail _ mem)
      refine ⟨blank ++ (fst ++ ([','] ++ others)), ?_, fun rest => ?_⟩
      · rw [encode_append, encode_append, encode_append, ← isOthers]
        rfl
      · rw [append_assoc, append_assoc, append_assoc]
        exact (reads _ _ (ws _)).2 _ _ rest (.done _) (readsOthers rest)

theorem element_reads (reads : ReadsAs nums strict n text v) :
    ItemReads nums strict n .elements ']' text v := by
  obtain ⟨chars, isText, reads⟩ := reads
  exact ⟨chars, isText, fun _ _ white => ⟨fun _ => .lastElement white (reads _),
    fun _ _ _ => .moreElements white (reads _)⟩⟩

theorem member_reads {m : Text × JsonValue F} (between : Blank gap) (valid : ValidText m.1)
    (short : m.1.length ≤ maxJsonStringBytes) (reads : ReadsAs nums strict n text m.2) :
    ItemReads nums strict n .members '}' (Jcs.emitString m.1 ++ 0x3A :: (gap ++ text)) m := by
  obtain ⟨blank, rfl, ws⟩ := between
  obtain ⟨key, isKey, readsKey⟩ := printString_reads valid short
  obtain ⟨chars, rfl, reads⟩ := reads
  refine ⟨key ++ ([':'] ++ (blank ++ chars)), ?_, fun start tail white => ?_⟩
  · rw [isKey, encode_append, encode_append, encode_append]
    rfl
  · rw [append_assoc, append_assoc, append_assoc] at white
    exact ⟨fun _ => .lastMember white (readsKey _) (.done _) (ws _) (reads _),
      fun _ _ _ => .moreMembers white (readsKey _) (.done _) (ws _) (reads _)⟩

theorem emitWith_reads {line : Nat → Text} (white : ∀ depth, Blank (line depth)) (between : Blank gap) (depth : Nat)
    (wf : WellFormed v) (floatFree : FloatFree v) (hf : Fits n v) :
    ReadsAs (textNumbers toFloat) strict n (emitWith floatText line gap depth v) v := by
  induction v using JsonValue.induct generalizing n depth with
  | null | bool b | int i | string s =>
    simp only [emitWith, ← Text.emitInt_eq]
    exact print_reads toFloat strict wf floatFree hf
  | float f => cases floatFree
  | array vs ih =>
    cases wf with
    | array wf =>
      cases floatFree with
      | array floatFree =>
        cases hf with
        | @array n _ hf few =>
          rw [emitWith]
          split
          · rename_i empty
            rw [isEmpty_iff.mp empty]
            exact ⟨['[', ']'], rfl, fun rest => .emptyArray (.done _)⟩
          · rename_i some
            obtain ⟨chars, isText, reads⟩ := items_read (white _) (white _) (mt isEmpty_iff.mpr some)
              fun v mem => element_reads (ih v mem (depth + 1) (wf v mem) (floatFree v mem) (hf v mem))
            refine ⟨'[' :: (chars ++ [']']), ?_, fun rest => ?_⟩
            · rw [isText, encode_cons, encode_append]
              rfl
            · rw [cons_append, append_assoc]
              exact .array (reads rest) few
  | object ms ih =>
    cases wf with
    | object valid wf nd =>
      cases floatFree with
      | object floatFree =>
        cases hf with
        | @object n _ short hf few =>
          rw [emitWith]
          split
          · rename_i empty
            rw [isEmpty_iff.mp empty]
            exact ⟨['{', '}'], rfl, fun rest => .emptyObject (.done _)⟩
          · rename_i some
            obtain ⟨chars, isText, reads⟩ := items_read (white _) (white _) (mt isEmpty_iff.mpr some) fun m mem =>
              member_reads between (valid m mem) (short m mem)
                (ih m mem (depth + 1) (wf m mem) (floatFree m mem) (hf m mem))
            have isSame : lastWins [] ms = ms := lastWins_fresh (fresh_of_nodup.mpr nd)
            refine ⟨'{' :: (chars ++ ['}']), ?_, fun rest => ?_⟩
            · rw [isText, encode_cons, encode_append]
              rfl
            · have derives := Derives.object (reads rest) (by rwa [isSame]) fun _ => nd
              rw [isSame] at derives
              rwa [cons_append, append_assoc]

theorem document_of_reads (reads : ReadsAs nums strict maxJsonDepth text v) :
    ∃ chars, text = encode chars ∧ Document nums strict chars v := by
  obtain ⟨chars, isText, derives⟩ := reads
  exact ⟨chars, isText, chars, [], .done _, by simpa using derives [], .done _⟩

/-- Both outputs are read back as the value written. -/
def RoundTrips (nums : Numbers F) (floatText : F → Text) (v : JsonValue F) : Prop :=
  parse nums (stringify floatText v) = .ok v ∧ parse nums (stringifyPretty floatText v) = .ok v ∧
    ∀ maxBytes : Int, (stringify floatText v).length ≤ maxBytes →
      parseStrict nums (stringify floatText v) maxBytes = .ok v

theorem stringify_parses (wf : WellFormed v) (floatFree : FloatFree v) (fits : Fits maxJsonDepth v) :
    RoundTrips (textNumbers toFloat) floatText v := by
  have accepts := Text.textNumbers_accept toFloat
  have plain {text : Text} (reads : ReadsAs (textNumbers toFloat) false maxJsonDepth text v) :
      parse (textNumbers toFloat) text = .ok v := by
    obtain ⟨chars, rfl, document⟩ := document_of_reads reads
    exact (parseDocument_iff accepts false chars v).mpr document
  have compact {strict : Bool} : ReadsAs (textNumbers toFloat) strict maxJsonDepth (stringify floatText v) v :=
    emitWith_reads (fun _ => ⟨[], rfl, .done⟩) ⟨[], rfl, .done⟩ 0 wf floatFree fits
  refine ⟨plain compact, plain (emitWith_reads ?_ ?_ 0 wf floatFree fits), fun maxBytes long => ?_⟩
  · intro depth
    obtain ⟨blank, isText, ws⟩ := blank_indent depth
    exact ⟨'\n' :: blank, congrArg ([0x0A] ++ ·) isText, fun rest => .step rfl (ws rest)⟩
  · exact ⟨[' '], rfl, fun rest => .step rfl (.done _)⟩
  · obtain ⟨chars, isText, document⟩ := document_of_reads compact
    rw [isText] at long ⊢
    exact (parseStrict_iff accepts chars maxBytes v).mpr ⟨long, document⟩

theorem stringify_parses_one : RoundTrips (textNumbers anyFloat) (fun _ => []) (.jsonArray [.jsonInt 1]) :=
  stringify_parses (.array (by simpa using .int 1)) (.array (by simpa using .int 1))
    (.array (by simpa using .int _ 1) (by decide))

theorem canonicalizeStr_twice (emitFloat : F → Except JcsError Text) (noFloats : NoFloats toFloat chars) :
    (canonicalizeStr emitFloat toFloat (encode chars)).bind (canonicalizeStr emitFloat toFloat) =
      canonicalizeStr emitFloat toFloat (encode chars) := by
  cases runs : canonicalizeStr emitFloat toFloat (encode chars) with
  | error e => rfl
  | ok out =>
    obtain ⟨v, rest, fst, isText⟩ := canonicalizeStr_ok.mp runs
    obtain ⟨wf, fits⟩ := firstValue_sized fst
    have floatFree := noFloats v rest fst
    obtain ⟨w, same, -, isPrint⟩ := canonicalize_ordered emitFloat wf floatFree
    obtain rfl := Except.ok.inj (isText.symm.trans isPrint)
    obtain ⟨out, isChars, document⟩ := document_of_reads
      (print_reads toFloat false (wf.of_same same) (floatFree.of_same same) (fits.of_same same))
    obtain ⟨rest', fst', -⟩ := document_first.mp document
    rw [isChars] at isText ⊢
    exact canonicalizeStr_ok.mpr ⟨w, rest', fst', (canonicalize_same wf floatFree same).symm.trans isText⟩

theorem canonicalizeStr_twice_one :
    (canonicalizeStr refuseFloat anyFloat (encode ['1'])).bind (canonicalizeStr refuseFloat anyFloat) =
      canonicalizeStr refuseFloat anyFloat (encode ['1']) :=
  canonicalizeStr_twice refuseFloat noFloats_one

end Serializer

end Json
