import Verum.Json.ParserComplete
import Verum.Json.FloatTexts

open Utf8

namespace Json

def Settles {α : Type} (good : α → Prop) : Except Stop α → Prop
  | .ok a => good a
  | .error (.failed _) => True
  | .error .outOfFuel => False

section Rules

variable {α β : Type} {good : α → Prop} {good' : β → Prop}
variable {x : Except Stop α}

theorem Settles.bind {f : α → Except Stop β} (fst : Settles good x) (next : ∀ a, good a → Settles good' (f a)) :
    Settles good' (x >>= f) := by
  cases x with
  | ok a => exact next a fst
  | error stop =>
    cases stop with
    | failed error | outOfFuel => exact fst

theorem Settles.mono {stronger : α → Prop} (settles : Settles stronger x) (implies : ∀ a, stronger a → good a) :
    Settles good x := by
  cases x with
  | ok a => exact implies a settles
  | error stop =>
    cases stop with
    | failed error | outOfFuel => exact settles

theorem Settles.ne (settles : Settles good x) : x ≠ .error .outOfFuel := by
  rintro rfl
  exact settles

end Rules

namespace Parser

variable {F : Type} {numbers : Numbers F}

/-- At least `k` bytes before the cursor are no longer ahead of it. -/
def Within (k : Nat) (p p' : Parser) : Prop := p'.rest.length + k ≤ p.rest.length

theorem within_advanceWhile (test : UInt8 → Bool) (p : Parser) : Within 0 p (p.advanceWhile test) := by
  rw [Within, advanceWhile_rest]
  exact (List.dropWhile_suffix _).length_le

variable {p : Parser} {fuel : Nat}

theorem within_advance {b : UInt8} (peeked : p.peek = some b) : Within 1 p p.advance := by
  rw [peek, List.head?_eq_some_iff] at peeked
  obtain ⟨rest, bytes⟩ := peeked
  rw [Within, advance_rest, bytes]
  exact Nat.le_refl _

theorem settles_expectByte (p : Parser) (b : UInt8) (ctx : String) : Settles (Within 1 p) (p.expectByte b ctx) := by
  unfold expectByte
  split
  · rename_i c peeked
    split
    · exact within_advance peeked
    · trivial
  · trivial

theorem settles_hexLoop (n v : Nat) (p : Parser) :
    Settles (fun res => Within 0 p res.2) (hexLoop n v p) := by
  induction n generalizing v p with
  | zero => exact Nat.le_refl _
  | succ n ih =>
    unfold hexLoop
    split
    · trivial
    · rename_i b peeked
      split
      · have moved := within_advance peeked
        exact (ih _ p.advance).mono fun res hl => by unfold Within at *; omega
      · trivial

theorem settles_parseUnicodeEscape (p : Parser) (out : Text) :
    Settles (fun res => Within 0 p res.2) (p.parseUnicodeEscape out) := by
  refine (settles_hexLoop 4 0 p).bind ?_
  rintro ⟨cp, p₁⟩ fst
  simp only at fst ⊢
  split
  · refine (settles_expectByte p₁ _ _).bind fun p₂ snd => (settles_expectByte p₂ _ _).bind fun p₃ third =>
      (settles_hexLoop 4 0 p₃).bind ?_
    rintro ⟨low, p₄⟩ fourth
    simp only at fourth ⊢
    split
    · trivial
    · simp only [Settles, Within] at *
      omega
  · split
    · trivial
    · exact fst

theorem settles_parseEscape (p : Parser) (out : Text) :
    Settles (fun res => Within 0 p res.2) (p.parseEscape out) := by
  unfold parseEscape
  split
  · trivial
  · rename_i b peeked
    have moved := within_advance peeked
    split
    · exact Nat.le_of_succ_le moved
    · split
      · exact (settles_parseUnicodeEscape p.advance out).mono fun res hl => by unfold Within at *; omega
      · trivial

theorem settles_stringLoop (fuel : Nat) (buf : Text) (he : p.rest.length < fuel) :
    Settles (fun res => Within 0 p res.2) (stringLoop fuel buf p) := by
  induction fuel generalizing buf p with
  | zero => omega
  | succ fuel ih =>
    unfold stringLoop
    split
    · trivial
    rename_i b peeked
    have moved := within_advance peeked
    split
    · exact Nat.le_of_succ_le moved
    have next : ∀ res : Text × Parser, Within 1 p res.2 → Settles (fun res => Within 0 p res.2)
        (if res.1.length > maxJsonStringBytes then
          .error (res.2.mkErr .stringTooLong "string exceeds MAX_JSON_STRING_BYTES (32 MiB)")
        else stringLoop fuel res.1 res.2) := by
      intro res onward
      split
      · trivial
      · have fewer : res.2.rest.length < fuel := by unfold Within at onward; omega
        exact (ih res.1 fewer).mono fun res hl => by unfold Within at *; omega
    simp only
    split
    · refine (settles_parseEscape p.advance buf).bind fun res onward => next res ?_
      unfold Within at *
      omega
    · split
      · trivial
      · exact next (buf ++ [b], p.advance) moved

theorem settles_parseStringRaw (p : Parser) : Settles (fun res => Within 1 p res.2) p.parseStringRaw := by
  refine (settles_expectByte p _ _).bind fun q moved => ?_
  exact (settles_stringLoop _ [] (Nat.lt_succ_self _)).mono fun res hl => by unfold Within at *; omega

theorem settles_parseKey (fs : List (Text × JsonValue F)) (p : Parser) :
    Settles (fun res => Within 1 p res.2) (parseKey fs p) := by
  refine (settles_parseStringRaw p).bind ?_
  rintro ⟨key, q⟩ moved
  simp only at moved ⊢
  split
  · trivial
  · have skipped := within_advanceWhile isWs q
    refine (settles_expectByte q.skipWs _ _).bind fun p' last => ?_
    simp only [Settles, Within, skipWs] at *
    omega

theorem settles_matchLiteral {p' : Parser} {expected : List UInt8} (ne : 0 < expected.length)
    (hit : p.matchLiteral expected = some p') : Within 1 p p' := by
  unfold matchLiteral at hit
  split at hit
  · rename_i isPrefix
    rw [List.isPrefixOf_iff_prefix] at isPrefix
    have shorter := isPrefix.length_le
    rw [Within, ← Option.some.inj hit, (foldl_advance expected p).1, List.length_drop]
    omega
  · simp at hit

theorem settles_parseNull (p : Parser) : Settles (fun res : JsonValue F × Parser => Within 1 p res.2) p.parseNull := by
  unfold parseNull
  split
  · rename_i p' hit
    exact settles_matchLiteral (by decide) hit
  · trivial

theorem settles_parseBool (p : Parser) : Settles (fun res : JsonValue F × Parser => Within 1 p res.2) p.parseBool := by
  unfold parseBool
  split
  · rename_i p' hit
    exact settles_matchLiteral (by decide) hit
  · split
    · rename_i p' hit
      exact settles_matchLiteral (by decide) hit
    · trivial

theorem settles_digits (p : Parser) (message : String) : Settles (Within 1 p) (p.digits message) := by
  unfold digits
  split
  · rename_i isFirst
    rw [Option.any_eq_true] at isFirst
    obtain ⟨b, peeked, isDigit⟩ := isFirst
    rw [peek, List.head?_eq_some_iff] at peeked
    obtain ⟨rest, bytes⟩ := peeked
    have shorter := (List.dropWhile_suffix Parser.isDigit (l := rest)).length_le
    rw [Settles, Within, advanceWhile_rest, bytes, List.dropWhile_cons, if_pos isDigit, List.length_cons]
    omega
  · trivial

theorem settles_integerPart (p : Parser) : Settles (Within 1 p) p.integerPart := by
  unfold integerPart
  split
  · rename_i peeked
    exact within_advance peeked
  · exact settles_digits p _

theorem settles_fractionPart (p : Parser) : Settles (fun res => Within 0 p res.2) p.fractionPart := by
  unfold fractionPart
  split
  · rename_i peeked
    have moved := within_advance peeked
    refine (settles_digits p.advance _).bind fun q onward => ?_
    simp only [Settles, Within] at *
    omega
  · exact Nat.le_refl _

theorem within_sign {condition : Prop} [Decidable condition] (has : condition → p.peek.isSome) :
    Within 0 p (if condition then p.advance else p) := by
  split
  · rename_i hh
    obtain ⟨b, peeked⟩ := Option.isSome_iff_exists.mp (has hh)
    exact Nat.le_of_succ_le (within_advance peeked)
  · exact Nat.le_refl _

theorem settles_exponentPart (p : Parser) : Settles (fun res => Within 0 p res.2) p.exponentPart := by
  unfold exponentPart
  split
  · rename_i isE
    have moved : Within 1 p p.advance := by
      rcases isE with peeked | peeked
      · exact within_advance peeked
      · exact within_advance peeked
    have signed : Within 0 p.advance
        (if p.advance.peek = some 0x2B ∨ p.advance.peek = some 0x2D then p.advance.advance else p.advance) :=
      within_sign fun isSign => by rcases isSign with peeked | peeked <;> rw [peeked] <;> rfl
    refine (settles_digits _ _).bind fun q onward => ?_
    simp only [Settles, Within] at *
    omega
  · exact Nat.le_refl _

theorem settles_parseNumber (p : Parser) :
    Settles (fun res : JsonValue F × Parser => Within 1 p res.2) (p.parseNumber numbers) := by
  have signed : Within 0 p (if p.peek = some 0x2D then p.advance else p) :=
    within_sign fun peeked => by rw [peeked]; rfl
  refine (settles_integerPart _).bind fun p₁ fst => (settles_fractionPart p₁).bind ?_
  rintro ⟨hasFraction, p₂⟩ snd
  refine (settles_exponentPart p₂).bind ?_
  rintro ⟨hasExponent, p₃⟩ third
  simp only at snd third ⊢
  split
  · simp only [Settles, Within] at *
    omega
  · trivial

def ValueSettles (numbers : Numbers F) (fuel : Nat) : Prop :=
  ∀ p, 2 * p.rest.length + 1 ≤ fuel → Settles (fun result => Within 1 p result.2) (parseValueImpl numbers fuel p)

def LoopSettles {α : Type} (fuel : Nat) (loop : α → Parser → Except Stop (α × Parser)) : Prop :=
  ∀ before p, 2 * p.rest.length + 2 ≤ fuel → Settles (fun result => Within 0 p result.2) (loop before p)

theorem settles_parseArray {loop : List (JsonValue F) → Parser → Except Stop (List (JsonValue F) × Parser)}
    (loops : LoopSettles fuel loop) (he : 2 * p.rest.length ≤ fuel) :
    Settles (fun res => Within 1 p res.2) (parseArray (loop []) p) := by
  unfold parseArray
  split
  · trivial
  refine (settles_expectByte { p with depth := p.depth + 1 } _ _).bind fun q opened => ?_
  have skipped := within_advanceWhile isWs q
  have fewer : q.skipWs.rest.length < p.rest.length := Nat.lt_of_le_of_lt skipped opened
  simp only
  split
  · rename_i closes
    have hc := within_advance closes
    simp only [Settles, Within] at *
    omega
  · refine (loops [] q.skipWs (by omega)).bind ?_
    rintro ⟨elems, p'⟩ hl
    simp only [Settles, Within] at *
    omega

theorem settles_parseObject
    {loop : List (Text × JsonValue F) → Parser → Except Stop (List (Text × JsonValue F) × Parser)}
    (loops : LoopSettles fuel loop) (he : 2 * p.rest.length ≤ fuel) :
    Settles (fun res => Within 1 p res.2) (parseObject (loop []) p) := by
  unfold parseObject
  split
  · trivial
  refine (settles_expectByte { p with depth := p.depth + 1 } _ _).bind fun q opened => ?_
  have skipped := within_advanceWhile isWs q
  have fewer : q.skipWs.rest.length < p.rest.length := Nat.lt_of_le_of_lt skipped opened
  simp only
  split
  · rename_i closes
    have hc := within_advance closes
    simp only [Settles, Within] at *
    omega
  · refine (loops [] q.skipWs (by omega)).bind ?_
    rintro ⟨fields, p'⟩ hl
    simp only [Settles, Within] at *
    omega

theorem settles_value (arrays : LoopSettles fuel (arrayLoop numbers fuel))
    (objects : LoopSettles fuel (objectLoop numbers fuel)) : ValueSettles numbers (fuel + 1) := by
  intro p he
  have skipped := within_advanceWhile isWs p
  have fewer : p.skipWs.rest.length ≤ p.rest.length := skipped
  suffices settles : Settles (fun res => Within 1 p.skipWs res.2) (parseValueImpl numbers (fuel + 1) p) from
    settles.mono fun res hl => by unfold Within at *; omega
  rw [parseValueImpl]
  split
  · trivial
  split
  · exact settles_parseObject objects (by omega)
  split
  · exact settles_parseArray arrays (by omega)
  split
  · exact (settles_parseStringRaw p.skipWs).bind fun res moved => moved
  split
  · exact settles_parseBool p.skipWs
  split
  · exact settles_parseNull p.skipWs
  · exact settles_parseNumber p.skipWs

theorem settles_arrayLoop (vs : ValueSettles numbers fuel)
    (arrays : LoopSettles fuel (arrayLoop numbers fuel)) :
    LoopSettles (fuel + 1) (arrayLoop numbers (fuel + 1)) := by
  intro elems p he
  have fewer : p.skipWs.rest.length ≤ p.rest.length := within_advanceWhile isWs p
  rw [arrayLoop]
  refine (vs p.skipWs (by omega)).bind ?_
  rintro ⟨v, q⟩ moved
  have skipped : q.skipWs.rest.length ≤ q.rest.length := within_advanceWhile isWs q
  simp only at moved ⊢
  split
  · trivial
  split
  · trivial
  rename_i b peeked
  have hc := within_advance peeked
  unfold Within at moved hc
  split
  · exact (arrays _ _ (by omega)).mono fun res hl => by unfold Within at *; omega
  split
  · simp only [Settles, Within]
    omega
  · trivial

theorem settles_objectLoop (vs : ValueSettles numbers fuel)
    (objects : LoopSettles fuel (objectLoop numbers fuel)) :
    LoopSettles (fuel + 1) (objectLoop numbers (fuel + 1)) := by
  intro fs p he
  have fewer : p.skipWs.rest.length ≤ p.rest.length := within_advanceWhile isWs p
  rw [objectLoop]
  refine (settles_parseKey fs p.skipWs).bind ?_
  rintro ⟨key, q₁⟩ movedKey
  have atValue : q₁.skipWs.rest.length ≤ q₁.rest.length := within_advanceWhile isWs q₁
  unfold Within at movedKey
  simp only at movedKey ⊢
  refine (vs q₁.skipWs (by omega)).bind ?_
  rintro ⟨v, q⟩ moved
  have skipped : q.skipWs.rest.length ≤ q.rest.length := within_advanceWhile isWs q
  simp only at moved ⊢
  split
  · trivial
  split
  · trivial
  rename_i b peeked
  have hc := within_advance peeked
  unfold Within at moved hc
  split
  · exact (objects _ _ (by omega)).mono fun res hl => by unfold Within at *; omega
  split
  · simp only [Settles, Within]
    omega
  · trivial

theorem parser_settles (fuel : Nat) :
    ValueSettles numbers fuel ∧ LoopSettles fuel (arrayLoop numbers fuel) ∧
      LoopSettles fuel (objectLoop numbers fuel) := by
  induction fuel with
  | zero =>
    refine ⟨?_, ?_, ?_⟩
    · intro p he
      omega
    · intro elems p he
      omega
    · intro fs p he
      omega
  | succ fuel ih =>
    obtain ⟨vs, arrays, objects⟩ := ih
    exact ⟨settles_value arrays objects, settles_arrayLoop vs arrays, settles_objectLoop vs objects⟩

theorem settles_parseDocument (he : 2 * p.rest.length + 1 ≤ fuel) :
    Settles (fun _ => True) (parseDocument numbers fuel p) := by
  have fewer : p.skipWs.rest.length ≤ p.rest.length := within_advanceWhile isWs p
  refine ((parser_settles fuel).1 p.skipWs (by omega)).bind ?_
  rintro ⟨v, q⟩ -
  simp only
  split
  · trivial
  · trivial

end Parser

open Grammar

variable {F : Type}
variable {numbers : Numbers F}

theorem parseDocument_iff (accepts : Accepts numbers) (strict : Bool) (text : List Char) (v : JsonValue F) :
    Parser.parseDocument numbers (enoughFuel (encode text))
      { Parser.new (encode text) with rejectDuplicateKeys := strict } = .ok v ↔
      Document numbers strict text v :=
  ⟨Parser.parseDocument_sound, Parser.parseDocument_complete accepts⟩

theorem parseStrict_iff (accepts : Accepts numbers) (text : List Char) (maxBytes : Int) (v : JsonValue F) :
    parseStrict numbers (encode text) maxBytes = .ok v ↔
      (encode text).length ≤ maxBytes ∧ Document numbers true text v := by
  unfold parseStrict
  constructor
  · intro runs
    simp only at runs
    split at runs
    · simp [Parser.mkErr] at runs
    split at runs
    · simp [Parser.mkErr] at runs
    rename_i hf
    exact ⟨Int.not_lt.mp hf, (parseDocument_iff accepts true text v).mp runs⟩
  · rintro ⟨hf, document⟩
    have pos : ¬ maxBytes < 0 := by omega
    simp only
    rw [if_neg pos, if_neg (Int.not_lt.mpr hf)]
    exact (parseDocument_iff accepts true text v).mpr document

theorem parseStrict_settles (numbers : Numbers F) (src : Text) (maxBytes : Int) :
    Settles (fun _ => True) (parseStrict numbers src maxBytes) := by
  unfold parseStrict
  simp only
  split
  · trivial
  split
  · trivial
  · exact Parser.settles_parseDocument (Nat.le_refl _)

/-- A text is accepted exactly when it is a document of the grammar, and its value is the one derived. -/
theorem parse_exact (numbers : Numbers F) (accepts : Accepts numbers) (text : List Char) :
    ((∀ v, parse numbers (Utf8.encode text) = .ok v ↔ Document numbers false text v) ∧
      ∀ maxBytes v, parseStrict numbers (Utf8.encode text) maxBytes = .ok v ↔
        (Utf8.encode text).length ≤ maxBytes ∧ Document numbers true text v) ∧
    parse numbers (Utf8.encode text) ≠ .error .outOfFuel ∧
      ∀ maxBytes, parseStrict numbers (Utf8.encode text) maxBytes ≠ .error .outOfFuel := by
  refine ⟨⟨?_, ?_⟩, ?_, ?_⟩
  · exact parseDocument_iff accepts false text
  · exact parseStrict_iff accepts text
  · exact (Parser.settles_parseDocument (Nat.le_refl _)).ne
  · exact fun maxBytes => (parseStrict_settles numbers _ maxBytes).ne

theorem parse_exact_pair :
    ((∀ v, parse (textNumbers id) (Utf8.encode ['[', '1', ',', '2', 'e', '3', ']']) = .ok v ↔
        Document (textNumbers id) false ['[', '1', ',', '2', 'e', '3', ']'] v) ∧
      ∀ maxBytes v, parseStrict (textNumbers id) (Utf8.encode ['[', '1', ',', '2', 'e', '3', ']']) maxBytes = .ok v ↔
        (Utf8.encode ['[', '1', ',', '2', 'e', '3', ']']).length ≤ maxBytes ∧
          Document (textNumbers id) true ['[', '1', ',', '2', 'e', '3', ']'] v) ∧
    parse (textNumbers id) (Utf8.encode ['[', '1', ',', '2', 'e', '3', ']']) ≠ .error .outOfFuel ∧
      ∀ maxBytes,
        parseStrict (textNumbers id) (Utf8.encode ['[', '1', ',', '2', 'e', '3', ']']) maxBytes ≠ .error .outOfFuel :=
  parse_exact (textNumbers id) (Text.textNumbers_accept id) ['[', '1', ',', '2', 'e', '3', ']']

section FirstValues

variable {numbers : Numbers F} {text : List Char}
variable {v : JsonValue F} {rest : List Char}

theorem firstValue_ok {fuel : Nat} {p' : Parser}
    (runs : Parser.parseValueImpl numbers fuel (Parser.new (encode text)).skipWs = .ok (v, p')) :
    ∃ rest, FirstValue numbers text v rest ∧ p'.rest = encode rest := by
  have start : Parser.Moved (Parser.new (encode text)) _ _ := Parser.moved_skipWs rfl
  obtain ⟨text₁, rest, ws, derives, greedy, moved⟩ :=
    (Parser.parser_sound fuel).1 _ p' _ v maxJsonDepth start.rest (by rw [start.depth]; rfl) runs
  rw [start.flag] at derives
  exact ⟨rest, ⟨text₁, (Parser.ws_dropWhile text).trans ws, derives, greedy⟩, moved.rest⟩

theorem firstValue_complete (accepts : Accepts numbers) (fst : FirstValue numbers text v rest) :
    ∃ p', Parser.parseValueImpl numbers (enoughFuel (encode text)) (Parser.new (encode text)).skipWs =
      .ok (v, p') ∧ p'.rest = encode rest := by
  obtain ⟨start, pre, derives, greedy⟩ := fst
  obtain ⟨c, hl, rfl, starts, -⟩ := derives.wellStarted
  have skipped : Parser.Moved (Parser.new (encode text)) _ _ :=
    Parser.moved_skipWs_of_ws rfl pre (starts.noWs hl)
  have lt := encode_length_le pre.suffix
  obtain ⟨p', runs, moved⟩ := Parser.derives_reads accepts derives _ (enoughFuel (encode text)) skipped.rest
    ⟨Nat.le_of_eq (by rw [skipped.depth]; exact Nat.zero_add _), skipped.flag⟩
    (by rw [skipped.rest, enoughFuel]; omega) greedy
  exact ⟨p', runs, moved.rest⟩

theorem parseValue_iff (accepts : Accepts numbers) (text : List Char) (v : JsonValue F) :
    parseValue numbers (encode text) = .ok v ↔ ∃ rest, FirstValue numbers text v rest := by
  constructor
  · intro runs
    obtain ⟨⟨value, p'⟩, isValue, runs⟩ := bind_ok runs
    obtain ⟨rest, fst, -⟩ := firstValue_ok isValue
    rw [← Except.ok.inj runs]
    exact ⟨rest, fst⟩
  · rintro ⟨rest, fst⟩
    obtain ⟨p', runs, -⟩ := firstValue_complete accepts fst
    simp only [parseValue, runs, bind, Except.bind]

theorem document_first : Document numbers false text v ↔ ∃ rest, FirstValue numbers text v rest ∧ Ws rest [] := by
  constructor
  · rintro ⟨start, rest, pre, derives, after⟩
    exact ⟨rest, ⟨start, pre, derives, Parser.greedyAt_of_follow (Parser.follow_ws after rfl)⟩, after⟩
  · rintro ⟨rest, ⟨start, pre, derives, -⟩, after⟩
    exact ⟨start, rest, pre, derives, after⟩

theorem firstValue_unique (accepts : Accepts numbers) {w : JsonValue F} {rest' : List Char}
    (fst : FirstValue numbers text v rest) (snd : FirstValue numbers text w rest') :
    v = w ∧ (Ws rest [] → Ws rest' []) := by
  obtain ⟨p, runs, atRest⟩ := firstValue_complete accepts fst
  obtain ⟨p', runs', atRest'⟩ := firstValue_complete accepts snd
  obtain ⟨rfl, rfl⟩ := Prod.mk.inj (Except.ok.inj (runs.symm.trans runs'))
  refine ⟨rfl, ?_⟩
  intro white
  have atEnd := (Parser.moved_skipWs_of_ws atRest white rfl).rest
  rw [(Parser.moved_skipWs atRest').rest, encode_eq_nil.mpr rfl, encode_eq_nil] at atEnd
  rw [← atEnd]
  exact Parser.ws_dropWhile rest'

end FirstValues

end Json
