import Verum.Json.ParserSound

open Utf8

open List

namespace Json

open Grammar

namespace Grammar

variable {F : Type} {numbers : Numbers F} {strict : Bool}
variable {text rest text₁ text₂ : List Char} {c : Char}

theorem StringBody.suffix {chars : List Char} (body : StringBody text chars rest) : rest <:+ text := by
  induction body with
  | close rest => exact suffix_cons _ _
  | unescaped _ _ _ _ ih => exact ih.trans (suffix_cons _ _)
  | escape isEscape _ ih => exact (ih.trans (Parser.escape_suffix isEscape)).trans (suffix_cons _ _)

theorem StringText.suffix {s : Text} (string : StringText text s rest) :
    ∃ c later, text = c :: later ∧ rest <:+ later := by
  cases string with
  | mk body _ => exact ⟨_, _, rfl, body.suffix⟩

def Starts (c : Char) : Prop :=
  c = 'n' ∨ c = 't' ∨ c = 'f' ∨ c = '"' ∨ c = '[' ∨ c = '{' ∨ c = '-' ∨ Grammar.isDigit c = true

instance (c : Char) : Decidable (Starts c) := inferInstanceAs (Decidable (_ ∨ _))

theorem Starts.low (starts : Starts c) : c.toNat < 0x80 := by
  rcases starts with rfl | rfl | rfl | rfl | rfl | rfl | rfl | isDigit
  iterate 7 decide
  rw [Parser.isDigit_iff] at isDigit
  omega

theorem Starts.notWs (starts : Starts c) : Grammar.isWs c = false := by
  have low := starts.low
  revert starts
  rw [← Char.ofNat_toNat c]
  generalize c.toNat = n at low
  revert n
  decide

theorem Starts.noWs (starts : Starts c) (text : List Char) : Parser.NoWs (c :: text) := starts.notWs

/-- A value starts with a character of its own; elements and members do after the whitespace before them. -/
def WellStarted (text rest : List Char) : Derived F → Prop
  | .value _ => ∃ c later, text = c :: later ∧ Starts c ∧ rest <:+ later
  | _ => (∃ c later, text.dropWhile Grammar.isWs = c :: later ∧ Starts c) ∧ rest <:+ text

theorem wellStarted_elements {v : JsonValue F} (ws : Ws text text₁) (value : WellStarted text₁ text₂ (.value v))
    (after : rest <:+ text₂) :
    (∃ c later, text.dropWhile Grammar.isWs = c :: later ∧ Starts c) ∧ rest <:+ text := by
  obtain ⟨c, later, rfl, starts, isSuffix⟩ := value
  refine ⟨⟨c, later, Parser.ws_eq ws (starts.noWs later), starts⟩, ?_⟩
  exact ((after.trans isSuffix).trans (suffix_cons _ _)).trans ws.suffix

theorem wellStarted_members {text₃ text₄ text₅ : List Char} {key : Text} {v : JsonValue F} (ws : Ws text text₁)
    (string : StringText text₁ key text₂) (colon : Ws text₂ (':' :: text₃)) (gap : Ws text₃ text₄)
    (value : WellStarted text₄ text₅ (.value v)) (after : rest <:+ text₅) :
    (∃ c later, text.dropWhile Grammar.isWs = c :: later ∧ Starts c) ∧ rest <:+ text := by
  obtain ⟨c, later, rfl, -, isSuffix⟩ := value
  have beforeValue : rest <:+ text₁ := by
    obtain ⟨d, key, rfl, afterKey⟩ := string.suffix
    have inColon := (suffix_cons ':' text₃).trans (colon.suffix.trans afterKey)
    have inGap := gap.suffix.trans (inColon.trans (suffix_cons d key))
    exact ((after.trans isSuffix).trans (suffix_cons _ _)).trans inGap
  cases string with
  | mk body _ => exact ⟨⟨'"', _, Parser.ws_eq ws rfl, by decide⟩, beforeValue.trans ws.suffix⟩

theorem Derives.wellStarted {n : Nat} {derived : Derived F} (derives : Derives numbers strict n text derived rest) :
    WellStarted text rest derived := by
  induction derives with
  | null rest => exact ⟨_, _, rfl, by decide, suffix_append ['u', 'l', 'l'] rest⟩
  | true rest => exact ⟨_, _, rfl, by decide, suffix_append ['r', 'u', 'e'] rest⟩
  | false rest => exact ⟨_, _, rfl, by decide, suffix_append ['a', 'l', 's', 'e'] rest⟩
  | number rest isNumber =>
    obtain ⟨c, later, rfl, isFirst⟩ := Parser.number_head isNumber
    refine ⟨c, later ++ rest, rfl, ?_, suffix_append later rest⟩
    simp only [Starts, isFirst, or_true]
  | string isString =>
    obtain ⟨c, later, rfl, isSuffix⟩ := isString.suffix
    cases isString with
    | mk _ _ => exact ⟨'"', later, rfl, by decide, isSuffix⟩
  | emptyArray ws | emptyObject ws => exact ⟨_, _, rfl, by decide, (suffix_cons _ _).trans ws.suffix⟩
  | array _ _ ih | object _ _ _ ih => exact ⟨_, _, rfl, by decide, ih.2⟩
  | lastElement pre _ after ih =>
    exact wellStarted_elements pre ih ((suffix_cons _ _).trans after.suffix)
  | moreElements pre _ after _ ih others =>
    exact wellStarted_elements pre ih (others.2.trans ((suffix_cons _ _).trans after.suffix))
  | lastMember pre key colon gap _ after ih =>
    exact wellStarted_members pre key colon gap ih ((suffix_cons _ _).trans after.suffix)
  | moreMembers pre key colon gap _ after _ ih others =>
    exact wellStarted_members pre key colon gap ih (others.2.trans ((suffix_cons _ _).trans after.suffix))

theorem numberValue_of_accepts (text : List Char) (isFloat : Bool) (accepts : Accepts numbers)
    (isNumber : NumberText text isFloat) :
    Parser.numberValue numbers isFloat (encode text) = some (denote numbers isFloat text) := by
  have parses := accepts text isFloat isNumber
  have has : (Parser.numberValue numbers isFloat (encode text)).isSome := by
    unfold Parser.numberValue
    split
    · rw [Option.isSome_map, parses]
    · split
      · rfl
      · rw [Option.isSome_map, parses]
  obtain ⟨v, isValue⟩ := Option.isSome_iff_exists.mp has
  rw [denote, isValue, Option.getD_some]

end Grammar

namespace Parser

variable {text rest later : List Char} {p : Parser} {n : Nat} {c : Char}

theorem follow_ws (ws : Ws text rest) (follow : Follow rest) : Follow text := by
  cases ws with
  | done => exact follow
  | @step c text rest isWs _ =>
    simp only [Grammar.isWs, Bool.or_eq_true, decide_eq_true_eq] at isWs
    rcases isWs with ((rfl | rfl) | rfl) | rfl <;> rfl

theorem skipWs_eq (here : p.rest = encode text) (noWs : NoWs text) : p.skipWs = p := by
  have noByte : p.rest.head?.any isWs = false := by rw [here, agrees_isWs.head, noWs]
  have nothing : p.rest.takeWhile isWs = [] := by
    cases bytes : p.rest with
    | nil => rfl
    | cons b rest =>
      rw [bytes] at noByte
      rw [takeWhile_cons, show isWs b = false from noByte]
      rfl
  rw [skipWs, advanceWhile, nothing]
  rfl

variable {F : Type} {numbers : Numbers F} {strict : Bool}

/-- The state allows a derivation with nesting at most `n`. -/
structure Allows (strict : Bool) (n : Nat) (p : Parser) : Prop where
  deep : p.depth + n ≤ maxJsonDepth
  flag : p.rejectDuplicateKeys = strict

theorem Allows.moved {p' : Parser} (allows : Allows strict n p) (moved : Moved p text p') : Allows strict n p' :=
  ⟨by rw [moved.depth]; exact allows.deep, moved.flag.trans allows.flag⟩

def Reads (numbers : Numbers F) (strict : Bool) (n : Nat) (text rest : List Char) : Derived F → Prop
  | .value v => ∀ p fuel, p.rest = encode text → Allows strict n p → 2 * p.rest.length + 1 ≤ fuel →
    GreedyAt text rest → ∃ p', parseValueImpl numbers fuel p = .ok (v, p') ∧ Moved p rest p'
  | .elements vs => ∀ p fuel elems start, p.rest = encode start →
    start.dropWhile Grammar.isWs = text.dropWhile Grammar.isWs → Allows strict n p →
    2 * p.rest.length + 2 ≤ fuel → (elems ++ vs).length ≤ maxJsonArrayItems →
    ∃ p', arrayLoop numbers fuel elems p = .ok (elems ++ vs, p') ∧ Moved p rest p'
  | .members ms => ∀ p fuel fields start, p.rest = encode start →
    start.dropWhile Grammar.isWs = text.dropWhile Grammar.isWs → Allows strict n p →
    2 * p.rest.length + 2 ≤ fuel → (lastWins fields ms).length ≤ maxJsonObjectKeys →
    (strict = true → Fresh fields ms) →
    ∃ p', objectLoop numbers fuel fields p = .ok (lastWins fields ms, p') ∧ Moved p rest p'

theorem parseNull_complete (here : p.rest = encode ('n' :: 'u' :: 'l' :: 'l' :: rest)) :
    ∃ p', p.parseNull = .ok ((.jsonNull : JsonValue F), p') ∧ Moved p rest p' := by
  obtain ⟨p', hit, moved⟩ := matchLiteral_complete (p := p) ['n', 'u', 'l', 'l'] here
  have isWord : [0x6E, 0x75, 0x6C, 0x6C] = encode ['n', 'u', 'l', 'l'] := rfl
  exact ⟨p', by rw [parseNull, isWord, hit], moved⟩

theorem parseBool_complete_true (here : p.rest = encode ('t' :: 'r' :: 'u' :: 'e' :: rest)) :
    ∃ p', p.parseBool = .ok ((.jsonBool true : JsonValue F), p') ∧ Moved p rest p' := by
  obtain ⟨p', hit, moved⟩ := matchLiteral_complete (p := p) ['t', 'r', 'u', 'e'] here
  have isWord : [0x74, 0x72, 0x75, 0x65] = encode ['t', 'r', 'u', 'e'] := rfl
  exact ⟨p', by rw [parseBool, isWord, hit], moved⟩

theorem parseBool_complete_false (here : p.rest = encode ('f' :: 'a' :: 'l' :: 's' :: 'e' :: rest)) :
    ∃ p', p.parseBool = .ok ((.jsonBool false : JsonValue F), p') ∧ Moved p rest p' := by
  obtain ⟨p', hit, moved⟩ := matchLiteral_complete (p := p) ['f', 'a', 'l', 's', 'e'] here
  have isWord : [0x66, 0x61, 0x6C, 0x73, 0x65] = encode ['f', 'a', 'l', 's', 'e'] := rfl
  have notTrue : p.matchLiteral [0x74, 0x72, 0x75, 0x65] = none := by
    rw [matchLiteral, here]
    rfl
  exact ⟨p', by rw [parseBool, notTrue, isWord]; simp only [hit], moved⟩

theorem parseValueImpl_at {fuel : Nat} (here : p.rest = encode (c :: later)) (starts : Starts c) :
    parseValueImpl numbers (fuel + 1) p =
      if c.toNat.toUInt8 = 0x7B then parseObject (objectLoop numbers fuel []) p
      else if c.toNat.toUInt8 = 0x5B then parseArray (arrayLoop numbers fuel []) p
      else if c.toNat.toUInt8 = 0x22 then p.parseStringValue
      else if c.toNat.toUInt8 = 0x74 ∨ c.toNat.toUInt8 = 0x66 then p.parseBool
      else if c.toNat.toUInt8 = 0x6E then p.parseNull
      else p.parseNumber numbers := by
  rw [parseValueImpl]
  simp only [skipWs_eq here (starts.noWs later), peek_eq here starts.low]

theorem reads_value {n : Nat} {c : Char} {later rest : List Char} {v : JsonValue F}
    (reads : ∀ p fuel, p.rest = encode (c :: later) → Allows strict n p → 2 * p.rest.length ≤ fuel →
      GreedyAt (c :: later) rest → ∃ p', parseValueImpl numbers (fuel + 1) p = .ok (v, p') ∧ Moved p rest p') :
    Reads numbers strict n (c :: later) rest (.value v) := by
  intro p fuel here allows he greedy
  cases fuel with
  | zero => omega
  | succ fuel => exact reads p fuel here allows (by omega) greedy

theorem reads_number {num : List Char} {isFloat : Bool} (accepts : Accepts numbers) (rest : List Char)
    (isNumber : NumberText num isFloat) :
    Reads numbers strict n (num ++ rest) rest (.value (denote numbers isFloat num)) := by
  obtain ⟨c, later, rfl, isFirst⟩ := Parser.number_head isNumber
  have starts : Starts c := by simp only [Starts, isFirst, or_true]
  have noLetter : c.toNat.toUInt8 ≠ 0x7B ∧ c.toNat.toUInt8 ≠ 0x5B ∧ c.toNat.toUInt8 ≠ 0x22 ∧
      ¬ (c.toNat.toUInt8 = 0x74 ∨ c.toNat.toUInt8 = 0x66) ∧ c.toNat.toUInt8 ≠ 0x6E := by
    have low := starts.low
    revert isFirst
    clear starts isNumber
    rw [← Char.ofNat_toNat c]
    generalize c.toNat = n at low
    revert n
    decide
  refine reads_value ?_
  intro p fuel here _ _ greedy
  rw [parseValueImpl_at here starts, if_neg noLetter.1, if_neg noLetter.2.1, if_neg noLetter.2.2.1,
    if_neg noLetter.2.2.2.1, if_neg noLetter.2.2.2.2]
  exact parseNumber_complete (greedy (c :: later) isFloat isNumber rfl) here
    (numberValue_of_accepts (c :: later) isFloat accepts isNumber)

theorem reads_string {s : Text} (string : StringText text s rest) :
    Reads numbers strict n text rest (.value (.jsonString s)) := by
  have isText : ∃ body, text = '"' :: body := by
    cases string with
    | mk _ _ => exact ⟨_, rfl⟩
  obtain ⟨body, rfl⟩ := isText
  refine reads_value ?_
  intro p fuel here _ _ _
  obtain ⟨p', runs, moved⟩ := parseStringRaw_complete string here
  refine ⟨p', ?_, moved⟩
  rw [parseValueImpl_at here (by decide), if_neg (by decide), if_neg (by decide), if_pos (by decide),
    parseStringValue, runs]
  rfl

theorem enter {start : List Char} (here : p.rest = encode (c :: text)) (low : c.toNat < 0x80)
    (allows : Allows strict (n + 1) p) (isStart : text.dropWhile Grammar.isWs = start) :
    ∃ q, (∀ ctx, ({ p with depth := p.depth + 1 } : Parser).expectByte c.toNat.toUInt8 ctx = .ok q) ∧
      Moved { p with depth := p.depth + 1 } start q.skipWs ∧ Allows strict n q.skipWs ∧
      q.skipWs.rest.length < p.rest.length ∧ ¬ p.depth ≥ maxJsonDepth := by
  have hin : Moved { p with depth := p.depth + 1 } text { p with depth := p.depth + 1 }.advance :=
    Moved.advance here low
  have skipped := hin.trans (moved_skipWs hin.rest)
  rw [isStart] at skipped
  have deep := allows.deep
  refine ⟨_, fun ctx => expectByte_of_peek (peek_eq here low), skipped, ⟨?_, skipped.flag.trans allows.flag⟩, ?_, by omega⟩
  · rw [skipped.depth]
    exact Nat.le_trans (Nat.le_of_eq (by simp only; omega)) deep
  · have suffix : start <:+ text := isStart ▸ dropWhile_suffix _
    have shorter := encode_length_le suffix
    rw [skipped.rest, here, encode_cons, encodeChar_ascii low, singleton_append, length_cons]
    omega

theorem peek_ne {b : UInt8} (here : p.rest = encode (c :: later)) (starts : Starts c)
    (noStart : ¬ Starts (Char.ofNat b.toNat)) : p.peek ≠ some b := by
  rw [peek_eq here starts.low]
  intro eq
  rw [ofNat_toNat (Option.some.inj eq) starts.low] at starts
  exact noStart starts

theorem reads_emptyArray (ws : Ws text (']' :: rest)) :
    Reads numbers strict (n + 1) ('[' :: text) rest (.value (.jsonArray [])) := by
  refine reads_value ?_
  intro p fuel here allows he _
  obtain ⟨q, isBracket, moved, -, -, shallow⟩ := enter here (by decide) allows (ws_eq ws rfl)
  have hc := moved.trans (Moved.advance moved.rest (by decide))
  refine ⟨{ q.skipWs.advance with depth := q.skipWs.depth - 1 }, ?_, hc.rest, ?_, hc.flag⟩
  · rw [parseValueImpl_at here (by decide), if_neg (by decide), if_pos (by decide), parseArray, if_neg shallow]
    have byte : '['.toNat.toUInt8 = 0x5B := by decide
    rw [byte] at isBracket
    simp only [isBracket, bind, Except.bind]
    have closes : q.skipWs.peek = some 0x5D := peek_eq moved.rest (by decide)
    rw [if_pos closes]
  · rw [moved.depth]
    rfl

theorem reads_array {n : Nat} {text rest : List Char} {vs : List (JsonValue F)}
    (started : ∃ c later, text.dropWhile Grammar.isWs = c :: later ∧ Starts c)
    (reads : Reads numbers strict n text rest (.elements vs)) (hf : vs.length ≤ maxJsonArrayItems) :
    Reads numbers strict (n + 1) ('[' :: text) rest (.value (.jsonArray vs)) := by
  refine reads_value ?_
  intro p fuel here allows he _
  obtain ⟨c, later, isStart, starts⟩ := started
  obtain ⟨q, isBracket, moved, allows', shorter, shallow⟩ := enter here (by decide) allows isStart
  have idle : (c :: later).dropWhile Grammar.isWs = text.dropWhile Grammar.isWs := by
    rw [isStart]
    exact (starts.noWs later).dropWhile
  obtain ⟨p', runs, last⟩ := reads q.skipWs fuel [] (c :: later) moved.rest idle allows' (by omega) hf
  refine ⟨{ p' with depth := p'.depth - 1 }, ?_, last.rest, ?_, (moved.trans last).flag⟩
  · rw [parseValueImpl_at here (by decide), if_neg (by decide), if_pos (by decide), parseArray, if_neg shallow]
    have byte : '['.toNat.toUInt8 = 0x5B := by decide
    rw [byte] at isBracket
    simp only [isBracket, bind, Except.bind]
    rw [if_neg (peek_ne moved.rest starts (by decide)), runs]
    rfl
  · rw [(moved.trans last).depth]
    rfl

theorem reads_emptyObject (ws : Ws text ('}' :: rest)) :
    Reads numbers strict (n + 1) ('{' :: text) rest (.value (.jsonObject [])) := by
  refine reads_value ?_
  intro p fuel here allows he _
  obtain ⟨q, isBrace, moved, -, -, shallow⟩ := enter here (by decide) allows (ws_eq ws rfl)
  have hc := moved.trans (Moved.advance moved.rest (by decide))
  refine ⟨{ q.skipWs.advance with depth := q.skipWs.depth - 1 }, ?_, hc.rest, ?_, hc.flag⟩
  · rw [parseValueImpl_at here (by decide), if_pos (by decide), parseObject, if_neg shallow]
    have byte : '{'.toNat.toUInt8 = 0x7B := by decide
    have closes : q.skipWs.peek = some 0x7D := peek_eq moved.rest (by decide)
    rw [byte] at isBrace
    simp only [isBrace, bind, Except.bind]
    rw [if_pos closes]
  · rw [moved.depth]
    rfl

theorem reads_object {n : Nat} {text rest : List Char} {ms : List (Text × JsonValue F)}
    (started : ∃ c later, text.dropWhile Grammar.isWs = c :: later ∧ Starts c)
    (reads : Reads numbers strict n text rest (.members ms)) (hf : (lastWins [] ms).length ≤ maxJsonObjectKeys)
    (nd : strict = true → (ms.map Prod.fst).Nodup) :
    Reads numbers strict (n + 1) ('{' :: text) rest (.value (.jsonObject (lastWins [] ms))) := by
  refine reads_value ?_
  intro p fuel here allows he _
  obtain ⟨c, later, isStart, starts⟩ := started
  obtain ⟨q, isBrace, moved, allows', shorter, shallow⟩ := enter here (by decide) allows isStart
  have idle : (c :: later).dropWhile Grammar.isWs = text.dropWhile Grammar.isWs := by
    rw [isStart]
    exact (starts.noWs later).dropWhile
  obtain ⟨p', runs, last⟩ := reads q.skipWs fuel [] (c :: later) moved.rest idle allows' (by omega) hf
    (fun isStrict => fresh_of_nodup.mpr (nd isStrict))
  refine ⟨{ p' with depth := p'.depth - 1 }, ?_, last.rest, ?_, (moved.trans last).flag⟩
  · rw [parseValueImpl_at here (by decide), if_pos (by decide), parseObject, if_neg shallow]
    have byte : '{'.toNat.toUInt8 = 0x7B := by decide
    rw [byte] at isBrace
    simp only [isBrace, bind, Except.bind]
    rw [if_neg (peek_ne moved.rest starts (by decide)), runs]
  · rw [(moved.trans last).depth]
    rfl

theorem arrayLoop_element {n fuel : Nat} {p : Parser} {start text text₁ text₂ : List Char} {c : Char}
    {text₃ : List Char} {v : JsonValue F} {elems : List (JsonValue F)} (here : p.rest = encode start)
    (idle : start.dropWhile Grammar.isWs = text.dropWhile Grammar.isWs) (allows : Allows strict n p)
    (he : 2 * p.rest.length + 2 ≤ fuel + 1) (ws : Ws text text₁) (value : WellStarted text₁ text₂ (.value v))
    (reads : Reads numbers strict n text₁ text₂ (.value v)) (after : Ws text₂ (c :: text₃)) (low : c.toNat < 0x80)
    (follow : Follow (c :: text₃)) (noWs : Grammar.isWs c = false)
    (hf : (elems ++ [v]).length ≤ maxJsonArrayItems) :
    ∃ q, Moved p (c :: text₃) q ∧ 2 * q.advance.rest.length + 2 ≤ fuel ∧
      arrayLoop numbers (fuel + 1) elems p =
        if c.toNat.toUInt8 = 0x2C then arrayLoop numbers fuel (elems ++ [v]) q.advance
        else if c.toNat.toUInt8 = 0x5D then .ok (elems ++ [v], q.advance)
        else .error (q.mkErr .unexpectedChar "expected ',' or ']'") := by
  obtain ⟨d, later, rfl, starts, isSuffix⟩ := value
  have atStart := moved_skipWs here
  rw [idle, ws_eq ws (starts.noWs later)] at atStart
  have shorter : p.skipWs.rest.length ≤ p.rest.length := by
    rw [skipWs, advanceWhile_rest]
    exact (dropWhile_suffix _).length_le
  obtain ⟨q, runs, moved⟩ := reads p.skipWs fuel atStart.rest (allows.moved atStart) (by omega)
    (greedyAt_of_follow (follow_ws after follow))
  have skipped := moved_skipWs_of_ws moved.rest after noWs
  have all := (atStart.trans moved).trans skipped
  refine ⟨q.skipWs, all, ?_, ?_⟩
  · have inText : text₃ <:+ later := (suffix_cons _ _).trans (after.suffix.trans isSuffix)
    have lt := encode_length_le inText
    have fst : p.skipWs.rest.length = 1 + (encode later).length := by
      rw [atStart.rest, encode_cons, encodeChar_ascii starts.low]
      exact Nat.add_comm _ _
    rw [(Moved.advance skipped.rest low).rest]
    omega
  · rw [arrayLoop]
    simp only [runs, bind, Except.bind]
    rw [if_neg (Nat.not_lt.mpr hf)]
    simp only [peek_eq skipped.rest low]

theorem reads_lastElement {n : Nat} {text text₁ text₂ rest : List Char} {v : JsonValue F} (ws : Ws text text₁)
    (value : WellStarted text₁ text₂ (.value v)) (reads : Reads numbers strict n text₁ text₂ (.value v))
    (after : Ws text₂ (']' :: rest)) : Reads numbers strict n text rest (.elements [v]) := by
  intro p fuel elems start here idle allows he hf
  cases fuel with
  | zero => omega
  | succ fuel =>
    obtain ⟨q, moved, -, runs⟩ :=
      arrayLoop_element here idle allows he ws value reads after (by decide) rfl rfl hf
    refine ⟨q.advance, ?_, moved.trans (.advance moved.rest (by decide))⟩
    rw [runs, if_neg (by decide), if_pos (by decide)]

theorem reads_moreElements {n : Nat} {text text₁ text₂ text₃ rest : List Char} {v : JsonValue F}
    {vs : List (JsonValue F)} (ws : Ws text text₁) (value : WellStarted text₁ text₂ (.value v))
    (reads : Reads numbers strict n text₁ text₂ (.value v)) (after : Ws text₂ (',' :: text₃))
    (others : Reads numbers strict n text₃ rest (.elements vs)) :
    Reads numbers strict n text rest (.elements (v :: vs)) := by
  intro p fuel elems start here idle allows he hf
  cases fuel with
  | zero => omega
  | succ fuel =>
    have shift : elems ++ v :: vs = (elems ++ [v]) ++ vs := by simp
    rw [shift] at hf ⊢
    have fitsOne : (elems ++ [v]).length ≤ maxJsonArrayItems := by
      rw [length_append] at hf
      omega
    obtain ⟨q, moved, left, runs⟩ :=
      arrayLoop_element here idle allows he ws value reads after (by decide) rfl rfl fitsOne
    have next := moved.trans (.advance moved.rest (by decide))
    obtain ⟨p', goesOn, last⟩ := others q.advance fuel (elems ++ [v]) text₃ next.rest rfl (allows.moved next) left hf
    refine ⟨p', ?_, next.trans last⟩
    rw [runs, if_pos (by decide), goesOn]

theorem parseKey_complete {fs : List (Text × JsonValue F)} {between : List Char} {key : Text}
    (string : StringText text key between) (colon : Ws between (':' :: rest)) (here : p.rest = encode text)
    (free : p.rejectDuplicateKeys = true → Fields.containsKey key fs = false) :
    ∃ p', parseKey fs p = .ok (key, p') ∧ Moved p rest p' := by
  obtain ⟨q, runs, moved⟩ := parseStringRaw_complete string here
  have skipped := moved_skipWs_of_ws moved.rest colon rfl
  have hc := Moved.advance skipped.rest (by decide)
  refine ⟨q.skipWs.advance, ?_, (moved.trans skipped).trans hc⟩
  have isColon : q.skipWs.peek = some 0x3A := peek_eq skipped.rest (by decide)
  have isFree : ¬ (q.rejectDuplicateKeys && Fields.containsKey key fs) = true := by
    intro taken
    rw [Bool.and_eq_true, moved.flag] at taken
    rw [free taken.1] at taken
    exact Bool.false_ne_true taken.2
  rw [parseKey]
  simp only [runs, bind, Except.bind]
  rw [if_neg isFree, expectByte_of_peek isColon]

theorem objectLoop_member {n fuel : Nat} {p : Parser} {start text text₁ text₂ text₃ text₄ text₅ text₆ : List Char}
    {c : Char} {key : Text} {v : JsonValue F} {fs : List (Text × JsonValue F)} (here : p.rest = encode start)
    (idle : start.dropWhile Grammar.isWs = text.dropWhile Grammar.isWs) (allows : Allows strict n p)
    (he : 2 * p.rest.length + 2 ≤ fuel + 1) (ws : Ws text text₁) (string : StringText text₁ key text₂)
    (colon : Ws text₂ (':' :: text₃)) (gap : Ws text₃ text₄) (value : WellStarted text₄ text₅ (.value v))
    (reads : Reads numbers strict n text₄ text₅ (.value v)) (after : Ws text₅ (c :: text₆)) (low : c.toNat < 0x80)
    (follow : Follow (c :: text₆)) (noWs : Grammar.isWs c = false)
    (hf : (Fields.insert key v fs).length ≤ maxJsonObjectKeys)
    (free : strict = true → Fields.containsKey key fs = false) :
    ∃ q, Moved p (c :: text₆) q ∧ 2 * q.advance.rest.length + 2 ≤ fuel ∧
      objectLoop numbers (fuel + 1) fs p =
        if c.toNat.toUInt8 = 0x2C then objectLoop numbers fuel (Fields.insert key v fs) q.advance
        else if c.toNat.toUInt8 = 0x7D then .ok (Fields.insert key v fs, q.advance)
        else .error (q.mkErr .unexpectedChar "expected ',' or '\x7d'") := by
  obtain ⟨d, later, rfl, starts, isSuffix⟩ := value
  have startsString : ∃ body, text₁ = '"' :: body ∧ text₂ <:+ body := by
    cases string with
    | mk body _ => exact ⟨_, rfl, body.suffix⟩
  obtain ⟨body, rfl, afterKey⟩ := startsString
  have atStart := moved_skipWs here
  rw [idle, ws_eq ws rfl] at atStart
  have shorter : p.skipWs.rest.length ≤ p.rest.length := by
    rw [skipWs, advanceWhile_rest]
    exact (dropWhile_suffix _).length_le
  obtain ⟨q₁, isKey, movedKey⟩ := parseKey_complete string colon atStart.rest
    (fun isStrict => free (allows.flag ▸ atStart.flag ▸ isStrict))
  have atValue := movedKey.trans (moved_skipWs_of_ws movedKey.rest gap (starts.noWs later))
  have fewer : q₁.skipWs.rest.length < p.skipWs.rest.length := by
    have inBody : d :: later <:+ body :=
      gap.suffix.trans ((suffix_cons _ _).trans (colon.suffix.trans afterKey))
    have lt := encode_length_le inBody
    rw [atValue.rest, atStart.rest, encode_cons '"', encodeChar_ascii (by decide), singleton_append,
      length_cons]
    omega
  obtain ⟨q, runs, moved⟩ :=
    reads q₁.skipWs fuel atValue.rest ((allows.moved atStart).moved atValue) (by omega)
    (greedyAt_of_follow (follow_ws after follow))
  have skipped := moved_skipWs_of_ws moved.rest after noWs
  have all := ((atStart.trans atValue).trans moved).trans skipped
  refine ⟨q.skipWs, all, ?_, ?_⟩
  · have inText : text₆ <:+ later := (suffix_cons _ _).trans (after.suffix.trans isSuffix)
    have lt := encode_length_le inText
    have fst : q₁.skipWs.rest.length = 1 + (encode later).length := by
      rw [atValue.rest, encode_cons, encodeChar_ascii starts.low]
      exact Nat.add_comm _ _
    rw [(Moved.advance skipped.rest low).rest]
    omega
  · rw [objectLoop]
    simp only [isKey, runs, bind, Except.bind]
    rw [if_neg (Nat.not_lt.mpr hf)]
    simp only [peek_eq skipped.rest low]

theorem reads_lastMember {n : Nat} {text text₁ text₂ text₃ text₄ text₅ rest : List Char} {key : Text} {v : JsonValue F}
    (ws : Ws text text₁) (string : StringText text₁ key text₂) (colon : Ws text₂ (':' :: text₃)) (gap : Ws text₃ text₄)
    (value : WellStarted text₄ text₅ (.value v)) (reads : Reads numbers strict n text₄ text₅ (.value v))
    (after : Ws text₅ ('}' :: rest)) : Reads numbers strict n text rest (.members [(key, v)]) := by
  intro p fuel fs start here idle allows he hf fresh
  cases fuel with
  | zero => omega
  | succ fuel =>
    obtain ⟨q, moved, -, runs⟩ := objectLoop_member here idle allows he ws string colon gap value reads after
      (by decide) rfl rfl hf (fun isStrict => (fresh_cons.mp (fresh isStrict)).1)
    refine ⟨q.advance, ?_, moved.trans (.advance moved.rest (by decide))⟩
    rw [runs, if_neg (by decide), if_pos (by decide)]
    rfl

theorem insert_length (key : Text) (v : JsonValue F) (fs : List (Text × JsonValue F)) :
    fs.length ≤ (Fields.insert key v fs).length := by
  induction fs with
  | nil => exact Nat.zero_le _
  | cons field fs ih =>
    rw [Fields.insert]
    split
    · exact Nat.le_refl _
    · exact Nat.succ_le_succ ih

theorem lastWins_length (fs ms : List (Text × JsonValue F)) : fs.length ≤ (lastWins fs ms).length := by
  induction ms generalizing fs with
  | nil => exact Nat.le_refl _
  | cons m ms ih => exact Nat.le_trans (insert_length m.1 m.2 fs) (ih _)

theorem reads_moreMembers {n : Nat} {text text₁ text₂ text₃ text₄ text₅ text₆ rest : List Char} {key : Text}
    {v : JsonValue F} {ms : List (Text × JsonValue F)} (ws : Ws text text₁) (string : StringText text₁ key text₂)
    (colon : Ws text₂ (':' :: text₃)) (gap : Ws text₃ text₄) (value : WellStarted text₄ text₅ (.value v))
    (reads : Reads numbers strict n text₄ text₅ (.value v)) (after : Ws text₅ (',' :: text₆))
    (others : Reads numbers strict n text₆ rest (.members ms)) :
    Reads numbers strict n text rest (.members ((key, v) :: ms)) := by
  intro p fuel fs start here idle allows he hf fresh
  cases fuel with
  | zero => omega
  | succ fuel =>
    rw [lastWins_cons] at hf ⊢
    have fitsOne := Nat.le_trans (lastWins_length (Fields.insert key v fs) ms) hf
    obtain ⟨q, moved, left, runs⟩ := objectLoop_member here idle allows he ws string colon gap value reads after
      (by decide) rfl rfl fitsOne (fun isStrict => (fresh_cons.mp (fresh isStrict)).1)
    have next := moved.trans (.advance moved.rest (by decide))
    obtain ⟨p', goesOn, last⟩ := others q.advance fuel _ text₆ next.rest rfl (allows.moved next) left hf
      (fun isStrict => (fresh_cons.mp (fresh isStrict)).2)
    refine ⟨p', ?_, next.trans last⟩
    rw [runs, if_pos (by decide), goesOn]

theorem derives_reads (accepts : Accepts numbers) {derived : Derived F}
    (derives : Derives numbers strict n text derived rest) : Reads numbers strict n text rest derived := by
  induction derives with
  | null rest =>
    refine reads_value ?_
    intro p fuel here _ _ _
    rw [parseValueImpl_at here (by decide)]
    exact parseNull_complete here
  | true rest =>
    refine reads_value ?_
    intro p fuel here _ _ _
    rw [parseValueImpl_at here (by decide)]
    exact parseBool_complete_true here
  | false rest =>
    refine reads_value ?_
    intro p fuel here _ _ _
    rw [parseValueImpl_at here (by decide)]
    exact parseBool_complete_false here
  | number rest isNumber => exact reads_number accepts rest isNumber
  | string isString => exact reads_string isString
  | emptyArray ws => exact reads_emptyArray ws
  | array elems hf ih => exact reads_array elems.wellStarted.1 ih hf
  | emptyObject ws => exact reads_emptyObject ws
  | object ms hf nd ih => exact reads_object ms.wellStarted.1 ih hf nd
  | lastElement ws v after ih => exact reads_lastElement ws v.wellStarted ih after
  | moreElements ws v after _ ih others => exact reads_moreElements ws v.wellStarted ih after others
  | lastMember ws string colon gap v after ih =>
    exact reads_lastMember ws string colon gap v.wellStarted ih after
  | moreMembers ws string colon gap v after _ ih others =>
    exact reads_moreMembers ws string colon gap v.wellStarted ih after others

theorem parseDocument_complete (accepts : Accepts numbers) {text : List Char} {v : JsonValue F}
    (document : Document numbers strict text v) :
    parseDocument numbers (enoughFuel (encode text))
      { Parser.new (encode text) with rejectDuplicateKeys := strict } = .ok v := by
  obtain ⟨start, rest, pre, derives, after⟩ := document
  obtain ⟨c, later, rfl, starts, -⟩ := derives.wellStarted
  have skipped : Moved { Parser.new (encode text) with rejectDuplicateKeys := strict } _ _ :=
    moved_skipWs_of_ws rfl pre (starts.noWs later)
  have lt := encode_length_le pre.suffix
  obtain ⟨p', runs, moved⟩ := derives_reads accepts derives _ (enoughFuel (encode text)) skipped.rest
    ⟨Nat.le_of_eq (by rw [skipped.depth]; exact Nat.zero_add _), skipped.flag⟩
    (by rw [skipped.rest, enoughFuel]; omega) (greedyAt_of_follow (follow_ws after rfl))
  have atEnd := moved_skipWs_of_ws moved.rest after rfl
  rw [parseDocument]
  simp only [runs, bind, Except.bind]
  rw [if_pos (by rw [atEnd.rest]; rfl)]

end Parser

end Json
