import Verum.Json.StringTexts

open Utf8

open List

namespace Json

open Grammar

theorem bind_ok {ε α β : Type} {x : Except ε α} {f : α → Except ε β} {b : β} (runs : (x >>= f) = .ok b) :
    ∃ a, x = .ok a ∧ f a = .ok b := by
  cases x with
  | error e => simp [bind, Except.bind] at runs
  | ok a => exact ⟨a, rfl, runs⟩

namespace Grammar

variable {F : Type} {numbers : Numbers F} {strict : Bool}
variable {text rest : List Char} {fields ms : List (Text × JsonValue F)}

theorem Ws.trans {between : List Char} (fst : Ws text between) (snd : Ws between rest) : Ws text rest := by
  induction fst with
  | done => exact snd
  | step isWs _ ih => exact .step isWs (ih snd)

theorem Ws.suffix (ws : Ws text rest) : rest <:+ text := by
  induction ws with
  | done text => exact suffix_refl text
  | step _ _ ih => exact ih.trans (suffix_cons _ _)

theorem Derives.afterWs {n : Nat} {text' : List Char} {derived : Derived F} (ws : Ws text text')
    (derives : Derives numbers strict n text' derived rest) (inner : ∀ v, derived ≠ .value v) :
    Derives numbers strict n text derived rest := by
  cases derives with
  | lastElement pre value after => exact .lastElement (ws.trans pre) value after
  | moreElements pre value after more => exact .moreElements (ws.trans pre) value after more
  | lastMember pre key colon gap value after => exact .lastMember (ws.trans pre) key colon gap value after
  | moreMembers pre key colon gap value after more =>
    exact .moreMembers (ws.trans pre) key colon gap value after more
  | _ => exact absurd rfl (inner _)

def Fresh (fields ms : List (Text × JsonValue F)) : Prop :=
  (ms.map Prod.fst).Nodup ∧ ∀ m ∈ ms, Fields.containsKey m.1 fields = false

theorem containsKey_insert (key other : Text) (v : JsonValue F) (fields : List (Text × JsonValue F)) :
    Fields.containsKey other (Fields.insert key v fields) =
      (decide (key = other) || Fields.containsKey other fields) := by
  induction fields with
  | nil => simp [Fields.insert, Fields.containsKey]
  | cons field fields ih =>
    rw [Fields.insert]
    simp only [Fields.containsKey, any_cons] at ih ⊢
    by_cases eq : field.1 = key
    · rw [if_pos eq, any_cons, eq, ← Bool.or_assoc, Bool.or_self]
    · rw [if_neg eq, any_cons, ih, Bool.or_left_comm]

theorem fresh_cons {key : Text} {v : JsonValue F} :
    Fresh fields ((key, v) :: ms) ↔ Fields.containsKey key fields = false ∧ Fresh (Fields.insert key v fields) ms := by
  unfold Fresh
  simp only [map_cons, nodup_cons, forall_mem_cons, containsKey_insert, Bool.or_eq_false_iff,
    decide_eq_false_iff_not]
  have notMem : key ∉ ms.map Prod.fst ↔ ∀ m ∈ ms, ¬ key = m.1 := by
    rw [mem_map]
    constructor
    · intro outside m mem eq
      exact outside ⟨m, mem, eq.symm⟩
    · rintro different ⟨m, mem, eq⟩
      exact different m mem eq.symm
  rw [notMem]
  constructor
  · rintro ⟨⟨outside, nodup⟩, free, others⟩
    exact ⟨free, nodup, fun m mem => ⟨outside m mem, others m mem⟩⟩
  · rintro ⟨free, nodup, both⟩
    exact ⟨⟨fun m mem => (both m mem).1, nodup⟩, free, fun m mem => (both m mem).2⟩

theorem fresh_nil : Fresh fields [] :=
  ⟨nodup_nil, fun _ mem => absurd mem not_mem_nil⟩

theorem fresh_of_nodup : Fresh [] ms ↔ (ms.map Prod.fst).Nodup :=
  ⟨fun hf => hf.1, fun nodup => ⟨nodup, fun _ _ => rfl⟩⟩

theorem lastWins_cons (fields ms : List (Text × JsonValue F)) (key : Text) (v : JsonValue F) :
    lastWins fields ((key, v) :: ms) = lastWins (Fields.insert key v fields) ms := rfl

end Grammar

namespace Parser

variable {F : Type} {numbers : Numbers F}

section Literals

variable {p p' : Parser} {text : List Char}

theorem matchLiteral_ok {word : List Char} (ascii : ∀ c ∈ word, c.toNat < 0x80) (here : p.rest = encode text)
    (hit : p.matchLiteral (encode word) = some p') : ∃ rest, text = word ++ rest ∧ Moved p rest p' := by
  unfold matchLiteral at hit
  split at hit
  · rename_i isPrefix
    have moved := foldl_advance (encode word) p
    rw [Option.some.inj hit] at moved
    obtain ⟨isRest, d, flag⟩ := moved
    rw [List.isPrefixOf_iff_prefix, here] at isPrefix
    obtain ⟨rest, isText⟩ := Utf8.of_encode_prefix ascii isPrefix
    refine ⟨rest, isText, ?_, d, flag⟩
    rw [isRest, here, isText, encode_append, drop_left]
  · simp at hit

theorem matchLiteral_complete (word : List Char) {rest : List Char} (here : p.rest = encode (word ++ rest)) :
    ∃ p', p.matchLiteral (encode word) = some p' ∧ Moved p rest p' := by
  obtain ⟨isRest, d, flag⟩ := foldl_advance (encode word) p
  rw [here, encode_append, drop_left] at isRest
  refine ⟨_, ?_, isRest, d, flag⟩
  rw [matchLiteral, if_pos]
  rw [List.isPrefixOf_iff_prefix, here, encode_append]
  exact prefix_append _ _

theorem parseNull_ok {v : JsonValue F} (here : p.rest = encode text) (runs : p.parseNull = .ok (v, p')) :
    ∃ rest, text = 'n' :: 'u' :: 'l' :: 'l' :: rest ∧ v = .jsonNull ∧ Moved p rest p' := by
  unfold parseNull at runs
  split at runs
  · rename_i q hit
    have isWord : [0x6E, 0x75, 0x6C, 0x6C] = encode ['n', 'u', 'l', 'l'] := rfl
    rw [isWord] at hit
    obtain ⟨rest, isText, moved⟩ := matchLiteral_ok (by simp) here hit
    cases runs
    exact ⟨rest, isText, rfl, moved⟩
  · simp [mkErr] at runs

theorem parseBool_ok {v : JsonValue F} (here : p.rest = encode text) (runs : p.parseBool = .ok (v, p')) :
    ∃ rest, Moved p rest p' ∧ (text = 't' :: 'r' :: 'u' :: 'e' :: rest ∧ v = .jsonBool true ∨
      text = 'f' :: 'a' :: 'l' :: 's' :: 'e' :: rest ∧ v = .jsonBool false) := by
  unfold parseBool at runs
  split at runs
  · rename_i q hit
    have isWord : [0x74, 0x72, 0x75, 0x65] = encode ['t', 'r', 'u', 'e'] := rfl
    rw [isWord] at hit
    obtain ⟨rest, isText, moved⟩ := matchLiteral_ok (by simp) here hit
    cases runs
    exact ⟨rest, moved, .inl ⟨isText, rfl⟩⟩
  · split at runs
    · rename_i q hit
      have isWord : [0x66, 0x61, 0x6C, 0x73, 0x65] = encode ['f', 'a', 'l', 's', 'e'] := rfl
      rw [isWord] at hit
      obtain ⟨rest, isText, moved⟩ := matchLiteral_ok (by simp) here hit
      cases runs
      exact ⟨rest, moved, .inr ⟨isText, rfl⟩⟩
    · simp [mkErr] at runs

end Literals

section Values

def ValueSound (numbers : Numbers F) (value : Parser → Except Stop (JsonValue F × Parser)) : Prop :=
  ∀ p p' text v n, p.rest = encode text → p.depth + n = maxJsonDepth → value p = .ok (v, p') →
    ∃ start rest, Ws text start ∧ Derives numbers p.rejectDuplicateKeys n start (.value v) rest ∧
      GreedyAt start rest ∧ Moved p rest p'

def ArraySound (numbers : Numbers F) (elems : List (JsonValue F))
    (loop : Parser → Except Stop (List (JsonValue F) × Parser)) : Prop :=
  ∀ p p' text all n, p.rest = encode text → p.depth + n = maxJsonDepth → loop p = .ok (all, p') →
    ∃ vs rest, all = elems ++ vs ∧ all.length ≤ maxJsonArrayItems ∧
      Derives numbers p.rejectDuplicateKeys n text (.elements vs) rest ∧ Moved p rest p'

def ObjectSound (numbers : Numbers F) (fields : List (Text × JsonValue F))
    (loop : Parser → Except Stop (List (Text × JsonValue F) × Parser)) : Prop :=
  ∀ p p' text all n, p.rest = encode text → p.depth + n = maxJsonDepth → loop p = .ok (all, p') →
    ∃ ms rest, all = lastWins fields ms ∧ all.length ≤ maxJsonObjectKeys ∧
      (p.rejectDuplicateKeys = true → Fresh fields ms) ∧
      Derives numbers p.rejectDuplicateKeys n text (.members ms) rest ∧ Moved p rest p'

variable {p p' : Parser} {text : List Char} {v : JsonValue F} {fuel : Nat}

theorem parseArray_sound {loop : Parser → Except Stop (List (JsonValue F) × Parser)}
    (hs : ArraySound numbers [] loop) {n : Nat} (here : p.rest = encode text)
    (deep : p.depth + n = maxJsonDepth) (runs : parseArray loop p = .ok (v, p')) :
    ∃ rest, Derives numbers p.rejectDuplicateKeys n text (.value v) rest ∧ Moved p rest p' := by
  unfold parseArray at runs
  split at runs
  · simp [mkErr] at runs
  rename_i shallow
  obtain ⟨m, rfl⟩ : ∃ m, n = m + 1 := ⟨n - 1, by omega⟩
  obtain ⟨q, isBracket, runs⟩ := bind_ok runs
  obtain ⟨peeked, rfl⟩ := expectByte_ok isBracket
  obtain ⟨inner, rfl, moved⟩ := of_peek (p := { p with depth := p.depth + 1 }) here (by decide) peeked
  have skipped := moved.trans (moved_skipWs moved.rest)
  have ws := ws_dropWhile inner
  generalize { p with depth := p.depth + 1 }.advance.skipWs = q at runs skipped
  generalize inner.dropWhile Grammar.isWs = start at ws skipped
  have depth : q.depth = p.depth + 1 := skipped.depth
  have flag : q.rejectDuplicateKeys = p.rejectDuplicateKeys := skipped.flag
  simp only at runs
  split at runs
  · rename_i closes
    obtain ⟨rest, rfl, last⟩ := of_peek skipped.rest (by decide) closes
    cases runs
    exact ⟨rest, .emptyArray ws, last.rest, by simp [depth], last.flag.trans flag⟩
  · obtain ⟨⟨elems, q'⟩, isLoop, runs⟩ := bind_ok runs
    cases runs
    obtain ⟨vs, rest, isAll, hf, derives, last⟩ := hs q q' start elems m skipped.rest (by omega) isLoop
    rw [nil_append] at isAll
    rw [isAll] at hf
    rw [flag] at derives
    rw [isAll]
    refine ⟨rest, .array (derives.afterWs ws (by simp)) hf, last.rest, ?_, last.flag.trans flag⟩
    rw [last.depth, depth]
    rfl

theorem parseObject_sound {loop : Parser → Except Stop (List (Text × JsonValue F) × Parser)}
    (hs : ObjectSound numbers [] loop) {n : Nat} (here : p.rest = encode text)
    (deep : p.depth + n = maxJsonDepth) (runs : parseObject loop p = .ok (v, p')) :
    ∃ rest, Derives numbers p.rejectDuplicateKeys n text (.value v) rest ∧ Moved p rest p' := by
  unfold parseObject at runs
  split at runs
  · simp [mkErr] at runs
  rename_i shallow
  obtain ⟨m, rfl⟩ : ∃ m, n = m + 1 := ⟨n - 1, by omega⟩
  obtain ⟨q, isBrace, runs⟩ := bind_ok runs
  obtain ⟨peeked, rfl⟩ := expectByte_ok isBrace
  obtain ⟨inner, rfl, moved⟩ := of_peek (p := { p with depth := p.depth + 1 }) here (by decide) peeked
  have skipped := moved.trans (moved_skipWs moved.rest)
  have ws := ws_dropWhile inner
  generalize { p with depth := p.depth + 1 }.advance.skipWs = q at runs skipped
  generalize inner.dropWhile Grammar.isWs = start at ws skipped
  have depth : q.depth = p.depth + 1 := skipped.depth
  have flag : q.rejectDuplicateKeys = p.rejectDuplicateKeys := skipped.flag
  simp only at runs
  split at runs
  · rename_i closes
    obtain ⟨rest, rfl, last⟩ := of_peek skipped.rest (by decide) closes
    cases runs
    exact ⟨rest, .emptyObject ws, last.rest, by simp [depth], last.flag.trans flag⟩
  · obtain ⟨⟨fields, q'⟩, isLoop, runs⟩ := bind_ok runs
    cases runs
    obtain ⟨ms, rest, isAll, hf, fresh, derives, last⟩ := hs q q' start fields m skipped.rest (by omega) isLoop
    rw [isAll] at hf
    rw [flag] at derives fresh
    rw [isAll]
    refine ⟨rest, .object (derives.afterWs ws (by simp)) hf (fun strict => (fresh strict).1), last.rest, ?_,
      last.flag.trans flag⟩
    rw [last.depth, depth]
    rfl

theorem parseKey_ok {fields : List (Text × JsonValue F)} {key : Text} (here : p.rest = encode text)
    (runs : parseKey fields p = .ok (key, p')) :
    ∃ between rest, StringText text key between ∧ Ws between (':' :: rest) ∧
      (p.rejectDuplicateKeys = true → Fields.containsKey key fields = false) ∧ Moved p rest p' := by
  obtain ⟨⟨s, q⟩, isString, runs⟩ := bind_ok runs
  obtain ⟨between, string, moved⟩ := parseStringRaw_ok here isString
  simp only at runs
  split at runs
  · simp at runs
  rename_i free
  obtain ⟨q', isColon, runs⟩ := bind_ok runs
  cases runs
  obtain ⟨peeked, rfl⟩ := expectByte_ok isColon
  have skipped := moved.trans (moved_skipWs moved.rest)
  obtain ⟨rest, isText, last⟩ := of_peek skipped.rest (by decide) peeked
  have ws := ws_dropWhile between
  rw [isText] at ws
  refine ⟨between, rest, string, ws, ?_, skipped.trans last⟩
  intro strict
  rw [moved.flag, strict, Bool.true_and] at free
  exact Bool.not_eq_true _ ▸ free

theorem parseValueImpl_step (objects : ObjectSound numbers [] (objectLoop numbers fuel []))
    (arrays : ArraySound numbers [] (arrayLoop numbers fuel [])) :
    ValueSound numbers (parseValueImpl numbers (fuel + 1)) := by
  intro p p' text v n here deep runs
  have skipped := moved_skipWs here
  have ws := ws_dropWhile text
  rw [parseValueImpl] at runs
  generalize p.skipWs = q at runs skipped
  generalize text.dropWhile Grammar.isWs = start at ws skipped
  rw [← skipped.depth] at deep
  rw [← skipped.flag]
  have atStart := skipped.rest
  split at runs
  · simp [mkErr] at runs
  rename_i b peeked
  have other {c : UInt8} (isByte : b = c) (low : c < 0x80)
      (noNumber : ¬ (Char.ofNat c.toNat = '-' ∨ Grammar.isDigit (Char.ofNat c.toNat) = true))
      (derived : ∃ rest, Derives numbers q.rejectDuplicateKeys n start (.value v) rest ∧ Moved q rest p') :
      ∃ start rest, Ws text start ∧ Derives numbers q.rejectDuplicateKeys n start (.value v) rest ∧
        GreedyAt start rest ∧ Moved p rest p' := by
    obtain ⟨rest, derives, moved⟩ := derived
    obtain ⟨hl, isStart, -⟩ := of_peek atStart low (isByte ▸ peeked)
    refine ⟨start, rest, ws, derives, ?_, skipped.trans moved⟩
    rw [isStart]
    exact greedyAt_of_head noNumber
  split at runs
  · rename_i isByte
    exact other isByte (by decide) (by decide) (parseObject_sound objects atStart deep runs)
  split at runs
  · rename_i isByte
    exact other isByte (by decide) (by decide) (parseArray_sound arrays atStart deep runs)
  split at runs
  · rename_i isByte
    obtain ⟨⟨s, q'⟩, isString, runs⟩ := bind_ok runs
    cases runs
    obtain ⟨rest, string, moved⟩ := parseStringRaw_ok atStart isString
    exact other isByte (by decide) (by decide) ⟨rest, .string string, moved⟩
  split at runs
  · rename_i isByte
    obtain ⟨rest, moved, ⟨rfl, rfl⟩ | ⟨rfl, rfl⟩⟩ := parseBool_ok atStart runs
    · rcases isByte with isByte | isByte
      · exact other isByte (by decide) (by decide) ⟨rest, .true rest, moved⟩
      · exact other isByte (by decide) (by decide) ⟨rest, .true rest, moved⟩
    · rcases isByte with isByte | isByte
      · exact other isByte (by decide) (by decide) ⟨rest, .false rest, moved⟩
      · exact other isByte (by decide) (by decide) ⟨rest, .false rest, moved⟩
  split at runs
  · rename_i isByte
    obtain ⟨rest, rfl, rfl, moved⟩ := parseNull_ok atStart runs
    exact other isByte (by decide) (by decide) ⟨rest, .null rest, moved⟩
  · obtain ⟨num, isFloat, rest, rfl, greedy, value, moved⟩ := parseNumber_ok atStart runs
    have denotes : denote numbers isFloat num = v := by rw [denote, value, Option.getD_some]
    rw [← denotes]
    exact ⟨_, rest, ws, .number rest (greedy_number greedy), greedyAt_of_number greedy, skipped.trans moved⟩

theorem arrayLoop_step (values : ValueSound numbers (parseValueImpl numbers fuel))
    (more : ∀ elems, ArraySound numbers elems (arrayLoop numbers fuel elems)) (elems : List (JsonValue F)) :
    ArraySound numbers elems (arrayLoop numbers (fuel + 1) elems) := by
  intro p p' text all n here deep runs
  rw [arrayLoop] at runs
  obtain ⟨⟨v, q⟩, isValue, runs⟩ := bind_ok runs
  have start := moved_skipWs here
  obtain ⟨text₁, text₂, ws, derives, -, moved⟩ := values _ q _ v n start.rest (by rw [start.depth, deep]) isValue
  have pre := (ws_dropWhile text).trans ws
  have skipped := (start.trans moved).trans (moved_skipWs moved.rest)
  have after := ws_dropWhile text₂
  rw [start.flag] at derives
  simp only at runs
  split at runs
  · simp [mkErr] at runs
  rename_i hf
  generalize text₂.dropWhile Grammar.isWs = text₃ at skipped after
  generalize q.skipWs = q' at runs skipped
  split at runs
  · simp [mkErr] at runs
  rename_i b peeked
  split at runs
  · rename_i isComma
    obtain ⟨text₄, rfl, next⟩ := of_peek skipped.rest (by decide) (isComma ▸ peeked)
    have onward := skipped.trans next
    obtain ⟨vs, rest, isAll, allFit, others, last⟩ :=
      more (elems ++ [v]) _ p' text₄ all n onward.rest (by rw [onward.depth, deep]) runs
    rw [onward.flag] at others
    refine ⟨v :: vs, rest, ?_, allFit, .moreElements pre derives after others, onward.trans last⟩
    rw [isAll, append_assoc, singleton_append]
  · split at runs
    · rename_i isBracket
      obtain ⟨rest, rfl, next⟩ := of_peek skipped.rest (by decide) (isBracket ▸ peeked)
      cases runs
      exact ⟨[v], rest, rfl, Nat.not_lt.mp hf, .lastElement pre derives after, skipped.trans next⟩
    · simp [mkErr] at runs

theorem objectLoop_step (vs : ValueSound numbers (parseValueImpl numbers fuel))
    (more : ∀ fields, ObjectSound numbers fields (objectLoop numbers fuel fields))
    (fields : List (Text × JsonValue F)) : ObjectSound numbers fields (objectLoop numbers (fuel + 1) fields) := by
  intro p p' text all n here deep runs
  rw [objectLoop] at runs
  obtain ⟨⟨key, q₁⟩, isKey, runs⟩ := bind_ok runs
  have start := moved_skipWs here
  obtain ⟨text₁, text₂, string, colon, free, movedKey⟩ := parseKey_ok start.rest isKey
  have atValue := (start.trans movedKey).trans (moved_skipWs movedKey.rest)
  obtain ⟨⟨v, q₂⟩, isValue, runs⟩ := bind_ok runs
  obtain ⟨text₃, text₄, ws, derives, -, moved⟩ := vs _ q₂ _ v n atValue.rest (by rw [atValue.depth, deep]) isValue
  have gap := (ws_dropWhile text₂).trans ws
  have skipped := (atValue.trans moved).trans (moved_skipWs moved.rest)
  have after := ws_dropWhile text₄
  rw [atValue.flag] at derives
  rw [start.flag] at free
  simp only at runs
  split at runs
  · simp [mkErr] at runs
  rename_i hf
  generalize text₄.dropWhile Grammar.isWs = text₅ at skipped after
  generalize q₂.skipWs = q₃ at runs skipped
  split at runs
  · simp [mkErr] at runs
  rename_i b peeked
  split at runs
  · rename_i isComma
    obtain ⟨text₆, rfl, next⟩ := of_peek skipped.rest (by decide) (isComma ▸ peeked)
    have onward := skipped.trans next
    obtain ⟨ms, rest, isAll, allFit, fresh, others, last⟩ :=
      more _ _ p' text₆ all n onward.rest (by rw [onward.depth, deep]) runs
    rw [onward.flag] at others fresh
    exact ⟨(key, v) :: ms, rest, isAll, allFit, fun strict => fresh_cons.mpr ⟨free strict, fresh strict⟩,
      .moreMembers (ws_dropWhile text) string colon gap derives after others, onward.trans last⟩
  · split at runs
    · rename_i isBrace
      obtain ⟨rest, rfl, next⟩ := of_peek skipped.rest (by decide) (isBrace ▸ peeked)
      cases runs
      exact ⟨[(key, v)], rest, rfl, Nat.not_lt.mp hf, fun strict => fresh_cons.mpr ⟨free strict, fresh_nil⟩,
        .lastMember (ws_dropWhile text) string colon gap derives after, skipped.trans next⟩
    · simp [mkErr] at runs

theorem parser_sound (fuel : Nat) :
    ValueSound numbers (parseValueImpl numbers fuel) ∧
      (∀ elems, ArraySound numbers elems (arrayLoop numbers fuel elems)) ∧
        ∀ fields, ObjectSound numbers fields (objectLoop numbers fuel fields) := by
  induction fuel with
  | zero =>
    refine ⟨?_, ?_, ?_⟩
    · intro p p' text v n _ _ runs
      simp [parseValueImpl] at runs
    · intro elems p p' text all n _ _ runs
      simp [arrayLoop] at runs
    · intro fields p p' text all n _ _ runs
      simp [objectLoop] at runs
  | succ fuel ih =>
    obtain ⟨vs, arrays, objects⟩ := ih
    exact ⟨parseValueImpl_step (objects []) (arrays []), arrayLoop_step vs arrays,
      objectLoop_step vs objects⟩

theorem parseDocument_sound {strict : Bool}
    (runs : parseDocument numbers fuel { Parser.new (encode text) with rejectDuplicateKeys := strict } = .ok v) :
    Document numbers strict text v := by
  obtain ⟨⟨value, q⟩, isValue, runs⟩ := bind_ok runs
  have start : Moved { Parser.new (encode text) with rejectDuplicateKeys := strict } _ _ := moved_skipWs rfl
  obtain ⟨text₁, text₂, ws, derives, -, moved⟩ :=
    (parser_sound fuel).1 _ q _ value maxJsonDepth start.rest (by rw [start.depth]; rfl) isValue
  have skipped := moved_skipWs moved.rest
  rw [start.flag] at derives
  simp only at runs
  split at runs
  · rename_i atEnd
    rw [skipped.rest, encode_eq_nil] at atEnd
    have after := ws_dropWhile text₂
    rw [atEnd] at after
    rw [← Except.ok.inj runs]
    exact ⟨text₁, text₂, (ws_dropWhile text).trans ws, derives, after⟩
  · simp [mkErr] at runs

end Values

end Parser

end Json
