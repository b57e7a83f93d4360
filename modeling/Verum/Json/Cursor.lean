import Verum.Json.Grammar

open Utf8

namespace Json

open Grammar

namespace Parser

/-- The cursor has moved to the start of the text, with the rest of the state but the position as it was. -/
structure Moved (p : Parser) (text : List Char) (p' : Parser) : Prop where
  rest : p'.rest = encode text
  depth : p'.depth = p.depth
  flag : p'.rejectDuplicateKeys = p.rejectDuplicateKeys

variable {text : List Char}

theorem Moved.refl {p : Parser} (here : p.rest = encode text) : Moved p text p :=
  ⟨here, rfl, rfl⟩

theorem Moved.trans {p q r : Parser} {between : List Char} (fst : Moved p between q) (snd : Moved q text r) :
    Moved p text r :=
  ⟨snd.rest, snd.depth.trans fst.depth, snd.flag.trans fst.flag⟩

section Cursor

@[simp] theorem advance_rest (p : Parser) : p.advance.rest = p.rest.tail := by
  unfold advance
  split
  · rename_i empty
    simp [empty]
  · rename_i b rest bytes
    split <;> simp [bytes]

@[simp] theorem advance_depth (p : Parser) : p.advance.depth = p.depth := by
  unfold advance
  split
  · rfl
  · split <;> rfl

@[simp] theorem advance_flag (p : Parser) : p.advance.rejectDuplicateKeys = p.rejectDuplicateKeys := by
  unfold advance
  split
  · rfl
  · split <;> rfl

variable {p : Parser} {c : Char} {text : List Char} {b : UInt8} {ctx : String} {test : UInt8 → Bool}
  {charTest : Char → Bool}

theorem Moved.advance (here : p.rest = encode (c :: text)) (low : c.toNat < 0x80) :
    Moved p text p.advance := by
  refine ⟨?_, advance_depth p, advance_flag p⟩
  rw [advance_rest, here, encode_cons, encodeChar_ascii low]
  rfl

theorem foldl_advance {α : Type} (bytes : List α) (p : Parser) :
    (bytes.foldl (fun p _ => p.advance) p).rest = p.rest.drop bytes.length ∧
      (bytes.foldl (fun p _ => p.advance) p).depth = p.depth ∧
      (bytes.foldl (fun p _ => p.advance) p).rejectDuplicateKeys = p.rejectDuplicateKeys := by
  induction bytes generalizing p with
  | nil => exact ⟨rfl, rfl, rfl⟩
  | cons b bytes ih =>
    obtain ⟨rest, d, flag⟩ := ih p.advance
    refine ⟨?_, d.trans (advance_depth p), flag.trans (advance_flag p)⟩
    rw [List.foldl_cons, rest, advance_rest, List.drop_tail, List.length_cons]

theorem drop_takeWhile {α : Type} (test : α → Bool) (list : List α) :
    list.drop (list.takeWhile test).length = list.dropWhile test := by
  induction list with
  | nil => rfl
  | cons head list ih =>
    by_cases hh : test head
    · simp [hh, ih]
    · simp [hh]

theorem advanceWhile_rest (test : UInt8 → Bool) (p : Parser) : (p.advanceWhile test).rest = p.rest.dropWhile test := by
  rw [advanceWhile, (foldl_advance _ p).1, drop_takeWhile]

theorem peek_eq (here : p.rest = encode (c :: text)) (low : c.toNat < 0x80) :
    p.peek = some c.toNat.toUInt8 := by
  rw [peek, here, encode_cons, encodeChar_ascii low]
  rfl

theorem of_peek (here : p.rest = encode text) (low : b < 0x80) (peeked : p.peek = some b) :
    ∃ hl, text = Char.ofNat b.toNat :: hl ∧ Moved p hl p.advance := by
  rw [peek, List.head?_eq_some_iff] at peeked
  obtain ⟨rest, bytes⟩ := peeked
  obtain ⟨hl, isText, isRest⟩ := encode_head low (here.symm.trans bytes)
  refine ⟨hl, isText, ?_, advance_depth p, advance_flag p⟩
  rw [advance_rest, bytes, ← isRest]
  rfl

theorem expectByte_ok {p' : Parser} (runs : p.expectByte b ctx = .ok p') : p.peek = some b ∧ p' = p.advance := by
  unfold expectByte at runs
  split at runs
  · rename_i c peeked
    split at runs
    · rename_i eq
      rw [peeked, eq]
      exact ⟨rfl, (Except.ok.inj runs).symm⟩
    · simp at runs
  · simp at runs

theorem expectByte_of_peek (peeked : p.peek = some b) : p.expectByte b ctx = .ok p.advance := by
  rw [expectByte, peeked]
  simp

/-- A test on bytes and one on characters that say the same. -/
structure Agrees (test : UInt8 → Bool) (charTest : Char → Bool) : Prop where
  low : ∀ n < 0x80, test n.toUInt8 = charTest (Char.ofNat n)
  highByte : ∀ b : UInt8, 0x80 ≤ b → test b = false
  highChar : ∀ c : Char, 0x80 ≤ c.toNat → charTest c = false

theorem Agrees.char (agrees : Agrees test charTest) (low : c.toNat < 0x80) : test c.toNat.toUInt8 = charTest c := by
  rw [agrees.low c.toNat low, Char.ofNat_toNat]

theorem Agrees.head (agrees : Agrees test charTest) (text : List Char) :
    (encode text).head?.any test = text.head?.any charTest := by
  cases text with
  | nil => rfl
  | cons c text =>
    rw [encode_cons]
    rcases Nat.lt_or_ge c.toNat 0x80 with low | high
    · rw [encodeChar_ascii low]
      exact agrees.char low
    · obtain ⟨b, others, bytes⟩ := List.exists_cons_of_ne_nil (String.utf8EncodeChar_ne_nil (c := c))
      have highByte := agrees.highByte b (encodeChar_high high b (by simp [bytes]))
      rw [bytes]
      simp [highByte, agrees.highChar c high]

theorem Agrees.dropWhile (agrees : Agrees test charTest) (text : List Char) :
    (encode text).dropWhile test = encode (text.dropWhile charTest) := by
  induction text with
  | nil => rfl
  | cons c text ih =>
    rcases Nat.lt_or_ge c.toNat 0x80 with low | high
    · rw [encode_cons, encodeChar_ascii low, List.singleton_append, List.dropWhile_cons,
        List.dropWhile_cons, agrees.char low]
      split
      · exact ih
      · rw [encode_cons, encodeChar_ascii low]
        rfl
    · obtain ⟨b, others, bytes⟩ := List.exists_cons_of_ne_nil (String.utf8EncodeChar_ne_nil (c := c))
      have highByte := agrees.highByte b (encodeChar_high high b (by simp [bytes]))
      rw [List.dropWhile_cons, agrees.highChar c high, encode_cons, bytes, List.cons_append,
        List.dropWhile_cons, highByte]
      simp only [Bool.false_eq_true, if_false]
      rw [encode_cons, bytes, List.cons_append]

theorem moved_advanceWhile (agrees : Agrees test charTest) (here : p.rest = encode text) :
    Moved p (text.dropWhile charTest) (p.advanceWhile test) := by
  obtain ⟨-, d, flag⟩ := foldl_advance (p.rest.takeWhile test) p
  refine ⟨?_, d, flag⟩
  rw [advanceWhile_rest, here, agrees.dropWhile]

theorem agrees_isWs : Agrees isWs Grammar.isWs where
  low := by decide
  highByte b high := by
    simp only [isWs, Bool.or_eq_false_iff, decide_eq_false_iff_not]
    refine ⟨⟨⟨?_, ?_⟩, ?_⟩, ?_⟩ <;> rintro rfl <;> exact absurd high (by decide)
  highChar c high := by
    simp only [Grammar.isWs, Bool.or_eq_false_iff, decide_eq_false_iff_not]
    refine ⟨⟨⟨?_, ?_⟩, ?_⟩, ?_⟩ <;> rintro rfl <;> exact absurd high (by decide)

theorem agrees_isDigit : Agrees isDigit Grammar.isDigit where
  low := by decide
  highByte b high := by
    simp only [isDigit, Bool.and_eq_false_iff, decide_eq_false_iff_not]
    right
    intro low
    exact absurd (UInt8.le_trans high low) (by decide)
  highChar c high := by
    simp only [Grammar.isDigit, Bool.and_eq_false_iff, decide_eq_false_iff_not]
    right
    intro low
    have hb : c.toNat ≤ 0x39 := low
    omega

end Cursor

section Whitespace

/-- The text does not start with whitespace. -/
def NoWs (text : List Char) : Prop := text.head?.any Grammar.isWs = false

theorem ws_dropWhile (text : List Char) : Ws text (text.dropWhile Grammar.isWs) := by
  induction text with
  | nil => exact .done []
  | cons c text ih =>
    rw [List.dropWhile_cons]
    split
    · rename_i isWs
      exact .step isWs ih
    · exact .done _

variable {text rest : List Char}

theorem NoWs.dropWhile (noWs : NoWs text) : text.dropWhile Grammar.isWs = text := by
  cases text with
  | nil => rfl
  | cons c text =>
    have notWs : Grammar.isWs c = false := by simpa [NoWs] using noWs
    rw [List.dropWhile_cons, notWs]
    rfl

theorem ws_eq (ws : Ws text rest) (noWs : NoWs rest) : text.dropWhile Grammar.isWs = rest := by
  induction ws with
  | done text => exact noWs.dropWhile
  | step isWs _ ih => rw [List.dropWhile_cons, if_pos isWs, ih noWs]

theorem moved_skipWs {p : Parser} (here : p.rest = encode text) :
    Moved p (text.dropWhile Grammar.isWs) p.skipWs :=
  moved_advanceWhile agrees_isWs here

theorem moved_skipWs_of_ws {p : Parser} (here : p.rest = encode text) (ws : Ws text rest) (noWs : NoWs rest) :
    Moved p rest p.skipWs := by
  have moved := moved_skipWs here
  rwa [ws_eq ws noWs] at moved

end Whitespace

end Parser

end Json
