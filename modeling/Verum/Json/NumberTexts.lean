import Verum.Json.Cursor

open Utf8

open List

namespace Json

open Grammar

namespace Parser

section Digits

theorem isDigit_iff {c : Char} : Grammar.isDigit c = true ↔ 0x30 ≤ c.toNat ∧ c.toNat ≤ 0x39 := by
  rw [Grammar.isDigit, Bool.and_eq_true, decide_eq_true_eq, decide_eq_true_eq, Char.le_def, Char.le_def,
    UInt32.le_iff_toNat_le, UInt32.le_iff_toNat_le]
  rfl

variable {text rest : List Char}

theorem digits_append (all : ∀ c ∈ text, Grammar.isDigit c = true) (noDigit : NoDigit rest) :
    (text ++ rest).dropWhile Grammar.isDigit = rest := by
  induction text with
  | nil =>
    cases rest with
    | nil => rfl
    | cons c rest =>
      have notDigit : Grammar.isDigit c = false := by simpa [NoDigit] using noDigit
      rw [nil_append, dropWhile_cons, notDigit]
      rfl
  | cons c text ih =>
    rw [cons_append, dropWhile_cons, if_pos (all c (by simp))]
    exact ih fun d mem => all d (.tail _ mem)

theorem noDigit_dropWhile (text : List Char) : NoDigit (text.dropWhile Grammar.isDigit) := by
  induction text with
  | nil => rfl
  | cons c text ih =>
    rw [dropWhile_cons]
    split
    · exact ih
    · rename_i notDigit
      simpa [NoDigit] using notDigit

theorem digits_ok {p p' : Parser} {message : String} (here : p.rest = encode text)
    (runs : p.digits message = .ok p') :
    ∃ ds rest, text = ds ++ rest ∧ Digits ds ∧ NoDigit rest ∧ Moved p rest p' := by
  unfold digits at runs
  split at runs
  · rename_i starts
    rw [peek, here, agrees_isDigit.head] at starts
    rw [← Except.ok.inj runs]
    refine ⟨text.takeWhile Grammar.isDigit, text.dropWhile Grammar.isDigit, takeWhile_append_dropWhile.symm,
      ⟨?_, all_eq_true.mp all_takeWhile⟩, noDigit_dropWhile text, moved_advanceWhile agrees_isDigit here⟩
    cases text with
    | nil => simp at starts
    | cons c text =>
      have isDigit : Grammar.isDigit c = true := by simpa using starts
      simp [isDigit]
  · simp at runs

theorem digits_complete {p : Parser} (message : String) {ds : List Char} (isDigits : Digits ds)
    (here : p.rest = encode (ds ++ rest)) (noDigit : NoDigit rest) :
    ∃ p', p.digits message = .ok p' ∧ Moved p rest p' := by
  have moved := moved_advanceWhile agrees_isDigit here
  rw [digits_append isDigits.2 noDigit] at moved
  refine ⟨_, ?_, moved⟩
  rw [digits, peek, here, agrees_isDigit.head]
  obtain ⟨c, others, isCons⟩ := exists_cons_of_ne_nil isDigits.1
  have isDigit := isDigits.2 c (by simp [isCons])
  simp [isCons, isDigit]

end Digits

section Numbers

variable {F : Type}
variable {p p' : Parser} {text int rest num : List Char} {has isFloat : Bool} {nums : Numbers F}

theorem peek_char (here : p.rest = encode text) {b : UInt8} (low : b < 0x80) :
    p.peek = some b ↔ text.head? = some (Char.ofNat b.toNat) := by
  constructor
  · intro peeked
    obtain ⟨hl, isText, -⟩ := of_peek here low peeked
    rw [isText]
    rfl
  · intro head
    obtain ⟨hl, isText⟩ := List.head?_eq_some_iff.mp head
    have small : b.toNat < 0x80 := low
    have num : (Char.ofNat b.toNat).toNat = b.toNat := toNat_ofNat (.inl (by omega))
    rw [isText] at here
    rw [peek_eq here (by rw [num]; exact small), num]
    simp

theorem of_head (here : p.rest = encode text) {c : Char} (low : c.toNat < 0x80) (head : text.head? = some c) :
    ∃ hl, text = c :: hl ∧ Moved p hl p.advance := by
  obtain ⟨hl, isText⟩ := List.head?_eq_some_iff.mp head
  rw [isText] at here
  exact ⟨hl, isText, .advance here low⟩

theorem integerPart_ok (here : p.rest = encode text) (runs : p.integerPart = .ok p') :
    ∃ int rest, text = int ++ rest ∧ IntText int ∧ (int ≠ ['0'] → NoDigit rest) ∧ Moved p rest p' := by
  have zero : p.peek = some 0x30 ↔ text.head? = some '0' := peek_char here (by decide)
  unfold integerPart at runs
  split at runs
  · rename_i peeked
    obtain ⟨hl, isText, moved⟩ := of_head here (by decide) (zero.mp peeked)
    rw [← Except.ok.inj runs]
    exact ⟨['0'], hl, isText, .zero, fun other => absurd rfl other, moved⟩
  · rename_i notZero
    obtain ⟨ds, rest, isText, isDigits, noDigit, moved⟩ := digits_ok here runs
    obtain ⟨c, others, isCons⟩ := exists_cons_of_ne_nil isDigits.1
    refine ⟨ds, rest, isText, ?_, fun _ => noDigit, moved⟩
    rw [isCons] at isDigits isText ⊢
    refine .digits (isDigits.2 c (by simp)) ?_ fun d mem => isDigits.2 d (.tail _ mem)
    rintro rfl
    exact notZero (zero.mpr (by simp [isText]))

theorem integerPart_complete (isInt : IntText int) (here : p.rest = encode (int ++ rest))
    (noDigit : int ≠ ['0'] → NoDigit rest) : ∃ p', p.integerPart = .ok p' ∧ Moved p rest p' := by
  have zero : p.peek = some 0x30 ↔ (int ++ rest).head? = some '0' := peek_char here (by decide)
  unfold integerPart
  cases isInt with
  | zero =>
    rw [if_pos (zero.mpr rfl)]
    exact ⟨_, rfl, .advance here (by decide)⟩
  | @digits c text isDigit notZero all =>
    rw [if_neg]
    · have other : c :: text ≠ ['0'] := by simp [notZero]
      apply digits_complete _ ⟨by simp, ?_⟩ here (noDigit other)
      intro d mem
      rcases mem_cons.mp mem with rfl | hl
      · exact isDigit
      · exact all d hl
    · intro peeked
      have head := zero.mp peeked
      simp only [cons_append, List.head?_cons, Option.some.injEq] at head
      exact notZero head

theorem fractionPart_ok (here : p.rest = encode text) (runs : p.fractionPart = .ok (has, p')) :
    ∃ frac rest, text = frac ++ rest ∧ FracText frac ∧ has = !frac.isEmpty ∧
      (if frac = [] then rest.head? ≠ some '.' else NoDigit rest) ∧ Moved p rest p' := by
  have dot : p.peek = some 0x2E ↔ text.head? = some '.' := peek_char here (by decide)
  unfold fractionPart at runs
  split at runs
  · rename_i peeked
    obtain ⟨hl, isText, moved⟩ := of_head here (by decide) (dot.mp peeked)
    cases scan : p.advance.digits "expected digit after '.'" with
    | error stop => simp [scan, bind, Except.bind] at runs
    | ok q =>
      simp only [scan, bind, Except.bind, Except.ok.injEq, Prod.mk.injEq] at runs
      obtain ⟨ds, rest, isLater, isDigits, noDigit, scanned⟩ := digits_ok moved.rest scan
      rw [← runs.1, ← runs.2]
      exact ⟨'.' :: ds, rest, by rw [isText, isLater, cons_append], .some isDigits, rfl, noDigit,
        moved.trans scanned⟩
  · rename_i noDot
    cases runs
    exact ⟨[], text, rfl, .none, rfl, mt dot.mpr noDot, .refl here⟩

theorem fractionPart_complete {frac : List Char} (isFrac : FracText frac)
    (here : p.rest = encode (frac ++ rest))
    (ends : if frac = [] then rest.head? ≠ some '.' else NoDigit rest) :
    ∃ p', p.fractionPart = .ok (!frac.isEmpty, p') ∧ Moved p rest p' := by
  have dot : p.peek = some 0x2E ↔ (frac ++ rest).head? = some '.' := peek_char here (by decide)
  unfold fractionPart
  cases isFrac with
  | none =>
    rw [if_neg (mt dot.mp ends)]
    exact ⟨p, rfl, .refl here⟩
  | some isDigits =>
    have moved := Moved.advance here (by decide)
    obtain ⟨p', runs, scanned⟩ := digits_complete "expected digit after '.'" isDigits moved.rest ends
    rw [if_pos (dot.mpr rfl)]
    refine ⟨p', ?_, moved.trans scanned⟩
    simp only [runs, bind, Except.bind]
    rfl

theorem sign_moved (here : p.rest = encode text) :
    ∃ sign rest, text = sign ++ rest ∧ (sign = [] ∨ sign = ['+'] ∨ sign = ['-']) ∧
      Moved p rest (if p.peek = some 0x2B ∨ p.peek = some 0x2D then p.advance else p) := by
  have plus : p.peek = some 0x2B ↔ text.head? = some '+' := peek_char here (by decide)
  have minus : p.peek = some 0x2D ↔ text.head? = some '-' := peek_char here (by decide)
  split
  · rename_i peeked
    rcases peeked with isPlus | isMinus
    · obtain ⟨hl, isText, moved⟩ := of_head here (by decide) (plus.mp isPlus)
      exact ⟨['+'], hl, isText, .inr (.inl rfl), moved⟩
    · obtain ⟨hl, isText, moved⟩ := of_head here (by decide) (minus.mp isMinus)
      exact ⟨['-'], hl, isText, .inr (.inr rfl), moved⟩
  · exact ⟨[], text, rfl, .inl rfl, .refl here⟩

theorem sign_complete {sign ds : List Char} (isSign : sign = [] ∨ sign = ['+'] ∨ sign = ['-'])
    (isDigits : Digits ds) (here : p.rest = encode (sign ++ (ds ++ rest))) :
    Moved p (ds ++ rest) (if p.peek = some 0x2B ∨ p.peek = some 0x2D then p.advance else p) := by
  have plus : p.peek = some 0x2B ↔ (sign ++ (ds ++ rest)).head? = some '+' := peek_char here (by decide)
  have minus : p.peek = some 0x2D ↔ (sign ++ (ds ++ rest)).head? = some '-' := peek_char here (by decide)
  rcases isSign with rfl | rfl | rfl
  · obtain ⟨c, others, isCons⟩ := exists_cons_of_ne_nil isDigits.1
    have isDigit := isDigits.2 c (by simp [isCons])
    rw [if_neg]
    · exact .refl here
    · rw [plus, minus, isCons]
      rintro (head | head)
      · rw [show c = '+' by simpa using head] at isDigit
        exact absurd isDigit (by decide)
      · rw [show c = '-' by simpa using head] at isDigit
        exact absurd isDigit (by decide)
  · rw [if_pos (.inl (plus.mpr rfl))]
    exact .advance here (by decide)
  · rw [if_pos (.inr (minus.mpr rfl))]
    exact .advance here (by decide)

theorem exponentPart_ok (here : p.rest = encode text) (runs : p.exponentPart = .ok (has, p')) :
    ∃ exp rest, text = exp ++ rest ∧ ExpText exp ∧ has = !exp.isEmpty ∧
      (if exp = [] then rest.head? ≠ some 'e' ∧ rest.head? ≠ some 'E' else NoDigit rest) ∧ Moved p rest p' := by
  have small : p.peek = some 0x65 ↔ text.head? = some 'e' := peek_char here (by decide)
  have large : p.peek = some 0x45 ↔ text.head? = some 'E' := peek_char here (by decide)
  unfold exponentPart at runs
  split at runs
  · rename_i peeked
    have marked : ∃ e hl, (e = 'e' ∨ e = 'E') ∧ text = e :: hl ∧ Moved p hl p.advance := by
      rcases peeked with isSmall | isLarge
      · obtain ⟨hl, isText, moved⟩ := of_head here (by decide) (small.mp isSmall)
        exact ⟨'e', hl, .inl rfl, isText, moved⟩
      · obtain ⟨hl, isText, moved⟩ := of_head here (by decide) (large.mp isLarge)
        exact ⟨'E', hl, .inr rfl, isText, moved⟩
    obtain ⟨e, hl, isE, isText, moved⟩ := marked
    obtain ⟨sign, afterSign, isLater, isSign, signed⟩ := sign_moved moved.rest
    simp only [bind, Except.bind] at runs
    split at runs
    · simp at runs
    · rename_i q scan
      simp only [Except.ok.injEq, Prod.mk.injEq] at runs
      obtain ⟨ds, rest, isAfter, isDigits, noDigit, scanned⟩ := digits_ok signed.rest scan
      rw [← runs.1, ← runs.2]
      refine ⟨e :: (sign ++ ds), rest, ?_, .some isE isSign isDigits, rfl, noDigit,
        (moved.trans signed).trans scanned⟩
      rw [isText, isLater, isAfter, cons_append, append_assoc]
  · rename_i noExp
    cases runs
    rw [small, large] at noExp
    exact ⟨[], text, rfl, .none, rfl, not_or.mp noExp, .refl here⟩

theorem exponentPart_complete {exp : List Char} (isExp : ExpText exp) (here : p.rest = encode (exp ++ rest))
    (ends : if exp = [] then rest.head? ≠ some 'e' ∧ rest.head? ≠ some 'E' else NoDigit rest) :
    ∃ p', p.exponentPart = .ok (!exp.isEmpty, p') ∧ Moved p rest p' := by
  have small : p.peek = some 0x65 ↔ (exp ++ rest).head? = some 'e' := peek_char here (by decide)
  have large : p.peek = some 0x45 ↔ (exp ++ rest).head? = some 'E' := peek_char here (by decide)
  unfold exponentPart
  cases isExp with
  | none =>
    rw [if_neg (by rw [small, large]; exact not_or.mpr ends)]
    exact ⟨p, rfl, .refl here⟩
  | @some e sign ds isE isSign isDigits =>
    have lowE : e.toNat < 0x80 := by rcases isE with rfl | rfl <;> decide
    have peeked : p.peek = some 0x65 ∨ p.peek = some 0x45 := by
      rw [small, large]
      rcases isE with rfl | rfl
      · exact .inl rfl
      · exact .inr rfl
    have moved := Moved.advance here lowE
    have afterE : p.advance.rest = encode (sign ++ (ds ++ rest)) := by
      rw [moved.rest, append_eq, append_assoc]
    have signed := sign_complete isSign isDigits afterE
    obtain ⟨p', runs, scanned⟩ := digits_complete "expected digit in exponent" isDigits signed.rest ends
    rw [if_pos peeked]
    refine ⟨p', ?_, ?_⟩
    · simp only [runs, bind, Except.bind]
      rfl
    · exact ⟨scanned.rest, (scanned.depth.trans signed.depth).trans moved.depth,
        (scanned.flag.trans signed.flag).trans moved.flag⟩

theorem take_repr {start : Parser} (here : start.rest = encode (num ++ rest))
    (atRest : p.rest = encode rest) :
    start.rest.take (start.rest.length - p.rest.length) = encode num := by
  rw [here, atRest, encode_append, length_append, Nat.add_sub_cancel, take_left]

theorem minus_moved (here : p.rest = encode text) :
    ∃ minus rest, text = minus ++ rest ∧ (minus = [] ∨ minus = ['-']) ∧
      Moved p rest (if p.peek = some 0x2D then p.advance else p) := by
  have isMinus : p.peek = some 0x2D ↔ text.head? = some '-' := peek_char here (by decide)
  split
  · rename_i peeked
    obtain ⟨hl, isText, moved⟩ := of_head here (by decide) (isMinus.mp peeked)
    exact ⟨['-'], hl, isText, .inr rfl, moved⟩
  · exact ⟨[], text, rfl, .inl rfl, .refl here⟩

theorem minus_complete {minus : List Char} (isMinus : minus = [] ∨ minus = ['-']) (isInt : IntText int)
    (here : p.rest = encode (minus ++ (int ++ rest))) :
    Moved p (int ++ rest) (if p.peek = some 0x2D then p.advance else p) := by
  have peeked : p.peek = some 0x2D ↔ (minus ++ (int ++ rest)).head? = some '-' := peek_char here (by decide)
  rcases isMinus with rfl | rfl
  · rw [if_neg]
    · exact .refl here
    · rw [peeked]
      cases isInt with
      | zero => simp
      | digits isDigit _ _ =>
        intro head
        simp only [nil_append, cons_append, List.head?_cons, Option.some.injEq] at head
        rw [head] at isDigit
        exact absurd isDigit (by decide)
  · rw [if_pos (peeked.mpr rfl)]
    exact .advance here (by decide)

theorem parseNumber_ok {v : JsonValue F} (here : p.rest = encode text)
    (runs : p.parseNumber nums = .ok (v, p')) :
    ∃ num isFloat rest, text = num ++ rest ∧ GreedyNumber num isFloat rest ∧
      numberValue nums isFloat (encode num) = some v ∧ Moved p rest p' := by
  unfold parseNumber at runs
  obtain ⟨minus, afterMinus, isText, isMinus, signed⟩ := minus_moved here
  simp only [bind, Except.bind] at runs
  split at runs
  · simp at runs
  rename_i q₁ integer
  obtain ⟨int, afterInt, isAfterMinus, isInt, intEnds, fst⟩ := integerPart_ok signed.rest integer
  split at runs
  · simp at runs
  rename_i result₂ fraction
  obtain ⟨hasFraction, q₂⟩ := result₂
  obtain ⟨frac, afterFrac, isAfterInt, isFrac, isFraction, fracEnds, snd⟩ := fractionPart_ok fst.rest fraction
  simp only at runs
  split at runs
  · simp at runs
  rename_i result₃ exponent
  obtain ⟨hasExponent, q₃⟩ := result₃
  obtain ⟨exp, rest, isAfterFrac, isExp, isExponent, expEnds, third⟩ := exponentPart_ok snd.rest exponent
  have moved := ((signed.trans fst).trans snd).trans third
  have isNumber : text = (minus ++ (int ++ (frac ++ exp))) ++ rest := by
    rw [isText, isAfterMinus, isAfterInt, isAfterFrac]
    simp
  rw [isNumber] at here
  rw [take_repr here third.rest] at runs
  simp only at runs
  split at runs
  · rename_i value hit
    cases runs
    refine ⟨_, hasFraction || hasExponent, rest, isNumber, ?_, hit, moved⟩
    rw [isAfterFrac] at fracEnds
    rw [isAfterInt, isAfterFrac] at intEnds
    refine ⟨minus, int, frac, exp, isMinus, isInt, isFrac, isExp, rfl, ?_, intEnds, fracEnds, expEnds⟩
    rw [isFraction, isExponent, Bool.not_and]
  · simp at runs

def Follow (text : List Char) : Prop :=
  text.head?.any (fun c => Grammar.isDigit c || c = '.' || c = 'e' || c = 'E') = false

theorem Follow.noDigit (follow : Follow text) : NoDigit text := by
  cases text with
  | nil => rfl
  | cons c text =>
    simp only [Follow, List.head?_cons, Option.any_some, Bool.or_eq_false_iff] at follow
    exact follow.1.1.1

theorem Follow.head_ne (follow : Follow text) :
    text.head? ≠ some '.' ∧ text.head? ≠ some 'e' ∧ text.head? ≠ some 'E' := by
  cases text with
  | nil => simp
  | cons c text =>
    simp only [Follow, List.head?_cons, Option.any_some, Bool.or_eq_false_iff, decide_eq_false_iff_not] at follow
    simp only [List.head?_cons, ne_eq, Option.some.injEq]
    exact ⟨follow.1.1.2, follow.1.2, follow.2⟩

theorem greedy_of_follow (isNumber : NumberText num isFloat) (follow : Follow rest) :
    GreedyNumber num isFloat rest := by
  obtain ⟨minus, int, frac, exp, isMinus, isInt, isFrac, isExp, isText, float⟩ := isNumber
  obtain ⟨noDot, noE⟩ := follow.head_ne
  have expNoDigit : NoDigit (exp ++ rest) := by
    cases isExp with
    | none => exact follow.noDigit
    | some isE _ _ => rcases isE with rfl | rfl <;> rfl
  have expNoDot : (exp ++ rest).head? ≠ some '.' := by
    cases isExp with
    | none => exact noDot
    | some isE _ _ => rcases isE with rfl | rfl <;> simp
  have fracNoDigit : NoDigit (frac ++ (exp ++ rest)) := by
    cases isFrac with
    | none => exact expNoDigit
    | some _ => rfl
  refine ⟨minus, int, frac, exp, isMinus, isInt, isFrac, isExp, isText, float, fun _ => fracNoDigit, ?_, ?_⟩
  · split
    · exact expNoDot
    · exact expNoDigit
  · split
    · exact noE
    · exact follow.noDigit

theorem greedy_number (greedy : GreedyNumber num isFloat rest) : NumberText num isFloat := by
  obtain ⟨minus, int, frac, exp, isMinus, isInt, isFrac, isExp, isText, float, -⟩ := greedy
  exact ⟨minus, int, frac, exp, isMinus, isInt, isFrac, isExp, isText, float⟩

theorem greedyAt_of_follow (follow : Follow rest) : GreedyAt text rest :=
  fun _ _ isNumber _ => greedy_of_follow isNumber follow

def marksFloat (c : Char) : Bool := c = '.' || c = 'e' || c = 'E'

theorem marksFloat_digits (all : ∀ c ∈ text, Grammar.isDigit c = true) : text.any marksFloat = false := by
  rw [any_eq_false]
  intro c mem marked
  have isDigit := all c mem
  simp only [marksFloat, Bool.or_eq_true, decide_eq_true_eq] at marked
  rcases marked with (rfl | rfl) | rfl <;> exact absurd isDigit (by decide)

theorem isFloat_eq (isNumber : NumberText num isFloat) : isFloat = num.any marksFloat := by
  obtain ⟨minus, int, frac, exp, isMinus, isInt, isFrac, isExp, rfl, rfl⟩ := isNumber
  have minusMark : minus.any marksFloat = false := by
    rcases isMinus with rfl | rfl <;> rfl
  have intMark : int.any marksFloat = false := by
    cases isInt with
    | zero => rfl
    | @digits c text isDigit _ all =>
      refine marksFloat_digits ?_
      intro d mem
      rcases mem_cons.mp mem with rfl | hl
      · exact isDigit
      · exact all d hl
  have fracMark : frac.any marksFloat = !frac.isEmpty := by
    cases isFrac with
    | none | some _ => rfl
  have expMark : exp.any marksFloat = !exp.isEmpty := by
    cases isExp with
    | none => rfl
    | some isE _ _ => rcases isE with rfl | rfl <;> rfl
  rw [any_append, any_append, any_append, minusMark, intMark, fracMark, expMark, Bool.false_or,
    Bool.false_or, Bool.not_and]

theorem greedyAt_of_number (greedy : GreedyNumber num isFloat rest) : GreedyAt (num ++ rest) rest := by
  intro number' isFloat' isNumber' eq
  have isSame := append_cancel_right eq
  rw [isFloat_eq isNumber', ← isSame, ← isFloat_eq (greedy_number greedy)]
  exact greedy

theorem number_head (isNumber : NumberText num isFloat) :
    ∃ c hl, num = c :: hl ∧ (c = '-' ∨ Grammar.isDigit c = true) := by
  obtain ⟨minus, int, frac, exp, isMinus, isInt, -, -, rfl, -⟩ := isNumber
  rcases isMinus with rfl | rfl
  · cases isInt with
    | zero => exact ⟨_, _, rfl, .inr (by decide)⟩
    | digits isDigit _ _ => exact ⟨_, _, rfl, .inr isDigit⟩
  · exact ⟨_, _, rfl, .inl rfl⟩

theorem greedyAt_of_head {c : Char} {hl : List Char} (noNumber : ¬ (c = '-' ∨ Grammar.isDigit c = true)) :
    GreedyAt (c :: hl) rest := by
  intro num isFloat isNumber eq
  obtain ⟨d, digits, rfl, isFirst⟩ := number_head isNumber
  rw [cons_append, List.cons.injEq] at eq
  rw [← eq.1] at isFirst
  exact absurd isFirst noNumber

theorem parseNumber_complete {v : JsonValue F} (greedy : GreedyNumber num isFloat rest)
    (here : p.rest = encode (num ++ rest))
    (value : numberValue nums isFloat (encode num) = some v) :
    ∃ p', p.parseNumber nums = .ok (v, p') ∧ Moved p rest p' := by
  have atStart := here
  obtain ⟨minus, int, frac, exp, isMinus, isInt, isFrac, isExp, rfl, rfl, intEnds, fracEnds, expEnds⟩ := greedy
  have assoc : minus ++ (int ++ (frac ++ exp)) ++ rest = minus ++ (int ++ (frac ++ (exp ++ rest))) := by simp
  rw [assoc] at here
  have signed := minus_complete isMinus isInt here
  obtain ⟨q₁, integer, fst⟩ := integerPart_complete isInt signed.rest intEnds
  obtain ⟨q₂, fraction, snd⟩ := fractionPart_complete isFrac fst.rest fracEnds
  obtain ⟨q₃, exponent, third⟩ := exponentPart_complete isExp snd.rest expEnds
  refine ⟨q₃, ?_, ((signed.trans fst).trans snd).trans third⟩
  unfold parseNumber
  simp only [integer, fraction, exponent, bind, Except.bind]
  rw [take_repr atStart third.rest, ← Bool.not_and, value]

end Numbers

end Parser

end Json
