import Verum.Json.NumberTexts
import Verum.Json.TextNumbers

open Utf8

namespace Json

open Grammar

namespace Text

theorem head_iff (text : List Char) {b : UInt8} (low : b < 0x80) :
    (encode text).head? = some b ↔ text.head? = some (Char.ofNat b.toNat) :=
  Parser.peek_char (p := Parser.new (encode text)) rfl low

theorem tail_ascii {c : Char} (low : c.toNat < 0x80) (text : List Char) :
    (encode (c :: text)).tail = encode text := by
  rw [encode_cons, encodeChar_ascii low]
  rfl

theorem digitRun_digits {ds rest : List Char} (isDigits : Digits ds) (noDigit : NoDigit rest) :
    digitRun (encode (ds ++ rest)) = (true, encode rest) := by
  obtain ⟨c, others, isCons⟩ := List.exists_cons_of_ne_nil isDigits.1
  have isDigit := isDigits.2 c (by simp [isCons])
  rw [digitRun, Parser.agrees_isDigit.head, Parser.agrees_isDigit.dropWhile,
    Parser.digits_append isDigits.2 noDigit, isCons]
  simp [isDigit]

theorem afterSign_sign {sign ds rest : List Char} (isSign : sign = [] ∨ sign = ['+'] ∨ sign = ['-'])
    (isDigits : Digits ds) : afterSign (encode (sign ++ (ds ++ rest))) = encode (ds ++ rest) := by
  have plus := head_iff (b := 43) (sign ++ (ds ++ rest)) (by decide)
  have minus := head_iff (b := 45) (sign ++ (ds ++ rest)) (by decide)
  simp only [afterSign, plus, minus]
  rcases isSign with rfl | rfl | rfl
  · obtain ⟨c, others, isCons⟩ := List.exists_cons_of_ne_nil isDigits.1
    have isDigit := isDigits.2 c (by simp [isCons])
    rw [if_neg]
    · rfl
    · rw [isCons]
      rintro (head | head)
      · rw [show c = Char.ofNat 43 by simpa using head] at isDigit
        exact absurd isDigit (by decide)
      · rw [show c = Char.ofNat 45 by simpa using head] at isDigit
        exact absurd isDigit (by decide)
  · rw [if_pos (.inl rfl)]
    exact tail_ascii (by decide) _
  · rw [if_pos (.inr rfl)]
    exact tail_ascii (by decide) _

theorem intText_digits {int : List Char} (isInt : IntText int) : Digits int := by
  cases isInt with
  | zero =>
    refine ⟨by simp, ?_⟩
    intro c mem
    rw [List.mem_singleton.mp mem]
    rfl
  | @digits c text isDigit _ all =>
    refine ⟨by simp, ?_⟩
    intro d mem
    rcases List.mem_cons.mp mem with rfl | later
    · exact isDigit
    · exact all d later

theorem noDigit_exp {exp : List Char} (isExp : ExpText exp) : NoDigit exp ∧ exp.head? ≠ some '.' := by
  cases isExp with
  | none => exact ⟨rfl, by simp⟩
  | some isE _ _ => rcases isE with rfl | rfl <;> exact ⟨rfl, by simp⟩

variable {F : Type}

theorem parseFloat_accepts (toFloat : Text → F) {num : List Char} {isFloat : Bool}
    (isNumber : NumberText num isFloat) :
    parseFloat toFloat (encode num) = some (toFloat (encode num)) := by
  obtain ⟨minus, int, frac, exp, isMinus, isInt, isFrac, isExp, isText, -⟩ := isNumber
  have isSign : minus = [] ∨ minus = ['+'] ∨ minus = ['-'] := by
    rcases isMinus with rfl | rfl
    · exact .inl rfl
    · exact .inr (.inr rfl)
  have intDigits := intText_digits isInt
  obtain ⟨noDigit, noDot⟩ := noDigit_exp isExp
  have fracNoDigit : NoDigit (frac ++ exp) := by
    cases isFrac with
    | none => exact noDigit
    | some _ => rfl
  have ne : ¬ encode num = [] := by
    rw [encode_eq_nil, isText]
    simp [intDigits.1]
  have expRun : (if (encode exp).head? = some 101 ∨ (encode exp).head? = some 69 then
      digitRun (afterSign (encode exp).tail) else (true, encode exp)) = (true, []) := by
    have small := head_iff (b := 101) (exp) (by decide)
    have large := head_iff (b := 69) (exp) (by decide)
    simp only [small, large]
    cases isExp with
    | none => rfl
    | @some e sign ds isE isSign isDigits =>
      have lowE : e.toNat < 0x80 := by rcases isE with rfl | rfl <;> decide
      have run : digitRun (encode (ds ++ [])) = (true, []) := digitRun_digits isDigits rfl
      have signed : afterSign (encode (sign ++ (ds ++ []))) = encode (ds ++ []) :=
        afterSign_sign isSign isDigits
      rw [List.append_nil] at run signed
      rw [tail_ascii lowE, signed, run]
      rcases isE with rfl | rfl <;> rfl
  have fracRun : ∃ seen, (if (encode (frac ++ exp)).head? = some 46 then
      digitRun (encode (frac ++ exp)).tail else (false, encode (frac ++ exp))) =
        (seen, encode exp) := by
    have dot := head_iff (b := 46) (frac ++ exp) (by decide)
    simp only [dot]
    cases isFrac with
    | none =>
      refine ⟨false, ?_⟩
      rw [List.nil_append, if_neg]
      exact noDot
    | @some ds isDigits =>
      refine ⟨true, ?_⟩
      have marked : ('.' :: ds ++ exp).head? = some (Char.ofNat (UInt8.toNat 46)) := rfl
      rw [if_pos marked, List.cons_append, tail_ascii (by decide), digitRun_digits isDigits noDigit]
  obtain ⟨seen, fracRun⟩ := fracRun
  have atStart : afterSign (encode num) = encode (int ++ (frac ++ exp)) := by
    rw [isText, afterSign_sign isSign intDigits]
  unfold parseFloat
  rw [if_neg ne, atStart]
  simp only [digitRun_digits intDigits fracNoDigit, fracRun, expRun]
  rfl

theorem textNumbers_accept (toFloat : Text → F) : Accepts (textNumbers toFloat) := by
  intro text isFloat isNumber
  have parses := parseFloat_accepts toFloat isNumber
  simp only [textNumbers, parses, Option.isSome_some]

end Text

end Json
