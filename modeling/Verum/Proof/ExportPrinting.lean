import Verum.Proof.LeanExport
import Verum.Proof.Whnf

open List

namespace Proof

open Json.Grammar (NoDigit isDigit)

section Digits

theorem decimal_injective {n m : Nat} (eq : decimal n = decimal m) : n = m := by
  have vs := congrArg (fun text => Nat.ofDigitChars 10 text 0) eq
  simpa [decimal, Nat.ofDigitChars_ten_toDigits] using vs

theorem decimal_digits (n : Nat) : ∀ c ∈ decimal n, isDigit c = true := Json.Text.toDigits_digits n

theorem decimal_ne_nil (n : Nat) : decimal n ≠ [] := Nat.toDigits_ne_nil

variable {rest rest' : List Char}

theorem digits_unique {text text' : List Char} (digits : ∀ c ∈ text, isDigit c = true)
    (digits' : ∀ c ∈ text', isDigit c = true) (ends : NoDigit rest) (ends' : NoDigit rest')
    (eq : text ++ rest = text' ++ rest') : text = text' ∧ rest = rest' := by
  have tails := congrArg (List.dropWhile isDigit) eq
  rw [Json.Parser.digits_append digits ends, Json.Parser.digits_append digits' ends'] at tails
  rw [tails] at eq
  exact ⟨append_cancel_right eq, tails⟩

theorem decimal_unique {n m : Nat} (ends : NoDigit rest) (ends' : NoDigit rest')
    (eq : decimal n ++ rest = decimal m ++ rest') : n = m ∧ rest = rest' := by
  obtain ⟨texts, tails⟩ := digits_unique (decimal_digits n) (decimal_digits m) ends ends' eq
  exact ⟨decimal_injective texts, tails⟩

end Digits

section Levels

def Level.identify : Level → Level
  | .concrete n => .concrete n
  | .var name => .var name
  | .succ inner => .offset inner.identify 1
  | .max a b => .max a.identify b.identify
  | .offset base amount => .offset base.identify amount

def printLevel : Level → List Char
  | .concrete n => decimal n.toNat
  | .var name => 'w' :: name.toList
  | .succ inner => '(' :: (printLevel inner ++ " + ".toList ++ decimal 1 ++ [')'])
  | .offset inner amount => '(' :: (printLevel inner ++ " + ".toList ++ decimal amount.toNat ++ [')'])
  | .max a b => "(max ".toList ++ printLevel a ++ ' ' :: (printLevel b ++ [')'])

def Level.Numbered : Level → Prop
  | .concrete _ => True
  | .var name => ∃ n, name.toList = decimal n
  | .succ inner => inner.Numbered
  | .max a b => a.Numbered ∧ b.Numbered
  | .offset base _ => base.Numbered

theorem noDigit_cons {c : Char} (other : isDigit c = false) (rest : List Char) : NoDigit (c :: rest) := by
  simp [NoDigit, other]

def Level.start : Level → Char → Bool
  | .concrete _, c => isDigit c
  | .var _, c => c = 'w'
  | _, c => c = '('

theorem printLevel_start (l : Level) : ∃ c text, printLevel l = c :: text ∧ l.start c = true := by
  cases l with
  | concrete n =>
    have nonempty := decimal_ne_nil n.toNat
    cases isText : decimal n.toNat with
    | nil => exact absurd isText nonempty
    | cons c text =>
      refine ⟨c, text, isText, decimal_digits n.toNat c ?_⟩
      rw [isText]
      exact .head _
  | var name => exact ⟨'w', name.toList, rfl, rfl⟩
  | succ inner | max a b | offset base amount => exact ⟨'(', _, rfl, rfl⟩

variable {l base : Level} {rest rest' : List Char} {n : UInt32}

theorem start_of_same {l' : Level} (eq : printLevel l ++ rest = printLevel l' ++ rest') :
    ∃ c, l.start c = true ∧ l'.start c = true := by
  obtain ⟨c, text, isText, starts⟩ := printLevel_start l
  obtain ⟨c', text', isText', starts'⟩ := printLevel_start l'
  rw [isText, isText', cons_append, cons_append] at eq
  obtain ⟨rfl, -⟩ := List.cons.inj eq
  exact ⟨c, starts, starts'⟩

theorem start_ne_max (l : Level) : l.start 'm' = false := by cases l <;> rfl

theorem start_digit {c : Char} (starts : l.start c = true) (digit : isDigit c = true) : ∃ n, l = .concrete n := by
  cases l with
  | concrete n => exact ⟨n, rfl⟩
  | var name | succ inner | max a b | offset base amount =>
    rw [decide_eq_true_iff.mp starts] at digit
    exact absurd digit (by decide)

theorem start_name (starts : l.start 'w' = true) : ∃ name, l = .var name := by
  cases l with
  | concrete n => exact absurd (show isDigit 'w' = true from starts) (by decide)
  | var name => exact ⟨name, rfl⟩
  | succ inner | max a b | offset base amount => simp [Level.start] at starts

def PrintsOffset (l base : Level) (n : UInt32) : Prop :=
  l.identify = .offset base.identify n ∧
    printLevel l = '(' :: (printLevel base ++ " + ".toList ++ decimal n.toNat ++ [')'])

theorem start_paren (starts : l.start '(' = true) :
    (∃ a b, l = .max a b) ∨ ∃ base n, PrintsOffset l base n ∧ (l.Numbered → base.Numbered) := by
  cases l with
  | concrete n => exact absurd (show isDigit '(' = true from starts) (by decide)
  | var name => simp [Level.start] at starts
  | succ inner => exact .inr ⟨inner, 1, ⟨rfl, rfl⟩, fun numbered => numbered⟩
  | max a b => exact .inl ⟨a, b, rfl⟩
  | offset base amount => exact .inr ⟨base, amount, ⟨rfl, rfl⟩, fun numbered => numbered⟩

theorem PrintsOffset.append (prints : PrintsOffset l base n) (rest : List Char) :
    printLevel l ++ rest = '(' :: (printLevel base ++ ' ' :: '+' :: ' ' :: (decimal n.toNat ++ ')' :: rest)) := by
  rw [prints.2]
  simp only [String.reduceToList, cons_append, nil_append, append_assoc]

theorem printMax_append (a b : Level) (rest : List Char) :
    printLevel (.max a b) ++ rest =
      '(' :: 'm' :: 'a' :: 'x' :: ' ' :: (printLevel a ++ ' ' :: (printLevel b ++ ')' :: rest)) := by
  simp only [printLevel, String.reduceToList, cons_append, nil_append, append_assoc]

theorem printMax_ne {a b : Level} (prints : PrintsOffset l base n) :
    printLevel l ++ rest ≠ printLevel (.max a b) ++ rest' := by
  intro eq
  rw [printMax_append, prints.append] at eq
  obtain ⟨c, text, isText, starts⟩ := printLevel_start base
  rw [isText] at eq
  have letter : c = 'm' := (List.cons.inj (List.cons.inj eq).2).1
  rw [letter, start_ne_max] at starts
  cases starts

/-- The text of a level before something other than a digit determines it. -/
def Unique (l : Level) : Prop :=
  ∀ (l' : Level) (rest rest' : List Char), l'.Numbered → NoDigit rest → NoDigit rest' →
    printLevel l ++ rest = printLevel l' ++ rest' → l.identify = l'.identify ∧ rest = rest'

theorem noDigit_space (rest : List Char) : NoDigit (' ' :: rest) := noDigit_cons (by decide) rest

theorem noDigit_paren (rest : List Char) : NoDigit (')' :: rest) := noDigit_cons (by decide) rest

theorem unique_offset (prints : PrintsOffset l base n) (unique : Unique base) : Unique l := by
  intro l' rest rest' numbered _ _ eq
  have starts' : l'.start '(' = true := by
    obtain ⟨c, text, isText, startsAt⟩ := printLevel_start l'
    rw [isText, prints.append] at eq
    rw [(List.cons.inj eq).1]
    exact startsAt
  rcases start_paren starts' with ⟨a, b, rfl⟩ | ⟨base', n', prints', nums⟩
  · exact absurd eq (printMax_ne prints)
  · rw [prints.append, prints'.append] at eq
    obtain ⟨inner, tails⟩ := unique _ _ _ (nums numbered) (noDigit_space _) (noDigit_space _) (List.cons.inj eq).2
    simp only [List.cons.injEq, true_and] at tails
    obtain ⟨amounts, ends⟩ := decimal_unique (noDigit_paren _) (noDigit_paren _) tails
    rw [prints.1, prints'.1, inner, UInt32.toNat_inj.mp amounts]
    exact ⟨rfl, (List.cons.inj ends).2⟩

theorem printLevel_unique (l : Level) (numbered : l.Numbered) : Unique l := by
  induction l with
  | concrete n =>
    intro l' rest rest' numbered' ends ends' same
    obtain ⟨c, starts, starts'⟩ := start_of_same same
    obtain ⟨m, rfl⟩ := start_digit starts' starts
    obtain ⟨vs, tails⟩ := decimal_unique ends ends' same
    rw [UInt32.toNat_inj.mp vs]
    exact ⟨rfl, tails⟩
  | var name =>
    intro l' rest rest' numbered' ends ends' same
    obtain ⟨c, starts, starts'⟩ := start_of_same same
    rw [decide_eq_true_iff.mp starts] at starts'
    obtain ⟨name', rfl⟩ := start_name starts'
    obtain ⟨n, isNumber⟩ := numbered
    obtain ⟨m, isNumber'⟩ := numbered'
    simp only [printLevel, isNumber, isNumber', cons_append, List.cons.injEq, true_and] at same
    obtain ⟨vs, tails⟩ := decimal_unique ends ends' same
    have ns : name = name' := String.toList_inj.mp (by rw [isNumber, isNumber', vs])
    exact ⟨congrArg Level.var ns, tails⟩
  | succ inner ih | offset base amount ih => exact unique_offset ⟨rfl, rfl⟩ (ih numbered)
  | max a b ih ih' =>
    intro l' rest rest' numbered' _ _ same
    obtain ⟨c, starts, starts'⟩ := start_of_same same
    rw [decide_eq_true_iff.mp starts] at starts'
    rcases start_paren starts' with ⟨a', b', rfl⟩ | ⟨base', n', prints', -⟩
    · rw [printMax_append, printMax_append] at same
      simp only [List.cons.injEq, true_and] at same
      obtain ⟨first, tails⟩ := ih numbered.1 _ _ _ numbered'.1 (noDigit_space _) (noDigit_space _) same
      obtain ⟨snd, ends⟩ := ih' numbered.2 _ _ _ numbered'.2 (noDigit_paren _) (noDigit_paren _)
        (List.cons.inj tails).2
      exact ⟨congrArg₂ Level.max first snd, (List.cons.inj ends).2⟩
    · exact absurd same.symm (printMax_ne prints')

end Levels

section Terms

/-- Every successor of a level as an offset by one, in the terms that are exported. -/
def Term.identify : Term → Term
  | .letIn value body => .letIn value.identify body.identify
  | .universe level => .universe level.identify
  | .pi domain body => .pi domain.identify body.identify
  | .lam domain body => .lam domain.identify body.identify
  | .app f x => .app f.identify x.identify
  | .sigma domain body => .sigma domain.identify body.identify
  | .pair first second => .pair first.identify second.identify
  | .fst p => .fst p.identify
  | .snd p => .snd p.identify
  | .id ty lhs rhs => .id ty.identify lhs.identify rhs.identify
  | .refl value => .refl value.identify
  | .j motive base scrutinee => .j motive.identify base.identify scrutinee.identify
  | .idElim motive base scrutinee => .idElim motive.identify base.identify scrutinee.identify
  | other => other

/-- The terms that are exported, under `depth` binders and with numbers for names. -/
def Printable (depth : Nat) : Term → Prop
  | .var index => index < depth
  | .universe level => level.Numbered
  | .letIn a b | .pi a b | .lam a b | .sigma a b => Printable depth a ∧ Printable (depth + 1) b
  | .app a b | .pair a b => Printable depth a ∧ Printable depth b
  | .fst a | .snd a | .refl a => Printable depth a
  | .id a b c | .j a b c | .idElim a b c => Printable depth a ∧ Printable depth b ∧ Printable depth c
  | .data _ _ _ _ | .construct _ _ _ | .induct _ _ _ | .funExt _ _ _ _ => False

def printTerm (depth : Nat) (rest : List Char) : Term → List Char
  | .var index => '(' :: 'x' :: (decimal (depth - (index + 1)) ++ ')' :: rest)
  | .universe level => '(' :: ("Type ".toList ++ (printLevel level ++ ')' :: rest))
  | .pi domain body =>
    '(' :: '(' :: 'x' :: (decimal depth ++ (" : ".toList ++
      printTerm depth (") → ".toList ++ printTerm (depth + 1) (')' :: rest) body) domain))
  | .lam domain body =>
    '(' :: ("fun (x".toList ++ (decimal depth ++ (" : ".toList ++
      printTerm depth (") => ".toList ++ printTerm (depth + 1) (')' :: rest) body) domain)))
  | .sigma domain body =>
    '(' :: ("Sigma (fun (x".toList ++ (decimal depth ++ (" : ".toList ++
      printTerm depth (") => ".toList ++ printTerm (depth + 1) (')' :: ')' :: rest) body) domain)))
  | .letIn value body =>
    '(' :: ("let x".toList ++ (decimal depth ++ (" := ".toList ++
      printTerm depth ("; ".toList ++ printTerm (depth + 1) (')' :: rest) body) value)))
  | .app f x => '(' :: printTerm depth (' ' :: printTerm depth (')' :: rest) x) f
  | .pair first second =>
    '(' :: '⟨' :: printTerm depth (", ".toList ++ printTerm depth ("⟩)".toList ++ rest) second) first
  | .fst p => '(' :: printTerm depth (".1)".toList ++ rest) p
  | .snd p => '(' :: printTerm depth (".2)".toList ++ rest) p
  | .id ty lhs rhs =>
    '(' :: ("@Identity ".toList ++
      printTerm depth (' ' :: printTerm depth (' ' :: printTerm depth (')' :: rest) rhs) lhs) ty)
  | .refl value => '(' :: ("Identity.refl (x := ".toList ++ printTerm depth ("))".toList ++ rest) value)
  | .j motive base scrutinee =>
    '(' :: ("transport ".toList ++
      printTerm depth (' ' :: printTerm depth (' ' :: printTerm depth (')' :: rest) scrutinee) base) motive)
  | .idElim motive base scrutinee =>
    '(' :: ("induction ".toList ++
      printTerm depth (' ' :: printTerm depth (' ' :: printTerm depth (')' :: rest) scrutinee) base) motive)
  | .data _ _ _ _ | .construct _ _ _ | .induct _ _ _ | .funExt _ _ _ _ => []

def Term.letter : Term → Char
  | .var _ => 'x'
  | .universe _ => 'T'
  | .lam _ _ => 'f'
  | .sigma _ _ => 'S'
  | .letIn _ _ => 'l'
  | .pair _ _ => '⟨'
  | .id _ _ _ => '@'
  | .refl _ => 'I'
  | .j _ _ _ => 't'
  | .idElim _ _ _ => 'i'
  | _ => '('

variable {depth : Nat} {t : Term} {rest rest' : List Char}

theorem printTerm_head (printable : Printable depth t) (rest : List Char) :
    ∃ text, printTerm depth rest t = '(' :: t.letter :: text := by
  have nested : ∀ {t : Term} (rest : List Char), Printable depth t → ∃ text, printTerm depth rest t = '(' :: text := by
    intro t rest printable
    cases t <;> first | exact printable.elim | exact ⟨_, rfl⟩
  cases t with
  | app f x =>
    obtain ⟨text, isText⟩ := nested (' ' :: printTerm depth (')' :: rest) x) printable.1
    exact ⟨text, by rw [printTerm, isText]; rfl⟩
  | fst p =>
    obtain ⟨text, isText⟩ := nested (".1)".toList ++ rest) (show Printable depth p from printable)
    exact ⟨text, by rw [printTerm, isText]; rfl⟩
  | snd p =>
    obtain ⟨text, isText⟩ := nested (".2)".toList ++ rest) (show Printable depth p from printable)
    exact ⟨text, by rw [printTerm, isText]; rfl⟩
  | data name lvl idxs ctors | construct data constructor args | induct scrut motive cases
  | funExt functionType lhs rhs pointwise => exact printable.elim
  | pi domain body | pair first second | var idx => exact ⟨_, rfl⟩
  | _ => simp only [printTerm, String.reduceToList, cons_append]; exact ⟨_, rfl⟩

theorem letter_of_same {t' : Term} (printable : Printable depth t) (printable' : Printable depth t')
    (eq : printTerm depth rest t = printTerm depth rest' t') : t'.letter = t.letter := by
  obtain ⟨text, isText⟩ := printTerm_head printable rest
  obtain ⟨text', isText'⟩ := printTerm_head printable' rest'
  rw [isText, isText'] at eq
  exact (List.cons.inj (List.cons.inj eq).2).1.symm

theorem printBinder_ne {n : Nat} (printable : Printable depth t) (text rest : List Char) :
    '(' :: 'x' :: (decimal n ++ ' ' :: text) ≠ printTerm depth rest t := by
  intro eq
  obtain ⟨after, isText⟩ := printTerm_head printable rest
  have letter : t.letter = 'x' := by
    rw [isText] at eq
    exact (List.cons.inj (List.cons.inj eq).2).1.symm
  cases t with
  | var idx =>
    have tails := (List.cons.inj (List.cons.inj eq).2).2
    have ends := (decimal_unique (noDigit_space _) (noDigit_paren _) tails).2
    exact absurd (List.cons.inj ends).1 (by decide)
  | _ => simp [Term.letter] at letter

theorem printPi_ne {domain body : Term} (printable : Printable depth t) :
    printTerm depth rest (.pi domain body) ≠ '(' :: printTerm depth rest' t := by
  intro eq
  simp only [printTerm, String.reduceToList, cons_append, List.cons.injEq, true_and] at eq
  exact printBinder_ne printable _ _ eq

theorem printTerm_unique : (t : Term) → ∀ (depth : Nat) (t' : Term) (rest rest' : List Char), Printable depth t →
    Printable depth t' → printTerm depth rest t = printTerm depth rest' t' → t.identify = t'.identify ∧ rest = rest'
  | .var idx => by
    intro depth t' rest rest' printable printable' eq
    have letter := letter_of_same printable printable' eq
    cases t' with
    | var index' =>
      simp only [printTerm, List.cons.injEq, true_and] at eq
      obtain ⟨vs, tails⟩ := decimal_unique (noDigit_paren _) (noDigit_paren _) eq
      have hin : idx < depth := printable
      have inside' : index' < depth := printable'
      have idxs : idx = index' := by omega
      exact ⟨congrArg Term.var idxs, (List.cons.inj tails).2⟩
    | _ => simp [Term.letter] at letter
  | .universe lvl => by
    intro depth t' rest rest' printable printable' eq
    have letter := letter_of_same printable printable' eq
    cases t' with
    | «universe» level' =>
      simp only [printTerm, String.reduceToList, cons_append, nil_append, List.cons.injEq, true_and] at eq
      obtain ⟨ls, tails⟩ := printLevel_unique lvl printable _ _ _ printable' (noDigit_paren _) (noDigit_paren _) eq
      exact ⟨congrArg Term.universe ls, (List.cons.inj tails).2⟩
    | _ => simp [Term.letter] at letter
  | .pi domain body => by
    intro depth t' rest rest' printable printable' eq
    have letter := letter_of_same printable printable' eq
    cases t' with
    | pi domain' body' =>
      simp only [printTerm, List.cons.injEq, true_and, append_cancel_left_eq] at eq
      obtain ⟨first, tails⟩ := printTerm_unique domain _ _ _ _ printable.1 printable'.1 eq
      obtain ⟨second, ends⟩ := printTerm_unique body _ _ _ _ printable.2 printable'.2 (append_cancel_left tails)
      exact ⟨congrArg₂ Term.pi first second, (List.cons.inj ends).2⟩
    | app f x => exact absurd eq (printPi_ne printable'.1)
    | fst p | snd p => exact absurd eq (printPi_ne (t := p) printable')
    | data name lvl idxs ctors | construct data constructor args | induct scrut motive cases
    | funExt functionType lhs rhs pointwise => exact printable'.elim
    | _ => simp [Term.letter] at letter
  | .lam a b | .letIn a b => by
    intro depth t' rest rest' printable printable' eq
    have letter := letter_of_same printable printable' eq
    cases t' with
    | lam a' b' | letIn a' b' =>
      first
      | simp [Term.letter] at letter; done
      | simp only [printTerm, List.cons.injEq, true_and, append_cancel_left_eq] at eq
        obtain ⟨first, tails⟩ := printTerm_unique a _ _ _ _ printable.1 printable'.1 eq
        obtain ⟨second, ends⟩ := printTerm_unique b _ _ _ _ printable.2 printable'.2 (append_cancel_left tails)
        refine ⟨?_, (List.cons.inj ends).2⟩
        rw [Term.identify, Term.identify, first, second]
    | _ => simp [Term.letter] at letter
  | .sigma domain body => by
    intro depth t' rest rest' printable printable' eq
    have letter := letter_of_same printable printable' eq
    cases t' with
    | sigma domain' body' =>
      simp only [printTerm, List.cons.injEq, true_and, append_cancel_left_eq] at eq
      obtain ⟨first, tails⟩ := printTerm_unique domain _ _ _ _ printable.1 printable'.1 eq
      obtain ⟨second, ends⟩ := printTerm_unique body _ _ _ _ printable.2 printable'.2 (append_cancel_left tails)
      exact ⟨congrArg₂ Term.sigma first second, (List.cons.inj (List.cons.inj ends).2).2⟩
    | _ => simp [Term.letter] at letter
  | .app f x => by
    intro depth t' rest rest' printable printable' eq
    have letter := letter_of_same printable printable' eq
    cases t' with
    | app f' x' =>
      obtain ⟨first, tails⟩ := printTerm_unique f _ _ _ _ printable.1 printable'.1 (List.cons.inj eq).2
      obtain ⟨second, ends⟩ := printTerm_unique x _ _ _ _ printable.2 printable'.2 (List.cons.inj tails).2
      exact ⟨congrArg₂ Term.app first second, (List.cons.inj ends).2⟩
    | fst p | snd p =>
      have tails := (printTerm_unique f _ p _ _ printable.1 printable' (List.cons.inj eq).2).2
      exact absurd (List.cons.inj tails).1 (by decide)
    | pi domain body => exact absurd eq.symm (printPi_ne printable.1)
    | data name lvl idxs ctors | construct data constructor args | induct scrut motive cases
    | funExt functionType lhs rhs pointwise => exact printable'.elim
    | _ => simp [Term.letter] at letter
  | .pair first second => by
    intro depth t' rest rest' printable printable' eq
    have letter := letter_of_same printable printable' eq
    cases t' with
    | pair first' second' =>
      simp only [printTerm, List.cons.injEq, true_and] at eq
      obtain ⟨left, tails⟩ := printTerm_unique first _ _ _ _ printable.1 printable'.1 eq
      obtain ⟨right, ends⟩ := printTerm_unique second _ _ _ _ printable.2 printable'.2 (append_cancel_left tails)
      exact ⟨congrArg₂ Term.pair left right, append_cancel_left ends⟩
    | _ => simp [Term.letter] at letter
  | .fst p | .snd p => by
    intro depth t' rest rest' printable printable' eq
    have letter := letter_of_same printable printable' eq
    cases t' with
    | fst p' | snd p' =>
      obtain ⟨inner, tails⟩ := printTerm_unique p _ p' _ _ printable printable' (List.cons.inj eq).2
      first
      | exact ⟨congrArg Term.fst inner, append_cancel_left tails⟩
      | exact ⟨congrArg Term.snd inner, append_cancel_left tails⟩
      | simp only [String.reduceToList, cons_append, List.cons.injEq] at tails
        exact absurd tails.2.1 (by decide)
    | app f x =>
      have tails := (printTerm_unique p _ f _ _ printable printable'.1 (List.cons.inj eq).2).2
      exact absurd (List.cons.inj tails).1 (by decide)
    | pi domain body => exact absurd eq.symm (printPi_ne (t := p) printable)
    | data name lvl idxs ctors | construct data constructor args | induct scrut motive cases
    | funExt functionType lhs rhs pointwise => exact printable'.elim
    | _ => simp [Term.letter] at letter
  | .id a b c | .j a b c | .idElim a b c => by
    intro depth t' rest rest' printable printable' eq
    have letter := letter_of_same printable printable' eq
    cases t' with
    | id a' b' c' | j a' b' c' | idElim a' b' c' =>
      first
      | simp [Term.letter] at letter; done
      | simp only [printTerm, List.cons.injEq, true_and, append_cancel_left_eq] at eq
        obtain ⟨first, tails⟩ := printTerm_unique a _ _ _ _ printable.1 printable'.1 eq
        obtain ⟨second, tails⟩ := printTerm_unique b _ _ _ _ printable.2.1 printable'.2.1 (List.cons.inj tails).2
        obtain ⟨third, ends⟩ := printTerm_unique c _ _ _ _ printable.2.2 printable'.2.2 (List.cons.inj tails).2
        refine ⟨?_, (List.cons.inj ends).2⟩
        rw [Term.identify, Term.identify, first, second, third]
    | _ => simp [Term.letter] at letter
  | .refl v => by
    intro depth t' rest rest' printable printable' eq
    have letter := letter_of_same printable printable' eq
    cases t' with
    | refl v' =>
      simp only [printTerm, List.cons.injEq, true_and, append_cancel_left_eq] at eq
      obtain ⟨inner, tails⟩ := printTerm_unique v _ v' _ _ printable printable' eq
      exact ⟨congrArg Term.refl inner, append_cancel_left tails⟩
    | _ => simp [Term.letter] at letter
  | .data _ _ _ _ | .construct _ _ _ | .induct _ _ _ | .funExt _ _ _ _ => fun _ _ _ _ printable => printable.elim

end Terms

end Proof
