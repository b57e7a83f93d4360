import Verum.Kernel.FreeVariables

namespace Kernel

/-- The first candidate that is not taken, among `fuel + 1` of them from index `i` on. -/
def firstFresh (candidate : Nat → String) (taken : String → Bool) : Nat → Nat → String
  | 0, i => candidate i
  | fuel + 1, i =>
    if taken (candidate i) then firstFresh candidate taken fuel (i + 1) else candidate i

theorem firstFresh_cases (candidate : Nat → String) (taken : String → Bool) (fuel i : Nat) :
    taken (firstFresh candidate taken fuel i) = false ∨
      ∀ j, i ≤ j → j ≤ i + fuel → taken (candidate j) = true := by
  induction fuel generalizing i with
  | zero =>
    unfold firstFresh
    cases settled : taken (candidate i) with
    | false => exact .inl rfl
    | true =>
      apply Or.inr
      intro j low high
      rw [show j = i by omega]
      exact settled
  | succ fuel ih =>
    unfold firstFresh
    split
    · rename_i here
      rcases ih (i + 1) with hf | all
      · exact .inl hf
      · apply Or.inr
        intro j low high
        rcases Nat.eq_or_lt_of_le low with rfl | hl
        · exact here
        · exact all j hl (by omega)
    · rename_i here
      exact .inl (by simpa using here)

theorem firstFresh_untaken (candidate : Nat → String) (nd : Function.Injective candidate)
    (taken : String → Bool) (ns : Finset String)
    (named : ∀ s, taken s = true → s ∈ ns) (fuel : Nat) (he : ns.card ≤ fuel) :
    taken (firstFresh candidate taken fuel 0) = false := by
  rcases firstFresh_cases candidate taken fuel 0 with hf | all
  · exact hf
  · have hin : (Finset.range (fuel + 1)).image candidate ⊆ ns := by
      intro s mem
      rcases Finset.mem_image.mp mem with ⟨j, low, rfl⟩
      have hb := Finset.mem_range.mp low
      exact named _ (all j (Nat.zero_le j) (by omega))
    have counted := Finset.card_le_card hin
    rw [Finset.card_image_of_injective _ nd, Finset.card_range] at counted
    omega

theorem suffixed_injective (stem : String) :
    Function.Injective fun i : Nat => stem ++ toString i := by
  intro i j eq
  have digits : Nat.toDigits 10 i = Nat.toDigits 10 j := by
    have lists := congrArg String.toList eq
    simpa [String.toList_append] using lists
  rw [← @Nat.ofDigitChars_ten_toDigits i, digits, Nat.ofDigitChars_ten_toDigits]

namespace CoreTerm

def freshBinderName (base : String) (value body : CoreTerm) (blockedName : String) : String :=
  firstFresh (fun counter => base ++ "_α" ++ toString counter)
    (fun candidate => candidate == blockedName || value.varOccursFree candidate ||
      body.varOccursFree candidate)
    (1 + value.freeVars.card + body.freeVars.card) 0

theorem freshBinderName_fresh (base : String) (v body : CoreTerm) (blockedName : String) :
    freshBinderName base v body blockedName ≠ blockedName ∧
      ¬ v.Free (freshBinderName base v body blockedName) ∧
      ¬ body.Free (freshBinderName base v body blockedName) := by
  have counted : (insert blockedName (v.freeVars ∪ body.freeVars)).card ≤
      1 + v.freeVars.card + body.freeVars.card := by
    have outer := Finset.card_insert_le blockedName (v.freeVars ∪ body.freeVars)
    have inner := Finset.card_union_le v.freeVars body.freeVars
    omega
  have untaken := firstFresh_untaken (fun counter => base ++ "_α" ++ toString counter)
    (suffixed_injective (base ++ "_α"))
    (fun candidate => candidate == blockedName || v.varOccursFree candidate ||
      body.varOccursFree candidate)
    (insert blockedName (v.freeVars ∪ body.freeVars))
    (by intro s held; simpa [Free, or_assoc] using held) _ counted
  simpa [Free, freshBinderName, and_assoc] using untaken

def substBinderBody (substitute : CoreTerm → String → CoreTerm → CoreTerm) (binder : String)
    (body : CoreTerm) (name : String) (value : CoreTerm) : String × CoreTerm :=
  if binder = name then (binder, body)
  else if value.varOccursFree binder then
    let fresh := freshBinderName binder value body name
    let renamedBody := substitute body binder (var fresh)
    (fresh, substitute renamedBody name value)
  else (binder, substitute body name value)

/-- Substitution to a nesting of at most `fuel`; a renamed body keeps its size, so the size of
    the term is enough. -/
def substituteWithin : Nat → CoreTerm → String → CoreTerm → CoreTerm
  | 0, term, _, _ => term
  | fuel + 1, term, name, value =>
    if !term.varOccursFree name then term
    else
      match term with
      | .var n => if n = name then value else term
      | .node f args => .node f fun i => substituteWithin fuel (args i) name value
      | .bind k binder domain body =>
        let newDomain := substituteWithin fuel domain name value
        let rebound := substBinderBody (substituteWithin fuel) binder body name value
        .bind k rebound.1 newDomain rebound.2
      | .axiomNode .. => term

attribute [grind =] substituteWithin

def substitute (term : CoreTerm) (name : String) (value : CoreTerm) : CoreTerm :=
  substituteWithin term.size term name value

theorem size_substituteWithin_var (fuel : Nat) (t : CoreTerm) (x y : String) :
    (substituteWithin fuel t x (var y)).size = t.size := by
  induction fuel generalizing t x y with
  | zero => rfl
  | succ fuel ih =>
    unfold substituteWithin
    split
    · rfl
    · cases t with
      | var n => dsimp only; split <;> rfl
      | node f args => simp only [size, ih]
      | bind k binder domain body =>
        simp only [substBinderBody, size, ih]
        split
        · rfl
        · split <;> simp only [ih]
      | axiomNode n ty fw => rfl

theorem substituteWithin_stable (t : CoreTerm) (x : String) (v : CoreTerm) (n m : Nat)
    (fst : t.size ≤ n) (snd : t.size ≤ m) :
    substituteWithin n t x v = substituteWithin m t x v := by
  induction n generalizing t x v m with
  | zero => exact absurd t.size_pos (by omega)
  | succ n ih =>
    cases m with
    | zero => exact absurd t.size_pos (by omega)
    | succ m =>
      unfold substituteWithin
      split
      · rfl
      · cases t with
        | var y | axiomNode y ty fw => rfl
        | node f args =>
          have part (i) : substituteWithin n (args i) x v = substituteWithin m (args i) x v := by
            have smaller := size_arg_lt f args i
            exact ih _ _ _ _ (by omega) (by omega)
          simp only [part]
        | bind k binder domain body =>
          simp only [size] at fst snd
          have here (s y w) (small : s.size ≤ body.size) :
              substituteWithin n s y w = substituteWithin m s y w :=
            ih s y w m (by omega) (by omega)
          have outer : substituteWithin n domain x v = substituteWithin m domain x v :=
            ih _ _ _ _ (by omega) (by omega)
          have renamed (z) : (substituteWithin m body binder (var z)).size ≤ body.size :=
            le_of_eq (size_substituteWithin_var m body binder z)
          simp only [substBinderBody, outer, here body _ _ le_rfl, here _ x v (renamed _)]

theorem substituteWithin_eq (t : CoreTerm) (x : String) (v : CoreTerm) {n : Nat}
    (he : t.size ≤ n) : substituteWithin n t x v = t.substitute x v :=
  substituteWithin_stable t x v n t.size he le_rfl

theorem substitute_of_not_free {t : CoreTerm} {x : String} (ha : ¬ t.Free x) (v : CoreTerm) :
    t.substitute x v = t := by
  unfold substitute
  cases t.size with
  | zero => rfl
  | succ n =>
    unfold substituteWithin
    rw [if_pos (by simpa [Free] using ha)]

@[simp] theorem substitute_var_same (x : String) (v : CoreTerm) : (var x).substitute x v = v := by
  simp [substitute, size, substituteWithin, varOccursFree]

@[simp] theorem substitute_axiomNode (n x : String) (ty : CoreTerm) (fw : FrameworkId)
    (v : CoreTerm) : (axiomNode n ty fw).substitute x v = axiomNode n ty fw := by
  simp [substitute, size, Nat.add_comm 1, substituteWithin]

@[simp] theorem substitute_node (f : Former) (args : Fin f.arity → CoreTerm) (x : String)
    (v : CoreTerm) :
    (node f args).substitute x v = node f fun i => (args i).substitute x v := by
  by_cases free : (node f args).Free x
  · unfold substitute
    simp only [size, Nat.add_comm 1, substituteWithin]
    rw [if_neg (by simpa [Free] using free)]
    congr 1
    funext i
    have smaller := size_arg_lt f args i
    simp only [size] at smaller
    exact substituteWithin_eq _ x v (by omega)
  · rw [substitute_of_not_free free]
    congr 1
    funext i
    apply (substitute_of_not_free _ v).symm
    intro hin
    exact free ((free_node f args x).mpr ⟨i, hin⟩)

theorem substitute_bind {k : Binding} {binder : String} {domain body : CoreTerm} {x : String}
    (free : (bind k binder domain body).Free x) (v : CoreTerm) :
    (bind k binder domain body).substitute x v =
      bind k (substBinderBody substitute binder body x v).1 (domain.substitute x v)
        (substBinderBody substitute binder body x v).2 := by
  have renamed (z) : (body.substitute binder (var z)).size ≤ domain.size + body.size :=
    le_trans (le_of_eq (size_substituteWithin_var _ body binder z)) (Nat.le_add_left _ _)
  have hin (y w) : substituteWithin (domain.size + body.size) body y w = body.substitute y w :=
    substituteWithin_eq body y w (Nat.le_add_left _ _)
  have whole : (bind k binder domain body).size = (domain.size + body.size) + 1 := by
    simp only [size]; omega
  have unfolded : (bind k binder domain body).substitute x v =
      bind k (substBinderBody (substituteWithin (domain.size + body.size)) binder body x v).1
        (substituteWithin (domain.size + body.size) domain x v)
        (substBinderBody (substituteWithin (domain.size + body.size)) binder body x v).2 := by
    rw [substitute, whole, substituteWithin, if_neg (by simpa [Free] using free)]
  rw [unfolded, substituteWithin_eq domain x v (Nat.le_add_right _ _)]
  simp only [substBinderBody, hin, substituteWithin_eq _ x v (renamed _)]

theorem size_substitute_var (t : CoreTerm) (x y : String) :
    (t.substitute x (var y)).size = t.size :=
  size_substituteWithin_var t.size t x y

theorem AllAxioms.substitute {P : String → CoreTerm → FrameworkId → Prop} {t v : CoreTerm}
    (all : t.AllAxioms P) (x : String) (allValue : v.AllAxioms P) :
    (t.substitute x v).AllAxioms P := by
  generalize hb : t.size = n
  induction n using Nat.strong_induction_on generalizing t x v with
  | _ n ih =>
    subst hb
    by_cases free : t.Free x
    · cases t with
      | var name =>
        rw [(free_var name x).mp free, substitute_var_same]
        exact allValue
      | axiomNode name ty framework =>
        rw [substitute_axiomNode]
        exact all
      | node f args =>
        rw [substitute_node]
        intro i
        exact ih _ (size_arg_lt f args i) (all i) x allValue rfl
      | bind k binder domain body =>
        have smaller : domain.size < (bind k binder domain body).size ∧
            body.size < (bind k binder domain body).size := by
          simp only [size]; omega
        rw [substitute_bind free]
        apply And.intro
        · exact ih _ smaller.1 all.1 x allValue rfl
        · unfold substBinderBody
          split
          · exact all.2
          · split
            · have once := ih _ smaller.2 all.2 binder
                (v := .var (freshBinderName binder v body x)) trivial rfl
              refine ih _ ?_ once x allValue rfl
              rw [size_substitute_var]
              exact smaller.2
            · exact ih _ smaller.2 all.2 x allValue rfl
    · rw [substitute_of_not_free free]
      exact all

/-- The names a simultaneous substitution must avoid: those of the term, and of every
    replacement with its value. -/
def usedNames (term : CoreTerm) (replacements : List (String × CoreTerm)) : Finset String :=
  replacements.foldl (fun used entry => insert entry.1 used ∪ entry.2.freeVars) term.freeVars

/-- The first pass gives every replaced name an intermediate one; `staged` collects them. -/
def stageNames : List (String × CoreTerm) → Finset String → CoreTerm →
    CoreTerm × List (String × CoreTerm)
  | [], _, result => (result, [])
  | (name, value) :: rest, used, result =>
    let fresh := firstFresh (fun index => name ++ "_subst" ++ toString index)
      (fun candidate => decide (candidate ∈ used)) used.card 0
    let later := stageNames rest (insert fresh used) (result.substitute name (var fresh))
    (later.1, (fresh, value) :: later.2)

def substituteAll (term : CoreTerm) (replacements : List (String × CoreTerm)) : CoreTerm :=
  let (result, staged) := stageNames replacements (usedNames term replacements) term
  staged.foldl (fun result entry => result.substitute entry.1 entry.2) result

end CoreTerm

end Kernel
