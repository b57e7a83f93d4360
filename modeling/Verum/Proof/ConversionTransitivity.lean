import Verum.Proof.Checker
import Verum.Proof.ConversionLaws

namespace Proof

variable {α : Type} {as bs cs : List α}

theorem Accepts.allChecked {check : α → Run Bool} {xs : List α} (each : ∀ item ∈ xs, Accepts (check item)) :
    Accepts (allChecked check xs) := by
  induction xs with
  | nil => exact .inl rfl
  | cons item rest ih =>
    rw [List.forall_mem_cons] at each
    exact .both each.1 (ih each.2)

theorem zip_join (length : as.length = bs.length) {pos : Nat} {a c : α}
    (hit : (as.zip cs)[pos]? = some (a, c)) :
    ∃ b, (as.zip bs)[pos]? = some (a, b) ∧ (bs.zip cs)[pos]? = some (b, c) := by
  rw [List.getElem?_zip_eq_some] at hit
  have hin : pos < bs.length := by
    rw [← length]
    exact (List.getElem?_eq_some_iff.mp hit.1).1
  refine ⟨bs[pos], ?_, ?_⟩
  · rw [List.getElem?_zip_eq_some]
    exact ⟨hit.1, List.getElem?_eq_getElem hin⟩
  · rw [List.getElem?_zip_eq_some]
    exact ⟨List.getElem?_eq_getElem hin, hit.2⟩

theorem allChecked_join (length : as.length = bs.length) {left right whole : (α × α) × Nat → Run Bool}
    (join : ∀ a b c pos, left ((a, b), pos) = pure true → right ((b, c), pos) = pure true →
      Accepts (whole ((a, c), pos))) (first : allChecked left (as.zip bs).zipIdx = pure true)
    (second : allChecked right (bs.zip cs).zipIdx = pure true) : Accepts (allChecked whole (as.zip cs).zipIdx) := by
  rw [allChecked_eq_true] at first second
  apply Accepts.allChecked
  intro ⟨⟨a, c⟩, pos⟩ mem
  obtain ⟨b, pre, after⟩ := zip_join length (List.mem_zipIdx_iff_getElem?.mp mem)
  exact join a b c pos (first _ (List.mem_zipIdx_iff_getElem?.mpr pre))
    (second _ (List.mem_zipIdx_iff_getElem?.mpr after))

theorem allChecked_zipIdx (check : α → Run Bool) (xs : List α) :
    allChecked check xs = allChecked (fun e => check e.1) xs.zipIdx := by
  rw [← allChecked_map check Prod.fst, List.zipIdx_map_fst]

theorem levelEq_trans {a b c : Level} (first : levelEq a b = true) (second : levelEq b c = true) :
    levelEq a c = true := by
  simp only [levelEq, decide_eq_true_eq] at first second ⊢
  exact first.trans second

def Term.isPair : Term → Bool
  | .pair _ _ => true
  | _ => false

theorem allChecked_join_pairs (length : as.length = bs.length) {left right whole : α × α → Run Bool}
    (join : ∀ a b c, left (a, b) = pure true → right (b, c) = pure true → Accepts (whole (a, c)))
    (first : allChecked left (as.zip bs) = pure true) (second : allChecked right (bs.zip cs) = pure true) :
    Accepts (allChecked whole (as.zip cs)) := by
  rw [allChecked_zipIdx] at first second ⊢
  exact allChecked_join length (fun a b c _ => join a b c) first second

section Join

variable {left right whole : Conversion → Term → Term → Run Bool}
  (join : ∀ conversion a b c, left conversion a b = pure true → right conversion b c = pure true →
    Accepts (whole conversion a c))

include join

variable {conversion : Conversion}

theorem termsDefEq_join {as bs cs : List Term} (first : termsDefEq left conversion as bs = pure true)
    (second : termsDefEq right conversion bs cs = pure true) : Accepts (termsDefEq whole conversion as cs) := by
  simp only [termsDefEq] at first second ⊢
  split at first
  · next length =>
    split at second
    · next length' =>
      rw [if_pos (length.trans length')]
      exact allChecked_join_pairs length (fun a b c => join conversion a b c) first second
    · simp at second
  · simp at first

theorem fieldDefEq_join {idx : Nat} {a b c : DataField}
    (first : fieldDefEq left conversion idx a b = pure true)
    (second : fieldDefEq right conversion idx b c = pure true) :
    Accepts (fieldDefEq whole conversion idx a c) := by
  simp only [fieldDefEq] at first second ⊢
  generalize recursiveIndices a = as at first ⊢
  generalize recursiveIndices b = bs at first second
  generalize recursiveIndices c = cs at second ⊢
  generalize fieldValueType a idx = x at first ⊢
  generalize fieldValueType b idx = y at first second
  generalize fieldValueType c idx = z at second ⊢
  cases as with
  | some as =>
    cases bs with
    | none => cases first
    | some bs =>
      cases cs with
      | none => cases second
      | some cs => exact termsDefEq_join join first second
  | none =>
    cases bs with
    | some bs => cases first
    | none =>
      cases cs with
      | some cs => cases second
      | none =>
        cases x with
        | none => cases first
        | some x =>
          cases y with
          | none => cases first
          | some y =>
            cases z with
            | none => cases second
            | some z => exact join _ x y z first second

theorem constructorDefEq_join {a b c : DataConstructor} (first : constructorDefEq left conversion a b = pure true)
    (second : constructorDefEq right conversion b c = pure true) :
    Accepts (constructorDefEq whole conversion a c) := by
  simp only [constructorDefEq, both_eq_true, Run.pure_eq_pure, decide_eq_true_eq] at first second
  obtain ⟨arity, idxs, fs⟩ := first
  obtain ⟨arity', indices', fields'⟩ := second
  have lengths : decide (a.fields.length = c.fields.length) = true := by
    simp [arity, arity']
  rw [← arity] at indices'
  rw [constructorDefEq, lengths]
  exact .both (.inl rfl) (.both (termsDefEq_join join idxs indices')
    (allChecked_join arity (fun _ _ _ _ => fieldDefEq_join join) fs fields'))

theorem defEqWhnf_join {a b c : Term} (eq : a.isPair = b.isPair) (same' : b.isPair = c.isPair)
    (first : defEqWhnf left (fun _ _ _ => pure false) conversion a b = pure true)
    (second : defEqWhnf right (fun _ _ _ => pure false) conversion b c = pure true) :
    Accepts (defEqWhnf whole (fun _ _ _ => pure false) conversion a c) := by
  cases a with
  | data an al ai ac =>
    cases b with
    | data bn bl bi bc =>
      cases c with
      | data cn cl ci cc =>
        simp only [defEqWhnf, both_eq_true, Run.pure_eq_pure, Bool.and_eq_true, decide_eq_true_eq]
          at first second
        obtain ⟨⟨⟨ns, ls⟩, length⟩, idxs, count, ctors⟩ := first
        obtain ⟨⟨⟨names', levels'⟩, length'⟩, indices', count', constructors'⟩ := second
        subst ns names'
        simp only [defEqWhnf, levelEq_trans ls levels', length.trans length', count.trans count']
        exact .both (.inl rfl)
          (.both (allChecked_join length (fun a b c pos => join (conversion.under pos) a b c)
            idxs indices')
          (.both (.inl rfl)
            (allChecked_join_pairs count (fun _ _ _ => constructorDefEq_join join) ctors
              constructors')))
      | pair x y => cases same'
      | _ => cases second
    | pair x y => cases eq
    | _ => cases first
  | construct a i as =>
    cases b with
    | construct b j bs =>
      cases c with
      | construct c k cs =>
        simp only [defEqWhnf, both_eq_true, Run.pure_eq_pure, decide_eq_true_eq] at first second
        obtain ⟨idx, owner, args⟩ := first
        obtain ⟨index', owner', args'⟩ := second
        subst idx index'
        simp only [defEqWhnf]
        exact .both (.inl (by simp)) (.both (join _ _ _ _ owner owner') (termsDefEq_join join args args'))
      | pair x y => cases same'
      | _ => cases second
    | pair x y => cases eq
    | _ => cases first
  | induct a am as =>
    cases b with
    | induct b bm bs =>
      cases c with
      | induct c cm cs =>
        simp only [defEqWhnf, both_eq_true] at first second
        exact .both (join _ _ _ _ first.1 second.1)
          (.both (join _ _ _ _ first.2.1 second.2.1) (termsDefEq_join join first.2.2 second.2.2))
      | pair x y => cases same'
      | _ => cases second
    | pair x y => cases eq
    | _ => cases first
  | letIn v body =>
    cases b with
    | pair x y => cases eq
    | _ => cases first
  | var i =>
    cases b with
    | var j =>
      cases c with
      | var k =>
        simp only [defEqWhnf, Run.pure_eq_pure, decide_eq_true_eq] at first second
        left
        simp [defEqWhnf, first, second]
      | pair x y => cases same'
      | _ => cases second
    | pair x y => cases eq
    | _ => cases first
  | «universe» l =>
    cases b with
    | «universe» m =>
      cases c with
      | «universe» n =>
        simp only [defEqWhnf, Run.pure_eq_pure] at first second
        left
        simp only [defEqWhnf, levelEq_trans first second]
      | pair x y => cases same'
      | _ => cases second
    | pair x y => cases eq
    | _ => cases first
  | pi a a' | lam a a' | app a a' | sigma a a' =>
    cases b with
    | pi b b' | lam b b' | app b b' | sigma b b' =>
      cases c with
      | pi c c' | lam c c' | app c c' | sigma c c' =>
        first
        | simp only [defEqWhnf, both_eq_true] at first second
          exact .both (join _ _ _ _ first.1 second.1) (join _ _ _ _ first.2 second.2)
        | cases first
        | cases second
      | pair x y => cases same'
      | _ => cases second
    | pair x y => cases eq
    | _ => cases first
  | pair a a' =>
    cases b with
    | pair b b' =>
      cases c with
      | pair c c' =>
        simp only [defEqWhnf, both_eq_true] at first second
        exact .both (join _ _ _ _ first.1 second.1) (join _ _ _ _ first.2 second.2)
      | _ => cases same'
    | _ => cases eq
  | fst a | snd a | refl a =>
    cases b with
    | fst b | snd b | refl b =>
      cases c with
      | fst c | snd c | refl c =>
        first
        | exact join _ _ _ _ first second
        | cases first
        | cases second
      | pair x y => cases same'
      | _ => cases second
    | pair x y => cases eq
    | _ => cases first
  | id a a' a'' | j a a' a'' | idElim a a' a'' =>
    cases b with
    | id b b' b'' | j b b' b'' | idElim b b' b'' =>
      cases c with
      | id c c' c'' | j c c' c'' | idElim c c' c'' =>
        first
        | simp only [defEqWhnf, both_eq_true] at first second
          exact .both (join _ _ _ _ first.1 second.1)
            (.both (join _ _ _ _ first.2.1 second.2.1) (join _ _ _ _ first.2.2 second.2.2))
        | cases first
        | cases second
      | pair x y => cases same'
      | _ => cases second
    | pair x y => cases eq
    | _ => cases first
  | funExt a a' a'' p =>
    cases b with
    | funExt b b' b'' q =>
      cases c with
      | funExt c c' c'' r =>
        simp only [defEqWhnf, both_eq_true] at first second
        exact .both (join _ _ _ _ first.1 second.1)
          (.both (join _ _ _ _ first.2.1 second.2.1)
            (.both (join _ _ _ _ first.2.2.1 second.2.2.1) (join _ _ _ _ first.2.2.2 second.2.2.2)))
      | pair x y => cases same'
      | _ => cases second
    | pair x y => cases eq
    | _ => cases first

end Join

section Reflexivity

variable {compare : Conversion → Term → Term → Run Bool}
  (reflexive : ∀ conversion a, compare conversion a a = pure true)

include reflexive

theorem termsDefEq_refl (conversion : Conversion) (terms : List Term) :
    termsDefEq compare conversion terms terms = pure true := by
  rw [termsDefEq, if_pos rfl]
  induction terms with
  | nil => rfl
  | cons term rest ih => simp [allChecked, reflexive, ih]

theorem telescopeDefEq_refl (conversion : Conversion) (terms : List Term) :
    telescopeDefEq compare conversion terms terms = pure true := by
  rw [telescopeDefEq]
  generalize 0 = idx
  induction terms generalizing idx with
  | nil => rfl
  | cons term rest ih => simp [allChecked, reflexive, ih]

theorem fieldDefEq_refl (conversion : Conversion) (idx : Nat) (field : DataField) :
    fieldDefEq compare conversion idx field field = pure true := by
  cases field <;> simp [fieldDefEq, recursiveIndices, fieldValueType, reflexive, termsDefEq_refl reflexive]

theorem constructorDefEq_refl (conversion : Conversion) (constructor : DataConstructor) :
    constructorDefEq compare conversion constructor constructor = pure true := by
  simp only [constructorDefEq, both_eq_true, termsDefEq_refl reflexive, decide_true, true_and]
  generalize 0 = idx
  generalize constructor.fields = fs
  induction fs generalizing idx with
  | nil => rfl
  | cons field rest ih => simp [allChecked, fieldDefEq_refl reflexive, ih]

theorem defEqWhnf_refl {etaMatch : Conversion → Term → Term → Run Bool} {conversion : Conversion}
    {a : Term}
    (head : ∀ v body, a ≠ .letIn v body) :
    defEqWhnf compare etaMatch conversion a a = pure true := by
  have ctors {f : DataConstructor × DataConstructor → Run Bool} (same : ∀ item, f (item, item) = pure true)
      (xs : List DataConstructor) : allChecked f (xs.zip xs) = pure true := by
    induction xs with
    | nil => rfl
    | cons item rest ih => simp [allChecked, same, ih]
  cases a with
  | letIn v body => exact absurd rfl (head v body)
  | _ =>
    simp [defEqWhnf, reflexive, termsDefEq_refl reflexive, telescopeDefEq_refl reflexive, ctors,
      constructorDefEq_refl reflexive,
      levelEq]

end Reflexivity

section Transitivity

variable {conversion : Conversion}

def Stable (conversion : Conversion) (term : Term) : Prop :=
  ∀ result, conversion.whnf term = pure result → result = term

/-- A spine of projections, the outermost first; `true` is `fst`. -/
def project : List Bool → Term → Term
  | [], term => term
  | true :: rest, term => .fst (project rest term)
  | false :: rest, term => .snd (project rest term)

variable {term result a b first second other left right : Term} {depth total : Nat}
  {compare etaMatch : Conversion → Term → Term → Run Bool}

theorem whnf_idempotent (reduced : conversion.whnf term = pure result) : conversion.whnf result = pure result := by
  obtain ⟨used, hw, reduces⟩ := whnf_eq_pure.mp reduced
  obtain ⟨again, le, eq⟩ := reduces.idempotent
  exact whnf_eq_pure.mpr ⟨again, by omega, eq⟩

theorem whnf_not_letIn (reduced : conversion.whnf term = pure result) (v body : Term) :
    result ≠ .letIn v body := by
  obtain ⟨used, hw, reduces⟩ := whnf_eq_pure.mp reduced
  intro shape
  rw [shape] at reduces
  exact reduces.not_letIn

theorem Stable.of_whnf (reduced : conversion.whnf term = pure result) : Stable conversion result := by
  intro other ret
  rw [whnf_idempotent reduced] at ret
  exact (Run.pure_eq_pure.mp ret).symm

theorem Stable.fst (stable : Stable conversion term) (single : term.isPair = false) :
    Stable conversion (.fst term) := by
  intro result ret
  obtain ⟨used, hw, reduces⟩ := whnf_eq_pure.mp ret
  cases reduces with
  | canonical shape => cases shape
  | fstPair inner _ =>
    have eq := stable _ (whnf_eq_pure.mpr ⟨_, by omega, inner⟩)
    subst eq
    cases single
  | fst inner _ => rw [stable _ (whnf_eq_pure.mpr ⟨_, by omega, inner⟩)]

theorem Stable.snd (stable : Stable conversion term) (single : term.isPair = false) :
    Stable conversion (.snd term) := by
  intro result ret
  obtain ⟨used, hw, reduces⟩ := whnf_eq_pure.mp ret
  cases reduces with
  | canonical shape => cases shape
  | sndPair inner _ =>
    have eq := stable _ (whnf_eq_pure.mpr ⟨_, by omega, inner⟩)
    subst eq
    cases single
  | snd inner _ => rw [stable _ (whnf_eq_pure.mpr ⟨_, by omega, inner⟩)]

theorem project_isPair (spine : List Bool) (single : term.isPair = false) :
    (project spine term).isPair = false := by
  cases spine with
  | nil => exact single
  | cons side rest => cases side <;> rfl

theorem Stable.project (stable : Stable conversion term) (single : term.isPair = false) (spine : List Bool) :
    Stable conversion (project spine term) := by
  induction spine with
  | nil => exact stable
  | cons side rest ih =>
    cases side with
    | true => exact ih.fst (project_isPair rest single)
    | false => exact ih.snd (project_isPair rest single)

theorem defEqWithoutEta_eq_true (equal : Conversion.defEqWithoutEta (depth + 1) conversion a b = pure true) :
    a = b ∨ ∃ left right, conversion.whnf a = pure left ∧ conversion.whnf b = pure right ∧
      defEqWhnf (Conversion.defEqWithoutEta depth) (fun _ _ _ => pure false) conversion left right =
        pure true := by
  simp only [Conversion.defEqWithoutEta] at equal
  split at equal
  · next eq => exact .inl eq
  · simp only [Run.bind_eq_pure] at equal
    obtain ⟨left, reducedLeft, right, reducedRight, equal⟩ := equal
    exact .inr ⟨left, right, reducedLeft, reducedRight, equal⟩

theorem accepts_of_whnf
    (heads : ∀ left right, conversion.whnf a = pure left → conversion.whnf b = pure right →
      Accepts (defEqWhnf (Conversion.defEqWithoutEta depth) (fun _ _ _ => pure false) conversion left right)) :
    Accepts (Conversion.defEqWithoutEta (depth + 1) conversion a b) := by
  simp only [Conversion.defEqWithoutEta]
  split
  · exact .inl rfl
  · rcases whnf_outcome conversion a with ⟨left, reducedLeft⟩ | failed
    · rcases whnf_outcome conversion b with ⟨right, reducedRight⟩ | failed
      · rw [reducedLeft, reducedRight]
        exact heads left right reducedLeft reducedRight
      · rw [reducedLeft, failed]
        exact .inr rfl
    · rw [failed]
      exact .inr rfl

theorem defEqWithoutEta_refl (depth : Nat) (conversion : Conversion) (a : Term) :
    Conversion.defEqWithoutEta (depth + 1) conversion a a = pure true := by
  simp [Conversion.defEqWithoutEta]

theorem project_accepts {p q : Term} (stableP : Stable conversion p) (stableQ : Stable conversion q)
    (singleP : p.isPair = false) (singleQ : q.isPair = false)
    (eq : Conversion.defEqWithoutEta depth conversion p q = pure true) (spine : List Bool) :
    Accepts (Conversion.defEqWithoutEta (depth + spine.length) conversion (project spine p)
      (project spine q)) := by
  induction spine with
  | nil => exact .inl eq
  | cons side rest ih =>
    apply accepts_of_whnf
    intro left right reducedLeft reducedRight
    rw [stableP.project singleP (side :: rest) _ reducedLeft,
      stableQ.project singleQ (side :: rest) _ reducedRight]
    cases side <;> exact ih

/-- Comparisons at depths `n` and `m` with a common middle term. -/
def Joins (total : Nat) : Prop :=
  ∀ {n m : Nat} {conversion : Conversion} {a b c : Term}, n + m ≤ total →
    Conversion.defEqWithoutEta n conversion a b = pure true →
    Conversion.defEqWithoutEta m conversion b c = pure true →
    Accepts (Conversion.defEqWithoutEta (2 * (n + m)) conversion a c)

/-- The same with the second comparison seen through a spine of projections. -/
def JoinsThrough (total : Nat) : Prop :=
  ∀ {n m : Nat} {conversion : Conversion} {a p q : Term} (spine : List Bool), n + m ≤ total →
    Stable conversion p → Stable conversion q → p.isPair = false → q.isPair = false →
    Conversion.defEqWithoutEta n conversion a (project spine p) = pure true →
    Conversion.defEqWithoutEta m conversion p q = pure true →
    Accepts (Conversion.defEqWithoutEta (2 * (n + m) + spine.length) conversion a (project spine q))

theorem pair_left (single : other.isPair = false) :
    defEqWhnf compare etaMatch conversion (.pair first second) other =
      both (compare conversion first (.fst other)) (compare conversion second (.snd other)) := by
  cases other <;> first | rfl | cases single

theorem pair_right (single : other.isPair = false) :
    defEqWhnf compare etaMatch conversion other (.pair first second) =
      both (compare conversion first (.fst other)) (compare conversion second (.snd other)) := by
  cases other <;> first | rfl | cases single

theorem isPair_eq_true (shape : term.isPair = true) : ∃ first second, term = .pair first second := by
  cases term with
  | pair first second => exact ⟨first, second, rfl⟩
  | _ => cases shape

theorem Accepts.deeper {hl : Nat} (accepted : Accepts (Conversion.defEqWithoutEta depth conversion a b))
    (le : depth ≤ hl) : Accepts (Conversion.defEqWithoutEta hl conversion a b) :=
  (defEqWithoutEta_le le conversion a b).accepts accepted

theorem defEqWithoutEta_of_whnf (reducedLeft : conversion.whnf a = pure left)
    (reducedRight : conversion.whnf b = pure right)
    (eq : defEqWhnf (Conversion.defEqWithoutEta depth) (fun _ _ _ => pure false) conversion left right =
      pure true) : Conversion.defEqWithoutEta (depth + 1) conversion left right = pure true := by
  simp only [Conversion.defEqWithoutEta]
  split
  · rfl
  · rw [whnf_idempotent reducedLeft, whnf_idempotent reducedRight]
    exact eq

theorem joinsThrough_succ (joins : Joins (total + 1)) (through : JoinsThrough total) :
    JoinsThrough (total + 1) := by
  intro n m conversion a p q spine sum stableP stableQ singleP singleQ first second
  cases spine with
  | nil => exact joins sum first second
  | cons side rest =>
    cases n with
    | zero => simp [Conversion.defEqWithoutEta] at first
    | succ n =>
      rcases defEqWithoutEta_eq_true first with eq | ⟨left, right, reducedLeft, reducedRight, equal⟩
      · rw [eq]
        have accepted := project_accepts stableP stableQ singleP singleQ second (side :: rest)
        exact accepted.deeper (by omega)
      · have shapeP := stableP.project singleP (side :: rest) _ reducedRight
        have step : 2 * (n + 1 + m) + (side :: rest).length = 2 * (n + m) + (side :: rest).length + 1 + 1 := by
          omega
        rw [step]
        apply accepts_of_whnf
        intro left' right' reducedLeft' reducedRight'
        rw [reducedLeft, Run.pure_eq_pure] at reducedLeft'
        subst reducedLeft'
        rw [stableQ.project singleQ (side :: rest) _ reducedRight']
        rw [shapeP] at equal
        by_cases shape : left.isPair = true
        · obtain ⟨x, y, rfl⟩ := isPair_eq_true shape
          rw [pair_left (project_isPair _ singleP), both_eq_true] at equal
          rw [pair_left (project_isPair _ singleQ)]
          have fsts := through (true :: side :: rest) (by omega) stableP stableQ singleP singleQ equal.1 second
          have snds := through (false :: side :: rest) (by omega) stableP stableQ singleP singleQ equal.2 second
          exact .both (fsts.deeper (by simp only [List.length_cons]; omega))
            (snds.deeper (by simp only [List.length_cons]; omega))
        · cases side with
          | true =>
            cases left with
            | fst u =>
              have inner := through rest (by omega) stableP stableQ singleP singleQ equal second
              exact inner.deeper (by simp only [List.length_cons]; omega)
            | pair x y => exact absurd rfl shape
            | _ => cases equal
          | false =>
            cases left with
            | snd u =>
              have inner := through rest (by omega) stableP stableQ singleP singleQ equal second
              exact inner.deeper (by simp only [List.length_cons]; omega)
            | pair x y => exact absurd rfl shape
            | _ => cases equal

theorem defEqWithoutEta_unfold (ne : a ≠ b) (reducedLeft : conversion.whnf a = pure left)
    (reducedRight : conversion.whnf b = pure right) (depth : Nat) :
    Conversion.defEqWithoutEta (depth + 1) conversion a b =
      defEqWhnf (Conversion.defEqWithoutEta depth) (fun _ _ _ => pure false) conversion left right := by
  rw [Conversion.defEqWithoutEta, if_neg ne, reducedLeft, reducedRight]
  rfl

theorem Stable.compared {x : Term} (stable : Stable conversion term)
    (equal : Conversion.defEqWithoutEta depth conversion x term = pure true) :
    x = term ∨ (∃ head, conversion.whnf x = pure head) ∧ conversion.whnf term = pure term := by
  cases depth with
  | zero => simp [Conversion.defEqWithoutEta] at equal
  | succ depth =>
    rcases defEqWithoutEta_eq_true equal with eq | ⟨head, result, reduced, ret, _⟩
    · exact .inl eq
    · rw [stable _ ret] at ret
      exact .inr ⟨⟨head, reduced⟩, ret⟩

theorem joins_projections {n m : Nat} (joins : Joins total) (sum : n + m ≤ total) {x p q : Term}
    (headP : conversion.whnf p = pure p) (headQ : conversion.whnf q = pure q) (singleP : p.isPair = false)
    (singleQ : q.isPair = false) (first : Conversion.defEqWithoutEta n conversion x (.fst p) = pure true)
    (second : Conversion.defEqWithoutEta m conversion x (.fst q) = pure true) :
    p = q ∨ Accepts (defEqWhnf (Conversion.defEqWithoutEta (2 * (n + m))) (fun _ _ _ => pure false)
      conversion p q) := by
  by_cases eq : p = q
  · exact .inl eq
  right
  have stableP := (Stable.of_whnf headP).fst singleP
  have stableQ := (Stable.of_whnf headQ).fst singleQ
  have ne : Term.fst p ≠ .fst q := by
    intro equal
    cases equal
    exact eq rfl
  have ret : conversion.whnf (.fst p) = pure (.fst p) ∧ conversion.whnf (.fst q) = pure (.fst q) := by
    rcases stableP.compared first with atP | ⟨⟨head, reduced⟩, returnedP⟩
    · rcases stableQ.compared second with atQ | ⟨⟨head, reduced⟩, returnedQ⟩
      · exact absurd (atP.symm.trans atQ) ne
      · rw [atP] at reduced
        rw [stableP _ reduced] at reduced
        exact ⟨reduced, returnedQ⟩
    · rcases stableQ.compared second with atQ | ⟨_, returnedQ⟩
      · rw [atQ] at reduced
        rw [stableQ _ reduced] at reduced
        exact ⟨returnedP, reduced⟩
      · exact ⟨returnedP, returnedQ⟩
  have flipped := first
  rw [defEqWithoutEta_comm] at flipped
  have joined := (joins sum flipped second).deeper (Nat.le_add_right _ 2)
  rw [defEqWithoutEta_unfold ne ret.1 ret.2] at joined
  have inner : Accepts (Conversion.defEqWithoutEta (2 * (n + m) + 1) conversion p q) := joined
  rw [defEqWithoutEta_unfold eq headP headQ] at inner
  exact inner

theorem joins_succ (joins : Joins total) (through : JoinsThrough total) : Joins (total + 1) := by
  intro n m conversion a b c sum first second
  cases n with
  | zero => simp [Conversion.defEqWithoutEta] at first
  | succ n =>
    cases m with
    | zero => simp [Conversion.defEqWithoutEta] at second
    | succ m =>
      rcases defEqWithoutEta_eq_true first with eq | ⟨left, mid, reducedA, reducedB, equal⟩
      · rw [eq]
        exact Accepts.deeper (.inl second) (by omega)
      rcases defEqWithoutEta_eq_true second with eq | ⟨middle', right, reducedB', reducedC, equal'⟩
      · rw [← eq]
        exact Accepts.deeper (.inl first) (by omega)
      rw [reducedB, Run.pure_eq_pure] at reducedB'
      subst reducedB'
      have depth : 2 * (n + 1 + (m + 1)) = 2 * (n + m) + 3 + 1 := by omega
      rw [depth]
      apply accepts_of_whnf
      intro left' right' reducedA' reducedC'
      rw [reducedA, Run.pure_eq_pure] at reducedA'
      rw [reducedC, Run.pure_eq_pure] at reducedC'
      subst reducedA' reducedC'
      have headA := whnf_idempotent reducedA
      have headC := whnf_idempotent reducedC
      have join : ∀ conversion a b c, Conversion.defEqWithoutEta n conversion a b = pure true →
          Conversion.defEqWithoutEta m conversion b c = pure true →
          Accepts (Conversion.defEqWithoutEta (2 * (n + m) + 3) conversion a c) :=
        fun conversion a b c one two => (joins (by omega) one two).deeper (by omega)
      have swap : ∀ {depth a b}, Conversion.defEqWithoutEta depth conversion a b = pure true →
          Conversion.defEqWithoutEta depth conversion b a = pure true := by
        intro depth a b hh
        rw [defEqWithoutEta_comm]
        exact hh
      cases shapeA : left.isPair <;> cases shapeB : mid.isPair <;> cases shapeC : right.isPair
      · exact defEqWhnf_join join (shapeA.trans shapeB.symm) (shapeB.trans shapeC.symm) equal equal'
      · obtain ⟨z, w, rfl⟩ := isPair_eq_true shapeC
        have pre := swap (defEqWithoutEta_of_whnf reducedA reducedB equal)
        rw [pair_right shapeB, both_eq_true] at equal'
        rw [pair_right shapeA]
        have fsts := through [true] (by omega) (.of_whnf reducedB) (.of_whnf reducedA) shapeB shapeA
          equal'.1 pre
        have snds := through [false] (by omega) (.of_whnf reducedB) (.of_whnf reducedA) shapeB shapeA
          equal'.2 pre
        exact .both (fsts.deeper (by simp only [List.length_singleton]; omega))
          (snds.deeper (by simp only [List.length_singleton]; omega))
      · obtain ⟨x, y, rfl⟩ := isPair_eq_true shapeB
        rw [pair_right shapeA, both_eq_true] at equal
        rw [pair_left shapeC, both_eq_true] at equal'
        have projected := joins_projections joins (by omega) headA headC shapeA shapeC equal.1 equal'.1
        rcases projected with eq | accepted
        · rw [eq]
          exact .inl (defEqWhnf_refl (defEqWithoutEta_refl _) (whnf_not_letIn reducedC))
        · have follows : Follows
              (defEqWhnf (Conversion.defEqWithoutEta (2 * (n + m))) (fun _ _ _ => pure false) conversion left
                right)
              (defEqWhnf (Conversion.defEqWithoutEta (2 * (n + m) + 3)) (fun _ _ _ => pure false) conversion
                left right) :=
            defEqWhnf_follows (fun c a b => defEqWithoutEta_le (by omega) c a b) (fun _ _ _ => .refl _) _ _ _
          exact follows.accepts accepted
      · obtain ⟨x, y, rfl⟩ := isPair_eq_true shapeB
        obtain ⟨z, w, rfl⟩ := isPair_eq_true shapeC
        rw [pair_right shapeA, both_eq_true] at equal
        simp only [defEqWhnf, both_eq_true] at equal'
        rw [pair_right shapeA, defEqWithoutEta_comm _ _ z, defEqWithoutEta_comm _ _ w]
        exact .both (join _ _ _ _ (swap equal.1) equal'.1) (join _ _ _ _ (swap equal.2) equal'.2)
      · obtain ⟨x, y, rfl⟩ := isPair_eq_true shapeA
        have after := defEqWithoutEta_of_whnf reducedB reducedC equal'
        rw [pair_left shapeB, both_eq_true] at equal
        rw [pair_left shapeC]
        have fsts := through [true] (by omega) (.of_whnf reducedB) (.of_whnf reducedC) shapeB shapeC
          equal.1 after
        have snds := through [false] (by omega) (.of_whnf reducedB) (.of_whnf reducedC) shapeB shapeC
          equal.2 after
        exact .both (fsts.deeper (by simp only [List.length_singleton]; omega))
          (snds.deeper (by simp only [List.length_singleton]; omega))
      · obtain ⟨x, y, rfl⟩ := isPair_eq_true shapeA
        obtain ⟨z, w, rfl⟩ := isPair_eq_true shapeC
        rw [pair_left shapeB, both_eq_true] at equal
        rw [pair_right shapeB, both_eq_true] at equal'
        exact .both (join _ _ _ _ equal.1 (swap equal'.1)) (join _ _ _ _ equal.2 (swap equal'.2))
      · obtain ⟨x, y, rfl⟩ := isPair_eq_true shapeA
        obtain ⟨z, w, rfl⟩ := isPair_eq_true shapeB
        simp only [defEqWhnf, both_eq_true] at equal
        rw [pair_left shapeC, both_eq_true] at equal'
        rw [pair_left shapeC]
        exact .both (join _ _ _ _ equal.1 equal'.1) (join _ _ _ _ equal.2 equal'.2)
      · exact defEqWhnf_join join (shapeA.trans shapeB.symm) (shapeB.trans shapeC.symm) equal equal'

theorem joins_all (total : Nat) : Joins total ∧ JoinsThrough total := by
  induction total with
  | zero =>
    have empty : Joins 0 := by
      intro n m conversion a b c sum first
      have none : n = 0 := by omega
      simp [none, Conversion.defEqWithoutEta] at first
    refine ⟨empty, ?_⟩
    intro n m conversion a p q spine sum _ _ _ _ first
    have none : n = 0 := by omega
    simp [none, Conversion.defEqWithoutEta] at first
  | succ total ih =>
    have joins : Joins (total + 1) := joins_succ ih.1 ih.2
    have through : JoinsThrough (total + 1) := joinsThrough_succ joins ih.2
    exact ⟨joins, through⟩

end Transitivity

end Proof
