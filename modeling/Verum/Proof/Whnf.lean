import Verum.Proof.Conversion

namespace Proof

/-- The heads `whnf` returns as they are. -/
def Term.isCanonical : Term → Bool
  | .var _ | .letIn _ _ | .induct _ _ _ | .app _ _ | .fst _ | .snd _ | .j _ _ _ | .idElim _ _ _ => false
  | _ => true

/-- Head reduction with the fuel it uses. -/
inductive Reduces (conversion : Conversion) : Term → Term → Nat → Prop where
  | canonical {term} : term.isCanonical = true → Reduces conversion term term 1
  | neutral {index} : conversion.definition index = none → Reduces conversion (.var index) (.var index) 1
  | delta {index value result n} : conversion.definition index = some value →
      Reduces conversion value result n → Reduces conversion (.var index) result (n + 1)
  | zeta {value body result n} : Reduces conversion (subst body 0 value) result n →
      Reduces conversion (.letIn value body) result (n + 1)
  | beta {f x domain body result n m} : Reduces conversion f (.lam domain body) n →
      Reduces conversion (subst body 0 x) result m → Reduces conversion (.app f x) result (n + m + 1)
  | app {f x head n} : Reduces conversion f head n → (∀ domain body, head ≠ .lam domain body) →
      Reduces conversion (.app f x) (.app head x) (n + 1)
  | fstPair {p first second result n m} : Reduces conversion p (.pair first second) n →
      Reduces conversion first result m → Reduces conversion (.fst p) result (n + m + 1)
  | fst {p head n} : Reduces conversion p head n → (∀ first second, head ≠ .pair first second) →
      Reduces conversion (.fst p) (.fst head) (n + 1)
  | sndPair {p first second result n m} : Reduces conversion p (.pair first second) n →
      Reduces conversion second result m → Reduces conversion (.snd p) result (n + m + 1)
  | snd {p head n} : Reduces conversion p head n → (∀ first second, head ≠ .pair first second) →
      Reduces conversion (.snd p) (.snd head) (n + 1)
  | jRefl {motive base scrutinee value result n m} : Reduces conversion scrutinee (.refl value) n →
      Reduces conversion base result m → Reduces conversion (.j motive base scrutinee) result (n + m + 1)
  | j {motive base scrutinee head n} : Reduces conversion scrutinee head n →
      (∀ value, head ≠ .refl value) →
      Reduces conversion (.j motive base scrutinee) (.j motive base head) (n + 1)
  | idElimRefl {motive base scrutinee value result n m} : Reduces conversion scrutinee (.refl value) n →
      Reduces conversion base result m → Reduces conversion (.idElim motive base scrutinee) result (n + m + 1)
  | idElim {motive base scrutinee head n} : Reduces conversion scrutinee head n →
      (∀ value, head ≠ .refl value) →
      Reduces conversion (.idElim motive base scrutinee) (.idElim motive base head) (n + 1)
  | iota {scrutinee motive cases data constructor args declaration reduct result n m k} :
      Reduces conversion scrutinee (.construct data constructor args) n →
      Reduces conversion data declaration m →
      selectCase declaration constructor args motive cases = some reduct →
      Reduces conversion reduct result k →
      Reduces conversion (.induct scrutinee motive cases) result (n + m + k + 1)
  | induct {scrutinee motive cases data constructor args declaration n m} :
      Reduces conversion scrutinee (.construct data constructor args) n →
      Reduces conversion data declaration m →
      selectCase declaration constructor args motive cases = none →
      Reduces conversion (.induct scrutinee motive cases)
        (.induct (.construct data constructor args) motive cases) (n + m + 1)
  | inductStuck {scrutinee motive cases head n} : Reduces conversion scrutinee head n →
      (∀ data constructor args, head ≠ .construct data constructor args) →
      Reduces conversion (.induct scrutinee motive cases) (.induct head motive cases) (n + 1)

variable {ε α β : Type} {result : Except ε α} {next : α → Except ε β} {conversion : Conversion}
  {hb fuel used : Nat} {term : Term}

theorem bind_eq_ok {b : β} : (result >>= next) = .ok b ↔ ∃ a, result = .ok a ∧ next a = .ok b := by
  cases result <;> simp [Bind.bind, Except.bind]

theorem bind_ok (a : α) (next : α → Except ε β) : (Except.ok a >>= next) = next a := rfl

theorem whnfWithin_reduces {rest : Nat} {result : Term}
    (ret : conversion.whnfWithin hb term fuel = .ok (result, rest)) :
    ∃ used, Reduces conversion term result used ∧ fuel = used + rest := by
  induction hb generalizing term fuel rest result with
  | zero => simp [Conversion.whnfWithin, throw, throwThe, MonadExceptOf.throw] at ret
  | succ hb ih =>
    cases fuel with
    | zero => simp [Conversion.whnfWithin, throw, throwThe, MonadExceptOf.throw] at ret
    | succ fuel =>
      cases term with
      | var idx =>
        simp only [Conversion.whnfWithin] at ret
        cases defined : conversion.definition idx with
        | none =>
          simp only [defined] at ret
          cases ret
          exact ⟨1, .neutral defined, by omega⟩
        | some v =>
          simp only [defined] at ret
          obtain ⟨n, inner, spent⟩ := ih ret
          exact ⟨n + 1, .delta defined inner, by omega⟩
      | letIn v body =>
        simp only [Conversion.whnfWithin] at ret
        obtain ⟨n, inner, spent⟩ := ih ret
        exact ⟨n + 1, .zeta inner, by omega⟩
      | induct scrut motive cases =>
        simp only [Conversion.whnfWithin, bind_eq_ok] at ret
        obtain ⟨⟨head, left⟩, scrutinized, ret⟩ := ret
        obtain ⟨n, inner, spent⟩ := ih scrutinized
        simp only at ret
        split at ret
        · simp only [bind_eq_ok] at ret
          obtain ⟨⟨declaration, hl⟩, declared, ret⟩ := ret
          obtain ⟨m, owner, spentOwner⟩ := ih declared
          simp only at ret
          split at ret
          · next reduct selected =>
            obtain ⟨k, last, spentLast⟩ := ih ret
            exact ⟨n + m + k + 1, .iota inner owner selected last, by omega⟩
          · next stuck =>
            cases ret
            exact ⟨n + m + 1, .induct inner owner stuck, by omega⟩
        · next stuck =>
          cases ret
          exact ⟨n + 1, .inductStuck inner stuck, by omega⟩
      | app _ _ | fst _ | snd _ | j _ _ _ | idElim _ _ _ =>
        simp only [Conversion.whnfWithin, bind_eq_ok] at ret
        obtain ⟨⟨head, left⟩, principal, ret⟩ := ret
        obtain ⟨n, inner, spent⟩ := ih principal
        simp only at ret
        split at ret
        · obtain ⟨m, last, spentLast⟩ := ih ret
          refine ⟨n + m + 1, ?_, by omega⟩
          first
          | exact .beta inner last
          | exact .fstPair inner last
          | exact .sndPair inner last
          | exact .jRefl inner last
          | exact .idElimRefl inner last
        · next stuck =>
          cases ret
          refine ⟨n + 1, ?_, by omega⟩
          first
          | exact .app inner stuck
          | exact .fst inner stuck
          | exact .snd inner stuck
          | exact .j inner stuck
          | exact .idElim inner stuck
      | _ =>
        simp only [Conversion.whnfWithin] at ret
        cases ret
        exact ⟨1, .canonical rfl, by omega⟩

theorem Reduces.used_pos {result : Term} (reduces : Reduces conversion term result used) : 1 ≤ used := by
  cases reduces <;> omega

theorem Reduces.whnfWithin {result : Term} (reduces : Reduces conversion term result used) (hb fuel rest : Nat)
    (he : used ≤ hb) (budget : fuel = used + rest) :
    conversion.whnfWithin hb term fuel = .ok (result, rest) := by
  induction reduces generalizing hb fuel rest with
  | canonical shape =>
    rename_i term
    obtain ⟨hb, rfl⟩ := Nat.exists_eq_add_of_le' he
    obtain rfl : fuel = rest + 1 := by omega
    cases term <;> first | rfl | cases shape
  | neutral none =>
    obtain ⟨hb, rfl⟩ := Nat.exists_eq_add_of_le' he
    obtain rfl : fuel = rest + 1 := by omega
    simp only [Conversion.whnfWithin, none]
    rfl
  | delta defined inner ih =>
    obtain ⟨hb, rfl⟩ := Nat.exists_eq_add_of_le' (show 1 ≤ hb by omega)
    obtain ⟨fuel, rfl⟩ := Nat.exists_eq_add_of_le' (show 1 ≤ fuel by omega)
    simp only [Conversion.whnfWithin, defined]
    exact ih hb fuel rest (by omega) (by omega)
  | zeta inner ih =>
    obtain ⟨hb, rfl⟩ := Nat.exists_eq_add_of_le' (show 1 ≤ hb by omega)
    obtain ⟨fuel, rfl⟩ := Nat.exists_eq_add_of_le' (show 1 ≤ fuel by omega)
    simp only [Conversion.whnfWithin]
    exact ih hb fuel rest (by omega) (by omega)
  | @beta f x domain body result n m _ _ ihHead ihRest | @fstPair p first second result n m _ _ ihHead ihRest
  | @sndPair p first second result n m _ _ ihHead ihRest
  | @jRefl motive base scrut v result n m _ _ ihHead ihRest
  | @idElimRefl motive base scrut v result n m _ _ ihHead ihRest =>
    obtain ⟨hb, rfl⟩ := Nat.exists_eq_add_of_le' (show 1 ≤ hb by omega)
    obtain ⟨fuel, rfl⟩ := Nat.exists_eq_add_of_le' (show 1 ≤ fuel by omega)
    have head := ihHead hb fuel (m + rest) (by omega) (by omega)
    simp only [Conversion.whnfWithin, head]
    exact ihRest hb (m + rest) rest (by omega) (by omega)
  | app inner stuck ih | fst inner stuck ih | snd inner stuck ih | j inner stuck ih | idElim inner stuck ih
  | inductStuck inner stuck ih =>
    obtain ⟨hb, rfl⟩ := Nat.exists_eq_add_of_le' (show 1 ≤ hb by omega)
    obtain ⟨fuel, rfl⟩ := Nat.exists_eq_add_of_le' (show 1 ≤ fuel by omega)
    have head := ih hb fuel rest (by omega) (by omega)
    simp only [Conversion.whnfWithin, head, bind_ok]
    rfl
  | @iota scrut motive cases data constructor args declaration reduct result n m k _ _ selected _
      ihHead ihOwner ihRest =>
    obtain ⟨hb, rfl⟩ := Nat.exists_eq_add_of_le' (show 1 ≤ hb by omega)
    obtain ⟨fuel, rfl⟩ := Nat.exists_eq_add_of_le' (show 1 ≤ fuel by omega)
    have head := ihHead hb fuel (m + k + rest) (by omega) (by omega)
    have owner := ihOwner hb (m + k + rest) (k + rest) (by omega) (by omega)
    have last := ihRest hb (k + rest) rest (by omega) (by omega)
    simp only [Conversion.whnfWithin, head, bind_ok, owner, selected, last]
  | @induct scrut motive cases data constructor args declaration n m _ _ stuck ihHead ihOwner =>
    obtain ⟨hb, rfl⟩ := Nat.exists_eq_add_of_le' (show 1 ≤ hb by omega)
    obtain ⟨fuel, rfl⟩ := Nat.exists_eq_add_of_le' (show 1 ≤ fuel by omega)
    have head := ihHead hb fuel (m + rest) (by omega) (by omega)
    have owner := ihOwner hb (m + rest) rest (by omega) (by omega)
    simp only [Conversion.whnfWithin, head, bind_ok, owner, stuck]
    rfl

theorem Reduces.idempotent {result : Term} (reduces : Reduces conversion term result used) :
    ∃ again ≤ used, Reduces conversion result result again := by
  induction reduces with
  | canonical shape => exact ⟨1, Nat.le_refl _, .canonical shape⟩
  | neutral none => exact ⟨1, Nat.le_refl _, .neutral none⟩
  | delta _ _ ih | zeta _ ih
  | beta _ _ _ ih | fstPair _ _ _ ih | sndPair _ _ _ ih | jRefl _ _ _ ih | idElimRefl _ _ _ ih
  | iota _ _ _ _ _ _ ih =>
    obtain ⟨again, le, eq⟩ := ih
    exact ⟨again, by omega, eq⟩
  | app _ stuck ih =>
    obtain ⟨again, le, eq⟩ := ih
    exact ⟨again + 1, by omega, .app eq stuck⟩
  | fst _ stuck ih =>
    obtain ⟨again, le, eq⟩ := ih
    exact ⟨again + 1, by omega, .fst eq stuck⟩
  | snd _ stuck ih =>
    obtain ⟨again, le, eq⟩ := ih
    exact ⟨again + 1, by omega, .snd eq stuck⟩
  | j _ stuck ih =>
    obtain ⟨again, le, eq⟩ := ih
    exact ⟨again + 1, by omega, .j eq stuck⟩
  | idElim _ stuck ih =>
    obtain ⟨again, le, eq⟩ := ih
    exact ⟨again + 1, by omega, .idElim eq stuck⟩
  | inductStuck _ stuck ih =>
    obtain ⟨again, le, eq⟩ := ih
    exact ⟨again + 1, by omega, .inductStuck eq stuck⟩
  | @induct _ _ _ _ _ _ _ n m inner owner stuck ih _ =>
    exact ⟨1 + m + 1, by have := inner.used_pos; omega, .induct (.canonical rfl) owner stuck⟩

theorem Reduces.not_letIn {v body : Term} : ¬Reduces conversion term (.letIn v body) used := by
  intro reduces
  generalize shape : Term.letIn v body = result at reduces
  induction reduces with
  | canonical canonical =>
    subst shape
    cases canonical
  | delta _ _ ih | zeta _ ih
  | beta _ _ _ ih | fstPair _ _ _ ih | sndPair _ _ _ ih | jRefl _ _ _ ih | idElimRefl _ _ _ ih
  | iota _ _ _ _ _ _ ih => exact ih shape
  | _ => cases shape

theorem whnf_eq_pure {result : Term} : conversion.whnf term = pure result ↔
      ∃ used ≤ whnfFuelCeiling, Reduces conversion term result used := by
  simp only [Conversion.whnf, Run.ofExcept_eq_pure]
  constructor
  · intro ret
    cases hit : conversion.whnfFuel term whnfFuelCeiling with
    | error error => simp [hit, Except.map] at ret
    | ok v =>
      obtain ⟨head, rest⟩ := v
      simp only [hit, Except.map, Except.ok.injEq] at ret
      subst ret
      obtain ⟨used, reduces, budget⟩ := whnfWithin_reduces hit
      exact ⟨used, by omega, reduces⟩
  · rintro ⟨used, hw, reduces⟩
    have ret := reduces.whnfWithin whnfFuelCeiling whnfFuelCeiling (whnfFuelCeiling - used) hw
      (by omega)
    simp [Conversion.whnfFuel, ret, Except.map]

theorem bind_eq_error {error : ε} (failed : (result >>= next) = .error error) :
    result = .error error ∨ ∃ a, result = .ok a ∧ next a = .error error := by
  cases result with
  | error hit =>
    cases failed
    exact .inl rfl
  | ok a => exact .inr ⟨a, rfl, failed⟩

theorem whnfWithin_error {error : CheckError} (failed : conversion.whnfWithin hb term fuel = .error error) :
    error = .fuelExhausted := by
  induction hb generalizing term fuel with
  | zero =>
    cases failed
    rfl
  | succ hb ih =>
    cases fuel with
    | zero =>
      cases failed
      rfl
    | succ fuel =>
      cases term with
      | var idx =>
        simp only [Conversion.whnfWithin] at failed
        split at failed
        · exact ih failed
        · cases failed
      | letIn v body => exact ih failed
      | induct scrut motive cases =>
        simp only [Conversion.whnfWithin] at failed
        rcases bind_eq_error failed with failed | ⟨⟨head, left⟩, _, failed⟩
        · exact ih failed
        · simp only at failed
          split at failed
          · rcases bind_eq_error failed with failed | ⟨⟨declaration, hl⟩, _, failed⟩
            · exact ih failed
            · simp only at failed
              split at failed
              · exact ih failed
              · cases failed
          · cases failed
      | app f x | fst f | snd f | j _ _ f | idElim _ _ f =>
        simp only [Conversion.whnfWithin] at failed
        rcases bind_eq_error failed with failed | ⟨⟨head, left⟩, _, failed⟩
        · exact ih failed
        · simp only at failed
          split at failed
          · exact ih failed
          · cases failed
      | _ => cases failed

theorem whnf_outcome (conversion : Conversion) (term : Term) :
    (∃ result, conversion.whnf term = pure result) ∨ conversion.whnf term = throw .fuelExhausted := by
  cases hit : conversion.whnfFuel term whnfFuelCeiling with
  | ok v =>
    left
    exact ⟨v.1, by simp [Conversion.whnf, hit, Except.map]⟩
  | error error =>
    right
    rw [whnfWithin_error hit] at hit
    simp only [Conversion.whnf, hit]
    rfl

end Proof
