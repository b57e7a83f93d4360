import Mathlib.Data.List.Induction
import Verum.Proof.Declarative

namespace Proof

theorem instantiation_append (init : List Term) (last : Term) (idx : Nat) :
    instantiation (init ++ [last]) 0 idx =
      if idx = 0 then last else instantiation init 0 (idx - 1) := by
  cases idx with
  | zero | succ idx => simp [instantiation]

theorem substitute_shiftUp_instantiation (term : Term) (args : List Term) :
    (shiftUp term args.length 0).substitute (instantiation args 0) = term := by
  rw [shiftUp_eq_substitute, substitute_substitute]
  simpa [instantiation] using substitute_identity term

theorem instantiateFields_eq (term : Term) (args : List Term) :
    instantiateFields term args = term.substitute (instantiation args 0) := by
  induction args using List.reverseRecOn generalizing term with
  | nil =>
    have none : instantiation [] 0 = Term.var := by
      funext idx
      simp [instantiation]
    rw [none, substitute_identity]
    rfl
  | append_singleton init last ih =>
    have step : instantiateFields term (init ++ [last]) =
        instantiateFields (subst term 0 (shiftUp last init.length 0)) init := by
      simp [instantiateFields, List.zipIdx_append]
    rw [step, ih, subst_eq_substitute, substitute_substitute]
    congr 1
    funext idx
    rw [instantiation_append]
    split
    · exact substitute_shiftUp_instantiation last init
    · simp

theorem instantiateFields_shiftUp (term : Term) (args : List Term) (ambient : Nat) :
    instantiateFields (shiftUp term ambient args.length) args =
      term.substitute (instantiation args ambient) := by
  rw [instantiateFields_eq, shiftUp_eq_substitute, substitute_substitute]
  congr 1
  funext idx
  by_cases hin : idx < args.length
  · simp [hin, instantiation]
  · have further : args.length ≤ idx + ambient := by omega
    have eq : idx + ambient - args.length = idx - args.length + ambient := by omega
    simp [hin, instantiation, further, eq]

/-- `place` sends the fields to the branch binders at `positions` and the ambient frame past all `depth`. -/
def Places (positions : List Nat) (depth : Nat) (place : Nat → Nat) : Prop :=
  ∀ slot, place slot = (positions.reverse[slot]?.map fun p => depth - 1 - p).getD
    (slot - positions.length + depth)

theorem rebindFields_eq {positions : List Nat} {depth : Nat} {place : Nat → Nat}
    (places : Places positions depth place) (term : Term) :
    rebindFields term positions depth = term.rename place := by
  have length : positions.length = (positions.map fun p => Term.var (depth - 1 - p)).length := by simp
  rw [rebindFields, length, instantiateFields_shiftUp, Term.rename]
  congr 1
  funext slot
  rw [places slot]
  simp only [instantiation, ← List.map_reverse, List.getElem?_map, List.length_map]
  cases positions.reverse[slot]? <;> simp

section Branch

variable {positions : List Nat} {depth : Nat} {place : Nat → Nat} (places : Places positions depth place)
  (bounded : ∀ p ∈ positions, p < depth)

include places bounded

theorem Places.deeper (extra : Nat) : Places positions (depth + extra) fun slot => place slot + extra := by
  intro slot
  dsimp only
  rw [places slot]
  cases hit : positions.reverse[slot]? with
  | none => simp [Nat.add_assoc]
  | some p =>
    have hlt := bounded p (List.mem_reverse.mp (List.mem_of_getElem? hit))
    simp
    omega

theorem Places.push (extra : Nat) (pos : 0 < extra) :
    Places (positions ++ [depth]) (depth + extra)
      fun slot => if slot = 0 then extra - 1 else place (slot - 1) + extra := by
  intro slot
  cases slot with
  | zero =>
    simp
    omega
  | succ slot =>
    have earlier := places.deeper bounded extra slot
    simpa [Nat.add_sub_add_right] using earlier

omit bounded in
theorem Places.fields :
    positions.map (fun p => Term.var (depth - 1 - p)) =
      (List.range positions.length).reverse.map fun slot => .var (place slot) := by
  apply List.ext_getElem
  · simp
  · intro idx left right
    have hin : idx < positions.length := by simpa using left
    have mirrored : positions.length - 1 - idx < positions.length := by omega
    have back : positions.length - 1 - (positions.length - 1 - idx) = idx := by omega
    simp [places (positions.length - 1 - idx), mirrored, List.getElem_reverse, back]

end Branch

theorem caseDomains_eq (data motive : Term) (idx : Nat) (res : List Term) (fs : List DataField)
    (domains : List Term) (positions : List Nat) (place : Nat → Nat)
    (places : Places positions domains.length place) (bounded : ∀ p ∈ positions, p < domains.length) :
    let (all, slots) := caseDomains data motive domains positions fs
    all.foldr Term.pi
      (.app (applyTerms (shiftUp motive all.length 0) (res.map (rebindFields · slots all.length)))
        (.construct (shiftUp data all.length 0) idx (slots.map fun p => .var (all.length - 1 - p)))) =
      domains.foldr Term.pi
        (branchType data motive idx res place domains.length positions.length fs) := by
  induction fs generalizing domains positions place with
  | nil =>
    have idxs : res.map (rebindFields · positions domains.length) = res.map (Term.rename place) := by
      apply List.map_congr_left
      intro term _
      exact rebindFields_eq places term
    simp only [caseDomains, branchType, idxs, places.fields]
  | cons field rest ih =>
    have hl : ∀ p ∈ positions ++ [domains.length], p < domains.length + 1 := by
      intro p mem
      rcases List.mem_append.mp mem with old | new
      · exact Nat.lt_succ_of_lt (bounded p old)
      · simp only [List.mem_singleton] at new
        omega
    simp only [caseDomains, branchType, rebindFields_eq places]
    cases occurrence : recursiveIndices field with
    | none =>
      have pushed := places.push bounded 1 (by omega)
      have step := ih (domains ++ [(fieldDomain data field positions.length).rename place])
        (positions ++ [domains.length]) _ (by simpa using pushed) (by simpa using hl)
      simpa using step
    | some idxs =>
      have pushed := places.push bounded 2 (by omega)
      have args : idxs.map (rebindFields · positions (domains.length + 1)) =
          idxs.map (Term.rename fun slot => place slot + 1) := by
        apply List.map_congr_left
        intro term _
        exact rebindFields_eq (places.deeper bounded 1) term
      have step := ih (domains ++ [(fieldDomain data field positions.length).rename place,
          .app (applyTerms (shiftUp motive (domains.length + 1) 0)
            (idxs.map (Term.rename fun slot => place slot + 1))) (.var 0)])
        (positions ++ [domains.length]) _ (by simpa using pushed)
        (by
          intro p mem
          have hlt := hl p mem
          simp only [List.length_append, List.length_cons, List.length_nil]
          omega)
      simpa [args] using step

theorem inductionCaseType_eq (data motive : Term) (idx : Nat) (constructor : DataConstructor) :
    inductionCaseType data motive idx constructor =
      branchType data motive idx constructor.indices (fun slot => slot) 0 0 constructor.fields := by
  have start : Places [] 0 fun slot => slot := by
    intro slot
    simp
  exact caseDomains_eq data motive idx constructor.indices constructor.fields [] [] _ start (by simp)

end Proof
