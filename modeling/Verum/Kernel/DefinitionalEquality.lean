import Verum.Kernel.GraphModel

namespace Kernel.CoreTerm

/-- The comparisons of the kernel relate only convertible terms, whatever the budget, when axiom
    nodes carry closed types and definitions have closed bodies. -/
theorem definitionalEq_sound (a b : CoreTerm) (axioms : AxiomRegistry)
    (inductives : Option InductiveRegistry) (closedLeft : a.AxiomsDeeplyClosed)
    (closedRight : b.AxiomsDeeplyClosed) (closed : Registries.Closed ⟨some axioms, none⟩) :
    (definitionalEq a b = true → Convertible ⟨none, none⟩ (a.nameless []) (b.nameless [])) ∧
    (definitionalEqWithAxioms a b axioms = true →
      Convertible ⟨some axioms, none⟩ (a.nameless []) (b.nameless [])) ∧
    (convertibleIn a b axioms inductives = true →
      Convertible ⟨some axioms, inductives⟩ (a.nameless []) (b.nameless [])) ∧
    ∀ budget : Nat,
      (comparison ⟨none, none⟩ budget a b = true →
        Convertible ⟨none, none⟩ (a.nameless []) (b.nameless [])) ∧
      (comparison ⟨some axioms, inductives⟩ budget a b = true →
        Convertible ⟨some axioms, inductives⟩ (a.nameless []) (b.nameless [])) := by
  have noDefinitions : Registries.Closed ⟨none, none⟩ := fun _ _ defined => absurd defined nofun
  have withInductives : Registries.Closed ⟨some axioms, inductives⟩ := closed
  exact ⟨comparison_convertible noDefinitions _ closedLeft closedRight,
    comparison_convertible closed _ closedLeft closedRight,
    comparison_convertible withInductives _ closedLeft closedRight,
    fun budget => ⟨comparison_convertible noDefinitions budget closedLeft closedRight,
      comparison_convertible withInductives budget closedLeft closedRight⟩⟩

theorem definitionalEq_sound_identity :
    definitionalEq (app (lam "x" (var "A") (var "x")) (var "y")) (var "y") = true ∧
      Convertible ⟨none, none⟩ ((app (lam "x" (var "A") (var "x")) (var "y")).nameless [])
        ((var "y").nameless []) := by
  have equal : definitionalEq (app (lam "x" (var "A") (var "x")) (var "y")) (var "y") = true := by
    decide
  have closed : (app (lam "x" (var "A") (var "x")) (var "y")).AxiomsDeeplyClosed := by
    intro i
    fin_cases i
    · exact ⟨trivial, trivial⟩
    · exact trivial
  have sound := definitionalEq_sound (app (lam "x" (var "A") (var "x")) (var "y")) (var "y") [] none
    closed trivial (fun _ _ defined => absurd defined nofun)
  exact ⟨equal, sound.1 equal⟩

/-- `(λ x. axiom : x) y` compares equal to `axiom : x`, from which it is not convertible. -/
theorem definitionalEq_keeps_axiom_type :
    ¬ ∀ a b : CoreTerm, definitionalEq a b = true →
      Convertible ⟨none, none⟩ (a.nameless []) (b.nameless []) := by
  intro sound
  have related := sound
    (app (lam "x" (var "A") (axiomNode "choice" (var "x") ⟨"zfc", "AC"⟩)) (var "y"))
    (axiomNode "choice" (var "x") ⟨"zfc", "AC"⟩) (by decide)
  have same := graph_sound (fun name => {Token.atom name}) related fun _ => ∅
  have left : Token.atom "y" ∈ graph.read (fun name => {Token.atom name})
      ((app (lam "x" (var "A") (axiomNode "choice" (var "x") ⟨"zfc", "AC"⟩)) (var "y")).nameless [])
      fun _ => ∅ := by
    refine ⟨[Token.atom "y"], ⟨[Token.atom "y"], Token.atom "y", rfl, ?_⟩, ?_⟩
    · exact List.mem_singleton_self _
    · intro n member
      rw [List.mem_singleton.mp member]
      exact Set.mem_singleton _
  rw [same] at left
  have absurdity : Token.atom "y" = Token.atom "x" := left
  injection absurdity with names
  exact absurd names (by decide)

end Kernel.CoreTerm
