import Verum.Kernel.Term

namespace Kernel.CoreTerm

/-- Whether `name` occurs free; the type an axiom carries is searched like any other subterm. -/
def varOccursFree : CoreTerm → String → Bool
  | .var n, name => n == name
  | .node f args, name => (List.finRange f.arity).any fun i => (args i).varOccursFree name
  | .bind _ binder domain body, name =>
    domain.varOccursFree name || (binder != name && body.varOccursFree name)
  | .axiomNode _ ty _, name => ty.varOccursFree name

/-- The walk collecting free names, with the stack of bound names and the names found so far. -/
def freeVarsRec : CoreTerm → List String → Finset String → Finset String
  | .var n, bound, out => if n ∈ bound then out else insert n out
  | .node f args, bound, out =>
    (List.finRange f.arity).foldl (fun out i => (args i).freeVarsRec bound out) out
  | .bind _ binder domain body, bound, out =>
    body.freeVarsRec (binder :: bound) (domain.freeVarsRec bound out)
  | .axiomNode _ ty _, bound, out => ty.freeVarsRec bound out

attribute [grind =] varOccursFree freeVarsRec

def freeVars (t : CoreTerm) : Finset String := t.freeVarsRec [] ∅

/-- Free occurrence as a proposition, the form in which the proofs use it. -/
def Free (t : CoreTerm) (name : String) : Prop := t.varOccursFree name = true

instance (t : CoreTerm) (name : String) : Decidable (t.Free name) :=
  inferInstanceAs (Decidable (_ = true))

@[simp] theorem free_var (n name : String) : (var n).Free name ↔ n = name := by
  simp [Free, varOccursFree]

@[simp] theorem free_node (f : Former) (args : Fin f.arity → CoreTerm) (name : String) :
    (node f args).Free name ↔ ∃ i, (args i).Free name := by
  simp [Free, varOccursFree]

@[simp] theorem free_bind (k : Binding) (binder : String) (domain body : CoreTerm) (name : String) :
    (bind k binder domain body).Free name ↔
      domain.Free name ∨ binder ≠ name ∧ body.Free name := by
  simp [Free, varOccursFree]

@[simp] theorem free_axiomNode (n : String) (ty : CoreTerm) (fw : FrameworkId) (name : String) :
    (axiomNode n ty fw).Free name ↔ ty.Free name := Iff.rfl

theorem mem_foldl_union {ι : Type} (step : ι → Finset String → Finset String)
    (found : ι → String → Prop)
    (adds : ∀ i out y, y ∈ step i out ↔ y ∈ out ∨ found i y) (xs : List ι)
    (out : Finset String) (y : String) :
    y ∈ xs.foldl (fun out i => step i out) out ↔ y ∈ out ∨ ∃ i ∈ xs, found i y := by
  induction xs generalizing out with
  | nil => simp
  | cons item xs ih =>
    rw [List.foldl_cons, ih, adds]
    simp [or_assoc]

theorem mem_freeVarsRec (t : CoreTerm) (hb : List String) (out : Finset String) (y : String) :
    y ∈ t.freeVarsRec hb out ↔ y ∈ out ∨ y ∉ hb ∧ t.Free y := by
  induction t generalizing hb out y with
  | var n =>
    unfold freeVarsRec
    split
    · rename_i held
      have eq : n = y → y ∈ hb := fun h => h ▸ held
      simp only [free_var]
      tauto
    · rename_i hf
      rw [Finset.mem_insert, free_var]
      constructor
      · rintro (rfl | held)
        · exact .inr ⟨hf, rfl⟩
        · exact .inl held
      · rintro (held | ⟨_, rfl⟩)
        · exact .inr held
        · exact .inl rfl
  | node f args ih =>
    unfold freeVarsRec
    rw [mem_foldl_union (fun i out => (args i).freeVarsRec hb out)
      (fun i y => y ∉ hb ∧ (args i).Free y) fun i out y => ih i hb out y]
    simp
  | bind k binder domain body ihDomain ihBody =>
    unfold freeVarsRec
    rw [ihBody, ihDomain, free_bind, List.mem_cons]
    tauto
  | axiomNode n ty fw ih => exact ih hb out y

@[simp] theorem mem_freeVars (t : CoreTerm) (y : String) : y ∈ t.freeVars ↔ t.Free y := by
  simp [freeVars, mem_freeVarsRec]

/-- `P` holds of every axiom node, those inside the type of another one apart. -/
def AllAxioms (P : String → CoreTerm → FrameworkId → Prop) : CoreTerm → Prop
  | .var _ => True
  | .node _ args => ∀ i, (args i).AllAxioms P
  | .bind _ _ domain body => domain.AllAxioms P ∧ body.AllAxioms P
  | .axiomNode name ty framework => P name ty framework

def decAllAxioms {P : String → CoreTerm → FrameworkId → Prop}
    (dec : ∀ name ty framework, Decidable (P name ty framework)) :
    (t : CoreTerm) → Decidable (t.AllAxioms P)
  | .var _ => isTrue trivial
  | .node _ args =>
    have : ∀ i, Decidable ((args i).AllAxioms P) := fun i => decAllAxioms dec (args i)
    inferInstanceAs (Decidable (∀ i, (args i).AllAxioms P))
  | .bind _ _ domain body =>
    have := decAllAxioms dec domain
    have := decAllAxioms dec body
    inferInstanceAs (Decidable (domain.AllAxioms P ∧ body.AllAxioms P))
  | .axiomNode name ty framework => dec name ty framework

theorem AllAxioms.imp {P Q : String → CoreTerm → FrameworkId → Prop} {t : CoreTerm}
    (all : t.AllAxioms P) (weaker : ∀ name ty framework, P name ty framework → Q name ty framework) :
    t.AllAxioms Q := by
  induction t with
  | var name => trivial
  | node f args ih => exact fun i => ih i (all i)
  | bind k binder domain body ihDomain ihBody => exact ⟨ihDomain all.1, ihBody all.2⟩
  | axiomNode name ty framework ih => exact weaker _ _ _ all

/-- A postulate's type is a closed term wherever one is registered; here the same is asked of
    the axiom nodes of a term. -/
def AxiomsClosed (t : CoreTerm) : Prop := t.AllAxioms fun _ ty _ => ty.freeVars = ∅

instance (t : CoreTerm) : Decidable t.AxiomsClosed :=
  decAllAxioms (fun _ ty _ => inferInstanceAs (Decidable (ty.freeVars = ∅))) t

def Mentions : CoreTerm → String → Prop
  | .var n, name => n = name
  | .node _ args, name => ∃ i, (args i).Mentions name
  | .bind _ binder domain body, name =>
    domain.Mentions name ∨ binder ≠ name ∧ body.Mentions name
  | .axiomNode _ _ _, _ => False

theorem not_free_of_freeVars_empty {t : CoreTerm} (hc : t.freeVars = ∅) (y : String) :
    ¬ t.Free y := by
  rw [← mem_freeVars, hc]
  exact Finset.notMem_empty y

end Kernel.CoreTerm
