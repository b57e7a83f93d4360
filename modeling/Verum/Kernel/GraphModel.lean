import Verum.Kernel.NormalizationSound

open List

namespace Kernel

def push {D : Type u} (d : D) (bound : Nat → D) : Nat → D
  | 0 => d
  | i + 1 => bound i

namespace Interpretation

variable {D : Type u} (I : Interpretation D)

/-- The meaning of a nameless term, from those of its free names and of its dangling indices. -/
def read (free : String → D) : Nameless → (Nat → D) → D
  | .bvar i, bound => bound i
  | .fvar name, _ => free name
  | .node f args, bound => I.node f fun i => read free (args i) bound
  | .bind k domain body, bound =>
    I.bind k (read free domain bound) fun d => read free body (push d bound)
  | .axiomNode name ty framework, bound => I.axiomNode name framework (read free ty bound)

theorem read_lift (free : String → D) (t : Nameless) (cutoff n : Nat) (hb : Nat → D) :
    I.read free (t.lift cutoff n) hb =
      I.read free t fun i => hb (if i < cutoff then i else i + n) := by
  induction t generalizing cutoff hb with
  | bvar i | fvar name => rfl
  | node f args ih => exact congrArg (I.node f) (funext fun i => ih i cutoff hb)
  | bind k domain body ihDomain ihBody =>
    apply congrArg₂ (I.bind k) (ihDomain cutoff hb)
    funext d
    rw [ihBody]
    congr 1
    funext i
    cases i with
    | zero => simp [push]
    | succ i =>
      by_cases low : i < cutoff
      · simp [push, low]
      · simp [push, low, Nat.add_right_comm]
  | axiomNode name ty framework ih => exact congrArg (I.axiomNode name framework) (ih cutoff hb)

theorem read_instantiate (free : String → D) (t v : Nameless) (depth : Nat) (hb : Nat → D) :
    I.read free (t.instantiate v depth) hb =
      I.read free t fun i =>
        if i < depth then hb i
        else if i = depth then I.read free v fun j => hb (j + depth) else hb (i - 1) := by
  induction t generalizing depth hb with
  | bvar i =>
    unfold Nameless.instantiate
    split
    · rename_i low
      simp [read, low]
    · rename_i high
      split
      · rename_i here
        simp [read, here, I.read_lift]
      · rename_i ne
        simp [read, high, ne]
  | fvar name => rfl
  | node f args ih => exact congrArg (I.node f) (funext fun i => ih i depth hb)
  | bind k domain body ihDomain ihBody =>
    apply congrArg₂ (I.bind k) (ihDomain depth hb)
    funext d
    rw [ihBody]
    congr 1
    funext i
    cases i with
    | zero => simp [push]
    | succ i =>
      rcases Nat.lt_trichotomy i depth with low | eq | high
      · simp [push, low]
      · subst eq
        simp [push]
      · have hl : i = (i - 1) + 1 := by omega
        have notLow : ¬ i < depth := by omega
        have notSame : i ≠ depth := by omega
        simp only [push, Nat.add_lt_add_iff_right, notLow, if_false, Nat.add_right_cancel_iff,
          notSame, Nat.add_sub_cancel]
        rw [hl]
        rfl
  | axiomNode name ty framework ih => exact congrArg (I.axiomNode name framework) (ih depth hb)

theorem read_instantiate_zero (free : String → D) (t v : Nameless) (hb : Nat → D) :
    I.read free (t.instantiate v 0) hb =
      I.read free t (push (I.read free v hb) hb) := by
  rw [I.read_instantiate]
  congr 1
  funext i
  cases i <;> simp [push]

end Interpretation

/-- What a function or a pair can be observed to do, in finite pieces. -/
inductive Token where
  | atom (name : String)
  | arrow (needs : List Token) (gives : Token)
  | left (first : Token)
  | right (second : Token)

def applyTokens (f a : Set Token) : Set Token :=
  {g | ∃ needs, Token.arrow needs g ∈ f ∧ ∀ n ∈ needs, n ∈ a}

/-- Sets of observations: functions with their finite graphs, pairs, quotient and transport with
    the least that their rules ask, and an axiom as the set its type denotes. -/
def graph : Interpretation (Set Token) where
  node f args :=
    match f, args with
    | .app, args => applyTokens (args 0) (args 1)
    | .pair, args => Token.left '' args 0 ∪ Token.right '' args 1
    | .fst, args => {g | Token.left g ∈ args 0}
    | .snd, args => {g | Token.right g ∈ args 0}
    | .quotIntro, args => args 0
    | .quotElim, args => applyTokens (args 2) (args 0)
    | .transport, args => args 1
    | _, _ => ∅
  bind k _ body :=
    match k with
    | .lam => {g | ∃ needs h, g = Token.arrow needs h ∧ h ∈ body {n | n ∈ needs}}
    | _ => ∅
  axiomNode _ _ ty := ty

theorem applyTokens_finitary {n : Nat} {args : Fin n → Set Token} {i j : Fin n} {g : Token}
    (mem : g ∈ applyTokens (args i) (args j)) :
    ∃ demands : List (Fin n × Token), (∀ d ∈ demands, d.2 ∈ args d.1) ∧
      ∀ args' : Fin n → Set Token, (∀ d ∈ demands, d.2 ∈ args' d.1) →
        g ∈ applyTokens (args' i) (args' j) := by
  rcases mem with ⟨needs, function, argument⟩
  refine ⟨(i, Token.arrow needs g) :: needs.map (Prod.mk j), ?_, ?_⟩
  · intro d hin
    rcases mem_cons.mp hin with rfl | hl
    · exact function
    · rcases mem_map.mp hl with ⟨n, need, rfl⟩
      exact argument n need
  · intro args' met
    refine ⟨needs, met _ (.head _), fun n need => ?_⟩
    exact met (j, n) (.tail _ (mem_map_of_mem need))

theorem graph_node_finitary (f : Former) (args : Fin f.arity → Set Token) {g : Token}
    (mem : g ∈ graph.node f args) :
    ∃ demands : List (Fin f.arity × Token), (∀ d ∈ demands, d.2 ∈ args d.1) ∧
      ∀ args' : Fin f.arity → Set Token, (∀ d ∈ demands, d.2 ∈ args' d.1) →
        g ∈ graph.node f args' := by
  have single (i : Fin f.arity) (t : Token) (here : t ∈ args i)
      (he : ∀ args' : Fin f.arity → Set Token, t ∈ args' i → g ∈ graph.node f args') :
      ∃ demands : List (Fin f.arity × Token), (∀ d ∈ demands, d.2 ∈ args d.1) ∧
        ∀ args' : Fin f.arity → Set Token, (∀ d ∈ demands, d.2 ∈ args' d.1) →
          g ∈ graph.node f args' := by
    refine ⟨[(i, t)], ?_, fun args' met => he args' (met _ mem_cons_self)⟩
    intro d hin
    rw [mem_singleton.mp hin]
    exact here
  cases f with
  | app | quotElim => exact applyTokens_finitary mem
  | pair =>
    rcases mem with ⟨t, here, rfl⟩ | ⟨t, here, rfl⟩
    · exact single 0 t here fun args' hin => .inl ⟨t, hin, rfl⟩
    · exact single 1 t here fun args' hin => .inr ⟨t, hin, rfl⟩
  | fst | snd => exact single 0 _ mem fun args' hin => hin
  | quotIntro => exact single 0 g mem fun args' hin => hin
  | transport => exact single 1 g mem fun args' hin => hin
  | _ => exact absurd mem (Set.notMem_empty g)

theorem graph_read_mono (free : String → Set Token) (t : Nameless) {hb bound' : Nat → Set Token}
    (grows : ∀ k, hb k ⊆ bound' k) : graph.read free t hb ⊆ graph.read free t bound' := by
  induction t generalizing hb bound' with
  | bvar i => exact grows i
  | fvar name => exact subset_rfl
  | node f args ih =>
    intro g mem
    rcases graph_node_finitary f _ mem with ⟨demands, met, he⟩
    exact he _ fun d hin => ih d.1 grows (met d hin)
  | bind k domain body ihDomain ihBody =>
    cases k with
    | lam =>
      rintro g ⟨needs, h, rfl, hin⟩
      refine ⟨needs, h, rfl, ihBody ?_ hin⟩
      intro i
      cases i with
      | zero => exact subset_rfl
      | succ i => exact grows i
    | _ => exact Set.empty_subset _
  | axiomNode name ty framework ih => exact ih grows

def finitely (part : Nat → List Token) (k : Nat) : Set Token := {n | n ∈ part k}

theorem graph_read_compact (free : String → Set Token) (t : Nameless) (hb : Nat → Set Token)
    {g : Token} (mem : g ∈ graph.read free t hb) :
    ∃ part : Nat → List Token, (∀ k, finitely part k ⊆ hb k) ∧
      g ∈ graph.read free t (finitely part) := by
  induction t generalizing hb g with
  | bvar i =>
    refine ⟨fun k => if k = i then [g] else [], ?_, ?_⟩
    · intro k n hin
      have listed : n ∈ if k = i then [g] else [] := hin
      split at listed
      · rename_i eq
        rw [mem_singleton.mp listed, eq]
        exact mem
      · exact absurd listed not_mem_nil
    · simp [Interpretation.read, finitely]
  | fvar name => exact ⟨fun _ => [], fun k n hin => absurd hin not_mem_nil, mem⟩
  | node f args ih =>
    rcases graph_node_finitary f _ mem with ⟨demands, met, he⟩
    -- one finite part for all the demands together
    have joint : ∃ part : Nat → List Token, (∀ k, finitely part k ⊆ hb k) ∧
        ∀ d ∈ demands, d.2 ∈ graph.read free (args d.1) (finitely part) := by
      clear he
      induction demands with
      | nil => exact ⟨fun _ => [], fun k n hin => absurd hin not_mem_nil, by simp⟩
      | cons fst rest ihRest =>
        rcases ih fst.1 hb (met fst mem_cons_self) with ⟨here, hereIn, hereMet⟩
        rcases ihRest fun d hin => met d (.tail _ hin) with
          ⟨hl, laterIn, laterMet⟩
        have hereGrows (k) : finitely here k ⊆ finitely (fun k => here k ++ hl k) k :=
          fun n hin => mem_append_left _ hin
        have laterGrows (k) : finitely hl k ⊆ finitely (fun k => here k ++ hl k) k :=
          fun n hin => mem_append_right _ hin
        refine ⟨fun k => here k ++ hl k, ?_, ?_⟩
        · intro k n hin
          rcases mem_append.mp hin with left | right
          · exact hereIn k left
          · exact laterIn k right
        · intro d hin
          rcases mem_cons.mp hin with rfl | deeper
          · exact graph_read_mono free _ hereGrows hereMet
          · exact graph_read_mono free _ laterGrows (laterMet d deeper)
    rcases joint with ⟨part, hw, all⟩
    exact ⟨part, hw, he _ all⟩
  | bind k domain body ihDomain ihBody =>
    cases k with
    | lam =>
      rcases mem with ⟨needs, h, rfl, hin⟩
      rcases ihBody _ hin with ⟨part, hw, hit⟩
      refine ⟨fun k => part (k + 1), fun k => hw (k + 1), needs, h, rfl, ?_⟩
      apply graph_read_mono free body _ hit
      intro i
      cases i with
      | zero => exact hw 0
      | succ i => exact subset_rfl
    | _ => exact absurd mem (Set.notMem_empty g)
  | axiomNode name ty framework ih => exact ih hb mem

theorem graph_beta (free : String → Set Token) (domain body v : Nameless)
    (hb : Nat → Set Token) :
    applyTokens (graph.read free (.bind .lam domain body) hb) (graph.read free v hb) =
      graph.read free (body.instantiate v 0) hb := by
  rw [graph.read_instantiate_zero]
  ext g
  constructor
  · rintro ⟨needs, ⟨needs', h, eq, hin⟩, met⟩
    injection eq with sameNeeds sameGives
    subst sameNeeds sameGives
    apply graph_read_mono free body _ hin
    intro i
    cases i with
    | zero => exact met
    | succ i => exact subset_rfl
  · intro mem
    rcases graph_read_compact free body _ mem with ⟨part, hw, hit⟩
    refine ⟨part 0, ⟨part 0, g, rfl, ?_⟩, fun n hin => hw 0 hin⟩
    apply graph_read_mono free body _ hit
    intro i
    cases i with
    | zero => exact subset_rfl
    | succ i => exact hw (i + 1)

theorem graph_sound (free : String → Set Token) {a b : Nameless}
    (related : Convertible ⟨none, none⟩ a b) (hb : Nat → Set Token) :
    graph.read free a hb = graph.read free b hb := by
  induction related generalizing hb with
  | refl a | pathOver args head | transport args head => rfl
  | symm _ ih => exact (ih hb).symm
  | trans _ _ ihLeft ihRight => exact (ihLeft hb).trans (ihRight hb)
  | node f _ ih => exact congrArg (graph.node f) (funext fun i => ih i hb)
  | bind k _ _ ihDomain ihBody =>
    exact congrArg₂ (graph.bind k) (ihDomain hb) (funext fun d => ihBody _)
  | axiomNode name framework _ ih => exact congrArg (graph.axiomNode name framework) (ih hb)
  | @beta args domain body head =>
    show applyTokens (graph.read free (args 0) hb) (graph.read free (args 1) hb) = _
    rw [head]
    exact graph_beta free domain body (args 1) hb
  | @fst args parts head =>
    show {g | Token.left g ∈ graph.read free (args 0) hb} = _
    rw [head]
    ext g
    constructor
    · rintro (⟨t, hin, eq⟩ | ⟨t, _, absurdity⟩)
      · injection eq with eq
        rwa [eq] at hin
      · cases absurdity
    · exact fun hin => .inl ⟨g, hin, rfl⟩
  | @snd args parts head =>
    show {g | Token.right g ∈ graph.read free (args 0) hb} = _
    rw [head]
    ext g
    constructor
    · rintro (⟨t, _, absurdity⟩ | ⟨t, hin, eq⟩)
      · cases absurdity
      · injection eq with eq
        rwa [eq] at hin
    · exact fun hin => .inr ⟨g, hin, rfl⟩
  | @quotElim args parts head =>
    show applyTokens (graph.read free (args 2) hb) (graph.read free (args 0) hb) = _
    rw [head]
    rfl
  | unfold ty framework defined => cases defined
  | point args hit =>
    rcases hit with ⟨_, _, _, _, _, _, _, _, _, rule, _⟩
    cases rule

end Kernel
