import Verum.Collections.BTreeShape

open List

namespace Collections

namespace BTreeNode

variable {K V : Type} {es es' : List (K × V)} {e : K × V} {kids cs cs' : List (BTreeNode K V)}
  {c node : BTreeNode K V}
  {h : Nat}

theorem getElem?_fst : ((es ++ es').map Prod.fst)[es.length]? = es'.head?.map Prod.fst := by
  rw [List.getElem?_map, List.getElem?_append_right (Nat.le_refl _), Nat.sub_self, List.head?_eq_getElem?]

theorem item_fst : item ((es ++ e :: es').map Prod.fst) es.length = .ok e.1 := by
  unfold item
  rw [getElem?_fst]
  rfl

theorem item_snd : item ((es ++ e :: es').map Prod.snd) es.length = .ok e.2 := by
  unfold item
  rw [List.getElem?_map, List.getElem?_append_right (Nat.le_refl _), Nat.sub_self]
  rfl

theorem item_child (balanced : cs.length = es.length) : item (cs ++ c :: cs') es.length = .ok c := by
  rw [← balanced, item_append]

theorem mem_split (mem : e ∈ es) : e ∈ (internalNode es kids).flatten := by
  rw [flatten_internal]
  exact Weave.mem_weave mem

theorem flatten_ne_nil (wf : Formed h node) (filled : 0 < node.keys.length) : node.flatten ≠ [] := by
  have ne : ∀ {es : List (K × V)}, 0 < (es.map Prod.fst).length → ∃ e, e ∈ es := by
    intro es pos
    rw [length_map] at pos
    exact exists_mem_of_length_pos pos
  cases wf with
  | leaf _ =>
    rcases ne filled with ⟨e, mem⟩
    rw [flatten_leaf]
    exact ne_nil_of_mem mem
  | internal _ _ _ _ =>
    rcases ne filled with ⟨e, mem⟩
    exact ne_nil_of_mem (mem_split mem)

theorem minKeys_pos : 0 < minKeys := by decide

theorem exists_first (wf : Formed (h + 1) (internalNode es kids)) : ∃ c cs, kids = c :: cs ∧
    Formed h c ∧ c.flatten ≠ [] ∧ (internalNode es kids).flatten = c.flatten ++ back cs es := by
  rcases formed_internalNode.mp wf with ⟨⟨_, branching⟩, each⟩
  obtain ⟨cs, c, cs', rfl, none, behind⟩ : ∃ cs c cs', kids = cs ++ c :: cs' ∧
      cs.length = ([] : List (K × V)).length ∧ cs'.length = es.length := exists_split branching
  rw [eq_nil_of_length_eq_zero none] at each ⊢
  have fst := each c (.head _)
  refine ⟨c, cs', rfl, fst.1, flatten_ne_nil fst.1 (minKeys_pos.trans_le fst.2), ?_⟩
  show (internalNode ([] ++ es) ([] ++ c :: cs')).flatten = front [] [] ++ (c.flatten ++ back cs' es)
  exact flatten_split rfl behind

section Order

variable [LinearOrder K]

theorem ascending_child (ascending : Entries.Ascending (front cs es ++ (c.flatten ++ back cs' es'))) :
    Entries.Ascending c.flatten :=
  (pairwise_append.mp (pairwise_append.mp ascending).2.1).1

end Order

end BTreeNode

namespace BTreeMap

open BTreeNode

variable {K V : Type} {es es' : List (K × V)} {cs cs' : List (BTreeNode K V)} {c node : BTreeNode K V} {h : Nat}

/-- The entries that an iterator still has to give, from the innermost node outwards. -/
inductive Pending : List (BTreeNode K V × Nat) → List (K × V) → Prop
  | nil : Pending [] []
  | leaf {es es' : List (K × V)} {stack : List (BTreeNode K V × Nat)} {rest : List (K × V)} : Pending stack rest →
    Pending ((leafNode (es ++ es'), es.length) :: stack) (es' ++ rest)
  | internal {h : Nat} {es es' : List (K × V)} {cs cs' : List (BTreeNode K V)} {c : BTreeNode K V}
    {stack : List (BTreeNode K V × Nat)} {rest : List (K × V)} : (∀ child ∈ cs', Formed h child) →
    cs.length = es.length → cs'.length = es'.length → Pending stack rest →
    Pending ((internalNode (es ++ es') (cs ++ c :: cs'), es.length) :: stack) (back cs' es' ++ rest)

variable {stack : List (BTreeNode K V × Nat)} {rest : List (K × V)}

theorem pushLeft_pending (wf : Formed h node) (waiting : Pending stack rest) :
    ∃ stack', pushLeft (h + 1) stack node = .ok stack' ∧ Pending stack' (node.flatten ++ rest) := by
  induction h generalizing node stack rest with
  | zero =>
    cases wf with
    | @leaf es few =>
      rw [flatten_leaf]
      have behind : Pending ((leafNode ([] ++ es), 0) :: stack) (es ++ rest) := .leaf waiting
      exact ⟨_, rfl, behind⟩
  | succ h ih =>
    cases wf with
    | internal few branching forms fills =>
      rcases exists_first (.internal few branching forms fills) with ⟨c, cs, rfl, form, -, flat⟩
      rw [flat, append_assoc]
      apply ih form
      show Pending ((internalNode ([] ++ _) ([] ++ c :: cs), 0) :: stack) _
      apply Pending.internal (fun child mem => forms child (mem_cons_of_mem c mem)) rfl
      · exact Nat.succ.inj branching
      · exact waiting

def Gives (stack : List (BTreeNode K V × Nat)) : List (K × V) → Prop
  | [] => next stack = .ok none
  | e :: rest => ∃ stack', next stack = .ok (some (e, stack')) ∧ Pending stack' rest

theorem Gives.skip {stack' : List (BTreeNode K V × Nat)} (ended : next stack' = next stack)
    (gives : Gives stack rest) :
    Gives stack' rest := by
  cases rest with
  | nil => exact ended.trans gives
  | cons e rest =>
    rcases gives with ⟨hl, given, waiting⟩
    exact ⟨hl, ended.trans given, waiting⟩

theorem next_pending (waiting : Pending stack rest) : Gives stack rest := by
  induction waiting with
  | nil => rfl
  | @leaf es es' stack rest waiting ih =>
    cases es' with
    | nil =>
      have ended : next ((leafNode (es ++ []), es.length) :: stack) = next stack := by
        rw [next, if_neg (by simp [leafNode])]
      exact ih.skip ended
    | cons e es' =>
      have behind : Pending ((leafNode (es ++ [e] ++ es'), (es ++ [e]).length) :: stack) (es' ++ rest) :=
          .leaf waiting
      rw [append_assoc, length_append] at behind
      refine ⟨_, ?_, behind⟩
      rw [next, if_pos (by simp [leafNode])]
      unfold leafNode
      dsimp only
      rw [item_fst, item_snd]
      rfl
  | @internal h es es' cs cs' c stack rest forms balanced balanced' waiting ih =>
    cases es' with
    | nil =>
      have ended : next ((internalNode (es ++ []) (cs ++ c :: cs'), es.length) :: stack) = next stack := by
        rw [next, if_neg (by simp [internalNode])]
      have nothing : back cs' ([] : List (K × V)) = [] := by
        rw [eq_nil_of_length_eq_zero balanced']
        rfl
      rw [nothing]
      exact ih.skip ended
    | cons e es' =>
      cases cs' with
      | nil => cases balanced'
      | cons c' cs' =>
        have form := forms c' (.head _)
        have behind : Pending ((internalNode (es ++ [e] ++ es') (cs ++ [c] ++ c' :: cs'),
          (es ++ [e]).length) :: stack)
            (back cs' es' ++ rest) := by
          apply Pending.internal (fun child mem => forms child (mem_cons_of_mem c' mem))
          · rw [length_append, length_append, balanced]
            rfl
          · exact Nat.succ.inj balanced'
          · exact waiting
        rw [append_assoc, append_assoc, length_append] at behind
        rcases pushLeft_pending form behind with ⟨stack', pushed, hin⟩
        rw [back_cons (Nat.succ.inj balanced'), cons_append, append_assoc]
        refine ⟨stack', ?_, hin⟩
        have branches : ¬ false = true ∧ es.length + 1 < (cs ++ c :: c' :: cs').length :=
          ⟨Bool.false_ne_true, by simp [balanced]⟩
        have child : item (cs ++ c :: c' :: cs') (es.length + 1) = .ok c' := by rw [← balanced, item_append_succ]
        rw [next, if_pos (by simp [internalNode])]
        unfold internalNode at pushed ⊢
        dsimp only
        rw [item_fst, item_snd]
        show (if ¬ false = true ∧ es.length + 1 < (cs ++ c :: c' :: cs').length then _ else _) = _
        rw [if_pos branches, child]
        show (pushLeft (c'.depth + 1) _ c' >>= _) = _
        rw [depth_eq form]
        exact congrArg (· >>= _) pushed

end BTreeMap

end Collections
