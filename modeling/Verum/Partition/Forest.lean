import Mathlib.Data.Set.Card

namespace Partition

open Function

variable {α : Type*}

/-- Two elements related by the equivalence closure of a list of pairs. -/
def Joined (pairs : List (α × α)) : α → α → Prop := Relation.EqvGen fun x y => (x, y) ∈ pairs

section Joined

variable {pairs : List (α × α)} {a b x y z : α}

theorem Joined.refl (x : α) : Joined pairs x x := Relation.EqvGen.refl x

theorem Joined.symm (joined : Joined pairs x y) : Joined pairs y x := Relation.EqvGen.symm x y joined

theorem Joined.trans (fst : Joined pairs x y) (snd : Joined pairs y z) : Joined pairs x z :=
  Relation.EqvGen.trans x y z fst snd

theorem Joined.mono {pairs' : List (α × α)} (hw : ∀ pair ∈ pairs, pair ∈ pairs') (joined : Joined pairs x y) :
    Joined pairs' x y := Relation.EqvGen.mono (fun _ _ mem => hw _ mem) x y joined

theorem joined_nil : Joined [] x y ↔ x = y := by
  constructor
  · intro joined
    induction joined with
    | rel x y mem => cases mem
    | refl x => rfl
    | symm x y _ ih => exact ih.symm
    | trans x y z _ _ fst snd => exact fst.trans snd
  · intro eq
    exact eq ▸ Joined.refl x

theorem joined_cons : Joined ((a, b) :: pairs) x y ↔
    Joined pairs x y ∨ (Joined pairs x a ∧ Joined pairs y b) ∨ (Joined pairs x b ∧ Joined pairs y a) := by
  constructor
  · intro joined
    induction joined with
    | rel x y mem =>
      rcases List.mem_cons.mp mem with eq | old
      · cases eq
        exact .inr (.inl ⟨.refl _, .refl _⟩)
      · exact .inl (.rel x y old)
    | refl x => exact .inl (.refl x)
    | symm x y _ ih =>
      rcases ih with joined | ⟨fst, snd⟩ | ⟨fst, snd⟩
      · exact .inl joined.symm
      · exact .inr (.inr ⟨snd, fst⟩)
      · exact .inr (.inl ⟨snd, fst⟩)
    | trans x y z _ _ left right =>
      rcases left with left | ⟨fst, snd⟩ | ⟨fst, snd⟩
      · rcases right with right | ⟨third, fourth⟩ | ⟨third, fourth⟩
        · exact .inl (left.trans right)
        · exact .inr (.inl ⟨left.trans third, fourth⟩)
        · exact .inr (.inr ⟨left.trans third, fourth⟩)
      · rcases right with right | ⟨third, fourth⟩ | ⟨_, fourth⟩
        · exact .inr (.inl ⟨fst, right.symm.trans snd⟩)
        · exact .inr (.inl ⟨fst, fourth⟩)
        · exact .inl (fst.trans fourth.symm)
      · rcases right with right | ⟨_, fourth⟩ | ⟨third, fourth⟩
        · exact .inr (.inr ⟨fst, right.symm.trans snd⟩)
        · exact .inl (fst.trans fourth.symm)
        · exact .inr (.inr ⟨fst, fourth⟩)
  · have hl : ∀ {x y}, Joined pairs x y → Joined ((a, b) :: pairs) x y := .mono fun _ => List.mem_cons_of_mem _
    have pair : Joined ((a, b) :: pairs) a b := .rel a b (.head _)
    rintro (joined | ⟨fst, snd⟩ | ⟨fst, snd⟩)
    · exact hl joined
    · exact (hl fst).trans (pair.trans (hl snd).symm)
    · exact (hl fst).trans (pair.symm.trans (hl snd).symm)

end Joined

/-- An element leads along parent links to a root, which is its own parent. -/
inductive Leads (parent : α → α) : α → α → Prop
  | root {x : α} : parent x = x → Leads parent x x
  | step {x r : α} : Leads parent (parent x) r → Leads parent x r

def SameRoot (parent : α → α) (x y : α) : Prop := ∃ r, Leads parent x r ∧ Leads parent y r

def Ranked (parent : α → α) (rank : α → Nat) : Prop := ∀ x, parent x ≠ x → rank x < rank (parent x)

def Closed (parent : α → α) (known : Finset α) : Prop := ∀ x, parent x ≠ x → x ∈ known ∧ parent x ∈ known

section Leads

variable {parent : α → α} {rank : α → Nat} {known : Finset α} {x y r s : α}

theorem Leads.isRoot (leads : Leads parent x r) : parent r = r := by
  induction leads with
  | root isRoot | step _ isRoot => exact isRoot

theorem Leads.of_root (leads : Leads parent x r) (isRoot : parent x = x) : r = x := by
  induction leads with
  | root => rfl
  | step _ ih =>
    rw [ih (by rw [isRoot, isRoot])]
    exact isRoot

theorem leads_parent : Leads parent (parent x) r ↔ Leads parent x r := by
  constructor
  · exact .step
  · intro leads
    cases leads with
    | root isRoot =>
      rw [isRoot]
      exact .root isRoot
    | step leads => exact leads

theorem Leads.unique (fst : Leads parent x r) (snd : Leads parent x s) : r = s := by
  induction fst with
  | root isRoot => exact (snd.of_root isRoot).symm
  | step _ ih => exact ih (leads_parent.mpr snd)

theorem SameRoot.of_leads (eq : SameRoot parent x y) (leads : Leads parent x r) : Leads parent y r := by
  rcases eq with ⟨root, fst, snd⟩
  rwa [leads.unique fst]

theorem Leads.rank_lt (leads : Leads parent x r) (ranked : Ranked parent rank) (different : x ≠ r) :
    rank x < rank r := by
  induction leads with
  | root => exact absurd rfl different
  | @step x r leads ih =>
    by_cases isRoot : parent x = x
    · exact absurd (leads_parent.mp leads |>.of_root isRoot).symm different
    · have rises := ranked x isRoot
      by_cases last : parent x = r
      · rwa [last] at rises
      · exact rises.trans (ih last)

theorem Leads.inside (leads : Leads parent x r) (hc : Closed parent known) (mem : x ∈ known) : r ∈ known := by
  induction leads with
  | root => exact mem
  | @step x r _ ih =>
    by_cases isRoot : parent x = x
    · rw [isRoot] at ih
      exact ih mem
    · exact ih (hc x isRoot).2

/-- The known elements of a higher rank, which bound the way to the root. -/
def above (rank : α → Nat) (known : Finset α) (x : α) : Nat := (known.filter fun y => rank x < rank y).card

theorem above_parent_lt (ranked : Ranked parent rank) (hc : Closed parent known) (inner : parent x ≠ x) :
    above rank known (parent x) < above rank known x := by
  have rises := ranked x inner
  apply Finset.card_lt_card
  rw [Finset.ssubset_iff_of_subset]
  · refine ⟨parent x, ?_, ?_⟩
    · exact Finset.mem_filter.mpr ⟨(hc x inner).2, rises⟩
    · intro mem
      exact lt_irrefl _ (Finset.mem_filter.mp mem).2
  · intro y mem
    have parts := Finset.mem_filter.mp mem
    exact Finset.mem_filter.mpr ⟨parts.1, rises.trans parts.2⟩

theorem exists_root (ranked : Ranked parent rank) (hc : Closed parent known) (x : α) :
    ∃ r, Leads parent x r := by
  induction measured : above rank known x using Nat.strong_induction_on generalizing x with
  | _ n ih =>
    by_cases isRoot : parent x = x
    · exact ⟨x, .root isRoot⟩
    · rcases ih _ (measured ▸ above_parent_lt ranked hc isRoot) (parent x) rfl with ⟨r, leads⟩
      exact ⟨r, .step leads⟩

end Leads

section Updates

variable [DecidableEq α] {parent : α → α} {x y r s a b : α}

theorem leads_compress (leads : Leads parent x r) :
    Leads (update parent x r) y s ↔ Leads parent y s := by
  have isRoot := leads.isRoot
  constructor
  · intro moved
    induction moved with
    | @root y stays =>
      by_cases here : y = x
      · subst here
        rw [update_self] at stays
        rwa [stays] at leads
      · rw [update_of_ne here] at stays
        exact .root stays
    | @step y s moved ih =>
      by_cases here : y = x
      · subst here
        rw [update_self] at ih
        rwa [ih.of_root isRoot]
      · rw [update_of_ne here] at ih
        exact .step ih
  · intro old
    have tgt : Leads (update parent x r) r r := by
      apply Leads.root
      by_cases here : r = x
      · rw [here, update_self]
      · rw [update_of_ne here, isRoot]
    induction old with
    | @root y stays =>
      by_cases here : y = x
      · subst here
        rwa [leads.of_root stays] at tgt ⊢
      · exact .root (by rw [update_of_ne here, stays])
    | @step y s old ih =>
      apply Leads.step
      by_cases here : y = x
      · subst here
        rw [update_self, (leads_parent.mp old).unique leads]
        exact tgt
      · rwa [update_of_ne here]

theorem leads_link (rootA : parent a = a) (rootB : parent b = b) (ne : a ≠ b) :
    Leads (update parent a b) y s ↔ Leads parent y a ∧ s = b ∨ Leads parent y s ∧ s ≠ a := by
  constructor
  · intro moved
    induction moved with
    | @root y stays =>
      by_cases here : y = a
      · subst here
        rw [update_self] at stays
        exact absurd stays.symm ne
      · rw [update_of_ne here] at stays
        exact .inr ⟨.root stays, here⟩
    | @step y s moved ih =>
      by_cases here : y = a
      · subst here
        rw [update_self] at ih
        rcases ih with ⟨leads, _⟩ | ⟨leads, _⟩
        · exact absurd (leads.of_root rootB) ne
        · exact .inl ⟨.root rootA, leads.of_root rootB⟩
      · rw [update_of_ne here] at ih
        exact ih.imp (fun parts => ⟨.step parts.1, parts.2⟩) fun parts => ⟨.step parts.1, parts.2⟩
  · have tgt : Leads (update parent a b) b b := .root (by rw [update_of_ne ne.symm, rootB])
    have moved : Leads (update parent a b) a b := .step (by rwa [update_self])
    rintro (⟨leads, rfl⟩ | ⟨leads, other⟩)
    · induction leads with
      | root => exact moved
      | @step y s leads ih =>
        by_cases here : y = s
        · exact here ▸ moved
        · apply Leads.step
          rw [update_of_ne here]
          exact ih rootA ne tgt moved
    · induction leads with
      | root stays => exact .root (by rw [update_of_ne other, stays])
      | @step y s leads ih =>
        by_cases here : y = a
        · subst here
          exact absurd ((leads_parent.mp leads).of_root rootA) other
        · apply Leads.step
          rw [update_of_ne here]
          exact ih other

end Updates

section Keeps

/-- The parent links change, but no rank order and no root. -/
structure Keeps (rank : α → Nat) (known : Finset α) (parent parent' : α → α) : Prop where
  ranked : Ranked parent' rank
  closed : Closed parent' known
  leads : ∀ y s, Leads parent' y s ↔ Leads parent y s

variable {parent parent' : α → α} {rank : α → Nat} {known : Finset α} {x y r : α}

theorem Keeps.refl (ranked : Ranked parent rank) (hc : Closed parent known) : Keeps rank known parent parent :=
  ⟨ranked, hc, fun _ _ => Iff.rfl⟩

theorem isRoot_iff_leads : parent r = r ↔ Leads parent r r := ⟨.root, Leads.isRoot⟩

theorem Keeps.isRoot (hk : Keeps rank known parent parent') : parent' r = r ↔ parent r = r := by
  rw [isRoot_iff_leads, isRoot_iff_leads, hk.leads]

theorem Keeps.sameRoot (hk : Keeps rank known parent parent') :
    SameRoot parent' x y ↔ SameRoot parent x y := by
  apply exists_congr
  intro root
  rw [hk.leads, hk.leads]

theorem Keeps.compress [DecidableEq α] (hk : Keeps rank known parent parent') (leads : Leads parent x r)
    (inner : x ≠ r) (hin : x ∈ known) : Keeps rank known parent (update parent' x r) := by
  have leads' := (hk.leads x r).mpr leads
  refine ⟨?_, ?_, ?_⟩
  · intro y moved
    by_cases here : y = x
    · subst here
      rw [update_self]
      exact leads'.rank_lt hk.ranked inner
    · rw [update_of_ne here] at moved ⊢
      exact hk.ranked y moved
  · intro y moved
    by_cases here : y = x
    · subst here
      rw [update_self]
      exact ⟨hin, leads'.inside hk.closed hin⟩
    · rw [update_of_ne here] at moved ⊢
      exact hk.closed y moved
  · intro y s
    exact (leads_compress leads').trans (hk.leads y s)

end Keeps

def classes (pairs : List (α × α)) (known : Set α) : Set (Set α) := (fun x => {y | Joined pairs x y}) '' known

/-- The forest, the sizes at its roots and the number of its trees belong to the pairs joined. -/
structure Tracks (parent : α → α) (rank size : α → Nat) (known : Finset α) (components : Int)
    (pairs : List (α × α)) : Prop where
  ranked : Ranked parent rank
  closed : Closed parent known
  related : ∀ x y, SameRoot parent x y ↔ Joined pairs x y
  sized : ∀ r, parent r = r → size r = {y | Leads parent y r}.ncard
  counted : components = {r | r ∈ known ∧ parent r = r}.ncard

namespace Tracks

variable {parent parent' : α → α} {rank size : α → Nat} {known : Finset α} {components : Int}
variable {pairs : List (α × α)} {a b r s x y : α}

theorem leads_unknown (hc : Closed parent known) (unknown : x ∉ known) : Leads parent y x ↔ y = x := by
  have isRoot : parent x = x := by
    by_contra inner
    exact unknown (hc x inner).1
  constructor
  · intro leads
    by_contra different
    have known : y ∈ known := by
      by_contra outside
      have stays : parent y = y := by
        by_contra inner
        exact outside (hc y inner).1
      exact different (leads.of_root stays).symm
    exact unknown (leads.inside hc known)
  · intro eq
    rw [eq]
    exact .root isRoot

theorem of_singletons (known : Finset α) :
    Tracks id (fun _ => 0) (fun _ => 1) known known.card [] where
  ranked x inner := absurd rfl inner
  closed x inner := absurd rfl inner
  related x y := by
    rw [joined_nil]
    constructor
    · rintro ⟨root, fst, snd⟩
      exact (fst.of_root rfl).symm.trans (snd.of_root rfl)
    · intro same
      exact ⟨x, .root rfl, same ▸ .root rfl⟩
  sized r _ := by
    have alone : {y | Leads id y r} = {r} := by
      ext y
      constructor
      · intro leads
        exact (Leads.of_root leads rfl).symm
      · intro same
        exact (Set.mem_singleton_iff.mp same) ▸ .root rfl
    rw [alone, Set.ncard_singleton]
  counted := by simp

theorem same_iff (tracks : Tracks parent rank size known components pairs) (fst : Leads parent x r)
    (snd : Leads parent y s) : r = s ↔ Joined pairs x y := by
  rw [← tracks.related]
  constructor
  · intro eq
    exact ⟨r, fst, eq ▸ snd⟩
  · intro eq
    exact (eq.of_leads fst).unique snd

theorem joined_iff (tracks : Tracks parent rank size known components pairs) (leads : Leads parent x r) :
    Joined pairs x y ↔ Leads parent y r := by
  rw [← tracks.related]
  constructor
  · intro eq
    exact eq.of_leads leads
  · intro other
    exact ⟨r, leads, other⟩

theorem size_eq (tracks : Tracks parent rank size known components pairs) (leads : Leads parent x r) :
    size r = {y | Joined pairs x y}.ncard := by
  rw [tracks.sized r leads.isRoot]
  congr 1
  ext y
  exact (tracks.joined_iff leads).symm

theorem components_eq (tracks : Tracks parent rank size known components pairs) :
    components = (classes pairs known).ncard := by
  have images : classes pairs known = (fun x => {y | Joined pairs x y}) '' {r | r ∈ known ∧ parent r = r} := by
    ext c
    constructor
    · rintro ⟨x, hin, rfl⟩
      obtain ⟨r, leads⟩ := exists_root tracks.ranked tracks.closed x
      refine ⟨r, ⟨leads.inside tracks.closed hin, leads.isRoot⟩, ?_⟩
      ext y
      rw [Set.mem_ofPred_eq, Set.mem_ofPred_eq, tracks.joined_iff leads, tracks.joined_iff (.root leads.isRoot)]
    · rintro ⟨r, ⟨hin, _⟩, rfl⟩
      exact ⟨r, hin, rfl⟩
  rw [tracks.counted, images, Set.InjOn.ncard_image]
  intro r fst s snd eq
  have joined : Joined pairs r s := by
    have self : s ∈ {y | Joined pairs s y} := Joined.refl s
    rw [← show {y | Joined pairs r y} = {y | Joined pairs s y} from eq] at self
    exact self
  exact (tracks.same_iff (.root fst.2) (.root snd.2)).mpr joined

theorem keep (tracks : Tracks parent rank size known components pairs) (keeps : Keeps rank known parent parent') :
    Tracks parent' rank size known components pairs where
  ranked := keeps.ranked
  closed := keeps.closed
  related x y := keeps.sameRoot.trans (tracks.related x y)
  sized r isRoot := by
    rw [tracks.sized r (keeps.isRoot.mp isRoot)]
    congr 1
    ext y
    exact (keeps.leads y r).symm
  counted := by
    rw [tracks.counted]
    congr 2
    ext r
    exact and_congr_right fun _ => keeps.isRoot.symm

theorem finite (tracks : Tracks parent rank size known components pairs) (r : α) :
    {y | Leads parent y r}.Finite := by
  apply (known.finite_toSet.insert r).subset
  intro y leads
  by_cases inner : parent y = y
  · exact .inl (Leads.of_root leads inner).symm
  · exact .inr (tracks.closed y inner).1

theorem of_mem_iff {pairs' : List (α × α)} (tracks : Tracks parent rank size known components pairs)
    (same : ∀ pair, pair ∈ pairs ↔ pair ∈ pairs') : Tracks parent rank size known components pairs' where
  ranked := tracks.ranked
  closed := tracks.closed
  related x y := (tracks.related x y).trans ⟨.mono fun pair => (same pair).mp, .mono fun pair => (same pair).mpr⟩
  sized := tracks.sized
  counted := tracks.counted

theorem rejoin (tracks : Tracks parent rank size known components pairs) (joined : Joined pairs a b) :
    Tracks parent rank size known components ((a, b) :: pairs) where
  ranked := tracks.ranked
  closed := tracks.closed
  related x y := by
    rw [tracks.related, joined_cons]
    constructor
    · exact .inl
    · rintro (same | ⟨fst, snd⟩ | ⟨fst, snd⟩)
      · exact same
      · exact fst.trans (joined.trans snd.symm)
      · exact fst.trans (joined.symm.trans snd.symm)
  sized := tracks.sized
  counted := tracks.counted

variable [DecidableEq α]

theorem register (tracks : Tracks parent rank size known components pairs) (fresh : x ∉ known) :
    Tracks parent (update rank x 0) (update size x 1) (insert x known) (components + 1) pairs where
  ranked y inner := by
    have inside := tracks.closed y inner
    rw [update_of_ne (ne_of_mem_of_not_mem inside.1 fresh),
      update_of_ne (ne_of_mem_of_not_mem inside.2 fresh)]
    exact tracks.ranked y inner
  closed y inner := (tracks.closed y inner).imp Finset.mem_insert_of_mem Finset.mem_insert_of_mem
  related := tracks.related
  sized r isRoot := by
    by_cases here : r = x
    · subst here
      have alone : {y | Leads parent y r} = {r} := by
        ext y
        exact leads_unknown tracks.closed fresh
      rw [update_self, alone, Set.ncard_singleton]
    · rw [update_of_ne here]
      exact tracks.sized r isRoot
  counted := by
    have isRoot : parent x = x := (leads_unknown tracks.closed fresh).mpr rfl |>.isRoot
    have grown : {r | r ∈ insert x known ∧ parent r = r} = insert x {r | r ∈ known ∧ parent r = r} := by
      ext r
      simp only [Finset.mem_insert, Set.mem_ofPred_eq, Set.mem_insert_iff]
      grind
    rw [grown, Set.ncard_insert_of_notMem, tracks.counted]
    · push_cast
      rfl
    · intro mem
      exact fresh mem.1

theorem link (tracks : Tracks parent rank size known components pairs) {rank' : α → Nat}
    (rootA : parent a = a) (rootB : parent b = b) (apart : a ≠ b) (insideA : a ∈ known) (insideB : b ∈ known)
    (rises : rank' a < rank' b) (others : ∀ y, y ≠ b → rank' y = rank y) (grows : rank b ≤ rank' b)
    (joins : Leads parent x a ∧ Leads parent y b ∨ Leads parent x b ∧ Leads parent y a) :
    Tracks (update parent a b) rank' (update size b (size b + size a)) known (components - 1)
      ((x, y) :: pairs) where
  ranked z inner := by
    by_cases here : z = a
    · subst here
      rwa [update_self]
    · rw [update_of_ne here] at inner ⊢
      have risen := tracks.ranked z inner
      have notB : z ≠ b := fun same => inner (same ▸ rootB)
      rw [others z notB]
      by_cases tgt : parent z = b
      · rw [tgt] at risen ⊢
        exact risen.trans_le grows
      · rwa [others _ tgt]
  closed z inner := by
    by_cases here : z = a
    · subst here
      rw [update_self]
      exact ⟨insideA, insideB⟩
    · rw [update_of_ne here] at inner ⊢
      exact tracks.closed z inner
  related u v := by
    obtain ⟨s, leadsU⟩ := exists_root tracks.ranked tracks.closed u
    obtain ⟨t, leadsV⟩ := exists_root tracks.ranked tracks.closed v
    have rootU : ∀ r, Leads parent u r ↔ r = s := fun r => ⟨(·.unique leadsU), (· ▸ leadsU)⟩
    have rootV : ∀ r, Leads parent v r ↔ r = t := fun r => ⟨(·.unique leadsV), (· ▸ leadsV)⟩
    have joined : ∀ {w z r}, Leads parent z r → (Joined pairs w z ↔ Leads parent w r) := fun leads =>
      ⟨fun joined => (tracks.joined_iff leads).mp joined.symm, fun other => ((tracks.joined_iff leads).mpr other).symm⟩
    have merged : SameRoot (update parent a b) u v ↔ s = t ∨ s = a ∧ t = b ∨ s = b ∧ t = a := by
      have movedU : ∀ r, Leads (update parent a b) u r ↔ r = if s = a then b else s := by
        intro r
        rw [leads_link rootA rootB apart, rootU, rootU]
        split <;> grind
      have movedV : ∀ r, Leads (update parent a b) v r ↔ r = if t = a then b else t := by
        intro r
        rw [leads_link rootA rootB apart, rootV, rootV]
        split <;> grind
      simp only [SameRoot, movedU, movedV, exists_eq_left]
      split <;> split <;> grind
    rw [merged, joined_cons, joined leadsV, rootU]
    rcases joins with ⟨fst, snd⟩ | ⟨fst, snd⟩
    · rw [joined fst, joined snd, joined fst, joined snd, rootU, rootU, rootV, rootV]
      grind
    · rw [joined fst, joined snd, joined fst, joined snd, rootU, rootU, rootV, rootV]
      grind
  sized r isRoot := by
    by_cases here : r = b
    · subst here
      have merged : {y | Leads (update parent a r) y r} = {y | Leads parent y r} ∪ {y | Leads parent y a} := by
        ext z
        simp only [Set.mem_ofPred_eq, Set.mem_union, leads_link rootA rootB apart]
        grind
      have disjoint : Disjoint {y | Leads parent y r} {y | Leads parent y a} := by
        rw [Set.disjoint_left]
        intro z fst snd
        exact apart (Leads.unique snd fst)
      rw [update_self, merged, Set.ncard_union_eq disjoint (tracks.finite r)
        (tracks.finite a), tracks.sized r rootB,
        tracks.sized a rootA]
    · have notA : r ≠ a := by
        intro same
        subst same
        rw [update_self] at isRoot
        exact apart isRoot.symm
      rw [update_of_ne notA] at isRoot
      rw [update_of_ne here, tracks.sized r isRoot]
      congr 1
      ext z
      simp only [Set.mem_ofPred_eq, leads_link rootA rootB apart]
      grind
  counted := by
    have fewer : {r | r ∈ known ∧ update parent a b r = r} = {r | r ∈ known ∧ parent r = r} \ {a} := by
      ext r
      simp only [Set.mem_ofPred_eq, Set.mem_sdiff, Set.mem_singleton_iff]
      by_cases here : r = a
      · subst here
        rw [update_self]
        grind
      · rw [update_of_ne here]
        grind
    have mem : a ∈ {r | r ∈ known ∧ parent r = r} := ⟨insideA, rootA⟩
    have finite : {r | r ∈ known ∧ parent r = r}.Finite := known.finite_toSet.subset fun r mem => mem.1
    have pos := (Set.ncard_pos finite).mpr ⟨a, mem⟩
    rw [fewer, Set.ncard_sdiff_singleton_of_mem mem, tracks.counted]
    omega

theorem unite (tracks : Tracks parent rank size known components pairs) (leadsA : Leads parent x a)
    (leadsB : Leads parent y b) (apart : a ≠ b) (insideA : a ∈ known) (insideB : b ∈ known) {big small : α}
    (chosen : (big, small) = if rank a < rank b then (b, a) else (a, b)) :
    Tracks (update parent small big)
      (if rank a = rank b then update rank big (rank big + 1) else rank)
      (update size big (size big + size small)) known (components - 1) ((x, y) :: pairs) := by
  have others : ∀ z, z ≠ big →
      (if rank a = rank b then update rank big (rank big + 1) else rank) z = rank z := by
    intro z other
    split
    · exact update_of_ne other _ _
    · rfl
  by_cases lower : rank a < rank b
  · rw [if_pos lower] at chosen
    cases chosen
    rw [if_neg lower.ne] at others ⊢
    exact tracks.link leadsA.isRoot leadsB.isRoot apart insideA insideB lower others le_rfl
      (.inl ⟨leadsA, leadsB⟩)
  · rw [if_neg lower] at chosen
    cases chosen
    apply tracks.link leadsB.isRoot leadsA.isRoot apart.symm insideB insideA _ others _ (.inr ⟨leadsA, leadsB⟩)
    · rw [others _ apart.symm]
      split
      · rename_i eq
        rw [update_self, eq]
        exact Nat.lt_succ_self _
      · rename_i different
        omega
    · split
      · rw [update_self]
        exact Nat.le_succ _
      · exact le_rfl

end Tracks

end Partition
