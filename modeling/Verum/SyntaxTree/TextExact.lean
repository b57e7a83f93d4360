import Verum.SyntaxTree.Incremental

namespace SyntaxTree

open GreenChild (collectText)

/-- `target` stands at `path` below the root, between the texts `before` and `after`. -/
inductive Located : GreenNode → List Nat → GreenNode → Text → Text → Prop
  | here (node : GreenNode) : Located node [] node [] []
  | child {root node target : GreenNode} {front back : List GreenChild} {path : List Nat}
      {before after : Text} (childrenEq : root.children = front ++ .node node :: back)
      (inner : Located node path target before after) :
      Located root (front.length :: path) target (collectText front ++ before) (after ++ collectText back)

variable {root node target replacement rebuilt : GreenNode} {front back : List GreenChild} {path : List Nat}
  {before after : Text} {range : TextRange} {idx : Nat} {edit : TextEdit}

theorem text_of_children (childrenEq : root.children = front ++ .node node :: back) :
    root.text = collectText front ++ node.text ++ collectText back := by
  rw [root.text_eq, childrenEq, GreenChild.collectText_append]
  simp [collectText, GreenChild.text]

theorem Located.text_eq (loc : Located root path target before after) :
    root.text = before ++ target.text ++ after := by
  induction loc with
  | here node => simp
  | child childrenEq _ ih =>
    rw [text_of_children childrenEq, ih]
    simp

theorem Located.step (loc : Located root path target before after)
    (childrenEq : target.children = front ++ .node node :: back) :
    Located root (path ++ [front.length]) node (before ++ collectText front) (collectText back ++ after) := by
  induction loc with
  | here target => simpa using Located.child childrenEq (.here node)
  | child outerEq _ ih =>
    simpa using Located.child outerEq (ih childrenEq)

theorem rebuildWithReplacement_cons (childrenEq : root.children = front ++ .node node :: back)
    (innerEq : rebuildWithReplacement node path replacement = some rebuilt) :
    rebuildWithReplacement root (front.length :: path) replacement
      = some (.new root.kind (front ++ .node rebuilt :: back)) := by
  have replaceEq : root.replaceChild front.length (.node rebuilt)
      = .new root.kind (front ++ .node rebuilt :: back) := by
    simp [GreenNode.replaceChild, childrenEq]
  cases path with
  | nil =>
    have rebuiltEq : replacement = rebuilt := by simpa [rebuildWithReplacement] using innerEq
    rw [rebuildWithReplacement, rebuiltEq, replaceEq]
  | cons idx path =>
    have childAt : root.children[front.length]? = some (.node node) := by simp [childrenEq]
    simp only [rebuildWithReplacement, childAt, innerEq, Option.bind_eq_bind, Option.bind_some, replaceEq]

/-- What a replacement at a path keeps: the rest of the text and every subtree off the path. -/
structure Replaced (root : GreenNode) (path : List Nat) (replacement : GreenNode) (before after : Text)
    (result : GreenNode) : Prop where
  text_eq : result.text = before ++ replacement.text ++ after
  at_path : (GreenChild.node result).subtreeAt path = some (.node replacement)
  off_path : ∀ address, ¬ address <+: path → ¬ path <+: address →
    (GreenChild.node result).subtreeAt address = (GreenChild.node root).subtreeAt address

theorem Replaced.child (childrenEq : root.children = front ++ .node node :: back)
    (inner : Replaced node path replacement before after rebuilt) :
    Replaced root (front.length :: path) replacement (collectText front ++ before)
      (after ++ collectText back) (.new root.kind (front ++ .node rebuilt :: back)) where
  text_eq := by
    have rebuiltEq : (GreenNode.new root.kind (front ++ .node rebuilt :: back)).children =
        front ++ .node rebuilt :: back := by rfl
    rw [text_of_children rebuiltEq, inner.text_eq]
    simp
  at_path := by simpa [GreenChild.subtreeAt] using inner.at_path
  off_path := by
    intro address notAbove notBelow
    cases address with
    | nil => exact absurd List.nil_prefix notAbove
    | cons idx address =>
      simp only [GreenChild.subtreeAt, childrenEq, GreenNode.children_new]
      by_cases eq : idx = front.length
      · subst eq
        simp only [List.prefix_cons_inj] at notAbove notBelow
        simpa using inner.off_path address notAbove notBelow
      · rcases Nat.lt_or_gt_of_ne eq with lt | greater
        · rw [List.getElem?_append_left lt, List.getElem?_append_left lt]
        · obtain ⟨gap, rfl⟩ := Nat.exists_eq_add_of_lt greater
          simp [List.getElem?_append_right, Nat.add_assoc]

theorem Located.rebuild (loc : Located root path target before after) (replacement : GreenNode) :
    ∃ res, rebuildWithReplacement root path replacement = some res
      ∧ Replaced root path replacement before after res := by
  induction loc with
  | here node =>
    refine ⟨replacement, by simp [rebuildWithReplacement], by simp, by simp [GreenChild.subtreeAt], ?_⟩
    intro address _ notBelow
    exact absurd List.nil_prefix notBelow
  | child childrenEq _ ih =>
    obtain ⟨rebuilt, rebuiltEq, inner⟩ := ih
    exact ⟨_, rebuildWithReplacement_cons childrenEq rebuiltEq, inner.child childrenEq⟩

theorem findChild_spec {childOffset : Nat} {kids : List GreenChild} {hit : Nat × GreenNode × Nat}
    (foundEq : findChild range idx childOffset kids = some hit)
    (fits : childOffset + byteLength (collectText kids) < 2 ^ 32) :
    ∃ front back, kids = front ++ .node hit.2.1 :: back ∧ hit.1 = idx + front.length
      ∧ hit.2.2 = childOffset + byteLength (collectText front)
      ∧ hit.2.2 ≤ range.start ∧ range.stop ≤ hit.2.2 + byteLength hit.2.1.text := by
  induction kids generalizing idx childOffset with
  | nil => simp [findChild] at foundEq
  | cons child kids ih =>
    simp only [collectText, byteLength_append] at fits
    have widthEq : child.width = byteLength child.text := by
      rw [child.width_eq]
      exact Nat.mod_eq_of_lt (by omega)
    simp only [findChild, widthEq] at foundEq
    rw [Nat.mod_eq_of_lt (by omega : childOffset + byteLength child.text < 2 ^ 32)] at foundEq
    split at foundEq
    case isTrue contains =>
      cases child with
      | token token => simp at foundEq
      | node node =>
        simp only [Option.some.injEq] at foundEq
        subst foundEq
        simp only [GreenChild.text] at contains fits
        rw [TextRange.atOffset_containsRange_iff, Nat.mod_eq_of_lt (by omega)] at contains
        exact ⟨[], kids, rfl, by simp, by simp [collectText], contains.1, contains.2⟩
    case isFalse =>
      split at foundEq
      · simp at foundEq
      · obtain ⟨front, back, childrenEq, indexEq, offsetEq, within⟩ :=
          ih foundEq (by omega)
        refine ⟨child :: front, back, by simp [childrenEq], ?_, ?_, within⟩
        · simp [indexEq]
          omega
        · simp [offsetEq, collectText]
          omega

/-- The place is where it says it is, and the range lies inside its node. -/
def Place.Covers (root : GreenNode) (range : TextRange) (place : Place) : Prop :=
  ∃ before after, Located root place.path place.node before after ∧ place.offset = byteLength before
    ∧ place.offset ≤ range.start ∧ range.stop ≤ place.offset + byteLength place.node.text

theorem Place.Covers.child {place : Place} {off : Nat} (covers : place.Covers root range)
    (fits : byteLength root.text < 2 ^ 32)
    (hit : findChild range 0 place.offset place.node.children = some (idx, node, off)) :
    Covers root range ⟨place.path ++ [idx], node, off⟩ := by
  obtain ⟨before, after, located, offsetEq, _, _⟩ := covers
  rw [located.text_eq, place.node.text_eq] at fits
  simp only [byteLength_append] at fits
  obtain ⟨front, back, childrenEq, indexEq, childOffsetEq, within⟩ := findChild_spec hit (by omega)
  simp only [Nat.zero_add] at indexEq
  refine ⟨before ++ collectText front, collectText back ++ after, ?_, ?_, within⟩
  · rw [indexEq]
    exact located.step childrenEq
  · rw [byteLength_append, ← offsetEq]
    exact childOffsetEq

theorem rememberStable_covers {cur lastStable : Place} (currentCovers : cur.Covers root range)
    (lastCovers : lastStable.Covers root range) : (rememberStable cur lastStable).Covers root range := by
  rw [rememberStable]
  split
  · exact currentCovers
  · exact lastCovers

theorem descend_covers (fits : byteLength root.text < 2 ^ 32) (cur lastStable : Place)
    (currentCovers : cur.Covers root range) (lastCovers : lastStable.Covers root range) :
    (descend range cur lastStable).1.Covers root range
      ∧ (descend range cur lastStable).2.Covers root range := by
  fun_induction descend range cur lastStable with
  | case1 cur lastStable idx node off hit ih =>
    exact ih (currentCovers.child fits hit)
      (rememberStable_covers currentCovers lastCovers)
  | case2 cur lastStable hit =>
    exact ⟨currentCovers, rememberStable_covers currentCovers lastCovers⟩

theorem findAffectedSubtree_covers (fits : byteLength root.text < 2 ^ 32)
    (inside : edit.range.stop ≤ byteLength root.text) :
    ∃ affected before after, findAffectedSubtree root edit = some affected
      ∧ Located root affected.path affected.node before after ∧ affected.startOffset = byteLength before
      ∧ affected.startOffset ≤ edit.range.start
      ∧ edit.range.stop ≤ affected.startOffset + byteLength affected.node.text := by
  have rootCovers : Place.Covers root edit.range ⟨[], root, 0⟩ :=
    ⟨[], [], .here root, rfl, Nat.zero_le _, by simpa using inside⟩
  have covers := descend_covers fits _ _ rootCovers rootCovers
  obtain ⟨before, after, within⟩ := rememberStable_covers covers.1 covers.2
  exact ⟨_, before, after, rfl, within⟩

/-- An edit whose two ends are character boundaries of the source. -/
structure TextEdit.OnBoundaries (edit : TextEdit) (source : Text) : Prop where
  ordered : edit.range.start ≤ edit.range.stop
  start : IsCharBoundary source edit.range.start
  stop : IsCharBoundary source edit.range.stop

theorem TextEdit.OnBoundaries.cut {source : Text} (onBoundaries : edit.OnBoundaries source) :
    ∃ front removed back, source = front ++ removed ++ back ∧ byteLength front = edit.range.start
      ∧ byteLength (front ++ removed) = edit.range.stop := by
  obtain ⟨front, back, frontEq, frontLength⟩ := onBoundaries.start
  obtain ⟨front', back', frontEq', frontLength'⟩ := onBoundaries.stop
  have ord := onBoundaries.ordered
  obtain ⟨removed, rfl, rfl⟩ :=
    prefix_of_byteLength_le (frontEq.symm.trans frontEq') (by omega)
  exact ⟨front, removed, back', frontEq', frontLength, frontLength'⟩

theorem TextEdit.apply_cut {front removed back : Text} (startEq : byteLength front = edit.range.start)
    (stopEq : byteLength (front ++ removed) = edit.range.stop) :
    edit.apply (front ++ removed ++ back) = some (front ++ edit.newText ++ back) := by
  have startLe : edit.range.start ≤ byteLength (front ++ removed ++ back) := by
    simp only [byteLength_append]
    omega
  have stopLe : edit.range.stop ≤ byteLength (front ++ removed ++ back) := by
    simp only [byteLength_append] at stopEq ⊢
    omega
  have startSplit : splitBytes edit.range.start (front ++ removed ++ back) = some (front, removed ++ back) := by
    rw [← startEq, List.append_assoc]
    exact splitBytes_append front (removed ++ back)
  have stopSplit : splitBytes edit.range.stop (front ++ removed ++ back) = some (front ++ removed, back) := by
    rw [← stopEq]
    exact splitBytes_append (front ++ removed) back
  rw [TextEdit.apply, Nat.min_eq_left startLe, startSplit]
  simp only [if_pos stopLe, stopSplit, Option.bind_eq_bind, Option.bind_some]

/-- The path to the node that is replaced: the root when the whole source is parsed again. -/
def replacedPath (root : GreenNode) (edit : TextEdit) (source : Text) : List Nat :=
  match findAffectedSubtree root edit with
  | none => []
  | some affected =>
    if affected.context = .unknown ∨ affected.startOffset + affected.node.width > byteLength source then []
    else affected.path

section Edit

variable {root : GreenNode} {edit : TextEdit} {reparse : Text → ReparseContext → GreenNode}
variable {source : Text}

theorem TextEdit.apply_inside {before mid after front removed back : Text}
    (nodeCut : source = before ++ mid ++ after) (editCut : source = front ++ removed ++ back)
    (startEq : byteLength front = edit.range.start) (stopEq : byteLength (front ++ removed) = edit.range.stop)
    (startLe : byteLength before ≤ edit.range.start)
    (stopLe : edit.range.stop ≤ byteLength before + byteLength mid) : ∃ newMiddle, TextEdit.apply
        ⟨⟨edit.range.start - byteLength before, edit.range.stop - byteLength before⟩, edit.newText⟩ mid
          = some newMiddle
      ∧ front ++ edit.newText ++ back = before ++ newMiddle ++ after := by
  subst nodeCut
  have frontCut : before ++ (mid ++ after) = front ++ (removed ++ back) := by simpa using editCut
  obtain ⟨front', rfl, restEq⟩ := prefix_of_byteLength_le frontCut (by omega)
  have stopCut : (before ++ (front' ++ removed)) ++ back = (before ++ mid) ++ after := by
    simpa using editCut.symm
  obtain ⟨back', middleEq, rfl⟩ := prefix_of_byteLength_le stopCut (by
    simp only [byteLength_append] at stopEq ⊢
    omega)
  have middleCut : mid = front' ++ removed ++ back' := by simpa using middleEq
  subst middleCut
  simp only [byteLength_append] at startEq stopEq
  refine ⟨front' ++ edit.newText ++ back', @TextEdit.apply_cut ⟨⟨_, _⟩, _⟩ _ _ _ ?_ ?_, by simp⟩
  · simp only
    omega
  · simp only [byteLength_append]
    omega

theorem applyEdit_replaced {newSource : Text} (textEq : root.text = source) (fits : byteLength source < 2 ^ 32)
    (onBoundaries : edit.OnBoundaries source) (applied : edit.apply source = some newSource) :
    ∃ text context before after res, applyEdit root edit reparse source = some res
      ∧ Replaced root (replacedPath root edit source) (reparse text context) before after res
      ∧ newSource = before ++ text ++ after := by
  subst textEq
  obtain ⟨front, removed, back, editCut, startEq, stopEq⟩ := onBoundaries.cut
  have inside : edit.range.stop ≤ byteLength root.text := by
    rw [editCut, byteLength_append]
    omega
  obtain ⟨affected, before, after, foundEq, located, offsetEq, startLe, stopLe⟩ :=
    findAffectedSubtree_covers fits inside
  have appliedEq : newSource = front ++ edit.newText ++ back := by
    rw [editCut, TextEdit.apply_cut startEq stopEq] at applied
    exact (Option.some.inj applied).symm
  have fullCase : Replaced root [] (reparse newSource .module) [] [] (reparse newSource .module) :=
    ⟨by simp, by simp [GreenChild.subtreeAt], fun _ _ notBelow => absurd List.nil_prefix notBelow⟩
  have nodeCut := located.text_eq
  have widthEq : affected.node.width = byteLength affected.node.text := by
    rw [affected.node.width_eq]
    apply Nat.mod_eq_of_lt
    simp only [nodeCut, byteLength_append] at fits
    omega
  have boundsOk : ¬ affected.startOffset + affected.node.width > byteLength root.text := by
    simp only [nodeCut, byteLength_append]
    omega
  by_cases unknown : affected.context = .unknown
  · refine ⟨newSource, .module, [], [], reparse newSource .module, ?_, ?_, by simp⟩
    · simp [applyEdit, foundEq, unknown, applied]
    · simpa [replacedPath, foundEq, unknown] using fullCase
  · have pathEq : replacedPath root edit root.text = affected.path := by
      simp [replacedPath, foundEq, unknown, boundsOk]
    by_cases atRoot : affected.path = []
    · refine ⟨newSource, .module, [], [], reparse newSource .module, ?_, ?_, by simp⟩
      · simp [applyEdit, foundEq, atRoot, applied]
      · simpa [pathEq, atRoot] using fullCase
    · obtain ⟨newMiddle, localApplied, joined⟩ := TextEdit.apply_inside nodeCut editCut startEq stopEq
        (offsetEq ▸ startLe) (offsetEq ▸ stopLe)
      obtain ⟨res, rebuilt, replaced⟩ := located.rebuild (reparse newMiddle affected.context)
      refine ⟨newMiddle, affected.context, before, after, res, ?_, pathEq ▸ replaced, ?_⟩
      · have endSplit : splitBytes (affected.startOffset + affected.node.width) root.text
            = some (before ++ affected.node.text, after) := by
          rw [nodeCut, widthEq, offsetEq, ← byteLength_append]
          exact splitBytes_append _ after
        have startSplit : splitBytes affected.startOffset (before ++ affected.node.text)
            = some (before, affected.node.text) := by
          rw [offsetEq]
          exact splitBytes_append before _
        rw [← offsetEq] at localApplied
        simp [applyEdit, foundEq, atRoot, unknown, boundsOk, endSplit, startSplit, localApplied, rebuilt]
      · exact appliedEq.trans joined

end Edit

/-- The result has exactly the edited text, its width is the byte length of that text as a `u32`, and every
subtree that is neither on the path to the replaced node nor below it stands where it stood. -/
theorem applyEdit_text_exact (root : GreenNode) (edit : TextEdit)
    (reparse : Text → ReparseContext → GreenNode) (source : Text) (textEq : root.text = source)
    (fits : byteLength source < 2 ^ 32) (onBoundaries : edit.OnBoundaries source)
    (lossless : ∀ text context, (reparse text context).text = text) :
    ∃ result newSource, applyEdit root edit reparse source = some result
      ∧ edit.apply source = some newSource ∧ result.text = newSource
      ∧ result.width = byteLength newSource % 2 ^ 32
      ∧ (∃ text context, (GreenChild.node result).subtreeAt (replacedPath root edit source)
          = some (.node (reparse text context)))
      ∧ ∀ address, ¬ address <+: replacedPath root edit source → ¬ replacedPath root edit source <+: address →
          (GreenChild.node result).subtreeAt address = (GreenChild.node root).subtreeAt address := by
  obtain ⟨front, removed, back, editCut, startEq, stopEq⟩ := onBoundaries.cut
  have applied : edit.apply source = some (front ++ edit.newText ++ back) := by
    rw [editCut]
    exact TextEdit.apply_cut startEq stopEq
  obtain ⟨text, context, before, after, result, resultEq, replaced, newEq⟩ :=
    applyEdit_replaced textEq fits onBoundaries applied
  have resultText : result.text = front ++ edit.newText ++ back := by
    rw [replaced.text_eq, lossless, newEq]
  refine ⟨result, _, resultEq, applied, resultText, ?_, ⟨text, context, replaced.at_path⟩, replaced.off_path⟩
  rw [result.width_eq, resultText]

def nodeOfText (kind : SyntaxKind) (text : Text) : GreenNode := .new kind [.token ⟨.ident, text⟩]

theorem nodeOfText_text (kind : SyntaxKind) (text : Text) : (nodeOfText kind text).text = text := by
  simp [nodeOfText, GreenNode.text, collectText, GreenChild.text]

/-- An edit at the end of the second of two functions. -/
theorem applyEdit_text_exact_second_function :
    let root : GreenNode :=
      .new .sourceFile [.node (nodeOfText .fnDef ['a', 'é']), .node (nodeOfText .fnDef ['b'])]
    let edit : TextEdit := ⟨⟨3, 4⟩, ['c', 'd']⟩
    let reparse : Text → ReparseContext → GreenNode := fun text _ => nodeOfText .fnDef text
    ∃ result newSource, applyEdit root edit reparse ['a', 'é', 'b'] = some result
      ∧ edit.apply ['a', 'é', 'b'] = some newSource ∧ result.text = newSource
      ∧ result.width = byteLength newSource % 2 ^ 32
      ∧ (∃ text context, (GreenChild.node result).subtreeAt (replacedPath root edit ['a', 'é', 'b'])
          = some (.node (reparse text context)))
      ∧ ∀ address, ¬ address <+: replacedPath root edit ['a', 'é', 'b'] →
          ¬ replacedPath root edit ['a', 'é', 'b'] <+: address →
          (GreenChild.node result).subtreeAt address = (GreenChild.node root).subtreeAt address := by
  intro root edit reparse
  refine applyEdit_text_exact root edit reparse ['a', 'é', 'b'] ?_ (by decide) ⟨by decide, ?_, ?_⟩ ?_
  · simp [root, GreenNode.text, collectText, GreenChild.text, nodeOfText_text]
  · exact ⟨['a', 'é'], ['b'], rfl, by decide⟩
  · exact ⟨['a', 'é', 'b'], [], rfl, by decide⟩
  · exact fun text _ => nodeOfText_text .fnDef text

theorem applyEdit_empty (newText : Text) (reparse : Text → ReparseContext → GreenNode) :
    ∃ res newSource, applyEdit (.new .sourceFile []) ⟨⟨0, 0⟩, newText⟩ reparse [] = some res
      ∧ TextEdit.apply ⟨⟨0, 0⟩, newText⟩ [] = some newSource ∧ newSource = newText
      ∧ res = reparse newText .module := by
  have applied : TextEdit.apply ⟨⟨0, 0⟩, newText⟩ [] = some newText := by
    simp [TextEdit.apply, splitBytes]
  refine ⟨reparse newText .module, newText, ?_, applied, rfl, rfl⟩
  have descendEq : descend ⟨0, 0⟩ ⟨[], .new .sourceFile [], 0⟩ ⟨[], .new .sourceFile [], 0⟩
      = (⟨[], .new .sourceFile [], 0⟩, ⟨[], .new .sourceFile [], 0⟩) := by
    rw [descend]
    simp [findChild, rememberStable]
  simp [applyEdit, findAffectedSubtree, descendEq, rememberStable, applied]

/-- A text of `2 ^ 32` bytes put into an empty file gives a root of width 0. -/
theorem applyEdit_width_wraps :
    let root : GreenNode := .new .sourceFile []
    let edit : TextEdit := ⟨⟨0, 0⟩, List.replicate (2 ^ 32) 'a'⟩
    let reparse : Text → ReparseContext → GreenNode := fun text _ => nodeOfText .sourceFile text
    root.text = [] ∧ byteLength [] < 2 ^ 32 ∧ edit.OnBoundaries []
      ∧ (∀ text context, (reparse text context).text = text)
      ∧ ∃ result newSource, applyEdit root edit reparse [] = some result
        ∧ edit.apply [] = some newSource ∧ result.width = 0 ∧ byteLength newSource = 2 ^ 32 := by
  intro root edit reparse
  have boundary : IsCharBoundary [] 0 := ⟨[], [], rfl, rfl⟩
  refine ⟨by simp [root, GreenNode.text, collectText], by simp, ⟨Nat.le_refl 0, boundary, boundary⟩,
    fun text _ => nodeOfText_text .sourceFile text, ?_⟩
  obtain ⟨result, newSource, resultEq, applied, newEq, reparsed⟩ :=
    applyEdit_empty (List.replicate (2 ^ 32) 'a') reparse
  have newLength : byteLength newSource = 2 ^ 32 := by
    rw [newEq, byteLength_replicate]
    rfl
  refine ⟨result, newSource, resultEq, applied, ?_, newLength⟩
  have textEq : result.text = newSource := by
    rw [reparsed, newEq]
    exact nodeOfText_text .sourceFile _
  rw [result.width_eq, textEq, newLength, Nat.mod_self]

end SyntaxTree
