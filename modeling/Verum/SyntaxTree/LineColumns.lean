import Verum.SyntaxTree.EditBatches

open List

namespace SyntaxTree

open Nat

/-- `char::len_utf16`. -/
def lenUtf16 (char : Char) : Nat := if char.val < 0x10000 then 1 else 2

/-- Line/column coordinates; columns count UTF-16 code units. -/
structure LspRange where
  startLine : Nat
  startCol : Nat
  endLine : Nat
  endCol : Nat

/-- What a character does to the line and column counters, two `u32`s. -/
def countChar (position : Nat × Nat) (char : Char) : Nat × Nat :=
  if char = '\n' then ((position.1 + 1) % 2 ^ 32, 0)
  else (position.1, (position.2 + lenUtf16 char) % 2 ^ 32)

def lineColLoop (line col : Nat) : Text → Nat × Nat → Nat → Nat
  | [], _, offset => offset
  | char :: rest, current, offset =>
    if current.1 = line ∧ current.2 = col then offset
    else lineColLoop line col rest (countChar current char) ((offset + char.utf8Size) % 2 ^ 32)

def lineColToOffset (source : Text) (line col : Nat) : Nat := lineColLoop line col source (0, 0) 0

def offsetLoop (offset : Nat) : Text → Nat × Nat → Nat → Nat × Nat
  | [], current, _ => current
  | char :: rest, current, currentOffset =>
    if currentOffset ≥ offset then current
    else offsetLoop offset rest (countChar current char) ((currentOffset + char.utf8Size) % 2 ^ 32)

def offsetToLineCol (source : Text) (offset : Nat) : Nat × Nat := offsetLoop offset source (0, 0) 0

def lspRangeToTextRange (range : LspRange) (source : Text) : TextRange :=
  ⟨lineColToOffset source range.startLine range.startCol, lineColToOffset source range.endLine range.endCol⟩

def advance (position : Nat × Nat) (char : Char) : Nat × Nat :=
  if char = '\n' then (position.1 + 1, 0) else (position.1, position.2 + lenUtf16 char)

def position (front : Text) : Nat × Nat := front.foldl advance (0, 0)

theorem lenUtf16_pos (char : Char) : 0 < lenUtf16 char := by
  unfold lenUtf16
  split <;> omega

theorem lenUtf16_le (char : Char) : lenUtf16 char ≤ char.utf8Size := by
  unfold lenUtf16
  split
  · exact char.utf8Size_pos
  · rename_i large
    -- beyond the basic plane a character takes four bytes
    have above : ∀ hb : UInt32, hb ≤ 0xffff → ¬ char.val ≤ hb := fun hb le small =>
      large (UInt32.lt_iff_toNat_lt.mpr (Nat.lt_of_le_of_lt
        (UInt32.le_iff_toNat_le.mp (UInt32.le_trans small le)) (by decide)))
    unfold Char.utf8Size
    dsimp only
    rw [if_neg (above _ (by decide)), if_neg (above _ (by decide)), if_neg (above _ (by decide))]
    omega

def Counted (current : Nat × Nat) (offset : Nat) : Prop := current.1 ≤ offset ∧ current.2 ≤ offset

variable {current : Nat × Nat} {offset line col : Nat} {front source back before content after : Text}

theorem advance_counted (counted : Counted current offset) (char : Char) :
    Counted (advance current char) (offset + char.utf8Size) := by
  have size := char.utf8Size_pos
  have width := lenUtf16_le char
  obtain ⟨line, col⟩ := counted
  unfold advance
  split
  · exact ⟨by dsimp only; omega, zero_le _⟩
  · exact ⟨by dsimp only; omega, by dsimp only; omega⟩

theorem countChar_eq (counted : Counted current offset) (char : Char) (short : offset + char.utf8Size < 2 ^ 32) :
    countChar current char = advance current char := by
  have ⟨line, col⟩ := advance_counted counted char
  unfold countChar
  unfold advance at *
  split
  · rename_i newline
    rw [if_pos newline] at line
    dsimp only at line
    rw [mod_eq_of_lt (by omega)]
  · rename_i other
    rw [if_neg other] at col
    dsimp only at col
    rw [mod_eq_of_lt (by omega)]

/-- `p` is before `q` in the order of lines and columns. -/
def Before (p q : Nat × Nat) : Prop := p.1 < q.1 ∨ p.1 = q.1 ∧ p.2 < q.2

theorem before_advance (current : Nat × Nat) (char : Char) : Before current (advance current char) := by
  have := lenUtf16_pos char
  unfold advance Before
  split
  · exact .inl (lt_succ_self _)
  · exact .inr ⟨rfl, by dsimp only; omega⟩

theorem Before.trans {p q r : Nat × Nat} (first : Before p q) (snd : Before q r) : Before p r := by
  unfold Before at *
  omega

theorem before_foldl (current : Nat × Nat) (char : Char) (front : Text) :
    Before current ((char :: front).foldl advance current) := by
  induction front generalizing current char with
  | nil => exact before_advance current char
  | cons next front ih => exact (before_advance current char).trans (ih (advance current char) next)

theorem Before.ne {p q : Nat × Nat} (before : Before p q) : p ≠ q := by
  rintro rfl
  unfold Before at before
  omega

theorem lineColLoop_hit (back : Text) (counted : Counted current offset)
    (short : offset + byteLength front < 2 ^ 32) (hit : front.foldl advance current = (line, col)) :
    lineColLoop line col (front ++ back) current offset = offset + byteLength front := by
  induction front generalizing current offset with
  | nil =>
    have hit : current = (line, col) := hit
    subst hit
    cases back with
    | nil => rfl
    | cons char back => rw [nil_append, lineColLoop, if_pos ⟨rfl, rfl⟩]; rfl
  | cons char front ih =>
    rw [byteLength_cons] at short
    have away : ¬ (current.1 = line ∧ current.2 = col) := fun here =>
      (before_foldl current char front).ne (by rw [hit]; exact Prod.ext here.1 here.2)
    rw [cons_append, lineColLoop, if_neg away, countChar_eq counted char (by omega),
      mod_eq_of_lt (by omega), ih (advance_counted counted char) (by omega) hit, byteLength_cons, add_assoc]

theorem lineColLoop_miss {rest : Text} (counted : Counted current offset)
    (short : offset + byteLength rest < 2 ^ 32)
    (miss : ∀ front back, rest = front ++ back → front.foldl advance current ≠ (line, col)) :
    lineColLoop line col rest current offset = offset + byteLength rest := by
  induction rest generalizing current offset with
  | nil => rfl
  | cons char rest ih =>
    rw [byteLength_cons] at short
    have away : ¬ (current.1 = line ∧ current.2 = col) := fun here =>
      miss [] (char :: rest) rfl (Prod.ext here.1 here.2)
    rw [lineColLoop, if_neg away, countChar_eq counted char (by omega), mod_eq_of_lt (by omega),
      ih (advance_counted counted char) (by omega) fun front back split =>
        miss (char :: front) back (by rw [split]; rfl),
      byteLength_cons, add_assoc]

theorem offsetLoop_eq (back : Text) (counted : Counted current offset)
    (short : offset + byteLength front < 2 ^ 32) :
    offsetLoop (offset + byteLength front) (front ++ back) current offset = front.foldl advance current := by
  induction front generalizing current offset with
  | nil =>
    cases back with
    | nil => rfl
    | cons char back => rw [nil_append, offsetLoop, byteLength_nil,
      if_pos (show offset ≥ offset + 0 by omega)]; rfl
  | cons char front ih =>
    have size := char.utf8Size_pos
    rw [byteLength_cons] at short ⊢
    rw [cons_append, offsetLoop, if_neg (by omega), countChar_eq counted char (by omega),
      mod_eq_of_lt (by omega), ← add_assoc, ih (advance_counted counted char) (by omega)]
    rfl

theorem counted_start : Counted (0, 0) 0 := ⟨Nat.le_refl 0, Nat.le_refl 0⟩

theorem lineColToOffset_hit (front back : Text) (short : byteLength front < 2 ^ 32) :
    lineColToOffset (front ++ back) (position front).1 (position front).2 = byteLength front := by
  have hit := lineColLoop_hit back counted_start (by rwa [zero_add])
    (show front.foldl advance (0, 0) = ((position front).1, (position front).2) from rfl)
  rwa [zero_add] at hit

theorem lineColToOffset_miss (line col : Nat) (short : byteLength source < 2 ^ 32)
    (miss : ∀ front back, source = front ++ back → position front ≠ (line, col)) :
    lineColToOffset source line col = byteLength source := by
  have done := lineColLoop_miss counted_start (by rwa [zero_add]) miss
  rwa [zero_add] at done

theorem offsetToLineCol_eq (short : byteLength front < 2 ^ 32) :
    offsetToLineCol (front ++ back) (byteLength front) = position front := by
  have done := offsetLoop_eq back counted_start (by rwa [zero_add])
  rwa [zero_add] at done

theorem position_append (front back : Text) : position (front ++ back) = back.foldl advance (position front) :=
  foldl_append

theorem before_of_prefix (front : Text) {middle : Text} (nonempty : middle ≠ []) :
    Before (position front) (position (front ++ middle)) := by
  cases middle with
  | nil => exact absurd rfl nonempty
  | cons char middle =>
    rw [position_append]
    exact before_foldl _ char middle

def utf16Length (text : Text) : Nat := (text.map lenUtf16).sum

/-- The text splits into what is before a line, the line, and what follows with its newline. -/
structure LineAt (source : Text) (line : Nat) (before content after : Text) : Prop where
  split : source = before ++ content ++ after
  start : position before = (line, 0)
  plain : '\n' ∉ content
  ends : after = [] ∨ ∃ rest, after = '\n' :: rest

theorem foldl_advance_line (content : Text) (plain : '\n' ∉ content) (line col : Nat) :
    content.foldl advance (line, col) = (line, col + utf16Length content) := by
  induction content generalizing col with
  | nil => rfl
  | cons char content ih =>
    have other : char ≠ '\n' := fun eq => plain (eq ▸ mem_cons_self)
    rw [foldl_cons, advance, if_neg other, ih (fun member => plain (mem_cons_of_mem char member)),
      utf16Length, utf16Length, map_cons, sum_cons, add_assoc]

theorem LineAt.place (lineAt : LineAt source line before content after) (split : source = front ++ back)
    (here : position front = (line, col)) :
    ∃ left right, content = left ++ right ∧ front = before ++ left ∧ utf16Length left = col := by
  obtain ⟨whole, start, plain, ends⟩ := lineAt
  have columns := fun (left : Text) (plain : '\n' ∉ left) => foldl_advance_line left plain line 0
  rw [whole, append_assoc] at split
  rcases Nat.le_total (byteLength before) (byteLength front) with shorter | longer
  · obtain ⟨left, rfl, rest⟩ := prefix_of_byteLength_le split shorter
    rcases Nat.le_total (byteLength left) (byteLength content) with inside | past
    · obtain ⟨right, rfl, -⟩ := prefix_of_byteLength_le rest.symm inside
      refine ⟨left, right, rfl, rfl, ?_⟩
      have := columns left fun member => plain (mem_append_left right member)
      rw [position_append, start, this, zero_add] at here
      exact congrArg Prod.snd here
    · obtain ⟨beyond, rfl, rest⟩ := prefix_of_byteLength_le rest past
      cases beyond with
      | nil =>
        refine ⟨content, [], by simp, by simp, ?_⟩
        have := columns content plain
        rw [append_nil, position_append, start, this, zero_add] at here
        exact congrArg Prod.snd here
      | cons char beyond =>
        -- the place would be past the newline that ends the line
        rw [append_assoc, append_right_inj] at rest
        rcases ends with rfl | ⟨tail, rfl⟩
        · cases rest
        · obtain ⟨rfl, -⟩ := cons_eq_cons.mp rest
          have hl : Before (line + 1, 0) (line, col) ∨ (line + 1, 0) = (line, col) := by
            rw [← here, position_append, start, foldl_append, columns content plain, foldl_cons,
              advance, if_pos rfl]
            cases beyond with
            | nil => exact .inr rfl
            | cons char beyond => exact .inl (before_foldl _ char beyond)
          rcases hl with (above | ⟨same, -⟩) | same
          · simp at above
          · simp at same
          · exact absurd (congrArg Prod.fst same) (by simp)
  · obtain ⟨gap, rfl, -⟩ := prefix_of_byteLength_le split.symm longer
    cases gap with
    | nil => exact ⟨[], content, rfl, by simp, by
        rw [append_nil, here] at start
        exact (congrArg Prod.snd start).symm⟩
    | cons char gap =>
      have earlier : Before (position front) (position (front ++ char :: gap)) := before_of_prefix front (by simp)
      rw [start, here] at earlier
      unfold Before at earlier
      simp at earlier

def WithinLine (before content : Text) (offset : Nat) : Prop :=
  byteLength before ≤ offset ∧ offset ≤ byteLength before + byteLength content

def Reached (source : Text) (line col : Nat) : Prop :=
  ∃ front back, source = front ++ back ∧ position front = (line, col)

theorem LineAt.within_iff (lineAt : LineAt source line before content after) (short : byteLength source < 2 ^ 32)
    (col : Nat) : WithinLine before content (lineColToOffset source line col) ↔
      (∃ left right, content = left ++ right ∧ utf16Length left = col) ∨ after = [] := by
  have whole := congrArg byteLength lineAt.split
  rw [byteLength_append, byteLength_append] at whole
  by_cases reached : Reached source line col
  · obtain ⟨front, back, split, here⟩ := reached
    obtain ⟨left, right, content_eq, rfl, width⟩ := lineAt.place split here
    have total := congrArg byteLength split
    rw [byteLength_append] at total
    have hit := lineColToOffset_hit (before ++ left) back (by omega)
    rw [here, ← split] at hit
    rw [hit, content_eq]
    refine ⟨fun _ => .inl ⟨left, right, rfl, width⟩, fun _ => ?_⟩
    unfold WithinLine
    rw [byteLength_append, byteLength_append]
    omega
  · have miss := lineColToOffset_miss line col short
      fun front back split here => reached ⟨front, back, split, here⟩
    rw [miss, WithinLine]
    constructor
    · intro ⟨_, upper⟩
      refine .inr ?_
      cases after with
      | nil => rfl
      | cons char after =>
        have := char.utf8Size_pos
        rw [byteLength_cons] at whole
        omega
    · rintro (⟨left, right, rfl, width⟩ | rfl)
      · refine absurd ⟨before ++ left, right ++ after, ?_, ?_⟩ reached
        · rw [lineAt.split]
          simp
        · have plain : '\n' ∉ left := fun member => lineAt.plain (mem_append_left right member)
          rw [position_append, lineAt.start, foldl_advance_line left plain, width, zero_add]
      · rw [byteLength_nil] at whole
        omega

def LspRange.Ordered (range : LspRange) : Prop :=
  range.startLine < range.endLine ∨ range.startLine = range.endLine ∧ range.startCol ≤ range.endCol

theorem lspRange_ordered_iff (short : byteLength source < 2 ^ 32) {range : LspRange} (ordered : range.Ordered) :
    (lspRangeToTextRange range source).start ≤ (lspRangeToTextRange range source).stop ↔
      Reached source range.startLine range.startCol ∨
        ¬ ∃ front back, back ≠ [] ∧ source = front ++ back ∧ position front = (range.endLine, range.endCol) := by
  have hits : ∀ {front back line col}, source = front ++ back → position front = (line, col) →
      lineColToOffset source line col = byteLength front := by
    intro front back line col split here
    have total := congrArg byteLength split
    rw [byteLength_append] at total
    have hit := lineColToOffset_hit front back (by omega)
    rwa [here, ← split] at hit
  have misses : ∀ {line col}, ¬ Reached source line col → lineColToOffset source line col = byteLength source :=
    fun {line col} unreached => lineColToOffset_miss line col short
      fun front back split here => unreached ⟨front, back, split, here⟩
  have within : ∀ {front back}, source = front ++ back → byteLength front ≤ byteLength source := by
    intro front back split
    rw [split, byteLength_append]
    omega
  unfold lspRangeToTextRange
  dsimp only
  by_cases first : Reached source range.startLine range.startCol
  · refine ⟨fun _ => .inl first, fun _ => ?_⟩
    obtain ⟨front, back, split, here⟩ := first
    rw [hits split here]
    by_cases snd : Reached source range.endLine range.endCol
    · obtain ⟨front', back', split', here'⟩ := snd
      rw [hits split' here']
      by_contra hl
      obtain ⟨middle, rfl, -⟩ := prefix_of_byteLength_le (split'.symm.trans split) (by omega)
      have nonempty : middle ≠ [] := fun empty => by simp [empty] at hl
      have := before_of_prefix front' nonempty
      rw [here, here'] at this
      unfold Before at this
      unfold LspRange.Ordered at ordered
      dsimp only at this
      omega
    · rw [misses snd]
      exact within split
  · rw [misses first]
    constructor
    · intro reaches
      refine .inr ?_
      rintro ⟨front, back, nonempty, split, here⟩
      rw [hits split here, split, byteLength_append] at reaches
      cases back with
      | nil => exact nonempty rfl
      | cons char back =>
        have := char.utf8Size_pos
        rw [byteLength_cons] at reaches
        omega
    · intro either
      have unreached := either.resolve_left first
      by_cases snd : Reached source range.endLine range.endCol
      · obtain ⟨front, back, split, here⟩ := snd
        have empty : back = [] := by
          by_contra nonempty
          exact unreached ⟨front, back, nonempty, split, here⟩
        exact Nat.le_of_eq (by rw [hits split here, split, empty, append_nil])
      · exact Nat.le_of_eq (misses snd).symm

/-- From an offset to its line and column and back nothing is lost; the other way, an offset stays on
its line if and only if the column is that of a place on the line, or the line is the last one. -/
theorem line_columns_exact (source : Text) :
    (∀ offset, offset < 2 ^ 32 → IsCharBoundary source offset →
      lineColToOffset source (offsetToLineCol source offset).1 (offsetToLineCol source offset).2 = offset) ∧
    (byteLength source < 2 ^ 32 →
      (∀ line col before content after, LineAt source line before content after →
        (WithinLine before content (lineColToOffset source line col) ↔
          (∃ left right, content = left ++ right ∧ utf16Length left = col) ∨ after = [])) ∧
      ∀ range : LspRange, range.Ordered →
        ((lspRangeToTextRange range source).start ≤ (lspRangeToTextRange range source).stop ↔
          Reached source range.startLine range.startCol ∨
            ¬ ∃ front back, back ≠ [] ∧ source = front ++ back ∧
              position front = (range.endLine, range.endCol))) := by
  refine ⟨?_, fun short => ⟨fun line col before content after lineAt => lineAt.within_iff short col,
    fun range ordered => lspRange_ordered_iff short ordered⟩⟩
  rintro offset small ⟨front, back, rfl, rfl⟩
  rw [offsetToLineCol_eq small, lineColToOffset_hit front back small]

theorem line_columns_exact_emoji : lineColToOffset ['a', '😀', '\n', 'b'] 1 1 = 7 :=
  (line_columns_exact ['a', '😀', '\n', 'b']).1 7 (by decide) ⟨['a', '😀', '\n', 'b'], [], rfl, rfl⟩

/-- Column 5 of the first line of `ab`, newline, `cd` is the end of the text, on the second line. -/
theorem column_past_end : LineAt ['a', 'b', '\n', 'c', 'd'] 0 [] ['a', 'b'] ['\n', 'c', 'd'] ∧
    ¬ WithinLine [] ['a', 'b'] (lineColToOffset ['a', 'b', '\n', 'c', 'd'] 0 5) :=
  ⟨⟨rfl, rfl, by decide, .inr ⟨['c', 'd'], rfl⟩⟩, fun within => absurd within.2 (by decide)⟩

end SyntaxTree
