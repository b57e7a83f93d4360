import Verum.SyntaxTree.Trivia

open List

namespace SyntaxTree

open Option

/-- The depth of nesting after a text read inside so many comments, delimiters taken from the left;
none when the text goes on after the last of them closes. -/
def nesting : Nat → Text → Option Nat
  | 0, [] => some 0
  | 0, _ :: _ => none
  | depth + 1, [] => some (depth + 1)
  | depth + 1, [_] => some (depth + 1)
  | depth + 1, char :: next :: rest =>
    if char = '*' ∧ next = '/' then nesting depth rest
    else if char = '/' ∧ next = '*' then nesting (depth + 2) rest
    else nesting (depth + 1) (next :: rest)

/-- The comment's last characters close it, and none before them do. -/
def ClosedComment (comment : Text) : Prop := ∃ body, comment = '/' :: '*' :: body ∧ nesting 1 body = some 0

def Unclosed (comment : Text) : Prop :=
  ∃ body depth, comment = '/' :: '*' :: body ∧ nesting 1 body = some (depth + 1)

def OneTerminator : Trivia → Prop
  | .newline text => text = ['\n'] ∨ text = ['\r'] ∨ text = ['\r', '\n']
  | _ => True

def SplitsCrlf (item next : Trivia) : Prop :=
  item.text.getLast? = some '\r' ∧ next.text.head? = some '\n'

def CommentNests (item : Trivia) (items : List Trivia) : Prop :=
  match item with
  | .blockComment text => ClosedComment text ∨ Unclosed text ∧ items = []
  | _ => True

def WellFormed : List Trivia → Prop
  | [] => True
  | item :: items => OneTerminator item ∧ (∀ next ∈ items.head?, ¬ SplitsCrlf item next) ∧
      CommentNests item items ∧ WellFormed items

/-- Where a reader of the text stands, one character after the other: `feed` and `carriage` are after a
line feed or a carriage return that starts a terminator, `broken` is for good. -/
inductive Within where
  | outside
  | slash
  | feed
  | carriage
  | line
  | block (depth : Nat) (pending : Option Char)
  | broken

namespace Within

def start (char : Char) : Within :=
  if char = '/' then slash else if char = '\n' then feed else if char = '\r' then carriage else outside

/-- What breaks the reading is a carriage return after a line feed, and text inside 2^31 comments. -/
def step : Within → Char → Within
  | outside, char => start char
  | slash, char => if char = '/' then line else if char = '*' then block 1 none else start char
  | feed, char => if char = '\r' then broken else start char
  | carriage, char => if char = '\n' then outside else start char
  | line, char => if char = '\n' ∨ char = '\r' then start char else line
  | block depth pending, char =>
    if depth = 2 ^ 31 then broken
    else if pending = some '*' ∧ char = '/' then (if depth = 1 then outside else block (depth - 1) none)
    else if pending = some '/' ∧ char = '*' then block (depth + 1) none
    else block depth (some char)
  | broken, _ => broken

theorem foldl_broken (text : Text) : text.foldl step broken = broken := by
  induction text with
  | nil => rfl
  | cons char text ih => exact ih

theorem foldl_congr {p q : Within} (notP : p ≠ broken) (notQ : q ≠ broken) {text : Text}
    (eq : ∀ char, text.head? = some char → step p char = step q char) :
    text.foldl step p ≠ broken ↔ text.foldl step q ≠ broken := by
  cases text with
  | nil => exact ⟨fun _ => notQ, fun _ => notP⟩
  | cons char text => rw [foldl_cons, foldl_cons, eq char rfl]

end Within

open Within

/-- No line feed outside block comments, other than that of a CRLF, is followed by a carriage return,
and no text stands inside 2^31 nested comments. -/
def Regular (text : Text) : Prop := text.foldl step outside ≠ broken

section Helpers

theorem slice_append (front mid back : Text) :
    slice (front ++ mid ++ back) (byteLength front) (byteLength front + byteLength mid) = some mid := by
  rw [slice, if_pos (Nat.le_add_right _ _), append_assoc, splitBytes_append]
  simp only [bind_eq_bind, bind_some, Nat.add_sub_cancel_left, splitBytes_append]

theorem byteLength_pos {text : Text} (ne : text ≠ []) : 0 < byteLength text := by
  cases text with
  | nil => exact absurd rfl ne
  | cons char text =>
    have := char.utf8Size_pos
    rw [byteLength_cons]
    omega

def spaceItem (space : Text) : List Trivia := if space = [] then [] else [.whitespace space]

theorem flush_eq (front space back : Text) (res : List Trivia) :
    flush (front ++ space ++ back) (byteLength front) (byteLength (front ++ space)) res =
      some (res ++ spaceItem space) := by
  rw [flush, byteLength_append, spaceItem]
  by_cases empty : space = []
  · subst empty
    rw [if_neg (by simp), if_pos rfl, append_nil]
  · have := byteLength_pos empty
    rw [if_pos (by omega), slice_append, if_neg empty]
    rfl

theorem lineEnd_spec (chars : Text) (pos : Nat) : ∃ content, chars = content ++ (lineEnd chars pos).1 ∧
    (lineEnd chars pos).2 = pos + byteLength content ∧ (∀ char ∈ content, char ≠ '\n' ∧ char ≠ '\r') ∧
    ∀ char, (lineEnd chars pos).1.head? = some char → char = '\n' ∨ char = '\r' := by
  induction chars generalizing pos with
  | nil => exact ⟨[], rfl, rfl, by simp, by simp [lineEnd]⟩
  | cons char chars ih =>
    rw [lineEnd]
    by_cases ends : char = '\n' ∨ char = '\r'
    · rw [if_pos ends]
      refine ⟨[], rfl, rfl, by simp, fun other head => ?_⟩
      rw [List.head?_cons, some_inj] at head
      exact head ▸ ends
    · rw [if_neg ends]
      obtain ⟨content, split, length, plain, head⟩ := ih (pos + char.utf8Size)
      refine ⟨char :: content, by rw [cons_append, ← split], by rw [length, byteLength_cons, Nat.add_assoc],
        ?_, head⟩
      intro other mem
      rcases mem_cons.mp mem with rfl | mem
      · exact not_or.mp ends
      · exact plain other mem

theorem foldl_line (content : Text) (plain : ∀ char ∈ content, char ≠ '\n' ∧ char ≠ '\r') :
    content.foldl step line = line := by
  induction content with
  | nil => rfl
  | cons char content ih =>
    have other := plain char (.head _)
    rw [foldl_cons, step, if_neg (not_or.mpr other),
      ih fun c mem => plain c (mem_cons_of_mem char mem)]

end Helpers

/-- A pending character and the next one are no delimiter. -/
def Apart (pending : Option Char) (chars : Text) : Prop :=
  ∀ char, chars.head? = some char →
    ¬ (pending = some '*' ∧ char = '/') ∧ ¬ (pending = some '/' ∧ char = '*')

theorem apart_none (chars : Text) : Apart none chars := fun _ _ => ⟨by simp, by simp⟩

theorem step_block {d : Nat} {pending : Option Char} {char : Char} (small : d < 2 ^ 31)
    (ne : ¬ (pending = some '*' ∧ char = '/') ∧ ¬ (pending = some '/' ∧ char = '*')) :
    step (block d pending) char = block d (some char) := by
  rw [step, if_neg (by omega), if_neg ne.1, if_neg ne.2]

theorem bmod_depth {d : Int} (low : -2 ^ 31 ≤ d) (high : d < 2 ^ 31) :
    d.bmod (2 ^ 32) = d := by
  apply Int.bmod_eq_of_le <;> omega

theorem blockEnd_stopped {d : Int} (stopped : ¬ d > 0) (chars : Text) (pos : Nat) :
    blockEnd d chars pos = (chars, pos) := by
  rcases chars with _ | ⟨char, _ | ⟨next, chars⟩⟩
  · rfl
  · rw [blockEnd, if_neg stopped]
  · rw [blockEnd, if_neg stopped]

theorem blockEnd_spec (bound : Nat) (chars : Text) (pos d : Nat) (pending : Option Char)
    (short : chars.length ≤ bound) (positive : 0 < d) (small : d < 2 ^ 31) (apart : Apart pending chars) :
    ∃ body, chars = body ++ (blockEnd d chars pos).1 ∧
      (blockEnd d chars pos).2 = pos + byteLength body ∧ (chars ≠ [] → body.head? = chars.head?) ∧
      (nesting d body = some 0 ∧ body.foldl step (block d pending) = outside ∨
        (∃ inner, nesting d body = some (inner + 1)) ∧
          ((blockEnd d chars pos).1 = [] ∧ body.foldl step (block d pending) ≠ broken ∨
            (blockEnd d chars pos).1 ≠ [] ∧
              body.foldl step (block d pending) = block (2 ^ 31) none)) := by
  induction bound generalizing chars pos d pending with
  | zero =>
    obtain rfl := eq_nil_of_length_eq_zero (Nat.le_zero.mp short)
    obtain ⟨less, rfl⟩ := Nat.exists_eq_succ_of_ne_zero (Nat.ne_of_gt positive)
    exact ⟨[], rfl, rfl, fun absurd => (absurd rfl).elim, .inr ⟨⟨less, rfl⟩, .inl ⟨rfl, by simp⟩⟩⟩
  | succ bound ih =>
    obtain ⟨less, rfl⟩ := Nat.exists_eq_succ_of_ne_zero (Nat.ne_of_gt positive)
    have running : ((less + 1 : Nat) : Int) > 0 := by omega
    rcases chars with _ | ⟨char, _ | ⟨next, chars⟩⟩
    · exact ⟨[], rfl, rfl, fun absurd => (absurd rfl).elim, .inr ⟨⟨less, rfl⟩, .inl ⟨rfl, by simp⟩⟩⟩
    · refine ⟨[char], ?_, ?_, fun _ => rfl, .inr ⟨⟨less, rfl⟩, .inl ⟨?_, ?_⟩⟩⟩
      · rw [blockEnd, if_pos running]
        rfl
      · rw [blockEnd, if_pos running, byteLength_cons, byteLength_nil, Nat.add_zero]
      · rw [blockEnd, if_pos running]
      · rw [foldl_cons, step_block small (apart char rfl)]
        simp
    · have sizeStar : Char.utf8Size '*' = 1 := rfl
      have sizeSlash : Char.utf8Size '/' = 1 := rfl
      rw [length_cons, length_cons] at short
      have fst := step_block small (apart char rfl)
      by_cases closes : char = '*' ∧ next = '/'
      · obtain ⟨rfl, rfl⟩ := closes
        have down : ((less + 1 : Nat) : Int) - 1 = less := by omega
        have run : blockEnd (less + 1 : Nat) ('*' :: '/' :: chars) pos = blockEnd less chars (pos + 2) := by
          rw [blockEnd, if_pos running, if_pos ⟨rfl, rfl⟩, down, bmod_depth (by omega) (by omega)]
        have snd : step (block (less + 1) (some '*')) '/' = if less + 1 = 1 then outside else block less none := by
          rw [step, if_neg (by omega), if_pos ⟨rfl, rfl⟩]
          rfl
        rw [run]
        cases less with
        | zero =>
          rw [blockEnd_stopped (by omega)]
          refine ⟨['*', '/'], rfl, rfl, fun _ => rfl, .inl ⟨rfl, ?_⟩⟩
          rw [foldl_cons, foldl_cons, fst, snd]
          rfl
        | succ less =>
          obtain ⟨body, split, length, -, out⟩ :=
            ih chars (pos + 2) (less + 1) none (by omega) (by omega) (by omega) (apart_none chars)
          refine ⟨'*' :: '/' :: body, by rw [cons_append, cons_append, ← split], ?_, fun _ => rfl, ?_⟩
          · rw [length, byteLength_cons, byteLength_cons]
            omega
          · rw [nesting, if_pos ⟨rfl, rfl⟩, foldl_cons, foldl_cons, fst, snd, if_neg (by omega)]
            exact out
      · by_cases opens : char = '/' ∧ next = '*'
        · obtain ⟨rfl, rfl⟩ := opens
          have run : blockEnd (less + 1 : Nat) ('/' :: '*' :: chars) pos =
              blockEnd (((less + 2 : Nat) : Int).bmod (2 ^ 32)) chars (pos + 2) := by
            rw [blockEnd, if_pos running, if_neg closes, if_pos ⟨rfl, rfl⟩]
            rfl
          have snd : step (block (less + 1) (some '/')) '*' = block (less + 2) none := by
            rw [step, if_neg (by omega), if_neg (by simp), if_pos ⟨rfl, rfl⟩]
          rw [run]
          by_cases full : less + 2 = 2 ^ 31
          · have wrapped : ((less + 2 : Nat) : Int).bmod (2 ^ 32) = -2 ^ 31 := by
              rw [full]
              rfl
            rw [wrapped, blockEnd_stopped (by omega)]
            have folded : ['/', '*'].foldl step (block (less + 1) pending) = block (2 ^ 31) none := by
              rw [foldl_cons, foldl_cons, fst, snd, full]
              rfl
            refine ⟨['/', '*'], rfl, rfl, fun _ => rfl, .inr ⟨⟨less + 1, rfl⟩, ?_⟩⟩
            by_cases ended : chars = []
            · exact .inl ⟨ended, by rw [folded]; simp⟩
            · exact .inr ⟨ended, folded⟩
          · rw [bmod_depth (by omega) (by omega)]
            obtain ⟨body, split, length, -, out⟩ :=
              ih chars (pos + 2) (less + 2) none (by omega) (by omega) (by omega) (apart_none chars)
            refine ⟨'/' :: '*' :: body, by rw [cons_append, cons_append, ← split], ?_, fun _ => rfl, ?_⟩
            · rw [length, byteLength_cons, byteLength_cons]
              omega
            · rw [nesting, if_neg (by simp), if_pos ⟨rfl, rfl⟩, foldl_cons, foldl_cons, fst, snd]
              exact out
        · have run : blockEnd (less + 1 : Nat) (char :: next :: chars) pos =
              blockEnd (less + 1 : Nat) (next :: chars) (pos + char.utf8Size) := by
            rw [blockEnd, if_pos running, if_neg closes, if_neg opens]
          have apart' : Apart (some char) (next :: chars) := by
            intro other head
            rw [List.head?_cons, some_inj] at head
            subst head
            rw [some_inj, some_inj]
            exact ⟨closes, opens⟩
          rw [run]
          obtain ⟨body, split, length, head, out⟩ :=
            ih (next :: chars) (pos + char.utf8Size) (less + 1) (some char) (by rw [length_cons]; omega)
              (by omega) small apart'
          have head := head (by simp)
          refine ⟨char :: body, by rw [cons_append, ← split], ?_, fun _ => rfl, ?_⟩
          · rw [length, byteLength_cons, Nat.add_assoc]
          · -- the body's own fst character is the next one, so the delimiters are the same
            obtain ⟨rest, rfl⟩ : ∃ rest, body = next :: rest := by
              cases body with
              | nil => cases head
              | cons other rest =>
                rw [List.head?_cons, List.head?_cons, some_inj] at head
                exact ⟨rest, by rw [head]⟩
            rw [nesting, if_neg closes, if_neg opens, foldl_cons, fst]
            exact out

theorem nesting_closed_getLast {d : Nat} {body : Text} (pos : 0 < d)
    (hc : nesting d body = some 0) : body.getLast? = some '/' := by
  induction d, body using nesting.induct with
  | case1 | case2 => omega
  | case3 d | case4 d char => simp [nesting] at hc
  | case5 d char next rest closes ih =>
    rw [nesting, if_pos closes] at hc
    obtain ⟨rfl, rfl⟩ := closes
    cases rest with
    | nil => rfl
    | cons other rest =>
      cases d with
      | zero => simp [nesting] at hc
      | succ d => rw [List.getLast?_cons_cons, List.getLast?_cons_cons, ih (by omega) hc]
  | case6 d char next rest closes opens ih =>
    rw [nesting, if_neg closes, if_pos opens] at hc
    have last := ih (by omega) hc
    cases rest with
    | nil => cases last
    | cons other rest => rw [List.getLast?_cons_cons, List.getLast?_cons_cons, last]
  | case7 d char next rest closes opens ih =>
    rw [nesting, if_neg closes, if_neg opens] at hc
    rw [List.getLast?_cons_cons, ih (by omega) hc]

section Items

theorem wellFormed_space {space : Text} (plain : '\r' ∉ space) (items : List Trivia) :
    WellFormed (spaceItem space ++ items) ↔ WellFormed items := by
  unfold spaceItem
  split
  · exact Iff.rfl
  · refine ⟨fun wf => wf.2.2.2, fun wf => ⟨trivial, ?_, trivial, wf⟩⟩
    intro next _ splits
    exact plain (mem_of_getLast? splits.1)

theorem concatText_spaceItem (space : Text) (items : List Trivia) :
    concatText (spaceItem space ++ items) = space ++ concatText items := by
  unfold spaceItem concatText
  split
  · rename_i empty
    rw [empty]
    rfl
  · rfl

theorem head_of_concatText {items : List Trivia} (ne : ∀ item ∈ items, item.text ≠ [])
    {next : Trivia} (head : next ∈ items.head?) : next.text.head? = (concatText items).head? := by
  cases items with
  | nil => cases head
  | cons item items =>
    rw [List.head?_cons, mem_def, some_inj] at head
    subst head
    rw [concatText, flatMap_cons]
    cases fst : item.text with
    | nil => exact absurd fst (ne item mem_cons_self)
    | cons char rest => rfl

/-- What the main loop makes of the characters left, after the accumulated whitespace. -/
structure Classified (space chars : Text) (items : List Trivia) : Prop where
  lossless : concatText items = space ++ chars
  nonempty : ∀ item ∈ items, item.text ≠ []
  formed : WellFormed items ↔ Regular chars

theorem Classified.cons {space piece chars : Text} {items : List Trivia} {item : Trivia}
    (rest : Classified [] chars items) (plain : '\r' ∉ space) (same : item.text = piece)
    (some : piece ≠ []) (step : WellFormed (item :: items) ↔ Regular (piece ++ chars)) :
    Classified space (piece ++ chars) (spaceItem space ++ item :: items) where
  lossless := by
    rw [concatText_spaceItem, concatText, flatMap_cons, same, ← concatText, rest.lossless,
      nil_append]
  nonempty other mem := by
    rcases mem_append.mp mem with mem | mem
    · unfold spaceItem at mem
      split at mem
      · cases mem
      · rw [mem_singleton] at mem
        subst mem
        assumption
    · rcases mem_cons.mp mem with rfl | mem
      · rwa [same]
      · exact rest.nonempty other mem
  formed := (wellFormed_space plain _).trans step

variable {chars : Text} {items : List Trivia}

theorem formed_feed (rest : Classified [] chars items) (alone : chars.head? ≠ some '\r') :
    WellFormed (.newline ['\n'] :: items) ↔ Regular (['\n'] ++ chars) := by
  have eq : chars.foldl step Within.feed ≠ broken ↔ Regular chars :=
    foldl_congr (by simp) (by simp) fun char head => by
      show (if char = '\r' then broken else start char) = start char
      exact if_neg fun eq => alone (by rw [head, eq])
  have wf : WellFormed (.newline ['\n'] :: items) ↔ WellFormed items :=
    ⟨fun wf => wf.2.2.2, fun wf => ⟨.inl rfl, fun _ _ splits => (by cases splits.1), trivial, wf⟩⟩
  rw [wf, rest.formed, ← eq]
  rfl

theorem formed_feed_carriage :
    WellFormed (.newline ['\n', '\r'] :: items) ↔ Regular (['\n', '\r'] ++ chars) := by
  constructor
  · intro wf
    have terminator := wf.1
    unfold OneTerminator at terminator
    simp at terminator
  · intro regular
    exact absurd (foldl_broken chars) regular

theorem formed_carriage (rest : Classified [] chars items) (alone : chars.head? ≠ some '\n') :
    WellFormed (.newline ['\r'] :: items) ↔ Regular (['\r'] ++ chars) := by
  have eq : chars.foldl step carriage ≠ broken ↔ Regular chars :=
    foldl_congr (by simp) (by simp) fun char head => by
      show (if char = '\n' then outside else start char) = start char
      exact if_neg fun eq => alone (by rw [head, eq])
  have wf : WellFormed (.newline ['\r'] :: items) ↔ WellFormed items := by
    refine ⟨fun wf => wf.2.2.2, fun wf => ⟨.inr (.inl rfl), fun next head splits => ?_, trivial, wf⟩⟩
    have fst := head_of_concatText rest.nonempty head
    rw [rest.lossless, nil_append, splits.2] at fst
    exact alone fst.symm
  rw [wf, rest.formed, ← eq]
  rfl

theorem formed_crlf (rest : Classified [] chars items) :
    WellFormed (.newline ['\r', '\n'] :: items) ↔ Regular (['\r', '\n'] ++ chars) := by
  have wf : WellFormed (.newline ['\r', '\n'] :: items) ↔ WellFormed items :=
    ⟨fun wf => wf.2.2.2,
      fun wf => ⟨.inr (.inr rfl), fun _ _ splits => (by cases splits.1), trivial, wf⟩⟩
  rw [wf, rest.formed]
  rfl

theorem commentOf_text (after comment : Text) : (commentOf after comment).text = comment := by
  unfold commentOf
  split
  · rfl
  · split <;> rfl

theorem formed_comment (rest : Classified [] chars items) (after : Text) {content : Text}
    (plain : ∀ char ∈ content, char ≠ '\n' ∧ char ≠ '\r')
    (ends : ∀ char, chars.head? = some char → char = '\n' ∨ char = '\r') :
    WellFormed (commentOf after ('/' :: '/' :: content) :: items) ↔
      Regular (('/' :: '/' :: content) ++ chars) := by
  have eq : chars.foldl step line ≠ broken ↔ Regular chars :=
    foldl_congr (by simp) (by simp) fun char head => by
      show (if char = '\n' ∨ char = '\r' then start char else line) = start char
      exact if_pos (ends char head)
  have kind : OneTerminator (commentOf after ('/' :: '/' :: content)) ∧
      CommentNests (commentOf after ('/' :: '/' :: content)) items := by
    unfold commentOf
    split
    · exact ⟨trivial, trivial⟩
    · split <;> exact ⟨trivial, trivial⟩
  have ne : ∀ next ∈ items.head?, ¬ SplitsCrlf (commentOf after ('/' :: '/' :: content)) next := by
    intro next _ splits
    have last := mem_of_getLast? (commentOf_text after _ ▸ splits.1)
    rcases mem_cons.mp last with last | last
    · cases last
    · rcases mem_cons.mp last with last | last
      · cases last
      · exact (plain _ last).2 rfl
  have wf : WellFormed (commentOf after ('/' :: '/' :: content) :: items) ↔ WellFormed items :=
    ⟨fun wf => wf.2.2.2, fun wf => ⟨kind.1, ne, kind.2, wf⟩⟩
  rw [wf, rest.formed, ← eq, Regular, foldl_append, foldl_cons, foldl_cons,
    show step (step outside '/') '/' = line from rfl, foldl_line content plain]

theorem items_nil (rest : Classified [] [] items) : items = [] := by
  cases items with
  | nil => rfl
  | cons item items =>
    have lossless := rest.lossless
    rw [concatText, flatMap_cons, nil_append] at lossless
    exact absurd (append_eq_nil_iff.mp lossless).1 (rest.nonempty item mem_cons_self)

theorem formed_block (rest : Classified [] chars items) {body : Text}
    (outcome : nesting 1 body = some 0 ∧ body.foldl step (block 1 none) = outside ∨
      (∃ inner, nesting 1 body = some (inner + 1)) ∧
        (chars = [] ∧ body.foldl step (block 1 none) ≠ broken ∨
          chars ≠ [] ∧ body.foldl step (block 1 none) = block (2 ^ 31) none)) :
    WellFormed (.blockComment ('/' :: '*' :: body) :: items) ↔ Regular (('/' :: '*' :: body) ++ chars) := by
  have opened : Regular (('/' :: '*' :: body) ++ chars) ↔
      chars.foldl step (body.foldl step (block 1 none)) ≠ broken := by
    rw [Regular, foldl_append]
    rfl
  rw [opened]
  rcases outcome with ⟨hc, out⟩ | ⟨⟨inner, unclosed⟩, ⟨rfl, unbroken⟩ | ⟨more, deep⟩⟩
  · have last : ('/' :: '*' :: body).getLast? = some '/' := by
      have last := nesting_closed_getLast (by omega) hc
      cases body with
      | nil => cases last
      | cons char body => rw [List.getLast?_cons_cons, List.getLast?_cons_cons, last]
    have wf : WellFormed (.blockComment ('/' :: '*' :: body) :: items) ↔ WellFormed items :=
      ⟨fun wf => wf.2.2.2, fun wf => ⟨trivial,
        fun _ _ splits => (by cases last.symm.trans splits.1), .inl ⟨body, rfl, hc⟩, wf⟩⟩
    rw [wf, rest.formed, out]
    rfl
  · obtain rfl := items_nil rest
    exact ⟨fun _ => unbroken,
      fun _ => ⟨trivial, fun next head => (by cases head), .inr ⟨⟨body, inner, rfl, unclosed⟩, rfl⟩, trivial⟩⟩
  · constructor
    · intro wf
      exfalso
      rcases wf.2.2.1 with ⟨body', eq, hc⟩ | ⟨-, empty⟩
      · obtain rfl : body = body' := by simpa using eq
        cases unclosed.symm.trans hc
      · have lossless := rest.lossless
        rw [empty] at lossless
        exact more lossless.symm
    · intro regular
      cases chars with
      | nil => exact absurd rfl more
      | cons char chars =>
        rw [deep, foldl_cons] at regular
        exact absurd (foldl_broken chars) regular

end Items

theorem run_piece {text done space piece rest : Text} {stop : Nat} {res items : List Trivia}
    (make : Text → Trivia) (split : text = done ++ space ++ piece ++ rest)
    (atStop : stop = byteLength (done ++ space) + byteLength piece)
    (run : ∀ res, classifyLoop text rest stop stop res = some (res ++ items)) :
    (do
      let res ← flush text (byteLength done) (byteLength (done ++ space)) res
      let taken ← slice text (byteLength (done ++ space)) stop
      classifyLoop text rest stop stop (res ++ [make taken])) =
        some (res ++ (spaceItem space ++ make piece :: items)) := by
  have flushed := flush_eq done space (piece ++ rest) res
  rw [← append_assoc, ← split] at flushed
  have taken := slice_append (done ++ space) piece rest
  rw [← split, ← atStop] at taken
  rw [flushed, bind_eq_bind, bind_some, taken, bind_eq_bind, bind_some, run]
  simp

theorem newlineRest_spec (other : Char) (chars : Text) (pos : Nat) (one : other.utf8Size = 1) :
    chars.head? = some other ∧ chars = other :: newlineRest other chars ∧ newlineEnd other chars pos = pos + 2 ∨
      chars.head? ≠ some other ∧ newlineRest other chars = chars ∧ newlineEnd other chars pos = pos + 1 := by
  unfold newlineRest newlineEnd
  cases chars with
  | nil => exact .inr ⟨by simp, rfl, rfl⟩
  | cons char chars =>
    by_cases eq : char = other
    · subst eq
      exact .inl ⟨rfl, by simp, if_pos rfl⟩
    · have away : ¬ (char :: chars).head? = some other := by simpa using eq
      rw [if_neg away, if_neg away]
      exact .inr ⟨away, rfl, rfl⟩

theorem regular_other {char : Char} {chars : Text} (notFeed : char ≠ '\n') (notCarriage : char ≠ '\r')
    (notLine : ¬ (char = '/' ∧ chars.head? = some '/')) (notBlock : ¬ (char = '/' ∧ chars.head? = some '*')) :
    Regular (char :: chars) ↔ Regular chars := by
  unfold Regular
  rw [foldl_cons, show step outside char = start char from rfl, start]
  by_cases solidus : char = '/'
  · rw [if_pos solidus]
    apply foldl_congr (by simp) (by simp)
    intro next head
    have line : next ≠ '/' := fun eq => notLine ⟨solidus, by rw [head, eq]⟩
    have block : next ≠ '*' := fun eq => notBlock ⟨solidus, by rw [head, eq]⟩
    show (if next = '/' then Within.line else if next = '*' then Within.block 1 none else start next) = start next
    rw [if_neg line, if_neg block]
  · rw [if_neg solidus, if_neg notFeed, if_neg notCarriage]

theorem classified_nil {space : Text} (plain : '\r' ∉ space) : Classified space [] (spaceItem space) where
  lossless := by
    have joined := concatText_spaceItem space []
    rwa [append_nil] at joined
  nonempty item mem := by
    unfold spaceItem at mem
    split at mem
    · cases mem
    · rw [mem_singleton] at mem
      subst mem
      assumption
  formed := by
    have formed := wellFormed_space plain []
    rw [append_nil] at formed
    exact formed.trans ⟨fun _ => by simp [Regular], fun _ => trivial⟩

theorem classifyLoop_spec (bound : Nat) (text done space chars : Text) (short : chars.length ≤ bound)
    (split : text = done ++ space ++ chars) (plain : '\r' ∉ space) :
    ∃ items, Classified space chars items ∧ ∀ res,
      classifyLoop text chars (byteLength done) (byteLength (done ++ space)) res = some (res ++ items) := by
  induction bound generalizing done space chars with
  | zero =>
    obtain rfl := eq_nil_of_length_eq_zero (Nat.le_zero.mp short)
    refine ⟨spaceItem space, classified_nil plain, fun res => ?_⟩
    rw [classifyLoop, split]
    exact flush_eq done space [] res
  | succ bound ih =>
    cases chars with
    | nil =>
      refine ⟨spaceItem space, classified_nil plain, fun res => ?_⟩
      rw [classifyLoop, split]
      exact flush_eq done space [] res
    | cons char chars =>
      rw [length_cons] at short
      -- after a piece the loop goes on with nothing accumulated
      have piece_case : ∀ (make : Text → Trivia) (piece rest : Text) (stop : Nat),
          char :: chars = piece ++ rest → piece ≠ [] → (make piece).text = piece → rest.length ≤ bound →
          stop = byteLength (done ++ space) + byteLength piece →
          (∀ items, Classified [] rest items → (WellFormed (make piece :: items) ↔ Regular (piece ++ rest))) →
          ∃ items, Classified space (char :: chars) items ∧ ∀ res, (do
            let res ← flush text (byteLength done) (byteLength (done ++ space)) res
            let taken ← slice text (byteLength (done ++ space)) stop
            classifyLoop text rest stop stop (res ++ [make taken])) = some (res ++ items) := by
        intro make piece rest stop taken some same less atStop wf
        have pieces : text = done ++ space ++ piece ++ rest := by rw [split, taken, append_assoc _ piece]
        obtain ⟨items, classified, run⟩ := ih (done ++ space ++ piece) [] rest less
          (by rw [pieces, append_nil]) (by simp)
        rw [append_nil, byteLength_append _ piece, ← atStop] at run
        refine ⟨spaceItem space ++ make piece :: items, ?_, fun res => run_piece make pieces atStop run⟩
        rw [taken]
        exact classified.cons plain same some (wf items classified)
      by_cases feed : char = '\n'
      · subst feed
        have less := newlineRest_length '\r' chars
        have run : ∀ res, classifyLoop text ('\n' :: chars) (byteLength done)
          (byteLength (done ++ space)) res = _ :=
          fun res => by rw [classifyLoop, if_pos rfl]
        simp only [run]
        rcases newlineRest_spec '\r' chars (byteLength (done ++ space)) rfl with
          ⟨-, taken, stop⟩ | ⟨alone, taken, stop⟩
        · exact piece_case .newline ['\n', '\r'] _ _ (congrArg ('\n' :: ·) taken) (by simp) rfl (by omega) stop
            fun _ _ => formed_feed_carriage
        · rw [taken] at less ⊢
          exact piece_case .newline ['\n'] _ _ rfl (by simp) rfl (by omega) stop
            fun _ rest => formed_feed rest alone
      · by_cases carriage : char = '\r'
        · subst carriage
          have less := newlineRest_length '\n' chars
          have run : ∀ res, classifyLoop text ('\r' :: chars) (byteLength done)
            (byteLength (done ++ space)) res = _ :=
            fun res => by rw [classifyLoop, if_neg feed, if_pos rfl]
          simp only [run]
          rcases newlineRest_spec '\n' chars (byteLength (done ++ space)) rfl with
            ⟨-, taken, stop⟩ | ⟨alone, taken, stop⟩
          · exact piece_case .newline ['\r', '\n'] _ _ (congrArg ('\r' :: ·) taken) (by simp) rfl (by omega) stop
              fun _ rest => formed_crlf rest
          · rw [taken] at less ⊢
            exact piece_case .newline ['\r'] _ _ rfl (by simp) rfl (by omega) stop
              fun _ rest => formed_carriage rest alone
        · by_cases lines : char = '/' ∧ chars.head? = some '/'
          · obtain ⟨rfl, next⟩ := lines
            obtain ⟨chars, rfl⟩ : ∃ tail, chars = '/' :: tail := ⟨chars.tail, (cons_head?_tail next).symm⟩
            have run : ∀ res, classifyLoop text ('/' :: '/' :: chars) (byteLength done)
              (byteLength (done ++ space)) res = _ :=
              fun res => by rw [classifyLoop, if_neg feed, if_neg carriage, if_pos ⟨rfl, next⟩]
            simp only [run, tail_cons]
            obtain ⟨content, taken, stop, plain', ends⟩ := lineEnd_spec chars (byteLength (done ++ space) + 2)
            have less := lineEnd_length chars (byteLength (done ++ space) + 2)
            rw [length_cons] at short
            refine piece_case (commentOf chars) ('/' :: '/' :: content) _ _
              (congrArg (fun text => '/' :: '/' :: text) taken) (by simp) (commentOf_text _ _) (by omega) ?_
              fun _ rest => formed_comment rest chars plain' ends
            rw [stop, byteLength_cons, byteLength_cons, show Char.utf8Size '/' = 1 from rfl]
            omega
          · by_cases blocks : char = '/' ∧ chars.head? = some '*'
            · obtain ⟨rfl, next⟩ := blocks
              obtain ⟨chars, rfl⟩ : ∃ tail, chars = '*' :: tail := ⟨chars.tail, (cons_head?_tail next).symm⟩
              have run : ∀ res, classifyLoop text ('/' :: '*' :: chars) (byteLength done)
                (byteLength (done ++ space)) res = _ :=
                fun res => by
                  rw [classifyLoop, if_neg feed, if_neg carriage, if_neg lines, if_pos ⟨rfl, next⟩]
              simp only [run, tail_cons]
              obtain ⟨body, taken, stop, -, out⟩ := blockEnd_spec chars.length chars
                (byteLength (done ++ space) + 2) 1 none (Nat.le_refl _) (by omega) (by omega) (apart_none chars)
              have less := blockEnd_length 1 chars (byteLength (done ++ space) + 2)
              rw [length_cons] at short
              refine piece_case .blockComment ('/' :: '*' :: body) _ _
                (congrArg (fun text => '/' :: '*' :: text) taken) (by simp) rfl (by omega) ?_
                fun _ rest => formed_block rest out
              rw [show (1 : Int) = ((1 : Nat) : Int) from rfl, stop, byteLength_cons, byteLength_cons,
                show Char.utf8Size '/' = 1 from rfl, show Char.utf8Size '*' = 1 from rfl]
              omega
            · obtain ⟨items, classified, run⟩ := ih done (space ++ [char]) chars (by omega)
                (by rw [split]; simp) (by
                  intro mem
                  rcases mem_append.mp mem with mem | mem
                  · exact plain mem
                  · exact carriage (mem_singleton.mp mem).symm)
              refine ⟨items, ⟨?_, classified.nonempty, ?_⟩, fun res => ?_⟩
              · rw [classified.lossless, append_assoc]
                rfl
              · rw [classified.formed, regular_other feed carriage lines blocks]
              · rw [classifyLoop, if_neg feed, if_neg carriage, if_neg lines, if_neg blocks, ← run res,
                  ← append_assoc, byteLength_append (done ++ space), byteLength_cons, byteLength_nil, Nat.add_zero]

theorem splitLoop_seen (leading trailing items : List Trivia) :
    splitLoop leading trailing true items = (leading ++ items, trailing) := by
  induction items generalizing leading with
  | nil => rw [splitLoop, append_nil]
  | cons item items ih => rw [splitLoop, if_pos rfl, ih, append_assoc]; rfl

theorem splitLoop_spec (trailing items : List Trivia) :
    (splitLoop [] trailing false items).2 ++ (splitLoop [] trailing false items).1 = trailing ++ items ∧
      ∀ item ∈ (splitLoop [] trailing false items).2, item ∈ trailing ∨ item.isNewline = false := by
  induction items generalizing trailing with
  | nil => exact ⟨by rw [splitLoop], fun item mem => .inl mem⟩
  | cons item items ih =>
    rw [splitLoop, if_neg (by simp)]
    cases newline : item.isNewline with
    | true =>
      rw [if_pos rfl, splitLoop_seen]
      exact ⟨rfl, fun item mem => .inl mem⟩
    | false =>
      rw [if_neg (by simp)]
      obtain ⟨whole, plain⟩ := ih (trailing ++ [item])
      refine ⟨by rw [whole, append_assoc]; rfl, fun other mem => ?_⟩
      rcases plain other mem with mem | plain
      · rcases mem_append.mp mem with mem | mem
        · exact .inl mem
        · exact .inr (mem_singleton.mp mem ▸ newline)
      · exact .inr plain

/-- Classification never fails and loses nothing, and splitting keeps the items apart from newlines; the
items are well formed if and only if the text is regular. -/
theorem classify_exact (text : Text) :
    ∃ items, classifyTrivia text = some items ∧ concatText items = text ∧
      (splitTrivia items).2 ++ (splitTrivia items).1 = items ∧
      (∀ item ∈ (splitTrivia items).2, item.isNewline = false) ∧
      (WellFormed items ↔ Regular text) := by
  obtain ⟨items, classified, run⟩ := classifyLoop_spec text.length text [] [] text (Nat.le_refl _) rfl (by simp)
  have split := splitLoop_spec [] items
  refine ⟨items, run [], classified.lossless, split.1, fun item member => ?_, classified.formed⟩
  exact (split.2 item member).resolve_left (by simp)

/-- Line feed, carriage return, line feed: the carriage return goes with the first line feed. -/
theorem classify_feed_crlf : ∃ items, classifyTrivia ['\n', '\r', '\n'] = some items ∧ ¬ WellFormed items := by
  refine ⟨[.newline ['\n', '\r'], .newline ['\n']], ?_, fun formed => ?_⟩
  · rw [classifyTrivia, classifyLoop, if_pos rfl]
    show classifyLoop _ ['\n'] 2 2 [.newline ['\n', '\r']] = _
    rw [classifyLoop, if_pos rfl]
    show classifyLoop _ [] 3 3 [.newline ['\n', '\r'], .newline ['\n']] = _
    rw [classifyLoop]
    rfl
  · have terminator := formed.1
    unfold OneTerminator at terminator
    simp at terminator

end SyntaxTree
