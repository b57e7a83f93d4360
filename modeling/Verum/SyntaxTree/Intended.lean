import Mathlib.Data.List.Perm.Subperm
import Verum.SyntaxTree.Wrapping

open List

namespace SyntaxTree

variable {Kind : Type} {tombstone : Kind} {session next : Session Kind}

section Links

def HasLink (events : List (Event Kind)) : Prop := ∃ event ∈ events, event.Linked

variable {events : List (Event Kind)} {final : Session Kind}

theorem HasLink.append (linked : HasLink events) (more : List (Event Kind)) : HasLink (events ++ more) := by
  obtain ⟨event, mem, link⟩ := linked
  exact ⟨event, mem_append_left _ mem, link⟩

theorem HasLink.set {mk : Nat} {kind : Kind} {event : Event Kind} (linked : HasLink events)
    (hit : events[mk]? = some (.start kind none)) : HasLink (events.set mk event) := by
  obtain ⟨other, mem, otherKind, parentPos, shape⟩ := linked
  obtain ⟨idx, placed⟩ := mem_iff_getElem?.mp mem
  refine ⟨other, ?_, otherKind, parentPos, shape⟩
  have ne : mk ≠ idx := by
    intro eq
    rw [eq, placed, shape] at hit
    cases hit
  exact mem_iff_getElem?.mpr ⟨idx, by rw [List.getElem?_set_ne ne]; exact placed⟩

theorem step_linked (tracks : Tracks tombstone session) {op : Op Kind}
    (stepped : session.step tombstone op = some next)
    (linked : HasLink session.builder.events ∨ ∃ completed, op = .precede completed) :
    HasLink next.builder.events := by
  cases op with
  | precede completed =>
    simp only [Session.step] at stepped
    split at stepped
    · cases stepped
    · simp only [Option.bind_eq_bind, Option.bind_eq_some_iff] at stepped
      obtain ⟨_, _, ⟨b, mk⟩, done, eq⟩ := stepped
      cases eq
      obtain ⟨kind, link, _, hit, after⟩ := precede_eq_some done
      refine ⟨.start kind (some mk), ?_, kind, mk, rfl⟩
      show _ ∈ b.events
      rw [after]
      exact mem_set (List.getElem?_eq_some_iff.mp hit).1 _
  | start | startNode kind | tokenN kind n | error message =>
    cases stepped
    exact HasLink.append (linked.resolve_right (by simp)) _
  | complete kind =>
    simp only [Session.step] at stepped
    split at stepped
    · cases stepped
    · next frame rest opened =>
      simp only [Option.bind_eq_bind, Option.bind_eq_some_iff] at stepped
      obtain ⟨b, done, eq⟩ := stepped
      cases eq
      obtain ⟨old, link, hit, after⟩ := complete_eq_some done
      have free := tracks.unlinked frame (by simp [opened]) old link hit
      rw [free] at hit
      show HasLink b.events
      rw [after]
      exact HasLink.append (HasLink.set (linked.resolve_right (by simp)) hit) _
  | abandon =>
    simp only [Session.step] at stepped
    split at stepped
    · cases stepped
    · next frame rest opened =>
      simp only [Option.bind_eq_bind, Option.bind_eq_some_iff] at stepped
      obtain ⟨b, done, eq⟩ := stepped
      cases eq
      have hin : frame.marker < session.builder.events.length := by
        apply tracks.bounded
        rw [Session.items, markers_append]
        exact mem_append_left _ (mem_outline tombstone (by simp [opened]))
      obtain ⟨old, link, hit, after⟩ := abandon_eq_some hin done
      have free := tracks.unlinked frame (by simp [opened]) old link hit
      rw [free] at hit
      show HasLink b.events
      rw [after]
      exact HasLink.set (linked.resolve_right (by simp)) hit

theorem length_run {ops : List (Op Kind)} (ran : session.run tombstone ops = some final) :
    session.builder.events.length ≤ final.builder.events.length := by
  induction ops generalizing session with
  | nil =>
    cases ran
    exact Nat.le_refl _
  | cons op rest ih =>
    simp only [Session.run, Option.bind_eq_bind, Option.bind_eq_some_iff] at ran
    obtain ⟨next, stepped, ran⟩ := ran
    exact Nat.le_trans (length_step stepped) (ih ran)

theorem Tracks.run (tracks : Tracks tombstone session) {ops : List (Op Kind)}
    (ran : session.run tombstone ops = some final) (small : final.builder.events.length ≤ 2 ^ 32) :
    Tracks tombstone final ∧
      (HasLink session.builder.events ∨ (∃ completed, .precede completed ∈ ops) → HasLink final.builder.events) := by
  induction ops generalizing session with
  | nil =>
    cases ran
    exact ⟨tracks, fun linked => linked.resolve_right (by simp)⟩
  | cons op rest ih =>
    simp only [Session.run, Option.bind_eq_bind, Option.bind_eq_some_iff] at ran
    obtain ⟨next, stepped, ran⟩ := ran
    have hb := Nat.le_trans (length_run ran) small
    obtain ⟨final, persists⟩ := ih (tracks.step stepped hb) ran
    refine ⟨final, fun linked => persists ?_⟩
    rcases linked with pre | ⟨completed, mem⟩
    · exact .inl (step_linked tracks stepped (.inl pre))
    · rcases mem_cons.mp mem with eq | hl
      · exact .inl (step_linked tracks stepped (.inr ⟨completed, eq.symm⟩))
      · exact .inr ⟨completed, hl⟩

theorem process_ne_of_precede [DecidableEq Kind] {ops : List (Op Kind)}
    (ran : Session.run tombstone .new ops = some session) (finished : session.opened = [])
    (small : session.builder.events.length ≤ 2 ^ 32) (preceded : ∃ completed, Op.precede completed ∈ ops)
    (tokens : List (TokenSource Kind)) :
    process tombstone session.builder.events tokens ≠ deliver (forestEvents session.current) tokens := by
  obtain ⟨tracks, persists⟩ := Tracks.run new_tracks ran small
  have xs : session.items tombstone = forestItems session.current := by
    simp [Session.items, finished, outline]
  obtain ⟨hb, fewer⟩ := startCount_reorderEvents_lt tracks.links (persists (.inr preceded))
  intro eq
  have counts : startCount hb (forestEvents session.current) ≤
      startCount hb (reorderEvents session.builder.events) := by
    calc startCount hb (forestEvents session.current)
        = callStarts hb (process tombstone session.builder.events tokens) := by
          rw [eq, callStarts_deliver]
      _ ≤ startCount hb (reorderEvents session.builder.events) := callStarts_feed_le ..
  have covered : startCount hb session.builder.events ≤ startCount hb (forestEvents session.current) := by
    rw [startCount_eventItems hb 0, forestEvents, startCount_items, ← xs]
    exact ((eventItems_nodup hb 0 _).subperm (tracks.covers hb)).length_le
  omega

end Links

section Plain

def visible (events : List (Event Kind)) : List (Event Kind) := events.filter fun event => !event.isTombstone

@[simp] theorem visible_append (pre after : List (Event Kind)) :
    visible (pre ++ after) = visible pre ++ visible after := filter_append ..

@[simp] theorem forestEvents_append (pre after : List (Tree Kind)) :
    forestEvents (pre ++ after) = forestEvents pre ++ forestEvents after := by
  simp [forestEvents]

/-- Without precedes the events of an open marker and those below it stand side by side. -/
def Layout : List (Frame Kind) → List (Tree Kind) → List (Event Kind) → Prop
  | [], current, events => visible events = forestEvents current
  | frame :: rest, current, events => ∃ before kind inner, events = before ++ .start kind none :: inner ∧
      before.length = frame.marker ∧ Layout rest frame.before before ∧ visible inner = forestEvents current

variable {opened : List (Frame Kind)} {current : List (Tree Kind)} {events : List (Event Kind)}

theorem Layout.append {more : List (Tree Kind)} {added : List (Event Kind)}
    (layout : Layout opened current events) (eq : visible added = forestEvents more) :
    Layout opened (current ++ more) (events ++ added) := by
  cases opened with
  | nil =>
    rw [Layout] at layout ⊢
    rw [visible_append, forestEvents_append, layout, eq]
  | cons frame rest =>
    obtain ⟨pre, kind, inner, parts, length, outer, hin⟩ := layout
    refine ⟨pre, kind, inner ++ added, ?_, length, outer, ?_⟩
    · rw [parts, append_assoc, cons_append]
    · rw [visible_append, forestEvents_append, hin, eq]

structure Plain (session : Session Kind) : Prop where
  layout : Layout session.opened session.current session.builder.events
  unlinked : ∀ event ∈ session.builder.events, ¬ event.Linked

theorem Plain.push {event : Event Kind} (plain : Plain session) (unlinked : ¬ event.Linked)
    (layout : Layout opened current (session.builder.events ++ [event])) :
    Plain { builder := session.builder.push event, opened, current } := by
  refine ⟨layout, ?_⟩
  intro other mem
  rcases mem_append.mp mem with old | new
  · exact plain.unlinked other old
  · rw [mem_singleton.mp new]
    exact unlinked

theorem Plain.enter (plain : Plain session) (kind : Kind)
    (small : (session.builder.startNode kind).1.events.length ≤ 2 ^ 32) :
    Plain (session.enter (session.builder.startNode kind)) := by
  apply plain.push
  · rintro ⟨_, _, shape⟩
    cases shape
  · exact ⟨session.builder.events, kind, [], rfl, (startNode_position small).symm, plain.layout, rfl⟩

theorem Plain.innermost (plain : Plain session) {frame : Frame Kind} {rest : List (Frame Kind)}
    (opened : session.opened = frame :: rest) : ∃ pre kind inner,
      session.builder.events = pre ++ .start kind none :: inner ∧ pre.length = frame.marker ∧
      session.builder.events[frame.marker]? = some (.start kind none) ∧
      (∀ event, session.builder.events.set frame.marker event = pre ++ event :: inner) ∧
      Layout rest frame.before pre ∧ visible inner = forestEvents session.current := by
  have layout := plain.layout
  rw [opened] at layout
  obtain ⟨pre, kind, inner, parts, length, outer, hin⟩ := layout
  refine ⟨pre, kind, inner, parts, length, ?_, ?_, outer, hin⟩
  · rw [parts, ← length]
    simp
  · intro event
    rw [parts, ← length]
    simp

theorem Plain.step (plain : Plain session) {op : Op Kind} (stepped : session.step tombstone op = some next)
    (small : next.builder.events.length ≤ 2 ^ 32) (unpreceded : ∀ completed, op ≠ .precede completed) :
    Plain next := by
  cases op with
  | precede completed => exact absurd rfl (unpreceded completed)
  | start =>
    cases stepped
    exact plain.enter tombstone small
  | startNode kind =>
    cases stepped
    exact plain.enter kind small
  | tokenN kind n | error message =>
    cases stepped
    exact plain.push (by rintro ⟨_, _, shape⟩; cases shape) (plain.layout.append rfl)
  | complete kind =>
    simp only [Session.step] at stepped
    split at stepped
    · cases stepped
    · next frame rest opened =>
      simp only [Option.bind_eq_bind, Option.bind_eq_some_iff] at stepped
      obtain ⟨builder, done, eq⟩ := stepped
      cases eq
      obtain ⟨old, link, hit, after⟩ := complete_eq_some done
      obtain ⟨pre, oldKind, inner, parts, _, placed, replaced, outer, hin⟩ := plain.innermost opened
      rw [placed] at hit
      cases hit
      rw [replaced] at after
      constructor
      · show Layout rest _ builder.events
        rw [after, append_assoc]
        apply outer.append
        have node : forestEvents [Tree.node frame.marker kind session.current] =
            .start kind none :: (forestEvents session.current ++ [.finish]) := by
          simp [forestEvents, forestItems, Tree.items, Item.event]
        rw [node, ← hin]
        simp [visible, Event.isTombstone]
      · intro event mem
        have mem : event ∈ builder.events := mem
        have old := plain.unlinked event
        rw [parts] at old
        rw [after] at mem
        simp only [mem_append, mem_cons, not_mem_nil, or_false] at mem old
        rcases mem with (fst | here | last) | ended
        · exact old (.inl fst)
        · rintro ⟨_, _, shape⟩
          rw [here] at shape
          cases shape
        · exact old (.inr (.inr last))
        · rintro ⟨_, _, shape⟩
          rw [ended] at shape
          cases shape
  | abandon =>
    simp only [Session.step] at stepped
    split at stepped
    · cases stepped
    · next frame rest opened =>
      simp only [Option.bind_eq_bind, Option.bind_eq_some_iff] at stepped
      obtain ⟨builder, done, eq⟩ := stepped
      cases eq
      obtain ⟨pre, oldKind, inner, parts, _, placed, replaced, outer, hin⟩ := plain.innermost opened
      have present := (List.getElem?_eq_some_iff.mp placed).1
      obtain ⟨old, link, hit, after⟩ := abandon_eq_some present done
      rw [replaced] at after
      constructor
      · show Layout rest _ builder.events
        rw [after]
        exact outer.append hin
      · intro event mem
        have mem : event ∈ builder.events := mem
        have old := plain.unlinked event
        rw [parts] at old
        rw [after] at mem
        simp only [mem_append, mem_cons] at mem old
        rcases mem with fst | here | last
        · exact old (.inl fst)
        · rintro ⟨_, _, shape⟩
          rw [here] at shape
          cases shape
        · exact old (.inr (.inr last))

theorem reorder_of_unlinked {b : EventBuilder Kind} (unlinked : ∀ event ∈ b.events, ¬ event.Linked) :
    b.reorder = some (visible b.events) := by
  have rounds (idxs : List Nat) : idxs.foldlM EventBuilder.reorderAt b.events = some b.events := by
    induction idxs with
    | nil => rfl
    | cons idx rest ih =>
      have still : EventBuilder.reorderAt b.events idx = some b.events := by
        rw [EventBuilder.reorderAt]
        split
        · next kind parentPos hit => exact absurd ⟨kind, parentPos, rfl⟩ (unlinked _ (mem_of_getElem? hit))
        · rfl
      rw [foldlM_cons, still]
      exact ih
  rw [EventBuilder.reorder, rounds]
  rfl

theorem reorderEvents_of_unlinked (unlinked : ∀ event ∈ events, ¬ event.Linked) :
    reorderEvents events = visible events := by
  have rounds (idxs : List Nat) : idxs.foldl reorderEventsAt events = events := by
    induction idxs with
    | nil => rfl
    | cons idx rest ih =>
      have still : reorderEventsAt events idx = events := by
        rw [reorderEventsAt]
        split
        · next kind parentPos hit => exact absurd ⟨kind, parentPos, rfl⟩ (unlinked _ (mem_of_getElem? hit))
        · rfl
      rw [foldl_cons, still]
      exact ih
  rw [reorderEvents, rounds]
  rfl

theorem tokens_set {idx : Nat} {old new : Event Kind} (hit : events[idx]? = some old)
    (pre : old.token? = none) (after : new.token? = none) :
    (events.set idx new).filterMap Event.token? = events.filterMap Event.token? := by
  obtain ⟨hin, eq⟩ := List.getElem?_eq_some_iff.mp hit
  rw [set_eq_take_append_cons_drop, if_pos hin]
  conv_rhs => rw [← take_append_drop idx events, drop_eq_getElem_cons hin, eq]
  simp [pre, after]

theorem step_tokens {op : Op Kind} (stepped : session.step tombstone op = some next)
    (unpreceded : ∀ completed, op ≠ .precede completed) :
    next.builder.events.filterMap Event.token? =
      session.builder.events.filterMap Event.token? ++ op.token?.toList := by
  cases op with
  | precede completed => exact absurd rfl (unpreceded completed)
  | start =>
    cases stepped
    simp [Session.enter, EventBuilder.start, EventBuilder.startNode, EventBuilder.push, Event.token?, Op.token?]
  | startNode kind =>
    cases stepped
    simp [Session.enter, EventBuilder.startNode, EventBuilder.push, Event.token?, Op.token?]
  | tokenN kind n =>
    cases stepped
    simp [EventBuilder.tokenN, EventBuilder.push, Event.token?, Op.token?]
  | error message =>
    cases stepped
    simp [EventBuilder.error, EventBuilder.push, Event.token?, Op.token?]
  | complete kind =>
    simp only [Session.step] at stepped
    split at stepped
    · cases stepped
    · simp only [Option.bind_eq_bind, Option.bind_eq_some_iff] at stepped
      obtain ⟨b, done, eq⟩ := stepped
      cases eq
      obtain ⟨_, _, hit, after⟩ := complete_eq_some done
      show b.events.filterMap Event.token? = _
      rw [after, filterMap_append, tokens_set hit rfl rfl]
      rfl
  | abandon =>
    simp only [Session.step] at stepped
    split at stepped
    · cases stepped
    · simp only [Option.bind_eq_bind, Option.bind_eq_some_iff] at stepped
      obtain ⟨b, done, eq⟩ := stepped
      cases eq
      rw [EventBuilder.abandon] at done
      split at done
      · next hit =>
        cases done
        show (session.builder.events.set _ .tombstone).filterMap Event.token? = _
        rw [tokens_set hit rfl rfl]
        simp [Op.token?]
      · cases done
      · cases done
        simp [Op.token?]

def Started (kind : Kind) (session : Session Kind) : Prop :=
  (∃ marker, Item.start marker kind ∈ forestItems session.current) ∨
    ∃ frame ∈ session.opened, ∃ marker, Item.start marker kind ∈ forestItems frame.before

theorem step_started {op : Op Kind} (stepped : session.step tombstone op = some next)
    (unpreceded : ∀ completed, op ≠ .precede completed) (kind : Kind) :
    Started kind next ↔ Started kind session ∨ op = .complete kind := by
  cases op with
  | precede completed => exact absurd rfl (unpreceded completed)
  | start | startNode kind =>
    cases stepped
    simp [Started, Session.enter, forestItems]
  | tokenN kind n | error message =>
    cases stepped
    simp [Started, forestItems, Tree.items]
  | complete completed =>
    simp only [Session.step] at stepped
    split at stepped
    · cases stepped
    · next frame rest opened =>
      simp only [Option.bind_eq_bind, Option.bind_eq_some_iff] at stepped
      obtain ⟨b, done, eq⟩ := stepped
      cases eq
      simp only [Started, opened, forestItems_append, forestItems, Tree.items, append_nil, mem_append,
        mem_cons, Item.start.injEq, not_mem_nil, or_false, reduceCtorEq, exists_or, exists_eq_or_imp,
        Op.complete.injEq, exists_eq_left]
      constructor
      · rintro ((earlier | eq | inner) | outer)
        · exact .inl (.inr (.inl earlier))
        · exact .inr eq.symm
        · exact .inl (.inl inner)
        · exact .inl (.inr (.inr outer))
      · rintro ((inner | earlier | outer) | eq)
        · exact .inl (.inr (.inr inner))
        · exact .inl (.inl earlier)
        · exact .inr outer
        · exact .inl (.inr (.inl eq.symm))
  | abandon =>
    simp only [Session.step] at stepped
    split at stepped
    · cases stepped
    · next frame rest opened =>
      simp only [Option.bind_eq_bind, Option.bind_eq_some_iff] at stepped
      obtain ⟨b, done, eq⟩ := stepped
      cases eq
      simp only [Started, opened, forestItems_append, mem_append, mem_cons, exists_or, exists_eq_or_imp,
        reduceCtorEq, or_false]
      constructor
      · rintro ((earlier | inner) | outer)
        · exact .inr (.inl earlier)
        · exact .inl inner
        · exact .inr (.inr outer)
      · rintro (inner | earlier | outer)
        · exact .inl (.inr inner)
        · exact .inl (.inl earlier)
        · exact .inr outer

theorem Plain.run (plain : Plain session) {ops : List (Op Kind)} {final : Session Kind}
    (ran : session.run tombstone ops = some final) (small : final.builder.events.length ≤ 2 ^ 32)
    (unpreceded : ∀ completed, .precede completed ∉ ops) :
    Plain final ∧
      final.builder.events.filterMap Event.token? =
        session.builder.events.filterMap Event.token? ++ ops.filterMap Op.token? ∧
      ∀ kind, Started kind final ↔ Started kind session ∨ .complete kind ∈ ops := by
  induction ops generalizing session with
  | nil =>
    cases ran
    exact ⟨plain, by simp, by simp⟩
  | cons op rest ih =>
    simp only [Session.run, Option.bind_eq_bind, Option.bind_eq_some_iff] at ran
    obtain ⟨next, stepped, ran⟩ := ran
    have fst : ∀ completed, op ≠ .precede completed :=
      fun completed eq => unpreceded completed (by simp [eq])
    have hb := Nat.le_trans (length_run ran) small
    obtain ⟨layout, tokens, started⟩ :=
      ih (plain.step stepped hb fst) ran fun completed mem => unpreceded completed (by simp [mem])
    refine ⟨layout, ?_, ?_⟩
    · rw [tokens, step_tokens stepped fst, append_assoc]
      cases op <;> rfl
    · intro kind
      rw [started, step_started stepped fst, mem_cons, or_assoc, @eq_comm _ op]

theorem new_plain : Plain (Session.new : Session Kind) := ⟨rfl, nofun⟩

end Plain

section Sinks

variable [DecidableEq Kind]
variable {events : List (Event Kind)}

theorem feed_eq_deliver (named : ∀ link, .start tombstone link ∉ events) (tokens : List (TokenSource Kind)) :
    feed tombstone events tokens = deliver events tokens := by
  induction events generalizing tokens with
  | nil => rfl
  | cons event rest ih =>
    have hl : ∀ link, .start tombstone link ∉ rest := fun link mem => named link (.tail _ mem)
    cases event with
    | start kind link =>
      have ne : kind ≠ tombstone := by
        intro eq
        exact named link (by simp [eq])
      simp [feed, deliver, ne, ih hl]
    | _ => simp [feed, deliver, ih hl]

theorem feed_length_le (events : List (Event Kind)) (tokens : List (TokenSource Kind)) :
    (feed tombstone events tokens).length ≤ (deliver events tokens).length := by
  induction events generalizing tokens with
  | nil => exact Nat.le_refl _
  | cons event rest ih =>
    cases event with
    | start kind link =>
      rw [feed, deliver]
      split
      · exact Nat.succ_le_succ (ih _)
      · exact Nat.le_succ_of_le (ih _)
    | token kind n =>
      rw [feed, deliver, length_append, length_append]
      exact Nat.add_le_add_left (ih _) _
    | finish | error message => exact Nat.succ_le_succ (ih _)
    | tombstone => exact ih _

theorem feed_ne_deliver {link : Option Nat} (unnamed : .start tombstone link ∈ events)
    (tokens : List (TokenSource Kind)) :
    (feed tombstone events tokens).length < (deliver events tokens).length := by
  induction events generalizing tokens with
  | nil => cases unnamed
  | cons event rest ih =>
    rcases mem_cons.mp unnamed with eq | hl
    · subst eq
      simp only [feed, deliver, ne_eq, not_true_eq_false, if_false, length_cons]
      exact Nat.lt_succ_of_le (feed_length_le rest tokens)
    · cases event with
      | start kind link =>
        rw [feed, deliver]
        split
        · exact Nat.succ_lt_succ (ih hl _)
        · exact Nat.lt_succ_of_lt (ih hl _)
      | token kind n =>
        rw [feed, deliver, length_append, length_append]
        exact Nat.add_lt_add_left (ih hl _) _
      | finish | error message => exact Nat.succ_lt_succ (ih hl _)
      | tombstone => exact ih hl _

/-- A properly nested run builds its tree exactly when it wraps nothing and names every node. -/
theorem buildsIntended_iff (tombstone : Kind) (ops : List (Op Kind)) (session : Session Kind)
    (ran : Session.run tombstone .new ops = some session) (finished : session.opened = [])
    (small : session.builder.events.length ≤ 2 ^ 32) :
    BuildsIntended tombstone ops session ↔
      (∀ completed, .precede completed ∉ ops) ∧ .complete tombstone ∉ ops := by
  by_cases preceded : ∃ completed, .precede completed ∈ ops
  · constructor
    · intro intended
      exact absurd (intended.2 []) (process_ne_of_precede ran finished small preceded [])
    · intro ⟨unpreceded, _⟩
      obtain ⟨completed, member⟩ := preceded
      exact absurd member (unpreceded completed)
  · rw [not_exists] at preceded
    obtain ⟨plain, tokens, started⟩ := new_plain.run ran small preceded
    have layout := plain.layout
    rw [finished, Layout] at layout
    have processed : ∀ sources, process tombstone session.builder.events sources =
        feed tombstone (forestEvents session.current) sources := by
      intro sources
      rw [process, reorderEvents_of_unlinked plain.unlinked, layout]
    have unnamed : .complete tombstone ∈ ops ↔ ∃ link, .start tombstone link ∈ forestEvents session.current := by
      have nodes := started tombstone
      simp only [Started, finished, Session.new, forestItems, not_mem_nil, exists_false, false_and, or_false,
        false_or] at nodes
      rw [← nodes]
      simp only [forestEvents, mem_map]
      constructor
      · rintro ⟨marker, member⟩
        exact ⟨none, _, member, rfl⟩
      · rintro ⟨link, item, member, shape⟩
        cases item with
        | start marker kind =>
          cases shape
          exact ⟨marker, member⟩
        | finish | token kind count | error message => cases shape
    constructor
    · intro intended
      refine ⟨preceded, fun completes => ?_⟩
      obtain ⟨link, member⟩ := unnamed.mp completes
      have shorter := feed_ne_deliver member []
      rw [← processed, intended.2] at shorter
      exact Nat.lt_irrefl _ shorter
    · intro ⟨_, named⟩
      refine ⟨⟨visible session.builder.events, reorder_of_unlinked plain.unlinked, ?_, ?_⟩, ?_⟩
      · rw [layout, forestEvents, map_map]
        apply map_congr_left
        intro item _
        cases item <;> rfl
      · rw [visible, filterMap_filter]
        have same : (fun event : Event Kind => if (!event.isTombstone) = true then event.token? else none) =
            Event.token? := by
          funext event
          cases event <;> rfl
        rw [same, tokens]
        rfl
      · intro sources
        rw [processed]
        apply feed_eq_deliver
        intro link member
        exact named (unnamed.mpr ⟨link, member⟩)

/-- A statement `let x`: nothing is wrapped. -/
def letOps : List (Op String) :=
  [.start, .tokenN "LET_KW" 1, .tokenN "IDENT" 1, .complete "LET_STMT"]

theorem buildsIntended_iff_let :
    ∃ session, Session.run "TOMBSTONE" .new letOps = some session ∧ BuildsIntended "TOMBSTONE" letOps session :=
  ⟨_, rfl, (buildsIntended_iff "TOMBSTONE" letOps _ rfl rfl (by decide)).mpr
    ⟨fun completed => by simp [letOps], by simp [letOps]⟩⟩

/-- `1 + 2`: the literal is wrapped once. -/
def sumOps : List (Op String) :=
  [.start, .tokenN "INT_LITERAL" 1, .complete "LITERAL_EXPR", .precede 0, .tokenN "PLUS" 1, .start,
    .tokenN "INT_LITERAL" 1, .complete "LITERAL_EXPR", .complete "BINARY_EXPR"]

/-- `f()()`: the call is wrapped in a call. -/
def chainOps : List (Op String) :=
  [.start, .tokenN "IDENT" 1, .complete "PATH_EXPR", .precede 0, .tokenN "ARGS" 1, .complete "CALL_EXPR",
    .precede 3, .tokenN "ARGS" 1, .complete "CALL_EXPR"]

/-- `process` finishes the literal of `1 + 2` before it starts it, and `reorder` takes the inner call of `f()()`
    out of the outer one's first place. -/
theorem precede_not_intended :
    (∃ session, Session.run "TOMBSTONE" .new sumOps = some session ∧ session.opened = [] ∧
      process "TOMBSTONE" session.builder.events [] ≠ deliver (forestEvents session.current) [] ∧
      ¬ BuildsIntended "TOMBSTONE" sumOps session) ∧
    ∃ session, Session.run "TOMBSTONE" .new chainOps = some session ∧ session.opened = [] ∧
      session.builder.reorder.map (List.map Event.unlink) ≠ some (forestEvents session.current) ∧
      ¬ BuildsIntended "TOMBSTONE" chainOps session := by
  constructor
  · have differ : ∃ session, Session.run "TOMBSTONE" .new sumOps = some session ∧ session.opened = [] ∧
        process "TOMBSTONE" session.builder.events [] ≠ deliver (forestEvents session.current) [] :=
      ⟨_, rfl, rfl, by decide⟩
    obtain ⟨session, ran, finished, differ⟩ := differ
    exact ⟨session, ran, finished, differ, fun intended => differ (intended.2 [])⟩
  · have differ : ∃ session, Session.run "TOMBSTONE" .new chainOps = some session ∧ session.opened = [] ∧
        session.builder.reorder.map (List.map Event.unlink) ≠ some (forestEvents session.current) :=
      ⟨_, rfl, rfl, by decide⟩
    obtain ⟨session, ran, finished, differ⟩ := differ
    refine ⟨session, ran, finished, differ, fun intended => differ ?_⟩
    obtain ⟨events, reordered, same, _⟩ := intended.1
    rw [reordered, Option.map_some, same]

end Sinks

end SyntaxTree
