import Mathlib.Data.List.Nodup
import Verum.SyntaxTree.Displacement

open List

namespace SyntaxTree

open Option

variable {Kind : Type}

/-- The markers started before the `bound`th finish. -/
def startsBefore : Nat → List (Item Kind) → List Nat
  | 0, _ | _, [] => []
  | bound + 1, .start marker _ :: rest => marker :: startsBefore (bound + 1) rest
  | bound + 1, .finish :: rest => startsBefore bound rest
  | bound + 1, _ :: rest => startsBefore (bound + 1) rest

def finishCount : List (Item Kind) → Nat
  | [] => 0
  | .finish :: rest => finishCount rest + 1
  | _ :: rest => finishCount rest

def markers : List (Item Kind) → List Nat
  | [] => []
  | .start marker _ :: rest => marker :: markers rest
  | _ :: rest => markers rest

def eventItems : Nat → List (Event Kind) → List (Item Kind)
  | _, [] => []
  | position, .start kind _ :: rest => .start position kind :: eventItems (position + 1) rest
  | position, .finish :: rest => .finish :: eventItems (position + 1) rest
  | position, .token kind count :: rest => .token kind count :: eventItems (position + 1) rest
  | position, .error message :: rest => .error message :: eventItems (position + 1) rest
  | position, .tombstone :: rest => eventItems (position + 1) rest

attribute [grind =] startsBefore finishCount markers eventItems

section Items

@[simp] theorem startsBefore_zero (xs : List (Item Kind)) : startsBefore 0 xs = [] := by
  cases xs <;> rfl

@[simp] theorem startsBefore_nil (hb : Nat) : startsBefore hb ([] : List (Item Kind)) = [] := by
  cases hb <;> rfl

theorem startsBefore_append (hb : Nat) (before after : List (Item Kind)) :
    startsBefore hb (before ++ after) =
      startsBefore hb before ++ startsBefore (hb - finishCount before) after := by
  induction before generalizing hb with
  | nil => simp [finishCount]
  | cons item rest ih =>
    cases hb with
    | zero => simp
    | succ hb => cases item <;> simp [startsBefore, finishCount, ih]

@[simp] theorem finishCount_append (before after : List (Item Kind)) :
    finishCount (before ++ after) = finishCount before + finishCount after := by
  induction before with
  | nil => simp [finishCount]
  | cons item rest ih =>
    cases item with
    | finish =>
      simp only [cons_append, finishCount, ih]
      omega
    | start marker kind | token kind n | error message => exact ih

@[simp] theorem markers_append (before after : List (Item Kind)) :
    markers (before ++ after) = markers before ++ markers after := by
  induction before with
  | nil => simp [markers]
  | cons item rest ih => cases item <;> simp [markers, ih]

theorem startCount_items (hb : Nat) (xs : List (Item Kind)) :
    startCount hb (xs.map Item.event) = (startsBefore hb xs).length := by
  induction xs generalizing hb with
  | nil => simp
  | cons item rest ih =>
    cases hb with
    | zero => simp
    | succ hb => cases item <;> simp [Item.event, startCount, startsBefore, ih]

theorem startCount_eventItems (hb pos : Nat) (events : List (Event Kind)) :
    startCount hb events = (startsBefore hb (eventItems pos events)).length := by
  induction events generalizing hb pos with
  | nil => simp [eventItems]
  | cons event rest ih =>
    cases hb with
    | zero => simp
    | succ hb =>
      cases event with
      | start kind link => exact congrArg (· + 1) (ih (hb + 1) (pos + 1))
      | finish => exact ih hb (pos + 1)
      | token kind n | error message | tombstone => exact ih (hb + 1) (pos + 1)

theorem eventItems_append (pos : Nat) (before after : List (Event Kind)) :
    eventItems pos (before ++ after) =
      eventItems pos before ++ eventItems (pos + before.length) after := by
  induction before generalizing pos with
  | nil => simp [eventItems]
  | cons event rest ih =>
    have shift : pos + 1 + rest.length = pos + (rest.length + 1) := by omega
    cases event <;> simp [eventItems, ih, shift]

variable {events : List (Event Kind)} {marker : Nat} {link : Option Nat}

theorem eventItems_set_start {old : Kind} (new : Kind) (link' : Option Nat)
    (hit : events[marker]? = some (.start old link)) (hb pos : Nat) :
    startsBefore hb (eventItems pos (events.set marker (.start new link'))) =
        startsBefore hb (eventItems pos events) ∧
      finishCount (eventItems pos (events.set marker (.start new link'))) =
        finishCount (eventItems pos events) := by
  induction events generalizing marker hb pos with
  | nil => simp at hit
  | cons event rest ih =>
    cases marker with
    | zero =>
      cases hit
      cases hb <;> exact ⟨rfl, rfl⟩
    | succ marker =>
      have hl (hb : Nat) := ih hit hb (pos + 1)
      cases hb with
      | zero =>
        refine ⟨by simp, ?_⟩
        cases event <;> simp [eventItems, finishCount, (hl 0).2]
      | succ hb =>
        cases event <;>
          simp [eventItems, startsBefore, finishCount, (hl hb).1, (hl (hb + 1)).1, (hl hb).2]

theorem le_of_mem_eventItems {pos hb : Nat}
    (mem : marker ∈ startsBefore hb (eventItems pos events)) : pos ≤ marker := by
  induction events generalizing pos hb with
  | nil => simp [eventItems] at mem
  | cons event rest ih =>
    cases hb with
    | zero => simp at mem
    | succ hb =>
      cases event with
      | start kind link =>
        rcases mem_cons.mp mem with eq | hl
        · exact Nat.le_of_eq eq.symm
        · exact Nat.le_of_succ_le (ih hl)
      | finish | token kind n | error message | tombstone => exact Nat.le_of_succ_le (ih mem)

theorem eventItems_nodup (hb pos : Nat) (events : List (Event Kind)) :
    (startsBefore hb (eventItems pos events)).Nodup := by
  induction events generalizing hb pos with
  | nil => simp [eventItems]
  | cons event rest ih =>
    cases hb with
    | zero => simp
    | succ hb =>
      cases event with
      | start kind link =>
        refine nodup_cons.mpr ⟨?_, ih (hb + 1) (pos + 1)⟩
        intro mem
        have above := le_of_mem_eventItems mem
        omega
      | finish => exact ih hb (pos + 1)
      | token kind n | error message | tombstone => exact ih (hb + 1) (pos + 1)

theorem eventItems_set_tombstone {old : Kind} (hit : events[marker]? = some (.start old link)) (pos : Nat) :
    finishCount (eventItems pos (events.set marker .tombstone)) = finishCount (eventItems pos events) ∧
      ∀ hb other, other ∈ startsBefore hb (eventItems pos (events.set marker .tombstone)) →
        other ≠ pos + marker ∧ other ∈ startsBefore hb (eventItems pos events) := by
  induction events generalizing marker pos with
  | nil => simp at hit
  | cons event rest ih =>
    cases marker with
    | zero =>
      cases hit
      refine ⟨rfl, ?_⟩
      intro hb other mem
      have above : pos + 1 ≤ other := le_of_mem_eventItems mem
      refine ⟨by omega, ?_⟩
      cases hb with
      | zero => simp at mem
      | succ hb => exact .tail _ mem
    | succ marker =>
      obtain ⟨counts, kept⟩ := ih hit (pos + 1)
      have shift : pos + 1 + marker = pos + (marker + 1) := by omega
      rw [shift] at kept
      constructor
      · cases event <;> simp [eventItems, finishCount, counts]
      · intro hb other mem
        cases hb with
        | zero => simp at mem
        | succ hb =>
          cases event with
          | start kind link =>
            rcases mem_cons.mp mem with eq | hl
            · exact ⟨by omega, mem_cons.mpr (.inl eq)⟩
            · obtain ⟨ne, hin⟩ := kept _ _ hl
              exact ⟨ne, .tail _ hin⟩
          | finish => exact kept hb other mem
          | token kind n | error message | tombstone => exact kept (hb + 1) other mem

end Items

section Tracking

/-- The items of the open markers and of what comes before each of them. -/
def outline (tombstone : Kind) : List (Frame Kind) → List (Item Kind)
  | [] => []
  | frame :: rest => outline tombstone rest ++ forestItems frame.before ++ [.start frame.marker tombstone]

def Session.items (tombstone : Kind) (session : Session Kind) : List (Item Kind) :=
  outline tombstone session.opened ++ forestItems session.current

def Closed (events : List (Event Kind)) (marker : Nat) : Prop :=
  ∃ closing : Nat, marker < closing ∧ events[closing]? = some .finish

/-- How the events emitted so far stand to the tree: every node starts there no later than here. -/
structure Tracks (tombstone : Kind) (session : Session Kind) : Prop where
  finishes : finishCount (eventItems 0 session.builder.events) = finishCount (session.items tombstone)
  covers : ∀ bound marker, marker ∈ startsBefore bound (eventItems 0 session.builder.events) →
    marker ∈ startsBefore bound (session.items tombstone)
  nodup : (markers (session.items tombstone)).Nodup
  bounded : ∀ marker ∈ markers (session.items tombstone), marker < session.builder.events.length
  current : ∀ marker ∈ markers (forestItems session.current), Closed session.builder.events marker
  before : ∀ frame ∈ session.opened, ∀ marker ∈ markers (forestItems frame.before),
    Closed session.builder.events marker
  links : LinksClosed session.builder.events
  unlinked : ∀ frame ∈ session.opened, ∀ kind link,
    session.builder.events[frame.marker]? = some (.start kind link) → link = none

variable {events : List (Event Kind)} {marker tgt completed : Nat} {kind : Kind} {link : Option Nat}
  {event : Event Kind} {frame : Frame Kind} {item : Item Kind} {builder after : EventBuilder Kind}
  {rest : List (Frame Kind)} {before wrapped : List (Tree Kind)}

theorem Closed.append (hc : Closed events marker) (more : List (Event Kind)) :
    Closed (events ++ more) marker := by
  obtain ⟨closing, above, hit⟩ := hc
  refine ⟨closing, above, ?_⟩
  rw [List.getElem?_append_left (List.getElem?_eq_some_iff.mp hit).1]
  exact hit

theorem getElem?_set_of_finish {idx : Nat} (hit : events[marker]? = some (.start kind link))
    (finished : events[idx]? = some .finish) : (events.set marker event)[idx]? = some .finish := by
  have ne : marker ≠ idx := by
    intro eq
    rw [eq, finished] at hit
    cases hit
  rw [List.getElem?_set_ne ne]
  exact finished

theorem Closed.set (hc : Closed events marker) (hit : events[tgt]? = some (.start kind link)) :
    Closed (events.set tgt event) marker := by
  obtain ⟨closing, above, finished⟩ := hc
  exact ⟨closing, above, getElem?_set_of_finish hit finished⟩

theorem LinksClosed.push (links : LinksClosed events) (unlinked : ¬ event.Linked) :
    LinksClosed (events ++ [event]) := by
  intro idx kind parentPos hit
  rcases Nat.lt_or_ge idx events.length with old | new
  · rw [List.getElem?_append_left old] at hit
    obtain ⟨closing, above, hlt, finished⟩ := links idx kind parentPos hit
    refine ⟨closing, above, hlt, ?_⟩
    rw [List.getElem?_append_left (List.getElem?_eq_some_iff.mp finished).1]
    exact finished
  · have last := mem_of_getElem? (List.getElem?_append_right new ▸ hit)
    rw [mem_singleton] at last
    exact absurd ⟨kind, parentPos, last.symm⟩ unlinked

theorem LinksClosed.set {old : Kind} (links : LinksClosed events)
    (hit : events[tgt]? = some (.start old link))
    (close : ∀ kind parentPos, event = .start kind (some parentPos) →
      ∃ closing : Nat, tgt < closing ∧ closing < parentPos ∧ events[closing]? = some .finish) :
    LinksClosed (events.set tgt event) := by
  intro idx kind parentPos placed
  by_cases eq : tgt = idx
  · subst eq
    have hin := (List.getElem?_eq_some_iff.mp hit).1
    rw [List.getElem?_set_self hin, Option.some.injEq] at placed
    obtain ⟨closing, above, hlt, finished⟩ := close kind parentPos placed
    exact ⟨closing, above, hlt, getElem?_set_of_finish hit finished⟩
  · rw [List.getElem?_set_ne eq] at placed
    obtain ⟨closing, above, hlt, finished⟩ := links idx kind parentPos placed
    exact ⟨closing, above, hlt, getElem?_set_of_finish hit finished⟩

theorem mem_outline (tombstone : Kind) {opened : List (Frame Kind)} (mem : frame ∈ opened) :
    frame.marker ∈ markers (outline tombstone opened) := by
  induction opened with
  | nil => cases mem
  | cons fst rest ih =>
    simp only [outline, markers_append, mem_append, markers, mem_singleton]
    rcases mem_cons.mp mem with eq | hl
    · exact .inr (by rw [eq])
    · exact .inl (.inl (ih hl))

theorem mem_startsBefore_of_sublist {before after : List (Item Kind)} {hb : Nat}
    (unfinished : finishCount [item] = 0) (mem : marker ∈ startsBefore hb (before ++ after)) :
    marker ∈ startsBefore hb (before ++ item :: after) := by
  rw [startsBefore_append, mem_append] at mem ⊢
  rcases mem with left | right
  · exact .inl left
  · right
    generalize hb - finishCount before = rest at right
    cases rest with
    | zero => simp at right
    | succ rest =>
      cases item with
      | start other kind => exact .tail _ right
      | finish => cases unfinished
      | token kind n | error message => exact right

variable {tombstone : Kind} {session next : Session Kind}

theorem new_tracks : Tracks tombstone (Session.new : Session Kind) where
  finishes := rfl
  covers bound marker mem := by
    simp [Session.new, EventBuilder.new, eventItems] at mem
  nodup := nodup_nil
  bounded := nofun
  current := nofun
  before := nofun
  links := nofun
  unlinked := nofun

theorem Tracks.emit (tracks : Tracks tombstone session) {tree : Tree Kind}
    (event_items : ∀ position, eventItems position [event] = [item]) (tree_items : tree.items = [item])
    (inert : ∀ bound, startsBefore bound [item] = []) (unmarked : markers [item] = [])
    (unlinked : ¬ ∃ kind link, event = .start kind link) : Tracks tombstone
      { session with builder := session.builder.push event, current := session.current ++ [tree] } := by
  have items : Session.items tombstone
      { session with builder := session.builder.push event, current := session.current ++ [tree] } =
      session.items tombstone ++ [item] := by
    simp [Session.items, forestItems, tree_items]
  have events : eventItems 0 (session.builder.push event).events = eventItems 0 session.builder.events ++ [item] := by
    rw [EventBuilder.push, eventItems_append, event_items]
  constructor
  · rw [events, items, finishCount_append, finishCount_append, tracks.finishes]
  · intro bound marker mem
    rw [events, startsBefore_append, inert, append_nil] at mem
    rw [items, startsBefore_append, inert, append_nil]
    exact tracks.covers bound marker mem
  · rw [items, markers_append, unmarked, append_nil]
    exact tracks.nodup
  · intro marker mem
    rw [items, markers_append, unmarked, append_nil] at mem
    have old := tracks.bounded marker mem
    simp only [EventBuilder.push, length_append]
    omega
  · intro marker mem
    simp only [forestItems_append, forestItems, tree_items, markers_append, unmarked, append_nil] at mem
    exact (tracks.current marker mem).append _
  · intro frame opened marker mem
    exact (tracks.before frame opened marker mem).append _
  · apply tracks.links.push
    rintro ⟨kind, parentPos, shape⟩
    exact unlinked ⟨kind, some parentPos, shape⟩
  · intro frame opened kind link found
    rcases Nat.lt_or_ge frame.marker session.builder.events.length with old | new
    · rw [EventBuilder.push, List.getElem?_append_left old] at found
      exact tracks.unlinked frame opened kind link found
    · have last := mem_of_getElem? (List.getElem?_append_right new ▸ found)
      rw [mem_singleton] at last
      exact absurd ⟨kind, link, last.symm⟩ unlinked

theorem startNode_position (small : (builder.startNode kind).1.events.length ≤ 2 ^ 32) :
    (builder.startNode kind).2 = builder.events.length := by
  simp only [EventBuilder.startNode, EventBuilder.push, length_append, length_singleton,
    positionOf] at small ⊢
  omega

theorem Tracks.enter (tracks : Tracks tombstone session) (kind : Kind)
    (small : (session.builder.startNode kind).1.events.length ≤ 2 ^ 32) :
    Tracks tombstone (session.enter (session.builder.startNode kind)) := by
  have pos := startNode_position small
  have events : eventItems 0 (session.builder.startNode kind).1.events =
      eventItems 0 session.builder.events ++ [.start session.builder.events.length kind] := by
    simp [EventBuilder.startNode, EventBuilder.push, eventItems_append, eventItems]
  have xs : (session.enter (session.builder.startNode kind)).items tombstone =
      session.items tombstone ++ [.start session.builder.events.length tombstone] := by
    simp [Session.items, Session.enter, outline, forestItems, pos]
  have length : (session.builder.startNode kind).1.events.length = session.builder.events.length + 1 := by
    simp [EventBuilder.startNode, EventBuilder.push]
  constructor
  · show finishCount (eventItems 0 (session.builder.startNode kind).1.events) = _
    rw [events, xs, finishCount_append, finishCount_append, tracks.finishes]
    rfl
  · intro hb marker mem
    have mem : marker ∈ startsBefore hb (eventItems 0 (session.builder.startNode kind).1.events) := mem
    rw [events, startsBefore_append, mem_append] at mem
    rw [xs, startsBefore_append, mem_append]
    rcases mem with old | new
    · exact .inl (tracks.covers hb marker old)
    · right
      rw [tracks.finishes] at new
      generalize hb - _ = rest at new ⊢
      cases rest with
      | zero => simp at new
      | succ rest => exact new
  · rw [xs, markers_append, nodup_append]
    refine ⟨tracks.nodup, by simp [markers], ?_⟩
    intro marker old other new
    have hlt := tracks.bounded marker old
    simp only [markers, mem_singleton] at new
    omega
  · intro marker mem
    show marker < (session.builder.startNode kind).1.events.length
    rw [xs, markers_append, mem_append] at mem
    rcases mem with old | new
    · have hlt := tracks.bounded marker old
      omega
    · simp only [markers, mem_singleton] at new
      omega
  · intro marker mem
    cases mem
  · intro frame opened marker mem
    rcases mem_cons.mp opened with eq | opened
    · rw [eq] at mem
      exact (tracks.current marker mem).append _
    · exact (tracks.before frame opened marker mem).append _
  · apply tracks.links.push
    rintro ⟨other, parentPos, shape⟩
    cases shape
  · intro frame opened other link hit
    rcases mem_cons.mp opened with eq | opened
    · have hit : (session.builder.events ++ [.start kind none])[frame.marker]? = some (.start other link) := hit
      rw [eq, pos, List.getElem?_append_right (Nat.le_refl _)] at hit
      simp at hit
      exact hit.2.symm
    · rcases Nat.lt_or_ge frame.marker session.builder.events.length with old | new
      · have hit : (session.builder.events ++ [.start kind none])[frame.marker]? = some (.start other link) := hit
        rw [List.getElem?_append_left old] at hit
        exact tracks.unlinked frame opened other link hit
      · have last := mem_of_getElem? (List.getElem?_append_right new ▸ hit)
        rw [mem_singleton] at last
        cases last
        rfl

theorem complete_eq_some (done : builder.complete marker kind = some after) : ∃ old link,
      builder.events[marker]? = some (.start old link) ∧
      after.events = builder.events.set marker (.start kind link) ++ [.finish] := by
  rw [EventBuilder.complete] at done
  split at done
  · next old link hit =>
    cases done
    exact ⟨old, link, hit, rfl⟩
  · cases done

theorem abandon_eq_some (hin : marker < builder.events.length) (done : builder.abandon marker = some after) :
    ∃ old link,
      builder.events[marker]? = some (.start old link) ∧ after.events = builder.events.set marker .tombstone := by
  rw [EventBuilder.abandon] at done
  split at done
  · next old link hit =>
    cases done
    exact ⟨old, link, hit, rfl⟩
  · cases done
  · next missing =>
    rw [List.getElem?_eq_none_iff] at missing
    omega

theorem startsBefore_kind (hb : Nat) (before after : List (Item Kind)) (marker : Nat) (kind other : Kind) :
    startsBefore hb (before ++ .start marker kind :: after) =
      startsBefore hb (before ++ .start marker other :: after) := by
  rw [startsBefore_append, startsBefore_append]
  generalize hb - finishCount before = rest
  cases rest <;> rfl

theorem Tracks.complete (tracks : Tracks tombstone session) (opened : session.opened = frame :: rest)
    (done : session.builder.complete frame.marker kind = some builder) : Tracks tombstone
      { builder, opened := rest, current := frame.before ++ [.node frame.marker kind session.current] } := by
  obtain ⟨old, link, found, after⟩ := complete_eq_some done
  have free : link = none := tracks.unlinked frame (by simp [opened]) old link found
  have inside := (List.getElem?_eq_some_iff.mp found).1
  have items : session.items tombstone = (outline tombstone rest ++ forestItems frame.before) ++
      .start frame.marker tombstone :: forestItems session.current := by
    simp [Session.items, opened, outline]
  have items' : Session.items tombstone
      { builder, opened := rest, current := frame.before ++ [.node frame.marker kind session.current] } =
      ((outline tombstone rest ++ forestItems frame.before) ++
        .start frame.marker kind :: forestItems session.current) ++ [.finish] := by
    simp [Session.items, forestItems, Tree.items]
  have same (bound : Nat) := eventItems_set_start kind link found bound 0
  have closes {marker : Nat} (closed : Closed session.builder.events marker) : Closed builder.events marker := by
    rw [after]
    exact (closed.set found).append _
  constructor
  · show finishCount (eventItems 0 builder.events) = _
    rw [after, eventItems_append, finishCount_append, (same 0).2, tracks.finishes, items, items']
    simp only [finishCount, eventItems, finishCount_append]
  · intro bound marker mem
    have mem : marker ∈ startsBefore bound (eventItems 0 builder.events) := mem
    rw [after, eventItems_append, startsBefore_append, (same bound).1, mem_append] at mem
    rw [items', startsBefore_append, mem_append]
    rcases mem with before | last
    · left
      have covered := tracks.covers bound marker before
      rw [items, startsBefore_kind bound _ _ frame.marker tombstone kind] at covered
      exact covered
    · generalize bound - _ = left at last
      rcases left with _ | _ | left <;> simp [eventItems, startsBefore] at last
  · rw [items', markers_append]
    have nodup := tracks.nodup
    rw [items, markers_append] at nodup
    simpa [markers] using nodup
  · intro marker mem
    show marker < builder.events.length
    have bound := tracks.bounded marker (by
      rw [items', markers_append] at mem
      rw [items, markers_append]
      simpa [markers] using mem)
    rw [after]
    simp only [length_append, length_set]
    omega
  · intro marker mem
    show Closed builder.events marker
    simp only [forestItems_append, forestItems, Tree.items, append_nil, markers_append, markers,
      mem_append, mem_cons] at mem
    rcases mem with earlier | same | inner
    · exact closes (tracks.before frame (by simp [opened]) marker earlier)
    · refine ⟨session.builder.events.length, by omega, ?_⟩
      rw [after, List.getElem?_append_right (by simp)]
      simp
    · exact closes (tracks.current marker inner)
  · intro other mem marker inner
    exact closes (tracks.before other (by simp [opened, mem]) marker inner)
  · show LinksClosed builder.events
    rw [after]
    apply LinksClosed.push
    · apply tracks.links.set found
      intro kind parentPos shape
      cases shape
      cases free
    · rintro ⟨_, _, shape⟩
      cases shape
  · intro other mem kind' link' placed
    have placed : builder.events[other.marker]? = some (.start kind' link') := placed
    rw [after] at placed
    rcases Nat.lt_or_ge other.marker session.builder.events.length with earlier | later
    · rw [List.getElem?_append_left (by simpa using earlier)] at placed
      by_cases here : frame.marker = other.marker
      · rw [← here, List.getElem?_set_self inside, Option.some.injEq] at placed
        cases placed
        exact free
      · rw [List.getElem?_set_ne here] at placed
        exact tracks.unlinked other (by simp [opened, mem]) kind' link' placed
    · rw [List.getElem?_append_right (by simpa using later)] at placed
      have last := mem_of_getElem? placed
      rw [mem_singleton] at last
      cases last

theorem Tracks.abandon (tracks : Tracks tombstone session) (opened : session.opened = frame :: rest)
    (done : session.builder.abandon frame.marker = some builder) :
    Tracks tombstone { builder, opened := rest, current := frame.before ++ session.current } := by
  have items : session.items tombstone = (outline tombstone rest ++ forestItems frame.before) ++
      .start frame.marker tombstone :: forestItems session.current := by
    simp [Session.items, opened, outline]
  have items' : Session.items tombstone
      { builder, opened := rest, current := frame.before ++ session.current } =
      (outline tombstone rest ++ forestItems frame.before) ++ forestItems session.current := by
    simp [Session.items]
  have inside := tracks.bounded frame.marker (by rw [items]; simp [markers])
  obtain ⟨old, link, found, after⟩ := abandon_eq_some inside done
  obtain ⟨counts, kept⟩ := eventItems_set_tombstone found 0
  have closes {marker : Nat} (closed : Closed session.builder.events marker) : Closed builder.events marker := by
    rw [after]
    exact closed.set found
  constructor
  · show finishCount (eventItems 0 builder.events) = _
    rw [after, counts, tracks.finishes, items, items']
    simp [finishCount]
  · intro bound marker mem
    have mem : marker ∈ startsBefore bound (eventItems 0 builder.events) := mem
    rw [after] at mem
    obtain ⟨differ, earlier⟩ := kept bound marker mem
    have covered := tracks.covers bound marker earlier
    rw [items, startsBefore_append, mem_append] at covered
    rw [items', startsBefore_append, mem_append]
    rcases covered with before | last
    · exact .inl before
    · right
      generalize bound - _ = left at last ⊢
      cases left with
      | zero => simp at last
      | succ left =>
        rcases mem_cons.mp last with same | later
        · omega
        · exact later
  · have nodup := tracks.nodup
    rw [items, markers_append] at nodup
    rw [items', markers_append]
    exact nodup.sublist ((sublist_cons_self _ _).append_left _)
  · intro marker mem
    show marker < builder.events.length
    rw [after, length_set]
    apply tracks.bounded
    rw [items', markers_append, mem_append] at mem
    rw [items, markers_append, mem_append]
    exact mem.imp_right (mem_cons_of_mem _)
  · intro marker mem
    simp only [forestItems_append, markers_append, mem_append] at mem
    rcases mem with earlier | inner
    · exact closes (tracks.before frame (by simp [opened]) marker earlier)
    · exact closes (tracks.current marker inner)
  · intro other mem marker inner
    exact closes (tracks.before other (by simp [opened, mem]) marker inner)
  · show LinksClosed builder.events
    rw [after]
    exact tracks.links.set found (by simp)
  · intro other mem kind' link' placed
    have placed : builder.events[other.marker]? = some (.start kind' link') := placed
    rw [after] at placed
    by_cases here : frame.marker = other.marker
    · rw [← here, List.getElem?_set_self inside] at placed
      cases placed
    · rw [List.getElem?_set_ne here] at placed
      exact tracks.unlinked other (by simp [opened, mem]) kind' link' placed

theorem precede_eq_some (done : builder.precede tombstone completed = some (after, marker)) : ∃ kind link,
      marker = positionOf builder.events.length ∧
      (builder.events ++ [Event.start tombstone none])[completed]? = some (.start kind link) ∧
      after.events =
        (builder.events ++ [Event.start tombstone none]).set completed (.start kind (some marker)) := by
  simp only [EventBuilder.precede, EventBuilder.start, EventBuilder.startNode, EventBuilder.push] at done
  split at done
  · next kind link hit =>
    cases done
    exact ⟨kind, link, rfl, hit, rfl⟩
  · cases done

theorem splitNode_eq_some {trees : List (Tree Kind)} (hit : splitNode completed trees = some (before, wrapped)) :
    trees = before ++ wrapped ∧ completed ∈ markers (forestItems wrapped) := by
  induction trees generalizing before with
  | nil => cases hit
  | cons tree rest ih =>
    rw [splitNode] at hit
    split at hit
    · next here =>
      cases hit
      refine ⟨rfl, ?_⟩
      cases tree with
      | node marker kind kids =>
        cases here
        simp [forestItems, Tree.items, markers]
      | token kind n | error message => cases here
    · rw [map_eq_some_iff] at hit
      obtain ⟨⟨earlier, hl⟩, inner, eq⟩ := hit
      cases eq
      obtain ⟨parts, mem⟩ := ih inner
      exact ⟨by rw [parts, cons_append], mem⟩

theorem Tracks.precede (tracks : Tracks tombstone session)
    (split : splitNode completed session.current = some (before, wrapped))
    (done : session.builder.precede tombstone completed = some (builder, marker))
    (small : builder.events.length ≤ 2 ^ 32) : Tracks tombstone
      { builder, opened := { marker, preceded := some completed, before } :: session.opened, current := wrapped } := by
  obtain ⟨parts, mem⟩ := splitNode_eq_some split
  obtain ⟨kind, link, position, found, after⟩ := precede_eq_some done
  have length : builder.events.length = session.builder.events.length + 1 := by
    rw [after]
    simp
  have place : marker = session.builder.events.length := by
    rw [position, positionOf]
    omega
  have closed : Closed session.builder.events completed := by
    apply tracks.current
    rw [parts, forestItems_append, markers_append]
    exact mem_append_right _ mem
  obtain ⟨closing, above, finished⟩ := closed
  have early := (List.getElem?_eq_some_iff.mp finished).1
  have items : session.items tombstone =
      (outline tombstone session.opened ++ forestItems before) ++ forestItems wrapped := by
    simp [Session.items, parts]
  have items' : Session.items tombstone
      { builder, opened := { marker, preceded := some completed, before } :: session.opened, current := wrapped } =
      (outline tombstone session.opened ++ forestItems before) ++
        .start marker tombstone :: forestItems wrapped := by
    simp [Session.items, outline]
  have same (bound : Nat) := eventItems_set_start kind (some marker) found bound 0
  have pushed : eventItems 0 (session.builder.events ++ [.start tombstone none]) =
      eventItems 0 session.builder.events ++ [.start session.builder.events.length tombstone] := by
    rw [eventItems_append]
    simp [eventItems]
  have closes {other : Nat} (closed : Closed session.builder.events other) : Closed builder.events other := by
    rw [after]
    exact (closed.append _).set found
  constructor
  · show finishCount (eventItems 0 builder.events) = _
    rw [after, (same 0).2, pushed, items', finishCount_append, tracks.finishes, items]
    simp [finishCount]
  · intro bound other occurs
    have occurs : other ∈ startsBefore bound (eventItems 0 builder.events) := occurs
    rw [after, (same bound).1, pushed, startsBefore_append, mem_append] at occurs
    rw [items']
    rcases occurs with earlier | last
    · have covered := tracks.covers bound other earlier
      rw [items] at covered
      exact mem_startsBefore_of_sublist rfl covered
    · have counts := tracks.finishes
      rw [items, finishCount_append] at counts
      have positive : 0 < bound - finishCount (outline tombstone session.opened ++ forestItems before) := by
        by_contra none
        have exhausted : bound - finishCount (eventItems 0 session.builder.events) = 0 := by omega
        rw [exhausted] at last
        simp at last
      have here : other = marker := by
        generalize bound - finishCount (eventItems 0 session.builder.events) = left at last
        cases left with
        | zero => simp at last
        | succ left =>
          rw [startsBefore, startsBefore_nil, mem_singleton] at last
          rw [last, place]
      rw [startsBefore_append, mem_append]
      right
      generalize bound - finishCount (outline tombstone session.opened ++ forestItems before) = left at positive
      cases left with
      | zero => omega
      | succ left =>
        rw [here]
        exact .head _
  · rw [items', markers_append, markers, nodup_middle, nodup_cons, ← markers_append, ← items]
    refine ⟨?_, tracks.nodup⟩
    intro occurs
    have below := tracks.bounded marker occurs
    omega
  · intro other occurs
    show other < builder.events.length
    rw [items', markers_append, markers, mem_append, mem_cons] at occurs
    have old : other ∈ markers (session.items tombstone) → other < builder.events.length := by
      intro inside
      have below := tracks.bounded other inside
      omega
    rw [items, markers_append, mem_append] at old
    rcases occurs with first | here | last
    · exact old (.inl first)
    · omega
    · exact old (.inr last)
  · intro other occurs
    apply closes
    apply tracks.current
    rw [parts, forestItems_append, markers_append]
    exact mem_append_right _ occurs
  · intro frame opened other occurs
    rcases mem_cons.mp opened with here | opened
    · subst here
      apply closes
      apply tracks.current
      rw [parts, forestItems_append, markers_append]
      exact mem_append_left _ occurs
    · exact closes (tracks.before frame opened other occurs)
  · show LinksClosed builder.events
    rw [after]
    apply LinksClosed.set (tracks.links.push _) found
    · intro kind' parentPos shape
      cases shape
      refine ⟨closing, above, by omega, ?_⟩
      rw [List.getElem?_append_left early]
      exact finished
    · rintro ⟨_, _, shape⟩
      cases shape
  · intro frame opened kind' link' placed
    have placed : builder.events[frame.marker]? = some (.start kind' link') := placed
    rw [after] at placed
    have differ : completed ≠ frame.marker := by
      rcases mem_cons.mp opened with here | opened
      · rw [here]
        show completed ≠ marker
        omega
      · have nodup := tracks.nodup
        rw [Session.items, markers_append, nodup_append] at nodup
        have outlined := mem_outline tombstone opened
        have inner : completed ∈ markers (forestItems session.current) := by
          rw [parts, forestItems_append, markers_append]
          exact mem_append_right _ mem
        exact (nodup.2.2 _ outlined _ inner).symm
    rw [List.getElem?_set_ne differ] at placed
    rcases mem_cons.mp opened with here | opened
    · subst here
      have last : (session.builder.events ++ [.start tombstone none])[marker]? = some (.start kind' link') := placed
      rw [place, List.getElem?_append_right (Nat.le_refl _)] at last
      simp at last
      exact last.2.symm
    · have old : frame.marker < session.builder.events.length := by
        apply tracks.bounded
        rw [Session.items, markers_append]
        exact mem_append_left _ (mem_outline tombstone opened)
      rw [List.getElem?_append_left old] at placed
      exact tracks.unlinked frame opened kind' link' placed

theorem length_step {op : Op Kind} (stepped : session.step tombstone op = some next) :
    session.builder.events.length ≤ next.builder.events.length := by
  cases op with
  | start =>
    cases stepped
    simp [Session.enter, EventBuilder.start, EventBuilder.startNode, EventBuilder.push]
  | startNode kind =>
    cases stepped
    simp [Session.enter, EventBuilder.startNode, EventBuilder.push]
  | tokenN kind n =>
    cases stepped
    simp [EventBuilder.tokenN, EventBuilder.push]
  | error message =>
    cases stepped
    simp [EventBuilder.error, EventBuilder.push]
  | complete kind =>
    simp only [Session.step] at stepped
    split at stepped
    · cases stepped
    · simp only [bind_eq_bind, bind_eq_some_iff] at stepped
      obtain ⟨builder, done, eq⟩ := stepped
      cases eq
      obtain ⟨_, _, _, after⟩ := complete_eq_some done
      simp [after]
  | abandon =>
    simp only [Session.step] at stepped
    split at stepped
    · cases stepped
    · simp only [bind_eq_bind, bind_eq_some_iff] at stepped
      obtain ⟨builder, done, eq⟩ := stepped
      cases eq
      rw [EventBuilder.abandon] at done
      split at done <;> cases done <;> simp
  | precede completed =>
    simp only [Session.step] at stepped
    split at stepped
    · cases stepped
    · simp only [bind_eq_bind, bind_eq_some_iff] at stepped
      obtain ⟨_, _, ⟨builder, marker⟩, done, eq⟩ := stepped
      cases eq
      obtain ⟨_, _, _, _, after⟩ := precede_eq_some done
      simp [after]

theorem Tracks.step (tracks : Tracks tombstone session) {op : Op Kind}
    (stepped : session.step tombstone op = some next) (small : next.builder.events.length ≤ 2 ^ 32) :
    Tracks tombstone next := by
  cases op with
  | start =>
    cases stepped
    exact tracks.enter tombstone small
  | startNode kind =>
    cases stepped
    exact tracks.enter kind small
  | tokenN kind count | error message =>
    cases stepped
    exact tracks.emit (fun _ => rfl) rfl (fun bound => by cases bound <;> rfl) rfl (by simp)
  | complete kind =>
    simp only [Session.step] at stepped
    split at stepped
    · cases stepped
    · next frame rest opened =>
      simp only [bind_eq_bind, bind_eq_some_iff] at stepped
      obtain ⟨builder, done, same⟩ := stepped
      cases same
      exact tracks.complete opened done
  | abandon =>
    simp only [Session.step] at stepped
    split at stepped
    · cases stepped
    · next frame rest opened =>
      simp only [bind_eq_bind, bind_eq_some_iff] at stepped
      obtain ⟨builder, done, same⟩ := stepped
      cases same
      exact tracks.abandon opened done
  | precede completed =>
    simp only [Session.step] at stepped
    split at stepped
    · cases stepped
    · simp only [bind_eq_bind, bind_eq_some_iff] at stepped
      obtain ⟨⟨before, wrapped⟩, split, ⟨builder, marker⟩, done, same⟩ := stepped
      cases same
      exact tracks.precede split done small

end Tracking

end SyntaxTree
