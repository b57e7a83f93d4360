import Mathlib.Data.List.Basic

namespace Sqlite

/-- A value of a row; a real number is its 64 bits. -/
inductive Register where
  | null
  | int (x : Int)
  | real (bits : UInt64)
  | text (s : String)
  | blob (b : List UInt8)
  | rowId (x : Int)
  deriving DecidableEq

abbrev Row := List Register

inductive SessionChangeOp where
  | insert
  | update
  | delete
  deriving DecidableEq

structure Change where
  op : SessionChangeOp
  table : String
  pkColumns : List Bool
  oldRow : Row
  newRow : Row
  deriving DecidableEq

def changeInsert (table : String) (pkColumns : List Bool) (newRow : Row) : Change :=
  ⟨.insert, table, pkColumns, [], newRow⟩

def changeUpdate (table : String) (pkColumns : List Bool) (oldRow newRow : Row) : Change :=
  ⟨.update, table, pkColumns, oldRow, newRow⟩

def changeDelete (table : String) (pkColumns : List Bool) (oldRow : Row) : Change :=
  ⟨.delete, table, pkColumns, oldRow, []⟩

structure ChangeSet where
  changes : List Change

def changesetEmpty : ChangeSet := ⟨[]⟩

def ChangeSet.record (cs : ChangeSet) (c : Change) : ChangeSet := ⟨cs.changes ++ [c]⟩

def invertChange (c : Change) : Change :=
  match c.op with
  | .insert => { c with op := .delete, oldRow := c.newRow, newRow := [] }
  | .delete => { c with op := .insert, oldRow := [], newRow := c.oldRow }
  | .update => { c with oldRow := c.newRow, newRow := c.oldRow }

/-- The loop goes from the last change to the first one. -/
def invert (cs : ChangeSet) : ChangeSet :=
  cs.changes.reverse.foldl (fun out c => out.record (invertChange c)) changesetEmpty

def concat (a b : ChangeSet) : ChangeSet :=
  b.changes.foldl ChangeSet.record (a.changes.foldl ChangeSet.record changesetEmpty)

structure AttachedTable where
  name : String
  pkColumns : List Bool

structure Session where
  attached : List AttachedTable
  changeset : ChangeSet
  paused : Bool

def sessionNew : Session := ⟨[], changesetEmpty, false⟩

namespace Session

/-- A table attached again gets its new columns. -/
def attachTo (t : AttachedTable) : List AttachedTable → List AttachedTable
  | [] => [t]
  | other :: attached => if other.name = t.name then t :: attached else other :: attachTo t attached

def lookupAttached (session : Session) (name : String) : Option AttachedTable :=
  session.attached.find? (·.name = name)

/-- The body that the three explicit calls and the hook share. -/
def push (session : Session) (table : String) (change : List Bool → Change) : Session :=
  if session.paused then session
  else
    match session.lookupAttached table with
    | some t => { session with changeset := session.changeset.record (change t.pkColumns) }
    | none => session

def recordInsert (session : Session) (table : String) (newRow : Row) : Session :=
  session.push table fun pkColumns => changeInsert table pkColumns newRow

def recordUpdate (session : Session) (table : String) (oldRow newRow : Row) : Session :=
  session.push table fun pkColumns => changeUpdate table pkColumns oldRow newRow

def recordDelete (session : Session) (table : String) (oldRow : Row) : Session :=
  session.push table fun pkColumns => changeDelete table pkColumns oldRow

def onPreUpdate (session : Session) (op : SessionChangeOp) (table : String) (oldRow newRow : Row) : Session :=
  match op with
  | .insert => session.recordInsert table newRow
  | .update => session.recordUpdate table oldRow newRow
  | .delete => session.recordDelete table oldRow

end Session

/-- The changesets that a session holds after any calls, or that are taken from it. -/
inductive Recorded : Session → Prop
  | new : Recorded sessionNew
  | attach {session : Session} (t : AttachedTable) (before : Recorded session) :
    Recorded { session with attached := Session.attachTo t session.attached }
  | detach {session : Session} (name : String) (before : Recorded session) :
    Recorded { session with attached := session.attached.filter (·.name ≠ name) }
  | setPaused {session : Session} (paused : Bool) (before : Recorded session) : Recorded { session with paused := paused }
  | preUpdate {session : Session} (op : SessionChangeOp) (table : String) (oldRow newRow : Row)
    (before : Recorded session) : Recorded (session.onPreUpdate op table oldRow newRow)
  | take {session : Session} (before : Recorded session) : Recorded { session with changeset := changesetEmpty }

section Inversion

/-- An insertion has no old row, and a deletion no new one. -/
def Change.OneSided (c : Change) : Prop := (c.op = .insert → c.oldRow = []) ∧ (c.op = .delete → c.newRow = [])

theorem Session.push_oneSided {s : Session} {table : String} {change : List Bool → Change}
    (pre : ∀ c ∈ s.changeset.changes, c.OneSided) (new : ∀ pkColumns, (change pkColumns).OneSided) :
    ∀ c ∈ (s.push table change).changeset.changes, c.OneSided := by
  unfold Session.push
  split
  · exact pre
  · split
    · next t _ =>
      simp only [ChangeSet.record, List.forall_mem_append, List.forall_mem_singleton]
      exact ⟨pre, new t.pkColumns⟩
    · exact pre

theorem Recorded.oneSided {s : Session} (recorded : Recorded s) :
    ∀ c ∈ s.changeset.changes, c.OneSided := by
  induction recorded with
  | new | take _ _ => nofun
  | attach t pre ih | detach name pre ih | setPaused paused pre ih => exact ih
  | preUpdate op table oldRow newRow pre ih =>
    cases op with
    | insert => exact Session.push_oneSided ih fun _ => ⟨fun _ => rfl, nofun⟩
    | delete => exact Session.push_oneSided ih fun _ => ⟨nofun, fun _ => rfl⟩
    | update => exact Session.push_oneSided ih fun _ => ⟨nofun, nofun⟩

theorem foldl_record (change : Change → Change) (cs : List Change) (out : ChangeSet) :
    cs.foldl (fun out c => out.record (change c)) out = ⟨out.changes ++ cs.map change⟩ := by
  induction cs generalizing out with
  | nil => simp
  | cons c cs ih => rw [List.foldl_cons, ih, ChangeSet.record, List.append_assoc, List.map_cons, List.singleton_append]

theorem invert_eq (cs : ChangeSet) : invert cs = ⟨cs.changes.reverse.map invertChange⟩ := by
  rw [invert, foldl_record]
  rfl

theorem concat_eq (a b : ChangeSet) : concat a b = ⟨a.changes ++ b.changes⟩ := by
  have copies (cs : List Change) (out : ChangeSet) : cs.foldl ChangeSet.record out = ⟨out.changes ++ cs⟩ := by
    have mapped := foldl_record id cs out
    rwa [List.map_id] at mapped
  rw [concat, copies, copies]
  rfl

theorem invertChange_invertChange {c : Change} (oneSided : c.OneSided) : invertChange (invertChange c) = c := by
  obtain ⟨op, table, pkColumns, oldRow, newRow⟩ := c
  cases op with
  | insert =>
    cases oneSided.1 rfl
    rfl
  | update => rfl
  | delete =>
    cases oneSided.2 rfl
    rfl

theorem invert_invert {cs : ChangeSet} (oneSided : ∀ c ∈ cs.changes, c.OneSided) : invert (invert cs) = cs := by
  have back : cs.changes.map (invertChange ∘ invertChange) = cs.changes.map id :=
    List.map_congr_left fun c mem => invertChange_invertChange (oneSided c mem)
  simp only [invert_eq, List.map_reverse, List.reverse_reverse, List.map_map, back, List.map_id]

theorem invert_concat (a b : ChangeSet) : invert (concat a b) = concat (invert b) (invert a) := by
  simp only [invert_eq, concat_eq, List.reverse_append, List.map_append]

end Inversion

section Keyed

variable {Key : Type} [DecidableEq Key] (key : String → List Bool → Row → Key)

/-- The rows of every table under their primary keys. -/
abbrev KeyedStore (Key : Type) : Type := String × Key → Option Row

def Change.place (c : Change) (row : Row) : String × Key := (c.table, key c.table c.pkColumns row)

def removeRow (c : Change) (store : KeyedStore Key) : Option (KeyedStore Key) :=
  if store (c.place key c.oldRow) = some c.oldRow then some (Function.update store (c.place key c.oldRow) none) else none

def addRow (c : Change) (store : KeyedStore Key) : Option (KeyedStore Key) :=
  if store (c.place key c.newRow) = none then some (Function.update store (c.place key c.newRow) (some c.newRow)) else none

/-- A change meets no conflict where its old row is the stored one and the key of its new row is free. -/
def applyChange (store : KeyedStore Key) (c : Change) : Option (KeyedStore Key) :=
  match c.op with
  | .insert => addRow key c store
  | .delete => removeRow key c store
  | .update => removeRow key c store >>= addRow key c

def applyAll (store : KeyedStore Key) (cs : ChangeSet) : Option (KeyedStore Key) :=
  cs.changes.foldlM (applyChange key) store

variable {key} {c d : Change} {store store' : KeyedStore Key}

theorem removeRow_of_addRow (added : addRow key c store = some store') (table : d.table = c.table)
    (columns : d.pkColumns = c.pkColumns) (row : d.oldRow = c.newRow) : removeRow key d store' = some store := by
  have place : d.place key d.oldRow = c.place key c.newRow := by rw [Change.place, table, columns, row, Change.place]
  rw [addRow, Option.ite_none_right_eq_some, Option.some.injEq] at added
  obtain ⟨free, rfl⟩ := added
  rw [removeRow, place, Function.update_self, if_pos (congrArg some row.symm), Function.update_idem, ← free,
    Function.update_eq_self]

theorem addRow_of_removeRow (removed : removeRow key c store = some store') (table : d.table = c.table)
    (columns : d.pkColumns = c.pkColumns) (row : d.newRow = c.oldRow) : addRow key d store' = some store := by
  have place : d.place key d.newRow = c.place key c.oldRow := by rw [Change.place, table, columns, row, Change.place]
  rw [removeRow, Option.ite_none_right_eq_some, Option.some.injEq] at removed
  obtain ⟨stored, rfl⟩ := removed
  rw [addRow, place, Function.update_self, if_pos rfl, Function.update_idem, row, ← stored, Function.update_eq_self]

theorem applyChange_invertChange (applied : applyChange key store c = some store') :
    applyChange key store' (invertChange c) = some store := by
  obtain ⟨op, table, pkColumns, oldRow, newRow⟩ := c
  cases op with
  | insert =>
    have added : addRow key ⟨.insert, table, pkColumns, oldRow, newRow⟩ store = some store' := applied
    exact removeRow_of_addRow added rfl rfl rfl
  | delete =>
    have removed : removeRow key ⟨.delete, table, pkColumns, oldRow, newRow⟩ store = some store' := applied
    exact addRow_of_removeRow removed rfl rfl rfl
  | update =>
    obtain ⟨between, removed, added⟩ := Option.bind_eq_some_iff.mp applied
    have first := removeRow_of_addRow (d := ⟨.update, table, pkColumns, newRow, oldRow⟩) added rfl rfl rfl
    have snd := addRow_of_removeRow (d := ⟨.update, table, pkColumns, newRow, oldRow⟩) removed rfl rfl rfl
    exact Option.bind_eq_some_iff.mpr ⟨between, first, snd⟩

theorem applyAll_invert {cs : List Change} (applied : cs.foldlM (applyChange key) store = some store') :
    (cs.reverse.map invertChange).foldlM (applyChange key) store' = some store := by
  induction cs generalizing store with
  | nil => exact applied.symm
  | cons c cs ih =>
    obtain ⟨between, fst, rest⟩ := Option.bind_eq_some_iff.mp applied
    rw [List.reverse_cons, List.map_append, List.foldlM_append]
    exact Option.bind_eq_some_iff.mpr ⟨between, ih rest, by simp [applyChange_invertChange fst]⟩

/-- Inversion on recorded changesets, over the stores of any tables with any keys. -/
theorem invert_laws (key : String → List Bool → Row → Key) {session : Session} (recorded : Recorded session) :
    (∀ store store', applyAll key store session.changeset = some store' →
      applyAll key store' (invert session.changeset) = some store) ∧
    invert (invert session.changeset) = session.changeset ∧
    (∀ store a b, applyAll key store (concat a b) = applyAll key store a >>= fun store => applyAll key store b) ∧
    ∀ a b, invert (concat a b) = concat (invert b) (invert a) := by
  refine ⟨fun store store' applied => ?_, invert_invert recorded.oneSided, fun store a b => ?_, invert_concat⟩
  · rw [invert_eq]
    exact applyAll_invert applied
  · rw [concat_eq]
    exact List.foldlM_append

theorem invert_laws_rekeyed :
    ∃ session, Recorded session ∧ session.changeset.changes.length = 2 ∧
      invert (invert session.changeset) = session.changeset := by
  have attached := Recorded.new.attach ⟨"t", [true]⟩
  have recorded := (attached.preUpdate .insert "t" [] [.int 1]).preUpdate .update "t" [.int 1] [.int 2]
  exact ⟨_, recorded, rfl, (invert_laws (fun _ _ row => row) recorded).2.1⟩

end Keyed

end Sqlite
