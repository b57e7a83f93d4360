import Mathlib.Tactic.Ring

open List

namespace Wire

/-- A Rust byte slice. No slice holds more than `isize::MAX` bytes. -/
structure Slice where
  bytes : List UInt8
  fits : bytes.length < 2 ^ 63

def Slice.length (data : Slice) : Nat := data.bytes.length

theorem Slice.length_lt (data : Slice) : data.length < 2 ^ 63 := data.fits

/-- Ways in which evaluating an expression stops the process instead of producing a value. -/
inductive Fault where
  | addOverflow
  | subUnderflow
  | outOfRange
  | capacityOverflow
  | outOfFuel
  deriving DecidableEq

inductive Outcome (ε α : Type) where
  | ok (value : α) (offset : Nat)
  | err (error : ε)
  | fault (fault : Fault)
  deriving DecidableEq

def Decoder (ε α : Type) : Type := Slice → Nat → Outcome ε α

section Primitives

variable {ε α β : Type}

def Decoder.pure (value : α) : Decoder ε α := fun _ offset => .ok value offset

def Decoder.bind (first : Decoder ε α) (next : α → Decoder ε β) : Decoder ε β := fun data offset =>
  match first data offset with
  | .ok value after => next value data after
  | .err error => .err error
  | .fault fault => .fault fault

instance : Monad (Decoder ε) where
  pure := Decoder.pure
  bind := Decoder.bind

def fail (error : ε) : Decoder ε α := fun _ _ => .err error

def crash (fault : Fault) : Decoder ε α := fun _ _ => .fault fault

def position : Decoder ε Nat := fun _ offset => .ok offset offset

def dataLen : Decoder ε Nat := fun data offset => .ok data.length offset

/-- `data[i]`. -/
def index (i : Nat) : Decoder ε UInt8 := fun data offset =>
  match data.bytes[i]? with
  | some byte => .ok byte offset
  | none => .fault .outOfRange

/-- `a + b` on a 64-bit `usize`. -/
def addUsize (a b : Nat) : Decoder ε Nat := fun _ offset =>
  if a + b < 2 ^ 64 then .ok (a + b) offset else .fault .addOverflow

/-- `a - b` on a 64-bit `usize`. -/
def subUsize (a b : Nat) : Decoder ε Nat := fun _ offset =>
  if b ≤ a then .ok (a - b) offset else .fault .subUnderflow

def Slice.sub (data : Slice) (start stop : Nat) : Slice where
  bytes := (data.bytes.drop start).take (stop - start)
  fits := by
    have bound := data.fits
    simp only [List.length_take, List.length_drop]
    omega

/-- `&data[start..stop]`. -/
def subslice (start stop : Nat) : Decoder ε Slice := fun data offset =>
  if start ≤ stop ∧ stop ≤ data.length then .ok (data.sub start stop) offset else .fault .outOfRange

def within (inner : Slice) (start : Nat) (decoder : Decoder ε α) : Decoder ε (α × Nat) := fun _ offset =>
  match decoder inner start with
  | .ok value after => .ok (value, after) offset
  | .err error => .err error
  | .fault fault => .fault fault

def setPosition (offset : Nat) : Decoder ε Unit := fun _ _ => .ok () offset

/-- `*offset += count`. -/
def advance (count : Nat) : Decoder ε Unit := fun _ offset =>
  if offset + count < 2 ^ 64 then .ok () (offset + count) else .fault .addOverflow

/-- The loop `for _ in 0..count { items.push(item()?) }`. -/
def repeatN (item : Decoder ε α) : Nat → Decoder ε (List α)
  | 0 => Decoder.pure []
  | count + 1 => Decoder.bind item fun head => Decoder.bind (repeatN item count) fun tail =>
      Decoder.pure (head :: tail)

end Primitives

section Equations

variable {ε α β : Type} (data : Slice) (offset : Nat)

@[simp] theorem pure_run (v : α) :
    (pure v : Decoder ε α) data offset = .ok v offset := rfl

theorem bind_run (fst : Decoder ε α) (next : α → Decoder ε β) :
    (fst >>= next) data offset =
      match fst data offset with
      | .ok v after => next v data after
      | .err error => .err error
      | .fault fault => .fault fault := rfl

theorem Decoder.bind_assoc {γ : Type} (fst : Decoder ε α) (next : α → Decoder ε β) (last : β → Decoder ε γ) :
    ((fst >>= next) >>= last) = (fst >>= fun v => next v >>= last) := by
  funext data offset
  rw [bind_run, bind_run, bind_run]
  cases fst data offset with
  | ok v after | err error | fault fault => rfl

theorem bind_ok {fst : Decoder ε α} {next : α → Decoder ε β} {data : Slice} {offset after : Nat}
    {v : α} (run : fst data offset = .ok v after) :
    (fst >>= next) data offset = next v data after := by
  rw [bind_run, run]

theorem bind_eq_ok {fst : Decoder ε α} {next : α → Decoder ε β} {data : Slice} {offset after : Nat}
    {v : β} (run : (fst >>= next) data offset = .ok v after) :
    ∃ mid at', fst data offset = .ok mid at' ∧ next mid data at' = .ok v after := by
  rw [bind_run] at run
  cases step : fst data offset with
  | ok mid at' => rw [step] at run; exact ⟨mid, at', rfl, run⟩
  | err error | fault fault => rw [step] at run; cases run

theorem bind_eq_fault {fst : Decoder ε α} {next : α → Decoder ε β} {data : Slice} {offset : Nat}
    {fault : Fault} :
    (fst >>= next) data offset = .fault fault ↔
      fst data offset = .fault fault ∨
        ∃ mid at', fst data offset = .ok mid at' ∧ next mid data at' = .fault fault := by
  rw [bind_run]
  cases fst data offset with
  | ok mid at' | err error | fault other => simp

end Equations

/-- The bytes from `offset` on begin with `segment`. -/
def Slice.Holds (data : Slice) (offset : Nat) (segment : List UInt8) : Prop :=
  offset ≤ data.length ∧ ∃ rest, data.bytes.drop offset = segment ++ rest

theorem Slice.holds_of_eq {data : Slice} {pre segment after : List UInt8}
    (layout : data.bytes = pre ++ segment ++ after) : data.Holds pre.length segment := by
  refine ⟨by simp [Slice.length, layout], after, ?_⟩
  rw [layout, append_assoc, drop_left]

theorem Slice.Holds.bound {data : Slice} {offset : Nat} {segment : List UInt8}
    (held : data.Holds offset segment) : offset + segment.length ≤ data.length := by
  obtain ⟨hin, rest, eq⟩ := held
  have lengths := congrArg List.length eq
  simp only [length_drop, length_append] at lengths
  simp only [Slice.length] at hin ⊢
  omega

theorem Slice.Holds.left {data : Slice} {offset : Nat} {fst snd : List UInt8}
    (held : data.Holds offset (fst ++ snd)) : data.Holds offset fst := by
  obtain ⟨hin, rest, eq⟩ := held
  exact ⟨hin, snd ++ rest, by rw [eq, append_assoc]⟩

theorem Slice.Holds.right {data : Slice} {offset : Nat} {fst snd : List UInt8}
    (held : data.Holds offset (fst ++ snd)) : data.Holds (offset + fst.length) snd := by
  have hb := held.left.bound
  obtain ⟨_, rest, eq⟩ := held
  refine ⟨hb, rest, ?_⟩
  rw [← drop_drop, eq, append_assoc, drop_left]

theorem Slice.Holds.take {data : Slice} {offset : Nat} {segment : List UInt8}
    (held : data.Holds offset segment) : (data.bytes.drop offset).take segment.length = segment := by
  obtain ⟨_, rest, eq⟩ := held
  rw [eq, take_left]

theorem Slice.Holds.sub {data : Slice} {offset : Nat} {segment : List UInt8} (held : data.Holds offset segment) :
    data.sub offset (offset + segment.length) = ⟨segment, by
      have hb := held.bound
      have hf := data.length_lt
      omega⟩ := by
  simp only [Slice.sub, Nat.add_sub_cancel_left, held.take]

theorem Slice.Holds.getElem? {data : Slice} {offset : Nat} {byte : UInt8}
    (held : data.Holds offset [byte]) : data.bytes[offset]? = some byte := by
  obtain ⟨_, rest, eq⟩ := held
  have head : (data.bytes.drop offset)[0]? = some byte := by rw [eq]; rfl
  simpa using head

/-- Wherever the slice holds `segment`, the decoder returns `value` and stops right after it. -/
def Reads (decoder : Decoder ε α) (segment : List UInt8) (value : α) : Prop :=
  ∀ (data : Slice) (offset : Nat), data.Holds offset segment →
    decoder data offset = .ok value (offset + segment.length)

theorem Reads.pure (v : α) : Reads (Pure.pure v : Decoder ε α) [] v := by
  intro data offset _
  rfl

theorem Reads.pure_eq {v res : α} (eq : res = v) :
    Reads (Pure.pure res : Decoder ε α) [] v := by
  subst eq
  exact Reads.pure res

theorem Reads.bind {decoder : Decoder ε α} {next : α → Decoder ε β} {fst snd : List UInt8}
    {v : α} {res : β} (head : Reads decoder fst v) (tail : Reads (next v) snd res) :
    Reads (decoder >>= next) (fst ++ snd) res := by
  intro data offset held
  rw [bind_ok (head data offset held.left), tail data _ held.right, length_append, Nat.add_assoc]

theorem Reads.bind_pure {decoder : Decoder ε α} {next : α → Decoder ε β} {segment : List UInt8}
    {v : α} {res : β} (head : Reads decoder segment v) (tail : Reads (next v) [] res) :
    Reads (decoder >>= next) segment res := by
  have both := head.bind tail
  rwa [append_nil] at both

theorem Reads.field {decoder : Decoder ε α} {next : α → Decoder ε β} {fst : List UInt8}
    {rest : List (List UInt8)} {v : α} {res : β} (head : Reads decoder fst v)
    (tail : Reads (next v) rest.flatten res) :
    Reads (decoder >>= next) (fst :: rest).flatten res :=
  head.bind tail

theorem Reads.field2 {decoder : Decoder ε α} {next : α → Decoder ε β} {fst snd : List UInt8}
    {rest : List (List UInt8)} {v : α} {res : β} (head : Reads decoder (fst ++ snd) v)
    (tail : Reads (next v) rest.flatten res) :
    Reads (decoder >>= next) (fst :: snd :: rest).flatten res := by
  have both := head.bind tail
  rwa [append_assoc] at both

theorem Reads.of_fits {decoder : Decoder ε α} {segment : List UInt8} {v : α}
    (read : segment.length < 2 ^ 63 → Reads decoder segment v) : Reads decoder segment v := by
  intro data offset held
  have hb := held.bound
  have hf := data.length_lt
  exact read (by omega) data offset held

theorem Reads.repeatN {item : Decoder ε α} {encode : α → List UInt8} (vs : List α)
    (each : ∀ v ∈ vs, Reads item (encode v) v) :
    Reads (Wire.repeatN item vs.length) (vs.flatMap encode) vs := by
  induction vs with
  | nil => exact Reads.pure []
  | cons head tail ih =>
    have fst := each head (by simp)
    have rest := ih fun v mem => each v (by simp [mem])
    rw [flatMap_cons]
    exact fst.bind (rest.bind_pure (Reads.pure _))

theorem Reads.inj {decoder : Decoder ε α} {fst snd rest rest' : List UInt8} {v v' : α}
    (left : Reads decoder fst v) (right : Reads decoder snd v')
    (data : Slice) (layout : data.bytes = fst ++ rest) (eq : fst ++ rest = snd ++ rest') :
    v = v' ∧ fst = snd := by
  have atFirst : data.Holds 0 fst := @Slice.holds_of_eq data [] fst rest layout
  have atSecond : data.Holds 0 snd := @Slice.holds_of_eq data [] snd rest' (layout.trans eq)
  have run := (left data 0 atFirst).symm.trans (right data 0 atSecond)
  simp only [Outcome.ok.injEq, Nat.zero_add] at run
  exact ⟨run.1, append_inj_left eq run.2⟩

end Wire
