import Mathlib.Tactic.Ring

namespace SyntaxTree

variable {Kind : Type}

inductive Event (Kind : Type) where
  | start (kind : Kind) (forwardParent : Option Nat)
  | finish
  | token (kind : Kind) (nRawTokens : Nat)
  | error (message : String)
  | tombstone
  deriving DecidableEq

def Event.isTombstone : Event Kind → Bool
  | .tombstone => true
  | _ => false

/-- Positions are `u32`. -/
def positionOf (length : Nat) : Nat := length % 2 ^ 32

structure EventBuilder (Kind : Type) where
  events : List (Event Kind)

namespace EventBuilder

def new : EventBuilder Kind := { events := [] }

def push (builder : EventBuilder Kind) (event : Event Kind) : EventBuilder Kind :=
  { events := builder.events ++ [event] }

def startNode (builder : EventBuilder Kind) (kind : Kind) : EventBuilder Kind × Nat :=
  (builder.push (.start kind none), positionOf builder.events.length)

/-- `tombstone` is the kind of a node whose kind is not known yet. -/
def start (tombstone : Kind) (builder : EventBuilder Kind) : EventBuilder Kind × Nat :=
  builder.startNode tombstone

def tokenN (builder : EventBuilder Kind) (kind : Kind) (count : Nat) : EventBuilder Kind :=
  builder.push (.token kind count)

def error (builder : EventBuilder Kind) (message : String) : EventBuilder Kind := builder.push (.error message)

/-- `none` is a panic: the marker does not point to a `start` event. -/
def complete (builder : EventBuilder Kind) (marker : Nat) (kind : Kind) : Option (EventBuilder Kind) :=
  match builder.events[marker]? with
  | some (.start _ forwardParent) =>
    some (push { events := builder.events.set marker (.start kind forwardParent) } .finish)
  | _ => none

def abandon (builder : EventBuilder Kind) (marker : Nat) : Option (EventBuilder Kind) :=
  match builder.events[marker]? with
  | some (.start _ _) => some { events := builder.events.set marker .tombstone }
  | some _ => none
  | none => some builder

def precede (tombstone : Kind) (builder : EventBuilder Kind) (completed : Nat) :
    Option (EventBuilder Kind × Nat) :=
  let (builder, marker) := builder.start tombstone
  match builder.events[completed]? with
  | some (.start kind _) =>
    some ({ events := builder.events.set completed (.start kind (some marker)) }, marker)
  | _ => none

/-- One round of the loop of `reorder`; `none` is an index out of bounds. -/
def reorderAt (events : List (Event Kind)) (index : Nat) : Option (List (Event Kind)) :=
  match events[index]? with
  | some (.start kind (some forwardParent)) =>
    match events[forwardParent]? with
    | some (.start parentKind _) =>
      let events := (events.set index (.start kind none)).set forwardParent .tombstone
      some (events.insertIdx index (.start parentKind none))
    | some _ => some events
    | none => none
  | _ => some events

def reorder (builder : EventBuilder Kind) : Option (List (Event Kind)) := do
  let events ← (List.range builder.events.length).reverse.foldlM reorderAt builder.events
  return events.filter fun event => !event.isTombstone

end EventBuilder

structure TriviaSource (Kind : Type) where
  kind : Kind
  text : String

structure TokenSource (Kind : Type) where
  text : String
  leadingTrivia : List (TriviaSource Kind)
  trailingTrivia : List (TriviaSource Kind)

/-- The calls that an `EventSink` receives. -/
inductive SinkCall (Kind : Type) where
  | startNode (kind : Kind)
  | finishNode
  | token (kind : Kind) (text : String)
  | error (message : String)
  deriving DecidableEq

def TriviaSource.call (trivia : TriviaSource Kind) : SinkCall Kind := .token trivia.kind trivia.text

def TokenSource.calls (kind : Kind) (token : TokenSource Kind) : List (SinkCall Kind) :=
  token.leadingTrivia.map TriviaSource.call ++ [.token kind token.text] ++
    token.trailingTrivia.map TriviaSource.call

/-- The calls for the next `count` raw tokens, as far as there are any. -/
def tokenCalls (kind : Kind) (count : Nat) (tokens : List (TokenSource Kind)) : List (SinkCall Kind) :=
  ((tokens.take count).map (TokenSource.calls kind)).flatten

/-- One round of the loop of `reorder_events`. -/
def reorderEventsAt (events : List (Event Kind)) (index : Nat) : List (Event Kind) :=
  match events[index]? with
  | some (.start kind (some parentPos)) =>
    let events := events.set index .tombstone
    match events[parentPos]? with
    | some parent => (events.set parentPos (.start kind none)).insertIdx (parentPos + 1) parent
    | none => events
  | _ => events

def reorderEvents (events : List (Event Kind)) : List (Event Kind) :=
  ((List.range events.length).reverse.foldl reorderEventsAt events).filter fun event => !event.isTombstone

section Process

variable [DecidableEq Kind] (tombstone : Kind)

def feed : List (Event Kind) → List (TokenSource Kind) → List (SinkCall Kind)
  | [], _ => []
  | .start kind _ :: rest, tokens =>
    if kind ≠ tombstone then .startNode kind :: feed rest tokens else feed rest tokens
  | .tombstone :: rest, tokens => feed rest tokens
  | .finish :: rest, tokens => .finishNode :: feed rest tokens
  | .token kind count :: rest, tokens => tokenCalls kind count tokens ++ feed rest (tokens.drop count)
  | .error message :: rest, tokens => .error message :: feed rest tokens

def process (events : List (Event Kind)) (tokens : List (TokenSource Kind)) : List (SinkCall Kind) :=
  feed tombstone (reorderEvents events) tokens

end Process

/-- A node remembers the position of its marker. -/
inductive Tree (Kind : Type) where
  | node (marker : Nat) (kind : Kind) (children : List (Tree Kind))
  | token (kind : Kind) (count : Nat)
  | error (message : String)

def Tree.marker? : Tree Kind → Option Nat
  | .node marker _ _ => some marker
  | _ => none

/-- An event of a balanced list; a start names its marker. -/
inductive Item (Kind : Type) where
  | start (marker : Nat) (kind : Kind)
  | finish
  | token (kind : Kind) (count : Nat)
  | error (message : String)

def Item.event : Item Kind → Event Kind
  | .start _ kind => .start kind none
  | .finish => .finish
  | .token kind count => .token kind count
  | .error message => .error message

mutual

def Tree.items : Tree Kind → List (Item Kind)
  | .node marker kind children => .start marker kind :: (forestItems children ++ [.finish])
  | .token kind count => [.token kind count]
  | .error message => [.error message]

def forestItems : List (Tree Kind) → List (Item Kind)
  | [] => []
  | tree :: rest => tree.items ++ forestItems rest

end

def forestEvents (trees : List (Tree Kind)) : List (Event Kind) := (forestItems trees).map Item.event

@[simp] theorem forestItems_append (before after : List (Tree Kind)) :
    forestItems (before ++ after) = forestItems before ++ forestItems after := by
  induction before with
  | nil => rfl
  | cons tree rest ih => simp [forestItems, ih]

/-- An open marker, with the node it precedes and the nodes that come before it. -/
structure Frame (Kind : Type) where
  marker : Nat
  preceded : Option Nat
  before : List (Tree Kind)

/-- A properly nested run: `opened` holds the open markers, innermost first, and `current` what has been
    emitted below the innermost one. -/
structure Session (Kind : Type) where
  builder : EventBuilder Kind
  opened : List (Frame Kind)
  current : List (Tree Kind)

inductive Op (Kind : Type) where
  | start
  | startNode (kind : Kind)
  | tokenN (kind : Kind) (count : Nat)
  | error (message : String)
  | complete (kind : Kind)
  | abandon
  | precede (completed : Nat)

def splitNode (completed : Nat) : List (Tree Kind) → Option (List (Tree Kind) × List (Tree Kind))
  | [] => none
  | tree :: rest =>
    if tree.marker? = some completed then some ([], tree :: rest)
    else (splitNode completed rest).map fun (before, wrapped) => (tree :: before, wrapped)

namespace Session

def new : Session Kind := { builder := .new, opened := [], current := [] }

def enter (session : Session Kind) (started : EventBuilder Kind × Nat) : Session Kind where
  builder := started.1
  opened := { marker := started.2, preceded := none, before := session.current } :: session.opened
  current := []

/-- Markers are completed or abandoned innermost first, and only a node of the innermost open marker that
    is not already being wrapped can be preceded. -/
def step (tombstone : Kind) (session : Session Kind) : Op Kind → Option (Session Kind)
  | .start => some (session.enter (session.builder.start tombstone))
  | .startNode kind => some (session.enter (session.builder.startNode kind))
  | .tokenN kind count =>
    some { session with
      builder := session.builder.tokenN kind count
      current := session.current ++ [.token kind count] }
  | .error message =>
    some { session with builder := session.builder.error message, current := session.current ++ [.error message] }
  | .complete kind =>
    match session.opened with
    | [] => none
    | frame :: rest => do
      let builder ← session.builder.complete frame.marker kind
      return { builder, opened := rest, current := frame.before ++ [.node frame.marker kind session.current] }
  | .abandon =>
    match session.opened with
    | [] => none
    | frame :: rest => do
      let builder ← session.builder.abandon frame.marker
      return { builder, opened := rest, current := frame.before ++ session.current }
  | .precede completed =>
    if session.opened.head?.bind Frame.preceded = some completed then none
    else do
      let (before, wrapped) ← splitNode completed session.current
      let (builder, marker) ← session.builder.precede tombstone completed
      return { builder, opened := { marker, preceded := some completed, before } :: session.opened, current := wrapped }

def run (tombstone : Kind) : Session Kind → List (Op Kind) → Option (Session Kind)
  | session, [] => some session
  | session, op :: rest => do run tombstone (← session.step tombstone op) rest

end Session

def Op.token? : Op Kind → Option (Kind × Nat)
  | .tokenN kind count => some (kind, count)
  | _ => none

def Event.token? : Event Kind → Option (Kind × Nat)
  | .token kind count => some (kind, count)
  | _ => none

def Event.unlink : Event Kind → Event Kind
  | .start kind _ => .start kind none
  | event => event

def deliver : List (Event Kind) → List (TokenSource Kind) → List (SinkCall Kind)
  | [], _ => []
  | .start kind _ :: rest, tokens => .startNode kind :: deliver rest tokens
  | .tombstone :: rest, tokens => deliver rest tokens
  | .finish :: rest, tokens => .finishNode :: deliver rest tokens
  | .token kind count :: rest, tokens => tokenCalls kind count tokens ++ deliver rest (tokens.drop count)
  | .error message :: rest, tokens => .error message :: deliver rest tokens

/-- Both reorderings of the events of a finished run give its tree, and the tokens stay in order. -/
def BuildsIntended [DecidableEq Kind] (tombstone : Kind) (ops : List (Op Kind)) (session : Session Kind) : Prop :=
  (∃ events, session.builder.reorder = some events ∧
    events.map Event.unlink = forestEvents session.current ∧
    events.filterMap Event.token? = ops.filterMap Op.token?) ∧
  ∀ tokens, process tombstone session.builder.events tokens = deliver (forestEvents session.current) tokens

end SyntaxTree
