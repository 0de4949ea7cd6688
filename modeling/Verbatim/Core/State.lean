import Verbatim.Core.Queries

namespace Verbatim.Core

def keyAheadBoundMs : Nat := 100

def heldReadBoundMs : Nat := 150

inductive Role where
  | editableText
  | document
  | terminal
  | other
  deriving DecidableEq

def mayHaveText (role : Role) : Bool := role≠.other

structure Focus where
  node : NodeId
  alive : Bool
  role : Role
  deriving DecidableEq

variable {P : Parts}

/-- A key passed to the application that is not held. -/
inductive KeyInput (P : Parts) where
  | caretKey (trace : TraceId) (key : P.Key) (pressedAtMs : Nat)
  | characterTyped (trace : TraceId) (text : P.Typed) (atMs : Nat)
  | clearingKey (trace : TraceId) (atMs : Nat)

def KeyInput.trace : KeyInput P → TraceId
  | .caretKey trace _ _ | .characterTyped trace _ _ | .clearingKey trace _ => trace

/-- A key's press taken as no earlier than `atMs`, when it is known. -/
def KeyInput.pressedNoEarlier (atMs : Nat) : KeyInput P → KeyInput P
  | .caretKey trace key pressed =>
      .caretKey trace key (if pressed=0 then pressed else max pressed atMs)
  | .characterTyped trace text typed =>
      .characterTyped trace text (if typed=0 then typed else max typed atMs)
  | .clearingKey trace cleared =>
      .clearingKey trace (if cleared=0 then cleared else max cleared atMs)

structure Command (P : Parts) where
  trace : TraceId
  pressedAtMs : Nat
  isScript : Bool
  command : P.Command

/-- A key or command waiting behind a held key. -/
inductive WaitingKey (P : Parts) where
  | held (key : HeldKey P)
  | later (input : KeyInput P)
  | command (input : Command P)

namespace WaitingKey

def trace : WaitingKey P → TraceId
  | .held key => key.trace
  | .later input => input.trace
  | .command input => input.trace

def waits : WaitingKey P → Option (TraceId × Nat)
  | .held key => some (key.trace,key.pressedAtMs)
  | .command input => some (input.trace,input.pressedAtMs)
  | .later _ => none

def heldTrace : WaitingKey P → Option TraceId
  | .held key => some key.trace
  | _ => none

end WaitingKey

/-- The keys held back: those waiting, when the last was passed on, the watch waited for, and the
key whose deadline the shell keeps. -/
structure HeldKeys (P : Parts) where
  waiting : List (WaitingKey P) := []
  passedAtMs : Nat := 0
  awaitingWatch : Option QueryId := none
  bounded : Option TraceId := none

/-- What Core's other rules may change. -/
structure View (P : Parts) where
  focus : Option Focus
  caret : Option NodeId
  rest : P.State

structure SrState (P : Parts) where
  view : View P
  queries : Queries (Then P) := {}
  held : HeldKeys P := {}
  exiting : Bool := false

namespace SrState

variable (s : SrState P)

def readingHeld : Option (QueryId × HeldRead P) := s.queries.heldReads.head?

def heldBusy : Bool := s.readingHeld.isSome || !s.held.waiting.isEmpty

def textFocus : Option NodeId :=
  (s.view.focus.filter (·.alive)).bind fun focus =>
    if s.view.caret=some focus.node ∨ mayHaveText focus.role then some focus.node else none

def line : List (WaitingKey P) :=
  (s.readingHeld.map fun reading => .held reading.2.key).toList++s.held.waiting

end SrState

inductive Effect (P : Parts) where
  | request (id : QueryId) (node : NodeId) (op : Op P)
  | withdraw (outpost : OutpostId) (id : QueryId)
  | boundHeldKey (deadline : Option (TraceId × Nat))
  | passHeldKey (trace : TraceId)
  | forKey (trace : TraceId) (effect : Effect P)
  | other (effect : P.Effect)

inductive Reply (P : Parts) where
  | caret (readAtMs : Nat) (caret : P.Caret)
  | snapshot (snapshot : P.Snapshot)
  | gone
  | unanswered
  | other (reply : P.Reply)

inductive Outcome (P : Parts) where
  | text (reply : Reply P)
  | gone
  | other (outcome : P.Outcome)

inductive Ending (P : Parts) where
  | outcome (outcome : Outcome P)
  | reply (reply : Reply P)

def Ending.toReply : Ending P → Reply P
  | .reply answer | .outcome (.text answer) => answer
  | .outcome .gone => .gone
  | .outcome (.other _) => .unanswered

inductive Input (P : Parts) where
  | answered (trace : TraceId) (id : QueryId) (outpost : OutpostId) (outcome : Outcome P)
  | outpostEnded (trace : TraceId) (outpost : OutpostId)
  | command (command : Command P)
  | key (input : KeyInput P)
  | heldKey (key : HeldKey P)
  | heldKeyDue (trace : TraceId)
  | exiting (input : P.Input)
  | other (input : P.Input)

def Input.arrivals : Input P → List (WaitingKey P)
  | .heldKey held => [.held held]
  | .key pressed => [.later pressed]
  | .command pressed => [.command pressed]
  | _ => []

/-- One thing a rule of Core that is not about the held keys does. -/
inductive Act (P : Parts) where
  | change (f : View P → View P)
  | ask (forKey : Option TraceId) (node : NodeId) (op : Op P) (continues : Later P)
  | askMemory (node : NodeId) (continues : Later P)
  | forget (which : Later P → Bool)
  | findMut (which : Later P → Bool) (f : Later P → Later P)
  | forgetMemory (ids : List QueryId)
  | emit (effect : P.Effect)

/-- One thing a terminal model's answer does: it may answer a query Core answers itself. -/
inductive Turn (P : Parts) where
  | act (act : Act P)
  | answer (trace : TraceId) (id : QueryId) (reply : Reply P)

/-- Core's other rules, by what they do in a state. -/
structure Handlers (P : Parts) where
  event : SrState P → P.Input → List (Act P)
  exiting : SrState P → P.Input → List (Act P)
  outpostEnded : SrState P → OutpostId → List (Act P)
  command : SrState P → Command P → List (Act P)
  key : SrState P → KeyInput P → List (Act P)
  terminalKey : SrState P → P.Key → Nat → TraceId → List (Act P)
  beforeCaretKey : SrState P → P.Key → Nat → List (Act P)
  caretWatch : SrState P → P.Key → Nat → P.Watch × P.Pending
  followCaret : NodeId → View P → View P
  updateCaret : NodeId → P.Caret → Nat → View P → View P
  beforeKey : SrState P → TraceId → NodeId → P.Snapshot → List (Act P)
  snapshotCaret : P.Snapshot → Option (Nat × P.Caret)
  continued : SrState P → TraceId → Later P → Ending P → List (Act P)
  terminalModel : SrState P → TraceId → P.Ask → Ending P → List (Turn P)
  record : Input P → View P → View P
  settle : View P → Input P → View P → View P
  answers : View P → NodeId → P.Review → Bool
  queue : SrState P → NodeId → Option TraceId → QueryId → P.Review → List (Act P)
  cut : SrState P → List (Effect P) → List (Act P)
  stamp : View P → Input P → Option TraceId → P.Effect → P.Effect
  traceOf : P.Input → Option TraceId
  askedUnder : P.Input → Option TraceId

end Verbatim.Core
