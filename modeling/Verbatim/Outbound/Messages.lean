import Verbatim.Outbound.Merge
import Verbatim.Core.Queries

namespace Verbatim.Outbound

open Verbatim.Core (NodeId)

structure SelectionChange where
  selected : Bool
  text : String
  characters : Nat
  deriving DecidableEq

/-- A property that changed, with what the queue never looks into as `D`. -/
inductive PropertyChange (D : Type) where
  | name (data : D)
  | value (data : D)
  | states (data : D)
  | description (data : D)
  | suggestions (data : D)
  deriving DecidableEq

inductive PropertyKind where
  | name
  | value
  | states
  | description
  | suggestions
  deriving DecidableEq

def PropertyChange.kind {D : Type} : PropertyChange D → PropertyKind
  | .name _ => .name
  | .value _ => .value
  | .states _ => .states
  | .description _ => .description
  | .suggestions _ => .suggestions

/-- An outpost's event. A node's snapshot is its number and `D`. -/
inductive NormalizedEvent (D : Type) where
  | focusChanged (node : NodeId) (wholeWindow : Bool) (data : D)
  | propertyChanged (node : NodeId) (change : PropertyChange D) (data : D)
  | valueChanged (node : NodeId) (data : D)
  | selectionChanged (node : NodeId) (data : D)
  | progressChanged (bar : NodeId) (data : D)
  | controlledSelection (controller node : NodeId) (data : D)
  | notification (node : NodeId) (data : D)
  | alert (node : NodeId) (data : D)
  | caretMoved (node : NodeId) (caret : D) (selectionChanges : List SelectionChange)
      (contentChanged : Bool) (newSelection : Option SelectionChange)
  | textChanged (node : NodeId)
  | terminalSnapshot (node : NodeId) (data : D)
  | activeTextPositionChanged (node : NodeId) (data : D)
  deriving DecidableEq

inductive EventKind where
  | focusChanged
  | propertyChanged
  | valueChanged
  | selectionChanged
  | progressChanged
  | controlledSelection
  | alert
  | caretMoved
  | textChanged
  | activeTextPositionChanged
  deriving DecidableEq

/-- What an outpost sends Core. An event's header (its trace, times, backend, window and
application) is `D`, and of a reply's outcome only whether it is done is looked at. -/
inductive OutpostToCore (D : Type) where
  | ready (data : D)
  | event (header : D) (event : NormalizedEvent D)
  | reply (done : Bool) (data : D)
  | pong (data : D)
  | notResponding (window : Int)
  | fault (detail : String)
  | targetExited
  | spareReady (data : D)
  | idleAnswer (round : Nat)
  deriving DecidableEq

inductive Detail where
  | none
  | property (kind : PropertyKind)
  | foreground (whole : Bool)
  deriving DecidableEq

/-- What two events must share to be merged. -/
structure EventKey where
  node : NodeId
  kind : EventKind
  detail : Detail
  deriving DecidableEq

variable {D : Type}

def eventKey : NormalizedEvent D → Option EventKey
  | .focusChanged node wholeWindow _ => some ⟨node,.focusChanged,.foreground wholeWindow⟩
  | .propertyChanged node change _ => some ⟨node,.propertyChanged,.property change.kind⟩
  | .valueChanged node _ => some ⟨node,.valueChanged,.none⟩
  | .selectionChanged node _ => some ⟨node,.selectionChanged,.none⟩
  | .progressChanged bar _ => some ⟨bar,.progressChanged,.none⟩
  | .controlledSelection _ node _ => some ⟨node,.controlledSelection,.none⟩
  | .alert node _ => some ⟨node,.alert,.none⟩
  | .caretMoved node _ _ _ _ => some ⟨node,.caretMoved,.none⟩
  | .textChanged node => some ⟨node,.textChanged,.none⟩
  | .activeTextPositionChanged node _ => some ⟨node,.activeTextPositionChanged,.none⟩
  | .notification _ _ | .terminalSnapshot _ _ => none

namespace OutpostToCore

def mergeKey : OutpostToCore D → Option EventKey
  | .event _ what => eventKey what
  | _ => none

def barrier : OutpostToCore D → Barrier
  | .idleAnswer _ => .all
  | .reply _ _ => .reply
  | _ => .none

def selectionChanges : OutpostToCore D → List SelectionChange
  | .event _ (.caretMoved _ _ changes _ _) => changes
  | _ => []

def carriesSelectionChanges (message : OutpostToCore D) : Bool := !message.selectionChanges.isEmpty

def contentChanged : OutpostToCore D → Bool
  | .event _ (.caretMoved _ _ _ inGeneral _) => inGeneral
  | _ => false

def mayMerge (older newer : OutpostToCore D) (crossed : Barrier) : Bool :=
  !(older.carriesSelectionChanges &&
    (decide (Barrier.reply.rank≤crossed.rank) || older.contentChanged || newer.contentChanged))

def merged : OutpostToCore D → OutpostToCore D → OutpostToCore D
  | .event _ (.caretMoved _ _ waiting _ _),
      .event header (.caretMoved node caret changes inGeneral newSelection) =>
      .event header (.caretMoved node caret (waiting++changes) inGeneral newSelection)
  | _,newer => newer

/-- Whether the message carries node numbers, and is counted by its position. -/
def carriesNodes : OutpostToCore D → Bool
  | .event _ _ => true
  | .reply done _ => done
  | _ => false

instance : Merge (OutpostToCore D) EventKey where
  mergeKey := mergeKey
  barrier := barrier
  mayMerge := mayMerge
  merged := merged

end OutpostToCore

/-- What goes ahead of everything waiting. -/
inductive Urgent (D : Type) where
  | pong (data : D)
  | ready (data : D)
  | targetExited
  | spareReady (data : D)
  deriving DecidableEq

def Urgent.message : Urgent D → OutpostToCore D
  | .pong data => .pong data
  | .ready data => .ready data
  | .targetExited => .targetExited
  | .spareReady data => .spareReady data

end Verbatim.Outbound
