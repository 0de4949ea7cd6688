import Verbatim.Outpost.Watch

namespace Verbatim.Outpost

section Tables

variable {K V : Type} [DecidableEq K] (table : List (K × V))

def lookup (key : K) : Option V :=
  (table.find? fun row => row.1=key).map (·.2)

def insert (key : K) (value : V) : List (K × V) :=
  if table.any (fun row => row.1=key) then
    table.map (fun row => if row.1=key then (key,value) else row)
  else table++[(key,value)]

def forgetKey (key : K) : List (K × V) := table.filter fun row => row.1≠key

end Tables

abbrev RangeKey := Nat

/-- An anchor's position and the text of the chunk it started. -/
structure Anchor (P : Type) where
  pos : P
  text : String
  deriving DecidableEq

/-- A caret position as Core is told it: an anchor and an offset in its chunk. -/
structure TextPosition where
  anchor : Nat
  offset : Nat
  deriving DecidableEq

structure CaretSeen (P : Type) where
  readAtMs : Nat
  caret : TextPosition
  selection : Option (P × P)
  report : Nat
  deriving DecidableEq

/-- The selection of a caret report, as the next report compares with it. -/
structure KeptSelection (P : Type) where
  ends : P × P
  collapsed : Bool
  text : Option (List Nat)
  report : Nat
  deriving DecidableEq

/-- The anchors minted for one node, and the positions the outpost reported in its text, with the
caret reports it remembers. -/
structure NodeAnchors (P : Type) where
  anchors : List (Nat × Anchor P) := []
  reported : List ((Nat × Nat) × P) := []
  carets : List (CaretSeen P) := []
  reports : Nat := 0
  selection : Option (KeptSelection P) := none
  contentChanged : Bool := false
  deriving DecidableEq

namespace NodeAnchors

variable {P : Type} (node : NodeAnchors P)

def positions : List P :=
  node.anchors.map (·.2.pos)++node.reported.map (·.2) ++
    node.carets.flatMap (fun seen => seen.selection.toList.flatMap fun ends => [ends.1,ends.2]) ++
    node.selection.toList.flatMap fun selection => [selection.ends.1,selection.ends.2]

/-- Whether an anchor of a part that held `copied` when it was copied is still to be taken in. -/
def takesIn (anchors : List (Nat × Anchor P)) (copied : List Nat) (number : Nat) : Bool :=
  number∉copied || (lookup anchors number).isSome

/-- Takes in `part`, what a text call left of the part it copied. -/
def put (node part : NodeAnchors P) (copied : List Nat) : NodeAnchors P :=
  let anchors := part.anchors.foldl (fun anchors row =>
    if takesIn anchors copied row.1 then insert anchors row.1 row.2 else anchors) node.anchors
  { anchors
    reported := part.reported.foldl (fun reported row =>
      if takesIn anchors copied row.1.1 then insert reported row.1 row.2 else reported)
      node.reported
    carets := part.carets
    reports := part.reports
    selection := part.selection
    contentChanged := part.contentChanged}

def forgetAnchors (forgotten : List Nat) : NodeAnchors P :=
  {node with
    anchors := node.anchors.filter (fun row => row.1∉forgotten)
    reported := node.reported.filter (fun row => row.1.1∉forgotten)}

def holdsAny (anchors : List Nat) : Bool :=
  node.anchors.any fun row => row.1∈anchors

/-- What a release of `anchors` leaves of the node's. -/
def released (anchors : List Nat) : NodeAnchors P :=
  if node.holdsAny anchors then node.forgetAnchors anchors else node

end NodeAnchors

/-- One change of a node's text facts, as a program's text call makes it. -/
inductive TextChange where
  | uia (node : Nat) (part : NodeAnchors RangeKey) (copied : List Nat)
  | edit (node : Nat) (part : NodeAnchors Nat) (copied : List Nat)
  | forgetSelection (node : Nat) (uia : Bool)
  | contentChanged (node : Nat)
  | contentCounted (node : Nat)
  | forget (node : Nat)
  deriving DecidableEq

def TextChange.node : TextChange → Nat
  | .uia node _ _ | .edit node _ _ | .forgetSelection node _ | .contentChanged node
  | .contentCounted node | .forget node => node

/-- Every node's text facts, through UIA and through edit controls' messages. -/
structure TextFacts where
  uia : List (Nat × NodeAnchors RangeKey) := []
  edit : List (Nat × NodeAnchors Nat) := []
  deriving DecidableEq

namespace TextFacts

def keys (anchors : Option (NodeAnchors RangeKey)) : List RangeKey :=
  anchors.toList.flatMap NodeAnchors.positions

/-- The keys of `named` that `after` lacks, each once, lowest first. -/
def difference (named after : List RangeKey) : List RangeKey :=
  ((named.filter fun key => key∉after).dedup).mergeSort fun a b => a≤b

def changed (facts : TextFacts) (change : TextChange) : TextFacts :=
  let node := change.node
  match change with
  | .uia _ part copied =>
      {facts with uia := insert facts.uia node (((lookup facts.uia node).getD {}).put part copied)}
  | .edit _ part copied =>
      {facts with
        edit := insert facts.edit node (((lookup facts.edit node).getD {}).put part copied)}
  | .forgetSelection _ true =>
      match lookup facts.uia node with
      | some anchors => {facts with uia := insert facts.uia node {anchors with selection := none}}
      | none => facts
  | .forgetSelection _ false =>
      match lookup facts.edit node with
      | some anchors =>
          {facts with edit := insert facts.edit node {anchors with selection := none}}
      | none => facts
  | .contentChanged _ =>
      {facts with
        edit := insert facts.edit node
          {(lookup facts.edit node).getD {} with contentChanged := true}}
  | .contentCounted _ =>
      match lookup facts.edit node with
      | some anchors =>
          if anchors.selection.isSome then
            {facts with edit := insert facts.edit node {anchors with contentChanged := false}}
          else facts
      | none => facts
  | .forget _ => ⟨forgetKey facts.uia node,forgetKey facts.edit node⟩

def apply (facts : TextFacts) (change : TextChange) : TextFacts × List (Nat × RangeKey) :=
  let node := change.node
  let before := keys (lookup facts.uia node)
  let named := match change with
    | .uia _ part _ => before++part.positions
    | _ => before
  let after := facts.changed change
  (after,(difference named (keys (lookup after.uia node))).map fun key => (node,key))

def applyAll (facts : TextFacts) : List TextChange → TextFacts × List (Nat × RangeKey)
  | [] => (facts,[])
  | change::changes =>
      let (facts,ranges) := facts.apply change
      let (facts,rest) := facts.applyAll changes
      (facts,ranges++rest)

/-- Forgets the nodes `nodes` and the anchors `anchors` a release freed: the facts after it, and
the UIA ranges of the anchors no fact names any more. -/
def release (facts : TextFacts) (nodes anchors : List Nat) : TextFacts × List (Nat × RangeKey) :=
  let uia := facts.uia.filter fun row => row.1∉nodes
  let edit := facts.edit.filter (fun row => row.1∉nodes)
  if anchors.isEmpty then (⟨uia,edit⟩,[])
  else
    (⟨uia.map fun row => (row.1,row.2.released anchors),
        edit.map fun row => (row.1,row.2.released anchors)⟩,
      uia.flatMap fun row =>
        if row.2.holdsAny anchors then
          (difference row.2.positions (row.2.released anchors).positions).map
            (fun key => (row.1,key))
        else [])

end TextFacts

end Verbatim.Outpost
