import Verbatim.Outpost.Watch

namespace Verbatim.Outpost

open ReaderRules

abbrev StateSet := Nat

/-- A node of a report's line, with the states it was read with. -/
structure HeldNode where
  id : NodeId
  states : StateSet
  deriving DecidableEq

/-- What a program read of whether a focus's top-level window was in front. -/
inductive InFront where
  | foreground (window : Option Window)
  | read (window : Option Window)
  deriving DecidableEq

/-- What a UIA focus's reader read of the element it held before under its node. -/
inductive EarlierElement where
  | focused
  | notFocused
  | gone
  deriving DecidableEq

/-- What a new report's own evidence says of whether it repeats the newest report. -/
inductive Evidence where
  | uia (earlier : Option EarlierElement)
  | msaa
  deriving DecidableEq

structure Focus where
  node : HeldNode
  ancestors : List HeldNode
  topLevel : Option Window
  inFront : InFront
  enteredInFront : Option Window
  event : Option (Int × Int × Int)
  simpleChild : Bool
  deriving DecidableEq

namespace Focus

def chainIds (focus : Focus) : List NodeId := (focus.ancestors++[focus.node]).map (·.id)

def sameLine (focus other : Focus) : Bool :=
  focus.node.id=other.node.id && focus.chainIds=other.chainIds

end Focus

/-- The reports whose focus node this outpost has not released, oldest first, and the states the
outpost last read of a focus. -/
structure Held where
  reports : List Focus := []
  statesRead : Option (NodeId × StateSet) := none
  deriving DecidableEq

namespace Held

variable (held : Held)

def expected : Option Focus := held.reports.getLast?

def newestIn (topLevel : Option Window) : Option Focus :=
  topLevel.bind fun top => held.reports.reverse.find? fun report => report.topLevel=some top

variable (focus : Focus)

def enteredInFront : Option Window :=
  match focus.inFront with
  | .foreground window => window
  | .read read => (held.newestIn focus.topLevel).elim read (·.enteredInFront)

def repeatsNewest (evidence : Evidence) : Bool :=
  match held.expected with
  | none => false
  | some newest =>
      newest.node.id=focus.node.id && match evidence with
        | .uia earlier => earlier=none || earlier=some .focused
        | .msaa => focus.event.isSome && newest.event=focus.event && !focus.simpleChild

def reported (evidence : Evidence) : Held :=
  let focus := {focus with enteredInFront := held.enteredInFront focus}
  { reports := held.reports.filter (fun report => !report.sameLine focus)++[focus]
    statesRead :=
      if held.repeatsNewest focus evidence then held.statesRead
      else some (focus.node.id,focus.node.states)}

def release (released : List NodeId) : Held :=
  { reports := held.reports.filter (fun report => report.node.id∉released)
    statesRead := held.statesRead.filter (fun read => read.1∉released)}

def isAFocus (node : NodeId) : Bool :=
  held.reports.any fun focus => focus.node.id=node

def replaceStates (node : NodeId) (states : StateSet) : Held :=
  if held.isAFocus node then {held with statesRead := some (node,states)} else held

end Held

end Verbatim.Outpost
