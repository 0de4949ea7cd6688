import Verbatim.Outpost.Intake

namespace Verbatim.Outpost

open Framework

def boundUs : Nat := 1000000

/-- What the worker's drop of a copy because its window is UIA did. -/
inductive CopyDropped where
  | answered
  | readNow
  | opened (dueUs : Nat)
  | restamped
  deriving DecidableEq

structure AtBound where
  topLevel : Int
  stampUs : Nat
  trace : TraceId
  awaits : Awaits
  deriving DecidableEq

namespace GapRecord

variable (gap : GapRecord)

def isOpen : Bool := gap.opened.isSome

def pending : Bool := gap.opened.any fun record => record.bound≠.passed

def dueUs : Option Nat := gap.opened.map (·.dueUs)

def waitingDueUs : Option Nat :=
  (gap.opened.filter fun record => record.bound=.waiting).map (·.dueUs)

/-- The open record at its bound, whose bound is now being handled. -/
def atBound : GapRecord × Option AtBound :=
  match gap.opened.filter (fun record => record.bound=.waiting) with
  | none => (gap,none)
  | some record =>
      ({gap with opened := some {record with bound := .queued}},
        some ⟨record.topLevel,record.stampUs,record.trace,record.awaits⟩)

def boundPassed : GapRecord :=
  {gap with opened := gap.opened.map (fun record => {record with bound := .passed})}

def close : GapRecord := {gap with opened := none}

variable (window topLevel : Int)

def openAt (atUs : Nat) (trace : TraceId) (awaits : Awaits) : GapRecord :=
  {gap with
    opened := some ⟨window,topLevel,atUs,trace,satAdd atUs boundUs,.waiting,gap.bounds+1,awaits⟩
    bounds := gap.bounds+1}

/-- What a copy does with no record open. -/
def lookBack (atUs : Nat) (trace : TraceId) : GapRecord × CopyDropped :=
  if ((gap.reported.find? fun row => row.1=topLevel).any fun row => answers row.2 atUs) then
    (gap,.answered)
  else if gap.lastNoWindowUs.any (fun noWindowUs => answers noWindowUs atUs) then (gap,.readNow)
  else (gap.openAt window topLevel atUs trace .focus,.opened (satAdd atUs boundUs))

def restamp (record : GapOpen) (window : Int) (atUs : Nat) (trace : TraceId) :
    GapRecord × CopyDropped :=
  if record.bound=.passed then
    -- A record whose bound has passed waits for no timer, so the copy arms its own.
    (gap.openAt window record.topLevel atUs trace .focus,.opened (satAdd atUs boundUs))
  else
    ({gap with
      opened := some {record with window, stampUs := atUs, trace, awaits := .focus}},.restamped)

/-- The worker dropped a copy in `window`, observed at `atUs`, because it judges the window UIA. -/
def copyDropped (atUs : Nat) (trace : TraceId) : GapRecord × CopyDropped :=
  match gap.opened with
  | none => gap.lookBack window topLevel atUs trace
  | some record =>
      if atUs≤record.stampUs then (gap,.answered)
      else if record.topLevel=topLevel then gap.restamp record window atUs trace
      else gap.close.lookBack window topLevel atUs trace

def foreground (window : Int) (atUs : Nat) (trace : TraceId) (awaits : Awaits) :
    GapRecord :=
  match gap.opened with
  | none => gap.openAt window window atUs trace awaits
  | some record =>
      if atUs≤record.stampUs then gap
      else if record.topLevel=window ∧ record.awaits=.focus then
        gap.openAt window window atUs trace .focus
      else gap.openAt window window atUs trace awaits

def noteReport (reported : List (Int × Nat)) (topLevel : Int) (atUs : Nat) : List (Int × Nat) :=
  if reported.any (fun row => row.1=topLevel) then
    reported.map (fun row => if row.1=topLevel then (topLevel,max row.2 atUs) else row)
  else reported++[(topLevel,atUs)]

def closes (record : GapOpen) (topLevel : Option Int) (atUs : Nat) (wholeWindow : Bool) : Bool :=
  if topLevel=some record.topLevel then
    answers atUs record.stampUs && (!wholeWindow || record.awaits=.title)
  else record.stampUs<atUs

/-- The outpost sent Core a focus: kept for the look-back unless a whole-window focus, and closing
the open record it answers. -/
def report (topLevel : Option Int) (atUs : Nat) (wholeWindow : Bool) :
    GapRecord :=
  let gap := match topLevel with
    | some topLevel =>
        if wholeWindow then gap
        else {gap with reported := noteReport gap.reported topLevel atUs}
    | none => gap
  {gap with opened := gap.opened.filter (fun record => !closes record topLevel atUs wholeWindow)}

/-- The entry of bound number `bound` is handled: the record still open with that bound, passed,
is to be read. -/
def boundReached (bound nowUs : Nat) : GapRecord × Except Nat (Option GapRead) :=
  match gap.opened with
  | none => (gap,.ok none)
  | some record =>
      if record.boundNumber≠bound then (gap,.ok none)
      else if record.bound=.passed then (gap,.ok none)
      else if nowUs<record.dueUs then
        ({gap with opened := some {record with bound := .waiting}},.error record.dueUs)
      else
        ({gap with opened := some {record with bound := .passed}},
          .ok (some ⟨record.window,record.stampUs⟩))

def windowDestroyed (hwnd : Int) : GapRecord :=
  {gap with reported := gap.reported.filter (fun row => row.1≠hwnd)}

end GapRecord

end Verbatim.Outpost
