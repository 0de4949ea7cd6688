import Verbatim.Outpost.Held
import Verbatim.Outpost.Intake
import Verbatim.Outpost.Text

namespace Verbatim.Outpost

open ReaderRules

abbrev Role := Nat

abbrev NodeSnapshot := Nat

/-- The focus-following subscription's event handler groups. -/
inductive Group where
  | base
  | extended
  | extendedWithoutTextEvents
  deriving DecidableEq

abbrev DialogMemo := Option (NodeId × Option String)

/-- What the outpost remembers of the focus it follows. -/
structure Tracking where
  role : Option Role := none
  batch : Option Nat := none
  chain : List NodeSnapshot := []
  window : Option Int := none
  focus : Option NodeId := none
  focusRole : Option Role := none
  dialog : DialogMemo := none
  valueFromSelection : Option NodeId := none
  deriving DecidableEq

/-- The work a followed focus owes: a terminal's first read, with the caret its report read, or a
slider's lookup. -/
inductive OwedWork where
  | firstRead (caret : Option Nat)
  | slider
  deriving DecidableEq

/-- What the followed focus still needs after the commit that made it followed. -/
structure Owed where
  node : NodeId
  work : OwedWork
  trace : TraceId
  observedAtUs : Nat
  attempting : Option Nat
  deriving DecidableEq

/-- The raw-view chain of the UIA focus the outpost last reported. -/
structure FocusPath where
  chain : List (List Int × Option Window)
  cut : Bool
  deriving DecidableEq

/-- Where the focus-following subscription is to be moved for a focus. -/
structure Target where
  wanted : Option (NodeId × Group × Option NodeId) := none
  element : Option Nat := none
  slider : Option Nat := none
  deriving DecidableEq

structure Follow where
  node : NodeId
  role : Role
  object : Option Object
  window : Option Int
  chain : List NodeSnapshot
  batch : Nat
  redirected : Bool
  terminal : Bool
  console : Bool
  target : Target
  owed : Option OwedWork
  trace : TraceId
  observedAtUs : Nat
  adopt : Bool
  deriving DecidableEq

/-- A change of the caret key's watch, a program's commit. -/
inductive WatchChange where
  | opens (opened : OpenWatch) (console : Bool)
  | take (node : NodeId)
  | checked (found : Checked)
  deriving DecidableEq

/-- The report to record among those the outpost reads changes for. -/
inductive Report where
  | reported (focus : Focus) (evidence : Evidence)
  | answered (focus : Focus)
  deriving DecidableEq

/-- A program's judgement the gap record takes. -/
inductive GapNote where
  | copyDropped (window topLevel : Int) (atUs : Nat) (trace : TraceId)
  | windowDestroyed (hwnd : Int)
  deriving DecidableEq

inductive Found where
  | hung
  | answered
  deriving DecidableEq

/-- What a query's reply says of it. `focus` is a focus-now answer: its control's top-level window,
when it has a control and the window is known, and when its read began. -/
inductive QueryResult where
  | text (reply : TextReply)
  | shellItems
  | shellItemPosition
  | focus (control : Option (Option Int)) (observedAtUs : Nat)
  | other (result : Nat)
  deriving DecidableEq

inductive QueryOutcome where
  | done (result : QueryResult)
  | failed (why : String)
  | notStarted
  | abandoned
  deriving DecidableEq

/-- A message to Core: a focus event with its top-level window, a reply, an idle answer, a hung
window, or another event. -/
inductive OutpostToCore where
  | focusChanged (topLevel : Option Int) (observedAtUs : Nat) (wholeWindow : Bool)
  | event (event : Nat)
  | reply (traceId : TraceId) (requestId : RequestId) (outcome : QueryOutcome)
      (timing : EventTiming)
  | idleAnswer (round : Nat)
  | notResponding (window : Window)
  deriving DecidableEq

structure Change where
  result : Option OutpostToCore := none
  report : Option Report := none
  follow : Option Follow := none
  foreground : Option (NodeId × Role × Nat) := none
  dialog : Option DialogMemo := none
  valueFromSelection : Option (Option NodeId) := none
  focusPath : Option FocusPath := none
  element : Option (NodeId × Target) := none
  owedDone : Option NodeId := none
  caretRead : Option (NodeId × Nat) := none
  watch : Option WatchChange := none
  dropSystemCaret : Bool := false
  absorb : Option Int := none
  clearRedirect : Bool := false
  states : Option (NodeId × StateSet) := none
  gap : List GapNote := []
  notedCaret : Option (NodeId × TraceId × Nat) := none
  replaced : Option NodeId := none
  text : List TextChange := []
  found : Option (Window × Found) := none
  deriving DecidableEq

structure FollowState where
  tracking : Tracking := {}
  followed : Option (NodeId × Group × Option NodeId) := none
  followedElement : Option Nat := none
  followedSlider : Option Nat := none
  keptGroups : List (NodeId × Group × Nat) := []
  watch : Watch := .none
  caretRead : Option (NodeId × Nat) := none
  focusPath : Option FocusPath := none
  owed : Option Owed := none
  deriving DecidableEq

/-- The marks of the focus last reported: what the intake reads, whether the focus was reached by
a redirect, the console window whose updates are dropped, and whether the system caret's events
are. -/
structure FocusMarks extends Marks where
  focusRedirected : Bool
  absorbed : Option Int
  systemCaretUnused : Bool
  deriving DecidableEq

def FocusMarks.none : FocusMarks := ⟨⟨Option.none,.none⟩,false,Option.none,false⟩

/-- What a program is given a copy of. -/
structure Facts where
  held : Held := {}
  follow : FollowState := {}
  marks : FocusMarks := .none
  text : TextFacts := {}
  deriving DecidableEq

/-- Where the subscription is to follow, by token. -/
structure Subscription where
  newest : Option (Nat × Group)
  slider : Option Nat
  kept : List (Nat × Group)
  deriving DecidableEq

/-- What applying a commit asks of the shell besides the follow state itself. -/
structure Applied where
  taken : Option OpenWatch := none
  opened : Bool := false
  resumed : Bool := false
  answers : List Answer := []
  subscribe : Option Subscription := none
  unfollowed : List Nat := []
  ranges : List (Nat × RangeKey) := []
  deriving DecidableEq

namespace FollowState

variable (follow : FollowState)

def endWatchElsewhere (node : NodeId) (applied : Applied) : FollowState × Applied :=
  if follow.watch.openWatch.any (fun opened => opened.nodeId≠node) then
    ({follow with watch := (follow.watch.finish "the focus moved").1},
      {applied with
        answers := applied.answers++(follow.watch.finish "the focus moved").2.toList})
  else (follow,applied)

def follows (token : Nat) : Bool :=
  follow.followedElement=some token || follow.followedSlider=some token ||
    follow.keptGroups.any fun kept => kept.2.2=token

def unfollow (tokens : List Nat) (applied : Applied) : Applied :=
  {applied with
    unfollowed := tokens.foldl (fun unfollowed token =>
      if !follow.follows token && token∉unfollowed then unfollowed++[token] else unfollowed)
      applied.unfollowed}

def subscription : Subscription :=
  let newest := match follow.followed,follow.followedElement with
    | some (_,group,_),some element => some (element,group)
    | _,_ => none
  { newest
    slider := follow.followedSlider.filter (fun _ => newest.isSome)
    kept := follow.keptGroups.map (fun kept => (kept.2.2,kept.2.1))}

/-- Keeps `group` on `element`, the element of `node`: the groups kept, and the element whose place
it took. -/
def keepGroup : List (NodeId × Group × Nat) → NodeId → Group → Nat →
    List (NodeId × Group × Nat) × Option Nat
  | [],node,group,element => ([(node,group,element)],none)
  | kept::rest,node,group,element =>
      if kept.1=node then ((node,group,element)::rest,some kept.2.2)
      else
        let (rest,replaced) := keepGroup rest node group element
        (kept::rest,replaced)

variable (target : Target)

def isAt : Bool :=
  follow.followed=target.wanted && follow.followedElement=target.element &&
    follow.followedSlider=target.slider

/-- Moves the subscription's newest focus to `target`: the focus it followed before keeps its group
on its element. -/
def moveTo (applied : Applied) : FollowState × Applied :=
  let (kept,replaced) := match follow.followed,follow.followedElement with
    | some (node,group,_),some element => keepGroup follow.keptGroups node group element
    | _,_ => (follow.keptGroups,none)
  -- The newest focus's element is followed as the newest, not kept.
  let isNewest := fun row : NodeId × Group × Nat =>
    target.wanted.any fun wanted => row.1=wanted.1
  let dropped := follow.followedSlider.toList++replaced.toList++(kept.filter isNewest).map (·.2.2)
  let follow := {follow with
    followed := target.wanted
    followedElement := target.element
    followedSlider := target.slider
    keptGroups := kept.filter (fun row => !isNewest row)}
  (follow,{follow.unfollow dropped applied with subscribe := some follow.subscription})

def retarget (applied : Applied) : FollowState × Applied :=
  if follow.isAt target then (follow,applied) else follow.moveTo target applied

def releaseGroups (released : List NodeId) (applied : Applied) : FollowState × Applied :=
  let freed := (follow.keptGroups.filter fun row => row.1∈released).map (·.2.2)
  let kept := follow.keptGroups.filter fun row => row.1∉released
  let (follow,dropped) :=
    if follow.followed.any (fun followed => followed.1∈released) then
      ({follow with
          keptGroups := kept, followed := none, followedElement := none, followedSlider := none},
        freed++follow.followedElement.toList++follow.followedSlider.toList)
    else ({follow with keptGroups := kept},freed)
  if dropped.isEmpty then (follow,applied)
  else (follow,{follow.unfollow dropped applied with subscribe := some follow.subscription})

end FollowState

def windowOf (handle : Int) : Option Window := if h : handle≠0 then some ⟨handle,h⟩ else none

def TerminalMark.of : Option Window → TerminalMark
  | some window => .within window
  | .none => .windowUnknown

/-- The marks of a focus becoming the followed one, in one go. -/
def Follow.marks (follow : Follow) : FocusMarks :=
  { focused := follow.object
    terminal := if follow.terminal then .of (follow.window.bind windowOf) else .none
    focusRedirected := follow.redirected
    absorbed := none
    systemCaretUnused := follow.terminal && follow.console}

variable (follow : FollowState)

def applyReplaced (replaced : Option NodeId) (applied : Applied) : FollowState × Applied :=
  match replaced with
  | some node =>
      if follow.watch.openWatch.any (fun opened => opened.nodeId=node) then
        ({follow with watch := (follow.watch.finish "the focus's element was replaced").1},
          {applied with
            answers := applied.answers ++
              (follow.watch.finish "the focus's element was replaced").2.toList})
      else (follow,applied)
  | none => (follow,applied)

variable (facts : Facts)

def adopt (follow : Follow) (applied : Applied) : Facts × Applied :=
  let (state,applied) := facts.follow.endWatchElsewhere follow.node applied
  ({facts with
      marks := follow.marks
      follow := {state with
        tracking := {state.tracking with
          role := some follow.role
          focus := some follow.node
          focusRole := some follow.role
          window := follow.window
          chain := follow.chain
          batch := some follow.batch}}},applied)

def applyFollow (change : Option Follow) (applied : Applied) : Facts × Applied :=
  match change with
  | none => (facts,applied)
  | some follow =>
      let (facts,applied) := if follow.adopt then adopt facts follow applied else (facts,applied)
      let (state,applied) := facts.follow.retarget follow.target applied
      ({facts with
        follow := {state with
          owed := follow.owed.map (fun work =>
            ⟨follow.node,work,follow.trace,follow.observedAtUs,none⟩)}},applied)

def applyForeground (change : Option (NodeId × Role × Nat))
    (applied : Applied) : FollowState × Applied :=
  match change with
  | none => (follow,applied)
  | some (node,role,batch) =>
      let (follow,applied) := follow.endWatchElsewhere node applied
      ({follow with tracking := {follow.tracking with role := some role, batch := some batch}},
        applied)

/-- A focus's element found after its report: the subscription is moved to it only while its node
is the followed focus. -/
def applyElement (change : Option (NodeId × Target)) (applied : Applied) : FollowState × Applied :=
  match change with
  | none => (follow,applied)
  | some (node,target) =>
      if follow.tracking.focus=some node then follow.retarget target applied
      else (follow,follow.unfollow (target.element.toList++target.slider.toList) applied)

variable (generation : Nat)

def applyOwedDone (done : Option NodeId) : FollowState :=
  match done with
  | some node =>
      if follow.owed.any (fun owed => owed.node=node && owed.attempting=some generation) then
        {follow with owed := none}
      else follow
  | none => follow

/-- Applies a commit's change of the caret key's watch by `clock`. -/
def applyWatch (watch : Watch) (change : Option WatchChange) (clock : Clock) (applied : Applied) :
    Watch × Applied :=
  match change with
  | none => (watch,applied)
  | some (.opens opened console) =>
      let (watch,isOpened) := watch.opened opened console clock
      (watch,{applied with opened := isOpened})
  | some (.take node) =>
      let (watch,taken) := watch.take node
      (watch,{applied with taken})
  | some (.checked found) =>
      match watch.checked found clock with
      | (watch,some answer) =>
          (watch,{applied with
            resumed := answer.isNone && match found with
              | .watching _ => true
              | .answered _ _ _ => false
            answers := applied.answers++answer.toList})
      | (watch,none) => (watch,applied)

variable (change : Change)

/-- The part of a commit before its watch change: it reads no clock. -/
def applyBefore : Facts × Applied :=
  let (text,ranges) := facts.text.applyAll change.text
  let (follow,applied) := applyReplaced facts.follow change.replaced {ranges}
  let follow := {follow with
    tracking := {follow.tracking with dialog := change.dialog.getD follow.tracking.dialog}}
  let (facts,applied) := applyFollow {facts with text, follow} change.follow applied
  let follow := {facts.follow with
    focusPath := change.focusPath.or facts.follow.focusPath
    tracking := {facts.follow.tracking with
      valueFromSelection :=
        change.valueFromSelection.getD facts.follow.tracking.valueFromSelection}}
  let (follow,applied) := applyForeground follow change.foreground applied
  let (follow,applied) := applyElement follow change.element applied
  let follow := applyOwedDone follow generation change.owedDone
  let follow := {follow with caretRead := change.caretRead.or follow.caretRead}
  let marks := {facts.marks with
    systemCaretUnused := change.dropSystemCaret || facts.marks.systemCaretUnused
    absorbed := change.absorb.or facts.marks.absorbed
    focusRedirected := !change.clearRedirect && facts.marks.focusRedirected}
  let held := change.states.elim facts.held (fun read => facts.held.replaceStates read.1 read.2)
  ({facts with held, follow, marks},applied)

/-- Applies the pure part of a commit of `generation`'s but for its report and messages, by
`clock`. -/
def apply (clock : Clock) : Facts × Applied :=
  let (facts,applied) := applyBefore facts generation change
  let (watch,applied) := applyWatch facts.follow.watch change.watch clock applied
  ({facts with follow := {facts.follow with watch}},applied)

/-- A focus-now answer's control as the outpost records it, given the newest report. -/
def answerToJudge (before : Option Focus) (answered : Focus) : Focus :=
  match before.filter (fun before => before.node.id=answered.node.id) with
  | some before => {answered with event := before.event, simpleChild := before.simpleChild}
  | none => answered

def record (held : Held) : Report → Held
  | .reported focus evidence => held.reported focus evidence
  | .answered focus => held.reported (answerToJudge held.expected focus) (.uia none)

def recorded : Facts :=
  {facts with held := change.report.elim facts.held (record facts.held)}

end Verbatim.Outpost
