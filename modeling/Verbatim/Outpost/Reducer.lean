import Verbatim.Outpost.Follow
import Verbatim.Outpost.Gap
import Verbatim.Outpost.Hold

namespace Verbatim.Outpost

open ReaderRules Framework

/-- The time an input comes at: the shell's clock, the observation clock and the run's shared
clock, in microseconds. -/
structure Now where
  shellUs : Nat
  observedUs : Nat
  wallUs : Nat

inductive Handling where
  | run
  | menu
  | tried (rank : Nat)
  deriving DecidableEq

/-- A try's place in its focus group. -/
structure FocusGroup where
  number : Nat
  rank : Nat
  deriving DecidableEq

/-- A caret read of an edit control cut at its value change check, as far as the reducer reads
it. -/
structure Cut where
  edit : Int
  deriving DecidableEq

inductive Work where
  | entry (entry : Entry) (handling : Handling) (batch : Nat) (group : Option FocusGroup)
  | owed (owed : Owed)
  | drop
  | pollRead
  | finish (cut : Cut) (waiting : Bool)
  deriving DecidableEq

/-- A caret event waiting in the intake, by what names its node. -/
inductive WaitingCaret where
  | uia (runtimeId : List Int)
  | console (hwnd : Int)
  | edit (hwnd : Int)
  deriving DecidableEq

structure Program where
  request : Request
  window : Option Window
  facts : Facts
  work : Work
  waiting : List WaitingCaret
  deriving DecidableEq

inductive WorkKind where
  | msaaEvent
  | uiaEvent
  | fact
  | query
  | nodesHeld
  | notedCaret
  | barrier
  | gapBound
  | gapRead
  | owed
  | drop
  | pollRead
  | finish
  deriving DecidableEq

/-- What a program had in hand, which the log names when its worker is abandoned. -/
structure InHand where
  work : WorkKind
  trace : Option TraceId
  window : Option Int
  deriving DecidableEq

structure GroupTry where
  number : Nat
  rank : Nat
  batch : Nat
  older : List Entry
  deriving DecidableEq

structure Current where
  running : Option (RequestId × TraceId)
  group : Option GroupTry
  deferred : Bool
  inHand : InHand
  destroyed : List Window
  deriving DecidableEq

inductive Effect where
  | dispatch (program : Program)
  | send (message : OutpostToCore)
  | release (nodes anchors : List Nat) (acknowledged : Nat) (live : List Request)
  | subscribe (subscription : Subscription)
  | unfollow (tokens : List Nat)
  | unpark (keys : List Nat)
  | forgetRanges (ranges : List (Nat × RangeKey))
  | abandon (dead replacement : Nat) (reason : ReaderRules.Reason) (onHung : Bool) (inHand : InHand)
  | marks (marks : FocusMarks)
  | settled (id : Nat)
  | gapTimer (dueUs : Option Nat)
  | testGapBound (request : Request) (topLevel : Window) (stampUs : Nat) (trace : TraceId)
      (facts : Facts)
  | askJudge (request : Request) (window : Option Window)
  | publish (request : Request) (facts : Facts) (thenAbandon : Option ReaderRules.Reason)
  | watchEnded (trace : TraceId) (why : String) (waited : Nat)

/-- The reducer's inputs. A verdict changes only the arbitrator's record, which nothing here
reads. -/
inductive Input where
  | entry (entry : Entry) (source : Source)
  | hooked
  | withoutListener
  | forwardingEnded (through : UInt32)
  | cancel (requestId : RequestId)
  | verdict
  | commit (request : Request) (change : Change)
  | armed (request : Request) (bound : Nat)
  | walkReturned (request : Request) (past : Bool)
  | finished (request : Request) (reported panicked : Bool) (cut : Option Cut)
  | released (nodes anchors : List Nat) (objects : Bool)
  | gapTimerGiven
  | handlingDeadline (deadline : Nat)
  | gapBound
  | gapBoundTested (request : Request) (related : Bool) (title : Option Change)
  | judged (request : Request) (verdict : Option ReaderRules.Reason) (window : Option Window)
  | published (request : Request) (change : Option Change) (thenAbandon : Option ReaderRules.Reason)
  | close
  deriving DecidableEq

/-- What the shell calls the reducer with: an input, or the end of its timed wait. -/
inductive Step where
  | input (input : Input)
  | tick

structure Reducer where
  intake : Intake
  hold : Hold
  facts : Facts
  flight : InFlight Current
  after : List (Entry × Option GroupTry)
  toDrop : Bool
  queries : List RequestId
  idleQuery : Option Nat
  focusGroups : Nat
  gapTimerGiven : Bool
  handlingDeadline : Option Nat
  releasing : Bool
  stopping : Bool
  hung : List Window

/-- What a transition leaves, and its effects. -/
abbrev Reduced := Reducer × List Effect

def Item.isGapRead : Item → Bool
  | .gapRead _ => true
  | _ => false

def Work.isGapRead : Work → Bool
  | .entry handled _ _ _ => handled.item.isGapRead
  | _ => false

/-- Whether `work` is a caret key's program: a query that opens a watch. -/
def isCaretKey : Work → Bool
  | .entry ⟨.query _ (.awaitCaret _),_,_,_⟩ _ _ _ => true
  | _ => false

def waitingCaret : Item → Option WaitingCaret
  | .uia event =>
      match event.kind with
      | .textSelection => some (.uia event.runtimeId)
      | _ => none
  | .msaa .consoleCaret hwnd _ _ _ => some (.console hwnd)
  | .msaa .caret hwnd _ _ _ | .msaa .textSelectionChange hwnd _ _ _ => some (.edit hwnd)
  | _ => none

def editValueChange : Item → Option Int
  | .msaa .valueChange hwnd idObject idChild _ =>
      if idObject=objidClient ∧ idChild=0 then some hwnd else none
  | _ => none

def clearsAbsorb : Item → Bool
  | .query _ (.awaitCaret _) | .query _ .terminalHold | .query _ .terminalRead
  | .query _ .terminalCancel => true
  | _ => false

/-- Whether attempting `owed` may end a held terminal's hold: a terminal's first read. -/
def owedClearsAbsorb (owed : Owed) : Bool :=
  match owed.work with
  | .firstRead _ => true
  | .slider => false

/-- Whether `item`'s program never names a window it calls into. -/
def namesNoWindow : Item → Bool
  | .query _ .dumpTree | .query _ (.shellItems _) | .query _ (.shellItemPosition _) => true
  | _ => false

def Item.workKind : Item → WorkKind
  | .msaa _ _ _ _ _ => .msaaEvent
  | .uia _ => .uiaEvent
  | .fact _ _ => .fact
  | .query _ _ => .query
  | .nodesHeld _ _ _ => .nodesHeld
  | .notedCaret _ => .notedCaret
  | .barrier _ _ => .barrier
  | .gapBound _ => .gapBound
  | .gapRead _ => .gapRead

def InHand.of (work : Work) (window : Option Window) : InHand :=
  match work with
  | .entry entry _ _ _ => ⟨entry.item.workKind,some entry.trace,window.map (·.1)⟩
  | .owed _ => ⟨.owed,none,window.map (·.1)⟩
  | .drop => ⟨.drop,none,window.map (·.1)⟩
  | .pollRead => ⟨.pollRead,none,window.map (·.1)⟩
  | .finish _ _ => ⟨.finish,none,window.map (·.1)⟩

def sameWindowBound : Nat := 2000000

/-- The deadline for an entry begun at `now`, and the query it answers. -/
def budget (entry : Entry) (now : Now) (handling : Nat) : Nat × Option (RequestId × TraceId) :=
  match entry.item with
  | .query requestId query =>
      let deadline := match query with
        | .focusNow => satAdd handling sameWindowBound
        | .shellItems answerByUs | .shellItemPosition answerByUs => answerByUs-now.wallUs
        | _ => handling
      (deadline,some (requestId,entry.trace))
  | .fact (.uiaFocusRead _ _ _) _ => (satAdd handling sameWindowBound,none)
  | _ => (handling,none)

def replyTo (requestId : RequestId) (trace : TraceId) (outcome : QueryOutcome) : OutpostToCore :=
  .reply trace requestId outcome {}

/-- What `message` reports to the gap record: its top-level window, its observation, and whether
it is a whole-window focus. -/
def gapReport : OutpostToCore → Option (Option Int × Nat × Bool)
  | .focusChanged topLevel observedAtUs wholeWindow => some (topLevel,observedAtUs,wholeWindow)
  | .reply _ _ (.done (.focus control observedAtUs)) _ =>
      control.map fun topLevel => (topLevel,observedAtUs,false)
  | _ => none

def Current.applied (applied : Applied) (current : Current) : Current :=
  {current with
    running := if applied.opened then none else current.running
    deferred :=
      if applied.resumed then false else if applied.taken.isSome then true else current.deferred}

def Intake.waitingCarets (s : Intake) (sinceMs : Option Nat) : List WaitingCaret :=
  match sinceMs with
  | none => []
  | some sinceMs =>
      (s.entries.filter fun entry => sinceMs≤entry.observedAtUs/1000).filterMap
        fun entry => waitingCaret entry.item

def Intake.valueChangeWaiting (s : Intake) (hwnd : Int) : Bool :=
  s.entries.any fun entry => editValueChange entry.item=some hwnd

def Hold.isHolding : Hold → Bool
  | .holding _ _ => true
  | _ => false

def Hold.held : Hold → List Entry
  | .holding held _ => held
  | _ => []

namespace Reducer

def new : Reducer := ⟨.new,.unhooked,{},.new,[],false,[],none,0,false,none,false,false,[]⟩

def andThen (out : Reduced) (next : Reducer → Reduced) :
    Reduced :=
  ((next out.1).1,out.2++(next out.1).2)

def onSome {A : Type} (given : Option A) (step : A → Reducer → Reduced)
    (s : Reducer) : Reduced :=
  match given with
  | some a => step a s
  | none => (s,[])

def onEach {A : Type} (step : A → Reducer → Reduced) :
    List A → Reducer → Reduced
  | [],s => (s,[])
  | a::list,s => andThen (step a s) (onEach step list)

variable (s : Reducer)

def busy : Bool := s.flight.running.isSome

def handling : Nat := s.handlingDeadline.getD handlingDeadlineUs

variable (request : Request)

def accepts : Bool := s.flight.accepts request

def withGap (change : GapRecord → GapRecord) : Reducer :=
  {s with intake := {s.intake with gap := change s.intake.gap}}

def withWatch (watch : Watch) : Reducer :=
  {s with facts := {s.facts with follow := {s.facts.follow with watch}}}

def ofRequest (change : Current → Current) : Reducer :=
  if (s.flight.runningOf request).isSome then {s with flight := s.flight.withItem change} else s

def answered (id : RequestId) : Reducer :=
  {s with
    queries := s.queries.filter (fun query => query≠id)
    flight := s.flight.withItem (fun current =>
      if current.running.any (fun running => running.1=id) then {current with running := none}
      else current)}

/-- Sends `message`; a reply answers its query, and a focus closes the gap record it answers. -/
def send (message : OutpostToCore) (s : Reducer) : Reduced :=
  let s := match gapReport message with
    | some (topLevel,atUs,wholeWindow) => s.withGap (·.report topLevel atUs wholeWindow)
    | none => s
  let s := match message with
    | .reply _ requestId _ _ => s.answered requestId
    | _ => s
  (s,[.send message])

def hangSeen (window : Window) (s : Reducer) : Reduced :=
  if (s.flight.runningOf request).any (fun running => window∈running.item.destroyed) then (s,[])
  else if window∈s.hung then (s,[])
  else if s.hung.isEmpty then
    send (.notResponding window) {s with hung := s.hung++[window]}
  else ({s with hung := s.hung++[window]},[])

def found (evidence : Window × Found) (s : Reducer) : Reduced :=
  match evidence.2 with
  | .hung => s.hangSeen request evidence.1
  | .answered => ({s with hung := s.hung.filter (fun window => window≠evidence.1)},[])

def watchEnded (opened : OpenWatch) (publishedAtUs : Nat) : OutpostToCore :=
  .reply opened.trace opened.requestId (.done (.text .watchEnded))
    {opened.timing with calls := opened.calls, publishedAtUs}

def answerWatch (now : Now) (answer : Answer) (s : Reducer) : Reduced :=
  match answer with
  | .ended opened why =>
      andThen (s,[.watchEnded opened.trace why (now.wallUs-opened.timing.dequeuedAtUs)])
        (send (watchEnded opened now.wallUs))
  | .evidence opened reply calls awaitedAtUs =>
      send (.reply opened.trace opened.requestId (.done (.text reply))
        {opened.timing with
          awaitedAtUs
          awaitedCalls := opened.calls
          calls := opened.calls.add calls
          publishedAtUs := now.wallUs}) s
  | .abandoned opened => send (replyTo opened.requestId opened.trace .abandoned) s

/-- The shell's part of what a commit asks: the watch's answers sent, the subscription moved, the
elements no longer followed dropped. -/
def subscriptionEffects (applied : Applied) (now : Now) (s : Reducer) : Reduced :=
  andThen (onEach (answerWatch now) applied.answers s) fun s =>
    (s,applied.subscribe.toList.map .subscribe ++
      if applied.unfollowed.isEmpty then [] else [.unfollow applied.unfollowed])

def gapNote : GapNote → Reducer
  | .copyDropped window topLevel atUs trace =>
      let (gap,dropped) := s.intake.gap.copyDropped window topLevel atUs trace
      let s := s.withGap (fun _ => gap)
      if dropped=.readNow then
        -- Read at once, in the copy's place, as part of the same try of its group.
        let group := (s.flight.running.bind (·.item.group)).map (fun group =>
          {group with older := []})
        {s with after := (.own (.gapRead window) trace atUs,group)::s.after}
      else s
  | .windowDestroyed hwnd => s.withGap (·.windowDestroyed hwnd)

variable (change : Change)

/-- The pure part of the commit of `request`'s program, and what it asks of the shell. -/
def applyChange (now : Now) (s : Reducer) : Reduced :=
  let (facts,applied) := apply s.facts s.flight.generation change (some now.wallUs)
  let s := {s with facts}
  let s := s.ofRequest request (Current.applied applied)
  andThen (s,if applied.ranges.isEmpty then [] else [.forgetRanges applied.ranges])
    (subscriptionEffects applied now)

/-- What a commit notes: the gap record's judgements, and a noted caret. -/
def notes (s : Reducer) : Reducer :=
  let s := change.gap.foldl gapNote s
  match change.notedCaret with
  | some (node,trace,observedAtUs) =>
      {s with intake := s.intake.whenIdle (.own (.notedCaret node) trace observedAtUs)}
  | none => s

def result (message : OutpostToCore) (s : Reducer) : Reduced :=
  send message (s.ofRequest request fun current => {current with running := none})

/-- Applies the commit of `request`'s program: its report recorded, then its messages sent, then
the rest. -/
def commit (now : Now) (s : Reducer) : Reduced :=
  andThen (onSome change.found (found request) s) fun s =>
    andThen (onSome change.result (result request) {s with facts := recorded s.facts change})
      fun s => applyChange request change now (s.notes change)

def destroySeen : Item → Reducer
  | .msaa .destroy hwnd _ _ _ =>
      match windowOf hwnd with
      | some window =>
          {s with
            hung := s.hung.filter (fun other => other≠window)
            flight := s.flight.withItem (fun current =>
              {current with destroyed := window::current.destroyed})}
      | none => s
  | _ => s

variable (entry : Entry)

/-- Records a query, and opens the gap record for a foreground change found in front. -/
def recordPush (s : Reducer) : Reducer :=
  match entry.item,entry.front with
  | .query requestId _,_ =>
      if s.stopping ∨ requestId∈s.queries then s
      else {s with queries := s.queries++[requestId]}
  | .fact (.foreground hwnd) _,.foreground (some inFrontAtUs) uia =>
      s.withGap (·.foreground hwnd
        (if entry.observedAtUs=0 then inFrontAtUs else entry.observedAtUs) entry.trace
        (if uia then .focus else .title))
  | _,_ => s

def push (s : Reducer) : Reduced :=
  let s := s.recordPush entry
  let (intake,unparked) := s.intake.push entry s.facts.marks.toMarks
  ({s with intake},if unparked.isEmpty then [] else [.unpark unparked])

def pushAll (entries : List Entry) (s : Reducer) : Reduced := onEach push entries s

/-- Takes in `entry`, from `source`: held while the hand-over's hold lasts if it came from the hook,
and pushed into the intake otherwise. -/
def takeEntry (source : Source) (s : Reducer) : Reduced :=
  let s := s.destroySeen entry.item
  pushAll (s.hold.entry entry source).2 {s with hold := (s.hold.entry entry source).1}

variable (work : Work)

def waitingFor : List WaitingCaret :=
  s.intake.waitingCarets (match work with
    | .entry ⟨.query _ (.awaitCaret pressedAtMs),_,_,_⟩ _ _ _ => some pressedAtMs
    | _ => s.facts.follow.watch.openWatch.map (·.watch.pressedAtMs))

def ruleOf (window : Option Window) (work : Work) : RuleWindow :=
  match window,work with
  | some window,_ => .known window
  | none,.drop => .never
  | none,.entry entry _ _ _ => if namesNoWindow entry.item then .never else .named
  | none,_ => .named

/-- Starts `work`, concerning `window` and answering `running`, as a try of `group`. -/
def startWork (deadline : Nat) (window : Option Window)
    (running : Option (RequestId × TraceId)) (group : Option GroupTry) (now : Now) (s : Reducer) :
    Reduced :=
  let current : Current := ⟨running,group,work.isGapRead,.of work window,[]⟩
  let (flight,request) := s.flight.start current deadline (ruleOf window work) now.shellUs
  ({s with flight},[.dispatch ⟨request,window,s.facts,work,s.waitingFor work⟩])

def replaceWatch (now : Now) (s : Reducer) : Reduced :=
  if isCaretKey work then
    let (watch,answer) := s.facts.follow.watch.endKept "the next caret key replaced it"
    onSome answer (answerWatch now) (s.withWatch watch)
  else (s,[])

def dispatch (deadline : Nat) (window : Option Window)
    (running : Option (RequestId × TraceId)) (group : Option GroupTry) (now : Now) (s : Reducer) :
    Reduced :=
  andThen (s.replaceWatch work now) (startWork work deadline window running group now)

def dispatchEntry (handling : Handling) (batch : Nat) (group : Option GroupTry)
    (now : Now) (s : Reducer) : Reduced :=
  let (deadline,running) := budget entry now s.handling
  let absorbed := if clearsAbsorb entry.item then none else s.facts.marks.absorbed
  let s := {s with facts := {s.facts with marks := {s.facts.marks with absorbed}}}
  s.dispatch (.entry entry handling batch (group.map fun group => ⟨group.number,group.rank⟩))
    deadline (windowOf (classify entry.item).2.2) running group now

/-- Dispatches the program that finishes `cut`, handed on the program in flight's place. -/
def dispatchFinish (cut : Cut) (s : Reducer) : Reduced :=
  let waiting := s.intake.valueChangeWaiting cut.edit ||
    s.hold.held.any (fun entry => editValueChange entry.item=some cut.edit)
  match s.flight.handOn with
  | (_,none) => (s,[])
  | (flight,some request) =>
      ({s with flight},[.dispatch ⟨request,windowOf cut.edit,s.facts,.finish cut waiting,[]⟩])

def continueGroup (group : GroupTry) (s : Reducer) : Reducer :=
  match group.older with
  | entry::older =>
      {s with after := s.after++[(entry,some {group with rank := group.rank+1, older})]}
  | [] => s

/-- A program's query, when it leaves it unanswered, is answered as `outcome`. -/
def answerLeft (outcome : QueryOutcome) (running : RequestId × TraceId) (s : Reducer) :
    Reduced :=
  send (replyTo running.1 running.2 outcome) s

/-- The worker in charge was abandoned: the program's query, the owed work it attempted and the
caret key's watch it held are answered, and its group goes on unless it was published. -/
def abandoned (a : Abandoned Current) (now : Now) (s : Reducer) : Reduced :=
  let owed := s.facts.follow.owed.filter fun owed => owed.attempting≠some a.dead
  let s := {s with facts := {s.facts with follow := {s.facts.follow with owed}}}
  let (watch,answer) := s.facts.follow.watch.abandoned
  andThen (s.withWatch watch,
      [.abandon a.dead a.replacement a.reason (a.reason=.hung) a.item.inHand]) (fun s =>
    andThen (onSome answer (answerWatch now) s) (fun s =>
      andThen (onSome a.item.running (answerLeft .abandoned) s) (fun s =>
        (match a.item.group with
          | some group => if a.published then s else s.continueGroup group
          | none => s,[]))))

def decided (decision : Decision Current) (now : Now) (s : Reducer) : Reduced :=
  match decision with
  | .nothing => (s,[])
  | .ask (.judge request window) => (s,[.askJudge request window])
  | .ask (.publish request thenAbandon) => (s,[.publish request s.facts thenAbandon])
  | .abandon a => s.abandoned a now

/-- What is left of a group whose try has finished, reported or published when `ended`. -/
def groupFinished (group : GroupTry) (ended : Bool) (s : Reducer) : Reducer :=
  match s.after with
  | (entry,next)::rest =>
      if entry.item.isGapRead then
        -- The gap's read of an ended try is made outside it; otherwise it goes on the try, with
        -- the older entries after it.
        if ended then {s with after := (entry,none)::rest}
        else {s with
          after := (entry,next.map fun read => {read with older := group.older})::rest}
      else if ended then s else s.continueGroup group
  | [] => if ended then s else s.continueGroup group

def ended (current : Current) (isOver : Bool) (now : Now) (s : Reducer) : Reduced :=
  let (watch,answer) := s.facts.follow.watch.programEnded
  andThen (onSome answer (answerWatch now) (s.withWatch watch)) (fun s =>
    andThen (onSome current.running
        (answerLeft (.failed "the outpost failed handling the query")) s) (fun s =>
      (match current.group with
        | some group => s.groupFinished group isOver
        | none => s,[])))

def finished (reported panicked : Bool) (cut : Option Cut) (now : Now)
    (s : Reducer) : Reduced :=
  match s.flight.runningOf request with
  | none => (s,[])
  | some running =>
      let published := decide (running.walk=.published)
      match cut.filter (fun _ => !panicked && !published) with
      | some cut => s.dispatchFinish cut
      | none =>
          {s with flight := (s.flight.endOf request).1}.ended running.item
            (reported || published) now

def published (change : Option Change)
    (thenAbandon : Option ReaderRules.Reason) (now : Now) (s : Reducer) :
    Reduced :=
  let got := change.filter (fun _ => s.accepts request)
  andThen (onSome got (fun change => commit request change now) s) fun s =>
    let (flight,decision) :=
      if s.stopping then s.flight.publishedJudgingNothing request got.isSome thenAbandon
      else s.flight.published request got.isSome thenAbandon now.shellUs
    {s with flight}.decided decision now

def gapBound : Reduced :=
  if s.stopping then (s,[])
  else
    match s.intake.gap.atBound with
    | (_,none) => (s,[])
    | (gap,some bound) =>
        let s := s.withGap (fun _ => gap)
        match windowOf bound.topLevel with
        | none => (s.withGap (·.close),[])
        | some topLevel =>
            let (flight,request) := s.flight.nextRequest
            ({s with flight},[.testGapBound request topLevel bound.stampUs bound.trace s.facts])

def queueBound (record : GapOpen) (now : Now) (s : Reducer) : Reducer :=
  if record.awaits=.focus ∧ s.intake.gap.isOpen then
    {s with
      intake := (s.intake.push (.own (.gapBound record.boundNumber) record.trace now.observedUs)
        s.facts.marks.toMarks).1}
  else s.withGap (·.boundPassed)

/-- The shell's test of the gap record's window at its bound. -/
def gapBoundTested (related : Bool) (title : Option Change) (now : Now)
    (s : Reducer) : Reduced :=
  match s.intake.gap.opened with
  | none => (s,[])
  | some record =>
      if related then
        andThen (onSome title (fun change => commit request change now) s) (fun s =>
          (s.queueBound record now,[]))
      else (s.withGap (·.close),[])

def released (nodes anchors : List Nat) (objects : Bool) (now : Now) (s : Reducer) :
    Reduced :=
  let (text,ranges) := s.facts.text.release nodes anchors
  let watch := s.facts.follow.watch
  let (watch,answer) :=
    if watch.kept.any (fun opened => opened.nodeId∈nodes) then
      watch.finish "its node was released"
    else (watch,none)
  let (follow,applied) := {s.facts.follow with watch}.releaseGroups nodes {answers := answer.toList}
  let s := {s with
    releasing := false
    facts := {s.facts with held := s.facts.held.release nodes, text, follow}}
  andThen (s,if ranges.isEmpty then [] else [.forgetRanges ranges]) fun s =>
    andThen (s.subscriptionEffects applied now) fun s =>
      ({s with toDrop := s.toDrop || objects},[])

def idleReady : Bool :=
  !s.hold.isHolding && !s.flight.running.any (·.item.deferred) && s.facts.follow.watch.isNone &&
    !s.intake.gap.pending

def answerIdle : Reduced :=
  if s.idleReady then
    ({s with idleQuery := none},s.idleQuery.toList.map fun round => .send (.idleAnswer round))
  else (s,[])

def live : List Request :=
  (s.flight.running.filter fun running => running.walk≠.published).toList.map (·.request)

/-- An idle barrier reached: it goes directly behind a noted caret, or is answered. -/
def barrier (asker : Asker) (behindNoted : Bool) (entry : Entry) (s : Reducer) :
    Reduced :=
  match s.intake.idle,behindNoted with
  | some noted,false =>
      ({s with
        intake := s.intake.takeIdle.1.pushAhead [noted,{entry with item := .barrier asker true}]},
        [])
  | _,_ =>
      match asker with
      | .round round => {s with idleQuery := some round}.answerIdle
      | .settle id => (s,[.settled id])

/-- An entry planned on its own: the reducer's own entries are handled here, and the rest
dispatched. -/
def run (batch : Nat) (now : Now) (s : Reducer) : Reduced :=
  let dispatched := s.dispatchEntry entry .run batch none now
  match entry.item with
  | .barrier asker behindNoted => s.barrier asker behindNoted entry
  | .nodesHeld nodes anchors acknowledged =>
      ({s with releasing := true},[.release nodes anchors acknowledged s.live])
  | .gapBound bound =>
      let (gap,reached) := s.intake.gap.boundReached bound now.observedUs
      let s := s.withGap (fun _ => gap)
      match reached with
      | .ok (some read) =>
          s.dispatchEntry {entry with item := .gapRead read.window, observedAtUs := read.stampUs}
            .run batch none now
      | _ => (s,[])
  | .query requestId (.shellItems answerByUs) =>
      if answerByUs≤now.wallUs then
        s.send (replyTo requestId entry.trace (.done .shellItems))
      else dispatched
  | .query requestId (.shellItemPosition answerByUs) =>
      if answerByUs≤now.wallUs then
        s.send (replyTo requestId entry.trace (.done .shellItemPosition))
      else dispatched
  | _ => dispatched

def startEntry (handling : Handling) (group : Option GroupTry) (now : Now)
    (s : Reducer) : Reduced :=
  s.dispatchEntry entry (group.elim handling fun group => .tried group.rank)
    (group.elim s.intake.batchNumber (·.batch)) group now

def handle (planned : Planned) (batch : Nat) (now : Now) (s : Reducer) : Reduced :=
  match planned with
  | .run entry => s.run entry batch now
  | .menu entry => s.dispatchEntry entry .menu batch none now
  | .focus entries =>
      let s := {s with focusGroups := s.focusGroups+1}
      match entries with
      | [] => (s,[])
      | newest::older =>
          s.startEntry newest (.tried 0) (some ⟨s.focusGroups,0,batch,older⟩) now

/-- Nothing else is ready: the watch's due time is acted on; `none` when nothing is due. -/
def reachWatch (now : Now) (s : Reducer) : Option (Reduced) :=
  match s.facts.follow.watch.reach now.wallUs with
  | (_,.nothing) => none
  | (watch,.ended answer) => some ((s.withWatch watch).answerWatch now answer)
  | (watch,.read) =>
      let (s,effects) := (s.withWatch watch).dispatch .pollRead s.handling none none none now
      some ({s with
        flight := s.flight.withItem (fun current => {current with deferred := true})},effects)

def attempt (owed : Owed) (now : Now) (s : Reducer) : Reduced :=
  let owed := {owed with attempting := some s.flight.generation}
  let absorbed := if owedClearsAbsorb owed then none else s.facts.marks.absorbed
  let s := {s with
    facts := {s.facts with
      follow := {s.facts.follow with owed := some owed}
      marks := {s.facts.marks with absorbed}}}
  s.dispatch (.owed owed) s.handling none none none now

def settled : Bool := s.busy || s.stopping || s.releasing

/-- One turn of the pump: the reducer and effects after it, `none` at its end. -/
def turn (now : Now) (s : Reducer) : Option (Reduced) :=
  if s.settled then none
  else
    match s.facts.follow.owed.filter (fun owed => owed.attempting.isNone) with
    | some owed => some (s.attempt owed now)
    | none =>
        match s.after with
        | (entry,group)::after => some ({s with after}.startEntry entry .run group now)
        | [] =>
            if s.toDrop then
              some ({s with toDrop := false}.dispatch .drop s.handling none none none now)
            else
              match s.intake.next s.facts.marks.toMarks with
              | (intake,some (planned,batch)) => some ({s with intake}.handle planned batch now)
              | (intake,none) => {s with intake}.reachWatch now

/-- How many turns an entry can take: an idle barrier not yet behind the noted caret is met
twice. -/
def turnsOf : Nat :=
  match entry.item with
  | .barrier _ false => 4
  | _ => 1

def turns : Nat :=
  (s.intake.waiting.map fun waiting => turnsOf waiting.entry+1).sum +
    (s.intake.batch.map fun planned => (planned.entries.map turnsOf).sum+1).sum +
    s.intake.idle.toList.length+2

def pumpFor (now : Now) : Nat → Reducer → Reduced
  | 0,s => (s,[])
  | fuel+1,s =>
      match s.turn now with
      | none => (s,[])
      | some out => andThen out (pumpFor now fuel)

def pump (now : Now) (s : Reducer) : Reduced := pumpFor now s.turns s

/-- Gives the shell what a transition changed of what it keeps a copy of: the marks ahead of every
other effect, and the gap record's bound. -/
def changed (before : Reducer) (out : Reduced) : Reduced :=
  (out.1,(if out.1.facts.marks=before.facts.marks then [] else [.marks out.1.facts.marks]) ++
    out.2 ++
    if out.1.intake.gap.dueUs=before.intake.gap.dueUs then []
    else [.gapTimer out.1.intake.gap.dueUs])

def takeIn (input : Input) (now : Now) (s : Reducer) : Reduced :=
  match input with
  | .entry entry source => s.takeEntry entry source
  | .hooked => ({s with hold := s.hold.hooked},[])
  | .withoutListener => pushAll s.hold.withoutListener.2 {s with hold := s.hold.withoutListener.1}
  | .forwardingEnded through =>
      pushAll ((s.hold.forwardingEnded through).2.getD [])
        {s with hold := (s.hold.forwardingEnded through).1}
  | .cancel requestId =>
      let (intake,trace) := s.intake.cancel requestId
      onSome trace (fun trace => send (replyTo requestId trace .notStarted)) {s with intake}
  | .verdict => (s,[])
  | .commit request change => if s.accepts request then s.commit request change now else (s,[])
  | .armed request bound => ({s with flight := s.flight.armed request bound},[])
  | .walkReturned request past =>
      let (flight,decision) := s.flight.walkReturned request past
      {s with flight}.decided decision now
  | .finished request reported panicked cut => s.finished request reported panicked cut now
  | .released nodes anchors objects => s.released nodes anchors objects now
  | .gapTimerGiven => ({s with gapTimerGiven := true},[])
  | .handlingDeadline deadline => ({s with handlingDeadline := some deadline},[])
  | .gapBound => s.gapBound
  | .gapBoundTested request related title => s.gapBoundTested request related title now
  | .judged request verdict window =>
      if s.stopping then (s,[])
      else
        let hang := if (s.flight.runningOf request).isSome ∧ verdict=some .hung then window
          else none
        andThen (onSome hang (hangSeen request) s) fun s =>
          let (flight,decision) := s.flight.judged request verdict
          {s with flight}.decided decision now
  | .published request change thenAbandon => s.published request change thenAbandon now
  | .close =>
      let (intake,unparked) := s.intake.close
      ({s with stopping := true, intake},if unparked.isEmpty then [] else [.unpark unparked])

def wake (now : Now) (s : Reducer) : Reduced :=
  let (flight,decision) := if s.stopping then (s.flight,.nothing) else s.flight.tick now.shellUs
  andThen ({s with flight}.decided decision now) fun s =>
    if !s.gapTimerGiven && s.intake.gap.waitingDueUs.any (fun dueUs => dueUs≤now.observedUs) then
      s.gapBound
    else (s,[])

def settle (now : Now) (out : Reduced) : Reduced :=
  andThen (andThen out (pump now)) answerIdle

def input (input : Input) (now : Now) (s : Reducer) : Reduced :=
  s.changed (settle now (s.takeIn input now))

def tick (now : Now) (s : Reducer) : Reduced := s.changed (settle now (s.wake now))

def start (step : Step) (now : Now) (s : Reducer) : Reduced :=
  match step with
  | .input input => s.takeIn input now
  | .tick => s.wake now

def step (step : Step) (now : Now) (s : Reducer) : Reduced :=
  match step with
  | .input input => s.input input now
  | .tick => s.tick now

theorem step_eq (st : Step) (now : Now) (s : Reducer) :
    s.step st now=s.changed (settle now (s.start st now)) := by
  cases st <;> rfl

def runs (steps : List (Step × Now)) (s : Reducer) : Reduced :=
  onEach (fun timed => step timed.1 timed.2) steps s

end Reducer

end Verbatim.Outpost
