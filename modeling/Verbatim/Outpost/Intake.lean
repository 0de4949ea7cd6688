import Verbatim.Outpost.Entry

namespace Verbatim.Outpost

open ReaderRules Framework

def objidClient : Int := -4

def focusEventsPerBatch : Nat := 4

def eventsPerThread : Nat := 10

/-- The object and kind an entry concerns. -/
inductive Key where
  | msaa (kind : WinKind) (hwnd idObject idChild : Int) (raiser : Nat)
  | uia (which : Nat) (id : Int) (runtimeId : List Int)
  | foreground (hwnd : Int) (raiser : Nat)
  | msaaFocus (hwnd idObject idChild : Int) (raiser : Nat)
  | uiaFocus (runtimeId : List Int)
  | menuPopup (hwnd idObject idChild : Int)
  | uiaNotification (runtimeId : List Int) (kind : NotificationKind)
      (processing : NotificationProcessing) (activityId : Option String)
  | nodesHeld
  deriving DecidableEq

/-- An accessible object, by its event address or runtime id. -/
inductive Object where
  | msaa (hwnd idObject idChild : Int)
  | uia (runtimeId : List Int)
  deriving DecidableEq

def Key.object : Key → Option Object
  | .msaa _ hwnd idObject idChild _ | .msaaFocus hwnd idObject idChild _
  | .menuPopup hwnd idObject idChild => some (.msaa hwnd idObject idChild)
  | .uia _ _ runtimeId | .uiaFocus runtimeId | .uiaNotification runtimeId _ _ _ =>
      some (.uia runtimeId)
  | .foreground _ _ | .nodesHeld => none

/-- How the batch limits treat an entry. -/
inductive Category where
  | focus
  | other
  | uncounted
  | exempt
  deriving DecidableEq

/-- An entry with what the limiter needs to know about it. -/
structure Waiting where
  key : Option Key
  category : Category
  raiser : Nat
  marker : Option Nat
  entry : Entry
  deriving DecidableEq

/-- The order in which the worker handles a planned batch. -/
inductive Planned where
  | run (entry : Entry)
  | menu (entry : Entry)
  | focus (entries : List Entry)
  deriving DecidableEq

def Planned.entries : Planned → List Entry
  | .run entry | .menu entry => [entry]
  | .focus entries => entries

/-- Whether the focus is a terminal read through UIA, and in which window. -/
inductive TerminalMark where
  | none
  | windowUnknown
  | within (window : Window)
  deriving DecidableEq

/-- What the intake reads of the focus last reported. -/
structure Marks where
  focused : Option Object
  terminal : TerminalMark
  deriving DecidableEq

inductive Awaits where
  | focus
  | title
  deriving DecidableEq

/-- Where an open record's bound stands: waited for, being handled, or handled. -/
inductive Bound where
  | waiting
  | queued
  | passed
  deriving DecidableEq

/-- The open gap record: the newest copy or foreground change, when its bound passes, where the
bound stands, its number, and what the record waits for. -/
structure GapOpen where
  window : Int
  topLevel : Int
  stampUs : Nat
  trace : TraceId
  dueUs : Nat
  bound : Bound
  boundNumber : Nat
  awaits : Awaits
  deriving DecidableEq

/-- The gap record: the open one, the newest report for each top-level window, the newest drop for
no window, and how many bounds have been armed, a count that is unbounded here. -/
structure GapRecord where
  opened : Option GapOpen := none
  reported : List (Int × Nat) := []
  lastNoWindowUs : Option Nat := none
  bounds : Nat := 0
  deriving DecidableEq

structure GapRead where
  window : Int
  stampUs : Nat
  deriving DecidableEq

def answeredBeforeUs : Nat := 100000

/-- Whether a report observed at `reportedUs` answers a copy observed at `copyUs`. -/
def answers (reportedUs copyUs : Nat) : Bool := copyUs ≤ satAdd reportedUs answeredBeforeUs

/-- A UIA focus's drop for no window above its sender: the open record it answers is closed, to
be read at once. -/
def GapRecord.noWindow (gap : GapRecord) (atUs : Nat) : GapRecord × Option GapRead :=
  let gap := {gap with lastNoWindowUs := some (max (gap.lastNoWindowUs.getD atUs) atUs)}
  match gap.opened.filter (fun record => record.awaits=.focus && answers atUs record.stampUs) with
  | none => (gap,none)
  | some record => ({gap with opened := none},some ⟨record.window,record.stampUs⟩)

/-- The intake: what waits to be planned, the batch being handed out, the entry kept for when
nothing else is ready, and the gap record. -/
structure Intake where
  waiting : List Waiting
  batch : List Planned
  batchNumber : Nat
  idle : Option Entry
  closed : Bool
  gap : GapRecord
  deriving DecidableEq

def Intake.new : Intake := ⟨[],[],0,none,false,{}⟩

/-- A notification's key: its element, kind, processing and activity id, not its text. -/
def notificationKey (runtimeId : List Int) (notification : Notification) : Key :=
  .uiaNotification runtimeId notification.kind notification.processing notification.activityId

def raiserOf : Item → Nat
  | .msaa _ _ _ _ raiser => raiser
  | .fact _ (some stamp) => stamp.thread
  | _ => 0

/-- The key, category and window of a fact, raised by `raiser`. -/
def classifyFact (raiser : Nat) : DeliveredFact → Option Key × Category × Int
  | .uiaMarked _ fact => classifyFact raiser fact
  | .uiaSelection hwnd _ runtimeId => (some (.uia 1 0 runtimeId),.uncounted,hwnd)
  | .uiaNotification hwnd runtimeId notification =>
      (some (notificationKey runtimeId notification),.uncounted,hwnd)
  | .alert hwnd idObject idChild =>
      (some (.msaa .alert hwnd idObject idChild raiser),.other,hwnd)
  | .shown hwnd idObject idChild =>
      (some (.msaa .shown hwnd idObject idChild raiser),.other,hwnd)
  | .foreground hwnd => (some (.foreground hwnd raiser),.focus,hwnd)
  | .msaaFocus hwnd idObject idChild =>
      (some (.msaaFocus hwnd idObject idChild raiser),.focus,hwnd)
  | .uiaFocusRead _ read _ => (some (.uiaFocus read.runtimeId),.uncounted,read.hwnd)
  | .uiaFocusMarker _ | .uiaFocusDropped _ _ _ | .uiaFocusReadsEnded => (none,.exempt,0)
  | .menuPopup hwnd idObject idChild =>
      (some (.menuPopup hwnd idObject idChild),.uncounted,hwnd)

def uiaKey (event : UiaEvent) : Key :=
  match event.kind with
  | .property id => .uia 0 id event.runtimeId
  | .selection => .uia 1 0 event.runtimeId
  | .textSelection => .uia 2 0 event.runtimeId
  | .textChanged => .uia 3 0 event.runtimeId
  | .activeTextPosition _ => .uia 4 0 event.runtimeId
  | .notification notification => notificationKey event.runtimeId notification

def classify : Item → Option Key × Category × Int
  | .msaa .destroy hwnd _ _ _ => (none,.exempt,hwnd)
  | .msaa .consoleUpdate hwnd _ _ _ => (some (.msaa .consoleUpdate hwnd 0 0 0),.other,hwnd)
  | .msaa .consoleCaret hwnd _ _ _ => (some (.msaa .consoleCaret hwnd 0 0 0),.other,hwnd)
  | .msaa kind hwnd idObject idChild raiser =>
      (some (.msaa kind hwnd idObject idChild raiser),.other,hwnd)
  | .uia event => (some (uiaKey event),.uncounted,event.hwnd)
  | .fact fact stamp => classifyFact (raiserOf (.fact fact stamp)) fact
  | .nodesHeld _ _ _ => (some .nodesHeld,.exempt,0)
  | .query _ _ | .notedCaret _ | .barrier _ _ | .gapBound _ | .gapRead _ => (none,.exempt,0)

def Item.isBarrier : Item → Bool
  | .barrier _ _ => true
  | _ => false

def Waiting.isBarrier (waiting : Waiting) : Bool := waiting.entry.item.isBarrier

/-- Removes the first entry for which `isIt` holds among those around index `spot` that no idle
query divides from it, nearest before `spot` first. -/
def removeWaiting (waiting : List Waiting) (spot : Nat) (isIt : Waiting → Bool) :
    List Waiting × Option (Nat × Waiting) :=
  let behind := ((waiting.take spot).reverse.takeWhile fun w => !w.isBarrier).findIdx? isIt
  let ahead := ((waiting.drop spot).takeWhile fun w => !w.isBarrier).findIdx? isIt
  match (behind.map fun back => spot-1-back).or (ahead.map fun ahead => spot+ahead) with
  | none => (waiting,none)
  | some found => (waiting.eraseIdx found,waiting[found]?.map fun removed => (found,removed))

def removeKeyed (waiting : List Waiting) (key : Key) (spot : Nat) :
    List Waiting × Option (Nat × Waiting) :=
  removeWaiting waiting spot fun w => w.key=some key

def stampOf (waiting : Waiting) : Option WinEventStamp :=
  match waiting.entry.item with
  | .fact _ stamp => stamp
  | _ => none

/-- Whether a focus on a window's client object was raised before the window's foreground
change. -/
def focusRaisedFirst (focus change : Option WinEventStamp) (focusArrivedFirst : Bool) : Bool :=
  match focus,change with
  | some focus,some change =>
      if focus.time≠change.time then focus.raisedBefore change.time else focusArrivedFirst
  | _,_ => focusArrivedFirst

/-- Whether a foreground change of `window` from `raiser`, raised as `change` says, removes the
entry. -/
def clientFocus (window : Int) (raiser : Nat) (change : Option WinEventStamp) (w : Waiting) :
    Bool :=
  w.key=some (.msaaFocus window objidClient 0 raiser) && focusRaisedFirst (stampOf w) change true

def removeClientFocus (waiting : List Waiting) (window : Int) (raiser : Nat)
    (change : Option WinEventStamp) : List Waiting :=
  (removeWaiting waiting waiting.length (clientFocus window raiser change)).1

def ofOldFocus (old : List Int) (waiting : Waiting) : Bool :=
  match waiting.entry.item with
  | .uia event =>
      match event.kind with
      | .property id => isStateProperty id && event.runtimeId=old
      | _ => false
  | _ => false

/-- Whether nothing behind the entry may go ahead of it: a marker still waiting for its read, or
an idle query. -/
def Waiting.divides (waiting : Waiting) : Bool := waiting.marker.isSome || waiting.isBarrier

def moveOldFocus (old : List Int) (state : List Waiting × Nat) (spot : Nat) : List Waiting × Nat :=
  match state.1[spot]? with
  | some moved =>
      if ofOldFocus old moved then
        ((state.1.eraseIdx spot).insertIdx state.2 moved,state.2+1)
      else state
  | none => state

/-- Moves each of the old focus's own UIA state changes that waits behind the marker at `place`,
before the next marker or idle query, to just before that marker; the marker's new place. -/
def oldFocusEventsFirst (waiting : List Waiting) (place : Nat) (old : List Int) :
    List Waiting × Nat :=
  let start := place+1
  let stop := ((waiting.drop start).findIdx? Waiting.divides).elim waiting.length (start+·)
  (List.range' start (stop-start)).foldl (moveOldFocus old) (waiting,place)

def keyedBy (own : Key) (console : Option Key) (waiting : Waiting) : Bool :=
  waiting.key=some own || (waiting.key.isSome && waiting.key=console)

def Waiting.isEvent (waiting : Waiting) : Bool :=
  match waiting.entry.item with
  | .msaa _ _ _ _ _ | .uia _ => true
  | _ => false

def lastIdx? (isIt : Waiting → Bool) (later : List Waiting) : Option Nat :=
  (later.reverse.findIdx? isIt).map fun back => later.length-1-back

/-- Moves the focused terminal's caret event, when it waits ahead of a text change of the same
terminal with only events between, to just after the newest such change. -/
def caretAfterUpdate (waiting : List Waiting) (focused : Option Object) (terminal : TerminalMark) :
    List Waiting :=
  match terminal,focused with
  | .none,_ => waiting
  | _,some (.uia runtimeId) =>
      let window := match terminal with
        | .within window => some window.1
        | _ => none
      let caret := keyedBy (.uia 2 0 runtimeId)
        (window.map fun hwnd => .msaa .consoleCaret hwnd 0 0 0)
      let change := keyedBy (.uia 3 0 runtimeId)
        (window.map fun hwnd => .msaa .consoleUpdate hwnd 0 0 0)
      match waiting.findIdx? caret with
      | none => waiting
      | some spot =>
          match lastIdx? change ((waiting.drop (spot+1)).takeWhile Waiting.isEvent),
              waiting[spot]? with
          | some newest,some moved => (waiting.eraseIdx spot).insertIdx (spot+1+newest) moved
          | _,_ => waiting
  | _,_ => waiting

/-- What the batch limits have counted so far, newest first. -/
structure Counts where
  focusKept : Nat
  perThread : Nat → Nat

def Counts.count (counts : Counts) (raiser : Nat) : Counts :=
  {counts with
    perThread := fun thread =>
      if thread=raiser then counts.perThread thread+1 else counts.perThread thread}

def Key.isForeground : Key → Bool
  | .foreground _ _ => true
  | _ => false

def admitOne (focused : Option Object) (counts : Counts) (item : Waiting) : Counts × Bool :=
  let ofFocus := focused.isSome && item.key.bind Key.object=focused
  match item.category with
  | .exempt | .uncounted => (counts,true)
  | .focus =>
      let counts := {counts with focusKept := counts.focusKept+1}
      let amongFocus := decide (counts.focusKept≤focusEventsPerBatch)
      if item.key.any Key.isForeground then
        let counts := counts.count item.raiser
        (counts,amongFocus || decide (counts.perThread item.raiser≤eventsPerThread))
      else (counts,amongFocus)
  | .other =>
      let counts := counts.count item.raiser
      (counts,decide (counts.perThread item.raiser≤eventsPerThread) || ofFocus)

def keepGo (focused : Option Object) (counts : Counts) : List Waiting → List Bool
  | [] => []
  | item::older =>
      (admitOne focused counts item).2::keepGo focused (admitOne focused counts item).1 older

/-- What the batch limits keep of everything that was waiting, oldest first. -/
def admitWaiting (waiting : List Waiting) (focused : Option Object) : List Waiting :=
  let keep := (keepGo focused ⟨0,fun _ => 0⟩ waiting.reverse).reverse
  (waiting.zip keep).filterMap fun (item,keep) => if keep then some item else none

def endsARun : Option Key → Bool
  | some (.msaa kind _ _ _ _) => kind∉[.consoleUpdate,.consoleCaret,.textSelectionChange]
  | some (.menuPopup _ _ _) => true
  | _ => false

def inARun : Option Key → Bool
  | some (.msaaFocus _ _ _ _) | some (.foreground _ _) => true
  | _ => false

/-- The runs so far, each by where its newest is, and the run being collected. -/
structure Runs where
  done : List (Nat × List Nat)
  run : List Nat

def Runs.flush (runs : Runs) : Runs :=
  match runs.run.getLast? with
  | some last => ⟨runs.done++[(last,runs.run)],[]⟩
  | none => runs

def Runs.turn (runs : Runs) (item : Waiting × Nat) : Runs :=
  if inARun item.1.key then {runs with run := runs.run++[item.2]}
  else if endsARun item.1.key then runs.flush
  else runs

def runsOf (kept : List Waiting) : List (Nat × List Nat) :=
  (kept.zipIdx.foldl Runs.turn ⟨[],[]⟩).flush.done

def raisedAt (kept : List Waiting) (index : Nat) : Option UInt32 :=
  kept[index]?.bind fun waiting => (stampOf waiting).map (·.time)

/-- `u32::wrapping_sub` and `cast_signed`. -/
def sinceFirst (first time : UInt32) : Int := (time-first).toInt32.toInt

/-- Puts a run in the order Windows raised its events, when every one carries its time. -/
def inRaisedOrder (kept : List Waiting) (run : List Nat) : List Nat :=
  match run.head?.bind (raisedAt kept) with
  | none => run
  | some first =>
      if run.any (fun index => (raisedAt kept index).isNone) then run
      else
        let key := fun index => (raisedAt kept index).elim 0 (sinceFirst first)
        run.mergeSort fun a b => key a≤key b

def takeEntry (entries : List (Option Entry)) (index : Nat) : List (Option Entry) × Option Entry :=
  (entries.set index none,entries[index]?.join)

def takeEntries : List (Option Entry) → List Nat → List (Option Entry) × List Entry
  | entries,[] => (entries,[])
  | entries,index::indexes =>
      let (entries,first) := takeEntry entries index
      let (entries,rest) := takeEntries entries indexes
      (entries,first.toList++rest)

/-- The planning of a batch, part way. -/
structure Planning where
  entries : List (Option Entry)
  planned : List Planned
  deferred : List Entry

def Key.isMenu : Key → Bool
  | .menuPopup _ _ _ => true
  | _ => false

def Key.isUiaFocus : Key → Bool
  | .uiaFocus _ => true
  | _ => false

def Planning.turn (runs : List (Nat × List Nat)) (msaaMenu : Option Nat) (p : Planning)
    (item : Waiting × Nat) : Planning :=
  let (key,index) := (item.1.key,item.2)
  if inARun key then
    -- An older event of a run waits for its newest, where the run is tried, newest first.
    match runs.find? (fun run => run.1=index) with
    | some run =>
        let (entries,group) := takeEntries p.entries run.2.reverse
        {p with entries, planned := p.planned++[.focus group]}
    | none => p
  else
    let (entries,entry) := takeEntry p.entries index
    match entry with
    | none => {p with entries}
    | some entry =>
        if key.any Key.isUiaFocus then {p with entries, planned := p.planned++[.focus [entry]]}
        else if key.any Key.isMenu then
          if some index=msaaMenu then {p with entries, deferred := p.deferred++[entry]}
          else {p with entries}
        else {p with entries, planned := p.planned++[.run entry]}

def Planned.isBarrier : Planned → Bool
  | .run entry => entry.item.isBarrier
  | _ => false

/-- Plans one batch from everything that was waiting, in the order it arrived. -/
def plan (waiting : List Waiting) (focused : Option Object) : List Planned :=
  let kept := admitWaiting waiting focused
  let msaaMenu := lastIdx? (fun item => item.key.any Key.isMenu) kept
  let runs := (runsOf kept).map fun run => (run.1,inRaisedOrder kept run.2)
  let p := kept.zipIdx.foldl (Planning.turn runs msaaMenu)
    ⟨kept.map fun item => some item.entry,[],[]⟩
  -- An idle query ends its batch: the menu opening that arrived before it is handled before it.
  if p.planned.getLast?.any Planned.isBarrier then
    p.planned.dropLast++p.deferred.map .menu++p.planned.getLast?.toList
  else p.planned++p.deferred.map .menu

namespace Intake

variable (s : Intake) (entry : Entry)

/-- Applies a UIA focus's drop for no window above its sender to the gap record: one that answers
it becomes the record's read, which takes the drop's marker's place. -/
def applyGapOutcome : Intake × Entry × Option Nat :=
  match entry.item with
  | .fact (.uiaFocusDropped marker _ true) _ =>
      let (gap,read) := s.gap.noWindow entry.observedAtUs
      match read with
      | none => ({s with gap},entry,none)
      | some read =>
          ({s with gap},{entry with item := .gapRead read.window, observedAtUs := read.stampUs},
            some marker)
  | _ => (s,entry,none)

def resolvesWithoutRead : Option Intake :=
  match entry.item with
  | .fact (.uiaFocusDropped marker _ _) _ =>
      some {s with waiting := s.waiting.filter (fun w => w.marker≠some marker)}
  | .fact .uiaFocusReadsEnded _ =>
      some {s with waiting := s.waiting.filter (fun w => w.marker.isNone)}
  | _ => none

def unmarked : Entry × Option Nat :=
  match entry.item with
  | .fact (.uiaMarked marker fact) stamp => ({entry with item := .fact fact stamp},some marker)
  | _ => (entry,none)

def markerOf : Option Nat :=
  match entry.item with
  | .fact (.uiaFocusMarker marker) _ => some marker
  | _ => none

def resolvedBy (marked : Option Nat) : Option Nat :=
  match entry.item with
  | .fact (.uiaFocusRead marker _ _) _ => some marker
  | _ => marked

variable (waiting : List Waiting)

/-- Removes what an entry keyed `key`, to take `place` or go to the back, replaces: what waits
now, its place now, and the objects parked for what was removed. -/
def replaceKeyed (key : Option Key) (item : Item) (place : Option Nat) :
    List Waiting × Option Nat × List Nat :=
  match key with
  | none => (waiting,place,[])
  | some key =>
      let spot := place.getD waiting.length
      let (waiting,removed) := removeKeyed waiting key spot
      let (place,unparked) := match removed with
        | none => (place,[])
        | some (found,gone) =>
            (place.map fun place => if found<place then place-1 else place,gone.entry.item.parked)
      let waiting := match key,item with
        | .foreground window raiser,.fact _ stamp =>
            removeClientFocus waiting window raiser stamp
        | _,_ => waiting
      (waiting,place,unparked)

/-- The old focus whose own events go ahead of a read moving into a child of it. -/
def enteredFrom (item : Item) (marks : Marks) : Option (List Int) :=
  match item,marks.focused with
  | .fact (.uiaFocusRead _ read _) _,some (.uia old) =>
      if old∈read.ancestors then some old else none
  | _,_ => none

def moveAhead (place : Option Nat) (entered : Option (List Int)) : List Waiting × Option Nat :=
  match place,entered with
  | some place,some old =>
      ((oldFocusEventsFirst waiting place old).1,some (oldFocusEventsFirst waiting place old).2)
  | _,_ => (waiting,place)

/-- Puts `new` in its place, or at the back. -/
def settle (new : Waiting) : Option Nat → List Waiting
  | some place => if place<waiting.length then waiting.set place new else waiting++[new]
  | none => waiting++[new]

def push (marks : Marks) : Intake × List Nat :=
  let (entry,resolvedByRead) := unmarked entry
  let (key,category,_) := classify entry.item
  let raiser := raiserOf entry.item
  if s.closed then (s,entry.item.parked)
  else
    let (s,entry,gapReadResolves) := s.applyGapOutcome entry
    match s.resolvesWithoutRead entry with
    | some s => (s,[])
    | none =>
        let resolves := resolvedBy entry (resolvedByRead.or gapReadResolves)
        let place := resolves.bind fun resolves =>
          s.waiting.findIdx? fun w => w.marker=some resolves
        let (waiting,place,unparked) := replaceKeyed s.waiting key entry.item place
        let (waiting,place) := moveAhead waiting place (enteredFrom entry.item marks)
        let new : Waiting := ⟨key,category,raiser,markerOf entry,entry⟩
        ({s with waiting := settle waiting new place},unparked)

/-- How much of what waits is ready: everything before the first marker still waiting for its
read, through the first idle query. -/
def ready : Nat :=
  match waiting.findIdx? Waiting.divides with
  | none => waiting.length
  | some spot => if (waiting[spot]?).any (·.marker.isSome) then spot else spot+1

def nextIdle : Intake × Option (Planned × Nat) :=
  if s.closed then (s,none)
  else ({s with idle := none},s.idle.map fun entry => (.run entry,s.batchNumber))

def next (marks : Marks) : Intake × Option (Planned × Nat) :=
  match s.batch with
  | planned::batch => ({s with batch},some (planned,s.batchNumber))
  | [] =>
      if 0<ready s.waiting then
        let waiting := caretAfterUpdate (s.waiting.take (ready s.waiting)) marks.focused
          marks.terminal
        let batch := plan waiting marks.focused
        let s := {s with
          waiting := s.waiting.drop (ready s.waiting)
          batch
          batchNumber := s.batchNumber+1}
        match batch with
        | planned::batch => ({s with batch},some (planned,s.batchNumber))
        | [] => s.nextIdle
      else s.nextIdle

def close : Intake × List Nat :=
  ({s with closed := true, waiting := [], batch := [], idle := none},
    (s.waiting.map (·.entry)++s.batch.flatMap Planned.entries++s.idle.toList).flatMap
      (·.item.parked))

def isQuery (id : RequestId) (entry : Entry) : Bool :=
  match entry.item with
  | .query requestId _ => requestId=id
  | _ => false

theorem item_of_isQuery {id : RequestId} {entry : Entry} (h : isQuery id entry=true) :
    ∃ query, entry.item=.query id query := by
  unfold isQuery at h
  split at h
  next query hitem => exact ⟨query,by rw [hitem,of_decide_eq_true h]⟩
  · cases h

def entries : List Entry := s.waiting.map (·.entry)++s.batch.flatMap Planned.entries

def cancel (id : RequestId) : Intake × Option TraceId :=
  match s.entries.find? (isQuery id) with
  | none => (s,none)
  | some entry =>
      ({s with
        waiting := s.waiting.filter (fun w => !isQuery id w.entry)
        batch := s.batch.filter (fun planned => !planned.entries.any (isQuery id))},
        some entry.trace)

def plainWaiting : Waiting :=
  ⟨(classify entry.item).1,(classify entry.item).2.1,raiserOf entry.item,none,entry⟩

def pushAhead (entries : List Entry) : Intake :=
  if s.closed then s else {s with waiting := entries.map plainWaiting++s.waiting}

def whenIdle : Intake := {s with idle := some entry}

def takeIdle : Intake × Option Entry := ({s with idle := none},s.idle)

end Intake

end Verbatim.Outpost
