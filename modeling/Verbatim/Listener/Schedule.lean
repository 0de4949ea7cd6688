import Verbatim.ReaderRules.InFlight
import Mathlib.Data.List.Basic

namespace Verbatim.Listener

open Framework ReaderRules

abbrev Pid := Nat

/-- How many of an application's threads may be abandoned before it gets no new one. -/
def abandonedLimit : Nat := 2

def notInTime : String := "its read did not return in time"
def movedOn : String := "the user moved on from a slow window"
def stoppedResponding : String := "its window stopped responding"
def waitedTooLong : String := "it waited too long behind its application's abandoned reads"
def replacedByNewer : String := "a newer focus event of its element replaced it"
def shuttingDown : String := "the listener is shutting down"
def noThread : String := "no thread to read it"

/-- The kind of UIA event a reading thread takes. -/
inductive FocusEvent where
  | focus
  | menuOpened
  | selection
  | notification
  deriving DecidableEq

structure Meta where
  marker : Nat
  kind : FocusEvent
  trace : Nat
  deriving DecidableEq

/-- What became of one event: `R` is a focus as read, `F` a fact passed on. -/
inductive Judged (R F : Type) where
  | read (read : R)
  | dropped (reason : String)
  | passed (fact : F)
  deriving DecidableEq

def Judged.isRead {R F : Type} : Judged R F → Bool
  | .read _ => true
  | _ => false

/-- One input to the schedule: `J` is what an event's read takes. -/
inductive ScheduleInput (J R F : Type) where
  | push (pid : Pid) (info : Meta) (job : J) (kind : FocusEvent) (key : Option (List Int))
      (window : RuleWindow)
  | next (pid : Pid) (generation : Nat)
  | returned (pid : Pid) (request : Request) (info : Meta) (judged : Judged R F)
      (top : Option Window)
  | tick
  | learned (pid : Pid) (request : Request) (window : Window)
  | armed (pid : Pid) (request : Request) (bound : Nat)
  | judged (pid : Pid) (request : Request) (verdict : Option Reason)
  | published (pid : Pid) (request : Request) (read : Option R) (thenAbandon : Option Reason)
  | foreground (topLevel : Option Window) (runningTops : List (Pid × Option Window))
  | msaaFocus (pid : Pid)
  | outpostEnded (pid : Pid)
  | whenIdle (waiter : Nat)
  | spawnFailed (pid : Pid) (generation : Nat)
  | stop

inductive Waking where
  | thread (pid : Pid)
  | all
  deriving DecidableEq

inductive AlarmChange where
  | set (due : Option Nat)
  | now
  deriving DecidableEq

/-- An event's place in the order every event was queued in, and the newest place
at which the user moved away from its application before it was queued. -/
structure QueuePlace where
  place : Nat
  leftAt : Nat
  deriving DecidableEq

structure Job (J : Type) where
  pid : Pid
  request : Request
  info : Meta
  work : J
  window : RuleWindow
  afterElsewhere : Bool
  queue : QueuePlace

inductive ScheduleEffect (J R F : Type) where
  | outcome (pid : Pid) (info : Meta) (judged : Judged R F)
  | spawn (pid : Pid) (generation : Nat) (reuse : Bool)
  | wake (waking : Waking)
  | unwatch (pid : Pid)
  | forgetLast
  | forget (pid : Pid)
  | alarm (change : AlarmChange)
  | runIdle (waiter : Nat)
  | job (job : Job J)
  | judge (pid : Pid) (request : Request) (window : Window)
  | publish (pid : Pid) (request : Request) (thenAbandon : Option Reason)

structure Queued (J : Type) where
  place : Nat
  afterElsewhere : Bool
  leftAt : Nat
  kind : FocusEvent
  key : Option (List Int)
  window : RuleWindow
  info : Meta
  job : J

structure Reading where
  info : Meta
  kind : FocusEvent
  place : Nat
  deriving DecidableEq

structure App (J : Type) where
  queue : List (Queued J)
  threaded : Bool
  flight : InFlight Reading
  abandoned : Nat
  limitReached : Option Nat
  ending : Bool
  leftAt : Nat
  lastTop : Option Window

namespace App

variable {J : Type}

def new : App J := ⟨[],false,InFlight.new,0,none,false,0,none⟩

variable (app : App J)

def inCharge (generation : Nat) : Bool :=
  app.threaded && app.flight.generation=generation

def spent : Bool :=
  app.ending && !app.threaded && app.abandoned=0 && app.queue.isEmpty

def waitingEnd (deadline : Nat) : Option Nat :=
  if app.threaded || app.queue.isEmpty then none
  else app.limitReached.map fun reached => satAdd reached deadline

/-- The top-level window of its read under way, as the shell knows it, or else of its
last read. -/
def reference (pid : Pid) (runningTops : List (Pid × Option Window)) : Option Window :=
  if app.flight.running.isSome then (runningTops.find? fun top => top.1=pid).bind (·.2)
  else app.lastTop

def dues (deadline : Nat) : List Nat :=
  app.flight.nextWake.toList++(app.waitingEnd deadline).toList

end App

/-- The read scheduler. The count of events queued is unbounded here. -/
structure Schedule (J : Type) where
  deadline : Nat
  apps : Std.ExtTreeMap Pid (App J)
  stopping : Bool
  queued : Nat
  idleWaiters : List (Nat × Nat)
  lastFocus : Option Pid
  alarmDue : Option Nat

/-- What a transition leaves, and its effects. -/
abbrev Handled (J R F : Type) := Schedule J × List (ScheduleEffect J R F)

namespace Schedule

variable {J R F : Type}

def new (deadline : Nat) : Schedule J := ⟨deadline,∅,false,0,[],none,none⟩

variable (s : Schedule J) (pid : Pid)

def setApp (app : App J) : Schedule J :=
  {s with apps := s.apps.insert pid app}

def values : List (App J) := s.apps.toList.map Prod.snd

def due : Option Nat := (s.values.flatMap fun app => app.dues s.deadline).min?

/-- Sets the watchdog's alarm to the soonest time anything is due, when that
differs from the time it is set to. -/
def setAlarm : Handled J R F :=
  if s.stopping then (s,[])
  else if s.due≠s.alarmDue then ({s with alarmDue := s.due},[.alarm (.set s.due)])
  else (s,[])

def oldestPlace (app : App J) : Option Nat :=
  match app.flight.running with
  | some running =>
      if running.walk=.published then app.queue.head?.map Queued.place
      else some running.item.place
  | none => app.queue.head?.map Queued.place

/-- Runs each waiter for which every event queued before it has its outcome sent. -/
def wakeIdleWaiters : Handled J R F :=
  let oldest := (s.values.filterMap oldestPlace).min?
  let due := fun (waiter : Nat × Nat) => oldest.all (fun oldest => waiter.1<oldest)
  ({s with idleWaiters := s.idleWaiters.dropWhile due},
    (s.idleWaiters.takeWhile due).map fun waiter => .runIdle waiter.2)

def movedAwayFromAllBut : Schedule J :=
  {s with apps := s.apps.map (fun owner app =>
      if owner≠pid then {app with leftAt := s.queued} else app)}

def start (reuse : Bool) : Handled J R F :=
  match s.apps[pid]? with
  | none => (s,[])
  | some app =>
      let (flight,generation) := app.flight.succeed
      (s.setApp pid {app with flight, threaded := true},[.spawn pid generation reuse])

def dropAll (events : List (Queued J)) (reason : String) : List (ScheduleEffect J R F) :=
  events.map fun queued => .outcome pid queued.info (.dropped reason)

def dropWaiting : Handled J R F :=
  match s.apps[pid]? with
  | none => (s,[])
  | some app =>
      if app.threaded || app.queue.isEmpty then (s,[])
      else
        let (s,woken) := (s.setApp pid {app with queue := []}).wakeIdleWaiters
        (s,dropAll pid app.queue waitedTooLong++woken)

/-- NVDA's limiter keeps one waiting event per element and kind: whether the
newer event of `kind` and `key` erases `waiting`. -/
def replaces (kind : FocusEvent) (key : Option (List Int)) (waiting : Queued J) : Bool :=
  key.isSome && (waiting.kind=kind && waiting.key=key)

/-- Erases the events a newer one of `kind` and `key` replaces; the application runs on. -/
def replaceWaiting (kind : FocusEvent) (key : Option (List Int)) :
    Handled J R F :=
  let app := (s.apps[pid]?).getD App.new
  let replaced := app.queue.filter (replaces kind key)
  let s := s.setApp pid
    {app with ending := false, queue := app.queue.filter (fun w => !replaces kind key w)}
  let (s,woken) := if replaced.isEmpty then (s,[]) else s.wakeIdleWaiters
  (s,dropAll pid replaced replacedByNewer++woken)

def movesFocus : FocusEvent → Bool
  | .focus | .menuOpened => true
  | .selection | .notification => false

def enqueue (info : Meta) (job : J) (kind : FocusEvent)
    (key : Option (List Int)) (window : RuleWindow) : Schedule J :=
  let s := {s with queued := s.queued+1}
  let afterElsewhere := movesFocus kind && s.lastFocus≠some pid
  let s := if movesFocus kind then
    {s with lastFocus := some pid}.movedAwayFromAllBut pid else s
  match s.apps[pid]? with
  | none => s
  | some app => s.setApp pid {app with queue := app.queue ++
      [⟨s.queued,afterElsewhere,app.leftAt,kind,key,window,info,job⟩]}

/-- What reads the events now waiting: the thread in charge, a new one, or, at the
abandoned limit, none until the bound. -/
def attend (now : Nat) (pid : Pid) : Handled J R F :=
  match s.apps[pid]? with
  | none => (s,[])
  | some app =>
      if app.threaded then (s,[.wake (.thread pid)])
      else if app.limitReached.any (fun reached => satAdd reached s.deadline≤now) then
        s.dropWaiting pid
      else if abandonedLimit≤app.abandoned then (s,[])
      else s.start pid false

def push (now : Nat) (pid : Pid) (info : Meta) (job : J) (kind : FocusEvent)
    (key : Option (List Int)) (window : RuleWindow) : Handled J R F :=
  if s.stopping then (s,[.outcome pid info (.dropped shuttingDown)])
  else
    let (s,replaced) := s.replaceWaiting pid kind key
    let (s,attended) := (s.enqueue pid info job kind key window).attend now pid
    (s,replaced++attended)

/-- Lets `pid`'s spent application go: the one place an application is removed. -/
def letGo : Handled J R F :=
  ({s with apps := s.apps.erase pid},[.forget pid])

def next (now : Nat) (pid : Pid) (generation : Nat) : Handled J R F :=
  if s.stopping then (s,[])
  else match s.apps[pid]? with
  | none => (s,[])
  | some app =>
      if !app.inCharge generation then (s,[])
      else match app.queue with
      | queued::rest =>
          let (flight,request) := app.flight.start ⟨queued.info,queued.kind,queued.place⟩
            s.deadline queued.window now
          (s.setApp pid {app with queue := rest, flight},
            [.job ⟨pid,request,queued.info,queued.job,queued.window,queued.afterElsewhere,
              ⟨queued.place,queued.leftAt⟩⟩])
      | [] =>
          if app.ending then
            let app := {app with threaded := false}
            let s := s.setApp pid app
            if app.spent then s.letGo pid else (s,[])
          else (s,[])

def returned (request : Request) (info : Meta) (judged : Judged R F)
    (top : Option Window) : Handled J R F :=
  match s.apps[pid]? with
  | none => (s,[])
  | some app =>
      if app.inCharge request.generation then
        let app := if judged.isRead && top.isSome then {app with lastTop := top} else app
        let (flight,ended) := app.flight.endOf request
        let outcome := match ended with
          | some (_,false) => [.outcome pid info judged]
          | _ => []
        let (s,woken) := (s.setApp pid {app with flight}).wakeIdleWaiters
        (s,outcome++woken)
      else
        let abandoned := app.abandoned-1
        let app := {app with
          abandoned
          limitReached := if abandoned<abandonedLimit then none else app.limitReached}
        let s := s.setApp pid app
        if app.spent then
          let (s,gone) := s.letGo pid
          (s,.forgetLast::gone)
        else if app.threaded || app.queue.isEmpty || s.stopping then (s,[.forgetLast])
        else
          let (s,spawned) := s.start pid true
          (s,.forgetLast::spawned)

def dropReason : Reason → String
  | .movedOn => movedOn
  | .deadline => notInTime
  | .hung => stoppedResponding

/-- Carries out an abandonment: the thread is in charge no more, its event is dropped
unless it was published, and a new thread takes the events waiting below the limit. -/
def abandon (now : Nat) (pid : Pid) (abandoned : Abandoned Reading) :
    Handled J R F :=
  match s.apps[pid]? with
  | none => (s,[])
  | some app =>
      let count := app.abandoned+1
      let app := {app with
        threaded := false
        abandoned := count
        limitReached := if abandonedLimit≤count && app.limitReached.isNone then some now
          else app.limitReached}
      let s := s.setApp pid app
      let outcome := if abandoned.published then []
        else [.outcome pid abandoned.item.info (.dropped (dropReason abandoned.reason))]
      let (s,spawned) := if !app.queue.isEmpty && count<abandonedLimit then s.start pid false
        else (s,[])
      let (s,woken) := s.wakeIdleWaiters
      (s,.unwatch pid::outcome++spawned++woken)

/-- Does what `pid`'s work in flight decided: asks the shell, or abandons. A read's
window is known or learned, so it is never judged without one. -/
def decided (now : Nat) (pid : Pid) (decision : Decision Reading) :
    Handled J R F :=
  match decision with
  | .nothing => (s,[])
  | .ask (.judge request (some window)) => (s,[.judge pid request window])
  | .ask (.judge _ none) => (s,[])
  | .ask (.publish request thenAbandon) => (s,[.publish pid request thenAbandon])
  | .abandon abandoned => s.abandon now pid abandoned

def tickApp (now : Nat) (pid : Pid) : Handled J R F :=
  match s.apps[pid]? with
  | none => (s,[])
  | some app =>
      if app.flight.running.isSome then
        let (flight,decision) := app.flight.tick now
        (s.setApp pid {app with flight}).decided now pid decision
      else if (app.waitingEnd s.deadline).any (fun ending => ending≤now) then s.dropWaiting pid
      else (s,[])

def tickAll (now : Nat) : List Pid → Schedule J → Handled J R F
  | [],s => (s,[])
  | pid::pids,s =>
      let (s,first) := s.tickApp now pid
      let (s,rest) := tickAll now pids s
      (s,first++rest)

def tick (now : Nat) : Handled J R F :=
  if s.stopping then (s,[]) else tickAll now s.apps.keys s

def learned (now : Nat) (pid : Pid) (request : Request) (window : Window) :
    Handled J R F :=
  if s.stopping then (s,[])
  else match s.apps[pid]? with
  | none => (s,[])
  | some app =>
      let (flight,decision) := app.flight.learned request window now
      (s.setApp pid {app with flight}).decided now pid decision

def armed (request : Request) (bound : Nat) : Schedule J :=
  match s.apps[pid]? with
  | none => s
  | some app => s.setApp pid {app with flight := app.flight.armed request bound}

def judged (now : Nat) (pid : Pid) (request : Request)
    (verdict : Option Reason) : Handled J R F :=
  match s.apps[pid]? with
  | none => (s,[])
  | some app =>
      let (flight,decision) := app.flight.judged request verdict
      (s.setApp pid {app with flight}).decided now pid decision

/-- The shell's answer to a publication: the read, when its progress was there, is sent
as its outcome while it is under way and not published. -/
def published (now : Nat) (pid : Pid) (request : Request) (read : Option R)
    (thenAbandon : Option Reason) : Handled J R F :=
  match s.apps[pid]? with
  | none => (s,[])
  | some app =>
      let info := (app.flight.running.filter fun running =>
        app.flight.accepts running.request && running.request=request).map (·.item.info)
      let outcome := match info,read with
        | some info,some read => [.outcome pid info (.read read)]
        | _,_ => []
      let got := info.isSome && read.isSome
      let (flight,decision) := app.flight.published request got thenAbandon now
      let s := s.setApp pid {app with flight}
      let (s,woken) := if got then s.wakeIdleWaiters else (s,[])
      let (s,effects) := s.decided now pid decision
      (s,outcome++woken++effects)

/-- A foreground event moves away from each application whose read under way, or else
whose last read, is of another top-level window or an unknown one. -/
def foreground (topLevel : Option Window) (runningTops : List (Pid × Option Window)) : Schedule J :=
  {s with apps := s.apps.map (fun pid app =>
      let reference := app.reference pid runningTops
      if reference.isNone || reference≠topLevel then {app with leftAt := s.queued} else app)}

def outpostEnded : Handled J R F :=
  match s.apps[pid]? with
  | none => (s,[])
  | some app =>
      let app := {app with ending := true}
      let s := s.setApp pid app
      if app.spent then s.letGo pid else (s,[.wake (.thread pid)])

def spawnFailed (generation : Nat) : Handled J R F :=
  match s.apps[pid]? with
  | none => (s,[])
  | some app =>
      if !app.inCharge generation then (s,[])
      else
        let dropped := dropAll pid app.queue noThread
        let app := {app with threaded := false, queue := []}
        let s := s.setApp pid app
        let (s,gone) := if app.spent then s.letGo pid else (s,[])
        let (s,woken) := s.wakeIdleWaiters
        (s,dropped++gone++woken)

variable (input : ScheduleInput J R F)

def handle (now : Nat) : Handled J R F :=
  match input with
  | .push pid info job kind key window => s.push now pid info job kind key window
  | .next pid generation => s.next now pid generation
  | .returned pid request info judged top => s.returned pid request info judged top
  -- The alarm's timer goes off once: it is set again even to a time that has not changed.
  | .tick => {s with alarmDue := none}.tick now
  | .learned pid request window => s.learned now pid request window
  | .armed pid request bound => (s.armed pid request bound,[])
  | .judged pid request verdict => s.judged now pid request verdict
  | .published pid request read thenAbandon => s.published now pid request read thenAbandon
  | .foreground topLevel runningTops => (s.foreground topLevel runningTops,[])
  | .msaaFocus pid => (s.movedAwayFromAllBut pid,[])
  | .outpostEnded pid => s.outpostEnded pid
  | .whenIdle waiter =>
      if s.stopping then (s,[])
      else {s with idleWaiters := s.idleWaiters++[(s.queued,waiter)]}.wakeIdleWaiters
  | .spawnFailed pid generation => s.spawnFailed pid generation
  | .stop => ({s with stopping := true},[.wake .all,.alarm .now])

/-- Takes one input at `now` and returns its effects in the order they are applied. -/
def step (now : Nat) : Handled J R F :=
  let (s,effects) := s.handle input now
  let (s,alarm) := s.setAlarm
  (s,effects++alarm)

end Schedule

end Verbatim.Listener
