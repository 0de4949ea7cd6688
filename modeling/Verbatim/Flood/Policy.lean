import Verbatim.Flood.Backlog
import Verbatim.Core.Queries

namespace Verbatim.Flood

open Verbatim.Terminal
open Verbatim.Core (NodeId QueryId OutpostId TraceId)

abbrev SpeechMark := Nat

def aheadLimit : Nat := 2

def maxTerminalLines : Nat := 10000

structure Settings where
  reportTerminalOutput : Bool
  speakTerminalPasswords : Bool
  terminalFullLines : Nat
  terminalLastLines : Nat
  deriving DecidableEq

def Settings.fullLines (s : Settings) : Nat := max 1 (min s.terminalFullLines maxTerminalLines)

def Settings.lastLines (s : Settings) : Nat := max 1 (min s.terminalLastLines maxTerminalLines)

/-- The focus's terminal output still to be spoken. -/
structure TerminalSpeechState where
  waiting : List Waiting := []
  group : Option Nat := none
  ahead : List (SpeechMark × Bool) := []
  sounding : Option SpeechMark := none
  trace : Option TraceId := none
  deciding : Bool := false
  cutAtMs : Nat := 0
  deriving DecidableEq

/-- The flood policy's requests whose answers continue it. -/
inductive TerminalAsk where
  | read
  | cancel
  | overtaken
  deriving DecidableEq

/-- One request not yet answered; one that nothing waits for continues nothing. -/
structure Open where
  id : QueryId
  outpost : OutpostId
  continues : Option TerminalAsk
  deriving DecidableEq

/-- The flood policy's requests of a terminal's outpost. -/
inductive TextOp where
  | terminalHold
  | terminalRead (hold : Bool)
  | terminalCancel
  deriving DecidableEq

structure Focus where
  node : NodeId
  terminal : Bool
  alive : Bool
  left : Bool
  deriving DecidableEq

/-- A terminal Core reads, and whether its outpost was told to hold its reading. -/
structure TerminalModel where
  node : NodeId
  held : Bool
  deriving DecidableEq

/-- Core as the flood policy sees it. Of the table of queries it has its own only, and their numbers
are unbounded here: the last is given again after 2^64 queries. -/
structure State where
  settings : Settings
  focus : Option Focus
  models : List TerminalModel
  nextQuery : QueryId
  queries : List Open
  nextMark : SpeechMark
  terminal : TerminalSpeechState

/-- What an utterance of output says between its marks. -/
inductive Content where
  | line (text : Text)
  | skippedLines (count : Nat)
  | skippedUncountedLines
  | skippedAboutLines (count : Nat)
  | skippedMoreThanLines (count : Nat)
  | lineCut
  deriving DecidableEq

/-- An utterance of output, queued, between its opening and its closing mark. -/
structure Utterance where
  trace : TraceId
  opening : SpeechMark
  content : Content
  closing : SpeechMark
  deriving DecidableEq

/-- What the policy does: a key's answer spoken at once; a piece of output taken off the waiting
queue, in an utterance or silently; a request of the terminal's outpost. -/
inductive Act where
  | answer (trace : TraceId) (item : TerminalItem)
  | hand (item : Waiting) (spoken : Option Utterance)
  | request (query : QueryId) (node : NodeId) (op : TextOp)

abbrev Acted := State × List Act

def contentOf : Waiting → Content
  | .line text _ => .line text
  | .skipped (.count count) => .skippedLines count
  | .skipped .uncounted => .skippedUncountedLines
  | .skipped (.about count) => .skippedAboutLines count
  | .skipped (.moreThan 0) => .skippedUncountedLines
  | .skipped (.moreThan count) => .skippedMoreThanLines count
  | .cut => .lineCut

namespace State

variable (s : State)

def full : Nat := s.settings.fullLines

def last : Nat := s.settings.lastLines

def terminalFocus : Option NodeId :=
  (s.focus.filter fun focus => focus.alive && focus.terminal).map (·.node)

def modelOf (node : NodeId) : Option TerminalModel :=
  s.models.find? fun model => model.node=node

def focused : Option NodeId :=
  s.terminalFocus.filter fun node => (s.modelOf node).isSome

def holds : Bool :=
  match s.focused.bind s.modelOf with
  | none => false
  | some model => model.held

def noteHeld (node : NodeId) (held : Bool) : List TerminalModel → List TerminalModel
  | [] => []
  | model::rest =>
      if model.node=node then {model with held := held}::rest
      else model::noteHeld node held rest

def setHeld (held : Bool) : State :=
  match s.focused with
  | none => s
  | some node => {s with models := noteHeld node held s.models}

def request (op : TextOp) (continues : Option TerminalAsk) : Option (State × Act) :=
  match s.focused with
  | none => none
  | some node => some
      ({s with
          nextQuery := s.nextQuery+1
          queries := s.queries++[⟨s.nextQuery,node.outpost,continues⟩]},
        .request s.nextQuery node op)

def asked (ask : TerminalAsk) : Bool :=
  s.queries.any fun query => query.continues=some ask

/-- Tells the outpost to hold once as many lines wait, here or in speech, as a group speaks. -/
def holdIfFull : Acted :=
  if s.holds || s.asked .cancel ||
      decide (waitingLines s.terminal.waiting+(s.terminal.ahead.filter (·.2)).length<s.full)
  then (s,[])
  else match s.request .terminalHold none with
    | none => (s,[])
    | some (s,act) => (s.setHeld true,[act])

/-- Asks the outpost for what is new, then to hold or to read each change at once again. -/
def ask (hold : Bool) : Acted :=
  if s.asked .read || s.asked .cancel then (s,[])
  else match s.request (.terminalRead hold) (some .read) with
    | none => (s,[])
    | some (s,act) => (s.setHeld hold,[act])

/-- The policy's decision once the group has been heard: when more lines wait than are spoken in
full, everything but the newest becomes one skipped count; what waits then is the next group. -/
def decide : State :=
  if s.terminal.waiting=[] then {s with terminal.group := none}
  else
    let lines := waitingLines s.terminal.waiting
    if skips s.terminal.waiting 0 s.full then
      {s with
        terminal.waiting := skipAllBut s.terminal.waiting 0 s.last
        terminal.group := some (max s.full (min lines s.last))}
    else {s with terminal.group := some (max s.full lines)}

/-- A line of the group is handed to speech: handing on the last while the outpost holds asks it
for what is new. -/
def countDown : Acted :=
  match s.terminal.group with
  | none => (s,[])
  | some left =>
      let s := {s with terminal.group := some (left - 1)}
      if left-1=0 && s.holds then s.ask true else (s,[])

variable (item : Waiting)

def silent : Bool :=
  match item with
  | .line text _ => isBlank text
  | item => isMark item &&
      skipSaysMoreThan s.terminal.waiting (s.terminal.group.getD 0) s.full s.last

/-- The item in an utterance of its own between two new marks. -/
def speak (trace : TraceId) (item : Waiting) : State × Utterance :=
  ({s with
      nextMark := s.nextMark+2
      terminal.ahead := s.terminal.ahead++[(s.nextMark,isLine item)]
      terminal.sounding := some (s.nextMark+1)},
    ⟨trace,s.nextMark,contentOf item,s.nextMark+1⟩)

def takeOff (rest : List Waiting) : Acted :=
  let s := {s with terminal.waiting := rest}
  if isLine item then s.countDown else (s,[])

def handOne (trace : TraceId) (item : Waiting) (rest : List Waiting) : Acted :=
  let (s,asks) := s.takeOff item rest
  if s.silent item then (s,asks++[.hand item none])
  else
    let (s,utterance) := s.speak trace item
    (s,asks++[.hand item (some utterance)])

/-- Enough is ahead of playback, or the group is over: it ends after its last line and what
belongs to it. -/
def stopsAt : Bool :=
  aheadLimit ≤ s.terminal.ahead.length || (s.terminal.group=some 0 && !belongs item)

/-- Hands what waits to speech until enough is ahead of playback, as far as the group being
spoken goes. -/
def handOn (trace : TraceId) : List Waiting → State → Acted
  | [],s => (s,[])
  | item::rest,s =>
      if s.stopsAt item then (s,[])
      else
        let (s,acts) := s.handOne trace item rest
        let (s,more) := handOn trace rest s
        (s,acts++more)

/-- Nothing is heard any more, and the group is over or nothing waits. -/
def heard : Bool :=
  s.terminal.ahead.isEmpty && s.terminal.group.isSome &&
    (s.terminal.group=some 0 || s.terminal.waiting.isEmpty)

def goLive : Acted :=
  if s.terminal.waiting.isEmpty && s.holds then s.ask false else (s,[])

/-- The turns the pump can still take: each decision ends the burst or starts a group, and each
group hands on at least one item. -/
def turns : Nat :=
  2 * s.terminal.waiting.length+(match s.terminal.group with
    | none => 0
    | some 0 => 2
    | some (_+1) => 1)

/-- Hands waiting output to speech. Blank lines handed on without speech can end a group, or
everything waiting, with nothing sounding whose end would look at the backlog. -/
def pumpLoop : Nat → TraceId → State → Acted
  | 0,_,s => (s,[])
  | fuel+1,trace,s =>
      let (s,acts) := handOn trace s.terminal.waiting s
      if s.terminal.sounding.isNone && s.heard then
        if s.asked .read then ({s with terminal.deciding := true},acts)
        else match s.terminal.trace with
          | none => (s,acts)
          | some trace =>
              let (s,more) := pumpLoop fuel trace s.decide
              let (s,live) := s.goLive
              (s,acts++more++live)
      else (s,acts)

def pump (trace : TraceId) : Acted := pumpLoop (s.turns+1) trace s

def decideAndPump : Acted :=
  match s.terminal.trace with
  | none => (s,[])
  | some trace =>
      let (s,acts) := s.decide.pump trace
      let (s,live) := s.goLive
      (s,acts++live)

/-- Playback reached a mark. An opening one: its utterance plays, and more is handed on. The
closing one of the last utterance: once the group is over, or everything waiting, the backlog is
looked at, after the answer to what Core asked. -/
def markReached (mark : SpeechMark) : Acted :=
  match s.terminal.trace with
  | none => (s,[])
  | some trace =>
      if s.terminal.ahead.any (·.1=mark) then
        {s with terminal.ahead := s.terminal.ahead.dropWhile (·.1 ≤ mark)}.pump trace
      else if s.terminal.sounding≠some mark then (s,[])
      else
        let s := {s with terminal.sounding := none}
        if s.heard then
          if s.asked .read then ({s with terminal.deciding := true},[]) else s.decideAndPump
        else s.pump trace

/-- Tells an outpost that holds, or that Core asked, to read to the end without speaking. A
request still unanswered is overtaken. -/
def cancel : Acted :=
  if (!s.holds && !s.asked .read) || s.focused.isNone then (s,[])
  else
    let queries := s.queries.map fun query =>
      if query.continues=some .cancel || query.continues=some .overtaken
      then {query with continues := none} else query
    let queries := match queries.findIdx? (·.continues=some .read) with
      | none => queries
      | some index => queries.modify index fun query => {query with continues := some .overtaken}
    let s := {s with queries := queries}
    match s.request .terminalCancel (some .cancel) with
    | none => (s,[])
    | some (s,act) => (s.setHeld false,[act])

/-- Speech was cut off: output waiting or handed to speech is dropped. -/
def cut (atMs : Nat) : Acted :=
  {s with
    terminal.waiting := []
    terminal.ahead := []
    terminal.sounding := none
    terminal.group := none
    terminal.deciding := false
    terminal.cutAtMs := max s.terminal.cutAtMs atMs}.cancel

/-- An utterance cut off before playback reached its marks: when output waits for one of them,
speech was cut off. -/
def utteranceCancelled (marks : List SpeechMark) (atMs : Nat) : Acted :=
  if s.terminal.sounding.any (marks.contains ·) || s.terminal.ahead.any (marks.contains ·.1)
  then s.cut atMs else (s,[])

/-- The focus moves to the node: another node's output, or that of a focus left, is forgotten,
and the answers to the policy's requests are taken by nothing. -/
def focusMoved (node : NodeId) (left : Bool) : State :=
  if left || s.focus.all (fun focus => focus.node≠node) then
    {s with
      terminal := {}
      queries := s.queries.map (fun query => {query with continues := none})}
  else s

def dropWaiting : Acted :=
  {s with
    terminal.waiting := []
    terminal.group := if s.terminal.ahead.isEmpty then none else s.terminal.group
    terminal.deciding := false}.cancel

/-- Verbatim+5. -/
def toggle : Acted :=
  let on := !s.settings.reportTerminalOutput
  let s := {s with settings.reportTerminalOutput := on}
  if on then (s,[]) else s.dropWaiting

def changeSettings (settings : Settings) : Acted :=
  let (s,acts) := if s.settings.reportTerminalOutput && !settings.reportTerminalOutput
    then s.dropWaiting else (s,[])
  ({s with settings := settings},acts)

end State

/-- What a key's answer says at once; typing spoken as it is typed is not echoed again. -/
def answers (passwords : Bool) : SaidItem → Option TerminalItem
  | .item (.echo text) => if passwords then none else some (.echo text)
  | .item said => if said.isOutput then none else some said
  | .line _ => none

namespace State

section Reads

variable (graphemes : Graphemes) (s : State) (trace : TraceId)

/-- Takes the output in: queues it and hands the oldest to speech. -/
def takeOutput (items : List SaidItem) : Acted :=
  let group := s.terminal.group.getD s.full
  let waiting := queue graphemes s.full s.last (some group) s.terminal.waiting items
  let (waiting,group) := bound waiting (some group)
  let (s,acts) := {s with
    terminal.trace := some trace
    terminal.group := group
    terminal.waiting := waiting}.pump trace
  let (s,held) := s.holdIfFull
  (s,acts++held)

/-- Takes in what the focused terminal said: speaks the answers to keys, then, unless the output
was read before a cut, queues it and hands the oldest to speech. -/
def take (items : List SaidItem) (beforeCut : Bool) : Acted :=
  let spoken := (items.filterMap (answers s.settings.speakTerminalPasswords)).map (Act.answer trace)
  if !s.settings.reportTerminalOutput || beforeCut || !items.any SaidItem.isOutput
  then (s,spoken)
  else
    let (s,acts) := s.takeOutput graphemes trace items
    (s,spoken++acts)

/-- What the focused terminal said, read at a time: what was read before the last cut, or before
the outpost took the cancel, is dropped. -/
def speech (observedAtMs : Nat) (node : NodeId) (items : List SaidItem) : Acted :=
  if s.focus.any (fun focus => focus.alive && focus.node=node) then
    let beforeCut := s.asked .cancel || (observedAtMs≠0 && observedAtMs<s.terminal.cutAtMs)
    s.take graphemes trace items beforeCut
  else (s,[])

/-- Takes in what the read answering a request said, and looks at the backlog when the group was
already heard. -/
def answered (ask : TerminalAsk) (items : List SaidItem) : Acted :=
  match ask with
  | .cancel => s.take graphemes trace items true
  | .overtaken => s.take graphemes trace items true
  | .read =>
      let (s,spoken) := s.take graphemes trace items false
      if s.terminal.deciding then
        let (s,acts) := {s with terminal.deciding := false}.decideAndPump
        (s,spoken++acts)
      else (s,spoken)

end Reads

end State

end Verbatim.Flood
