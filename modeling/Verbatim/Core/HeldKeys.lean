import Verbatim.Core.State

namespace Verbatim.Core

open Framework

variable {P : Parts}

/-- What a step does: its effects, and the keys and commands it handled, in order. -/
structure Log (P : Parts) where
  effects : List (Effect P) := []
  handled : List (WaitingKey P) := []

abbrev Logged (P : Parts) := SrState P × Log P

namespace Log

def append (log other : Log P) : Log P := ⟨log.effects++other.effects,log.handled++other.handled⟩

instance : Append (Log P) := ⟨append⟩

def forKey (trace : TraceId) (log : Log P) : Log P :=
  {log with effects := log.effects.map (.forKey trace)}

end Log

def andThen (r : Logged P) (next : SrState P → Logged P) : Logged P :=
  ((next r.1).1,r.2++(next r.1).2)

def emitting (s : SrState P) (effects : List (Effect P)) : Logged P := (s,{effects})

def runAct (s : SrState P) : Act P → Logged P
  | .change f => emitting {s with view := f s.view} []
  | .ask forKey node op continues =>
      let request := Effect.request s.queries.next node op
      emitting {s with queries := s.queries.ask node op.asked (.later continues)}
        [forKey.elim request fun trace => .forKey trace request]
  | .askMemory node continues =>
      emitting {s with queries := s.queries.ask node .memory (.later continues)} []
  | .forget which =>
      emitting {s with queries := s.queries.forget (Then.picked which) (.later .nothing)} []
  | .findMut which f =>
      emitting {s with queries := s.queries.findMut (Then.picked which) (Then.map f)} []
  | .forgetMemory ids => emitting {s with queries := s.queries.forgetMemory ids} []
  | .emit effect => emitting s [.other effect]

def runActs (s : SrState P) : List (Act P) → Logged P
  | [] => (s,{})
  | act::acts => andThen (runAct s act) fun s => runActs s acts

def Later.withLaterKey (atMs : Nat) : Later P → Later P
  | .caret pending =>
      if pending.laterKeyAtMs.isNone ∧ atMs≠0 then
        .caret {pending with laterKeyAtMs := some atMs}
      else .caret pending
  | continues => continues

def laterKey (s : SrState P) (atMs : Nat) : SrState P :=
  let f := Then.map (Later.withLaterKey atMs)
  {s with queries := s.queries.findMut (Then.picked Later.isCaret) f}

def supersedeCaret (s : SrState P) (node : NodeId) : SrState P × List P.Segment :=
  match s.queries.find (Then.picked Later.isCaret) with
  | some (id,.later (.caret old)) =>
      let queries := s.queries.replace id (.later .nothing)
      if old.node≠node then ({s with queries},[])
      else
        let queries := queries.forget (Then.picked Later.isSuperseded) (.later .nothing)
        ({s with queries := queries.replace id (.later (.supersededCaret node))},old.heard)
  | _ => (s,[])

section Handled

variable (h : Handlers P) (s : SrState P)

/-- Asks for a caret key's watch: a held key waits for the newest watch. -/
def askWatch (node : NodeId) (watch : P.Watch) (continues : Later P) : Logged P :=
  let id := s.queries.next
  let queries := s.queries.ask node .watch (.later continues)
  let awaitingWatch := s.held.awaitingWatch.map (fun _ => id)
  emitting {s with queries, held := {s.held with awaitingWatch}}
    [.request id node (.awaitCaret watch)]

/-- A caret key passed to the application: its focus's outpost is asked to watch for evidence. -/
def caretKey (key : P.Key) (pressedAtMs : Nat) : Logged P :=
  andThen (runActs s (h.beforeCaretKey s key pressedAtMs)) (fun s =>
    match s.textFocus with
    | none => (s,{})
    | some node =>
        let (watch,pending) := h.caretWatch s key pressedAtMs
        let (s,heard) := supersedeCaret {s with view := h.followCaret node s.view} node
        askWatch s node watch (.caret ⟨node,none,heard,pending⟩))

def watchOf (effects : List (Effect P)) : Option QueryId :=
  effects.findSome? (fun effect => match effect with
    | .request id _ (.awaitCaret _) => some id
    | _ => none)

variable (key : HeldKey P)

def watchHeld (atMs : Nat) : Logged P :=
  andThen (runActs s (h.terminalKey s key.key atMs key.trace)) fun s => caretKey h s key.key atMs

def passHeld (atMs : Nat) : Logged P :=
  let (s,log) := watchHeld h {s with held := {s.held with passedAtMs := atMs}} key atMs
  ({s with held := {s.held with awaitingWatch := watchOf log.effects}},
    log++⟨[.passHeldKey key.trace],[.held key]⟩)

/-- Starts the read of the caret before a held key, or passes it on at once. -/
def startHeld : Logged P :=
  match s.textFocus with
  | none => passHeld h s key key.pressedAtMs
  | some node =>
      let id := s.queries.next
      let queries := s.queries.ask node .read (.heldRead ⟨node,key⟩)
      emitting {s with queries, held := {s.held with bounded := some key.trace}}
        [.boundHeldKey (some (key.trace,heldReadBoundMs)),.request id node .readCaret]

def keyInput (input : KeyInput P) : Logged P :=
  andThen (runActs s (h.key s input)) (fun s => match input with
    | .caretKey _ key pressedAtMs => caretKey h s key pressedAtMs
    | _ => (s,{}))

def handleFront : WaitingKey P → Logged P
  | .held key => startHeld h s key
  | .later input =>
      let (s,log) := keyInput h s (input.pressedNoEarlier s.held.passedAtMs)
      (s,log++⟨[],[.later input]⟩)
  | .command input =>
      let (s,log) := runActs s (h.command s input)
      (s,log++⟨[],[.command input]⟩)

def HeldKeys.dueMs (held : HeldKeys P) : Nat := satAdd held.passedAtMs keyAheadBoundMs

/-- The loop over the line: at most `fuel` keys, with the key whose wait ended it. -/
def nextHeldLoop : Nat → SrState P → Bool → SrState P × Log P × Option TraceId
  | 0,s,_ => (s,{},none)
  | fuel+1,s,behind =>
      if s.readingHeld.isSome then (s,{},none)
      else match s.held.waiting with
        | [] => (s,{},none)
        | front::waiting =>
            let s := if behind then laterKey s s.held.passedAtMs else s
            let blocks := if s.held.awaitingWatch.isSome then front.waits else none
            match blocks.filter (fun (_,pressedAtMs) => pressedAtMs<s.held.dueMs) with
            | some (trace,pressedAtMs) =>
                if s.held.bounded=some trace then (s,{},some trace)
                else
                  let now := max pressedAtMs s.held.passedAtMs
                  ({s with held := {s.held with bounded := some trace}},
                    {effects := [.boundHeldKey (some (trace,s.held.dueMs-now))]},some trace)
            | none =>
                let awaitingWatch := if blocks.isSome then none else s.held.awaitingWatch
                let s := {s with held := {s.held with waiting, awaitingWatch}}
                let (s,own) := handleFront h s front
                let (s,log,blocked) := nextHeldLoop fuel s true
                (s,own.forKey front.trace++log,blocked)

/-- Handles the keys waiting, in order, until a read is in flight, one waits for the key ahead, or
none waits. -/
def nextHeld (behind : Bool) : Logged P :=
  let (s,log,blocked) := nextHeldLoop h (s.held.waiting.length+1) s behind
  -- a deadline kept for what has ended is cleared
  if s.readingHeld.isNone ∧ s.held.bounded.isSome ∧ s.held.bounded≠blocked then
    ({s with held := {s.held with bounded := none}},log++{effects := [.boundHeldKey none]})
  else (s,log)

def heldKey : Logged P :=
  nextHeld h {s with held := {s.held with waiting := s.held.waiting++[.held key]}} false

/-- A command pressed while a held key waits, or its watch is open. -/
def queueCommand (input : Command P) : Logged P :=
  let queued := {s with held := {s.held with waiting := s.held.waiting++[.command input]}}
  if s.heldBusy then (queued,{}) else nextHeld h queued true

def heldRead (reading : HeldRead P) (reply : Reply P) : Logged P :=
  let (s,atMs) := match reply with
    | .caret readAtMs caret =>
        ({s with view := h.updateCaret reading.node caret readAtMs s.view},
          if readAtMs=0 then reading.key.pressedAtMs else satAdd readAtMs 1)
    | _ => (s,reading.key.pressedAtMs)
  andThen (passHeld h s reading.key atMs) fun s => nextHeld h s true

def heldWaitEnded (trace : TraceId) : Logged P :=
  let front := s.held.waiting.head?.bind (fun front => front.waits.map (·.1))
  if s.readingHeld.isNone ∧ s.held.awaitingWatch.isSome ∧ front=some trace then
    nextHeld h {s with held := {s.held with awaitingWatch := none}} true
  else (s,{})

def heldKeyDue (trace : TraceId) : Logged P :=
  if s.held.bounded≠some trace then (s,{})
  else
    let s := {s with held := {s.held with bounded := none}}
    match s.readingHeld.filter (fun reading => reading.2.key.trace=trace) with
    | some (id,reading) =>
        match s.queries.lookup id with
        | some query =>
            andThen (emitting {s with queries := s.queries.remove id} [.withdraw query.outpost id])
              fun s => heldRead h s reading .unanswered
        | none => heldWaitEnded h s trace
    | none => heldWaitEnded h s trace

end Handled

end Verbatim.Core
