import Verbatim.Core.HeldKeys

namespace Verbatim.Core

variable {P : Parts} (h : Handlers P)

/-- What the answer to the read before a held key does: in a terminal Core reads, its snapshot is
aligned first, and its caret answers the read. -/
def heldReadContinued (s : SrState P) (trace : TraceId) (reading : HeldRead P)
    (ending : Ending P) : Logged P :=
  match ending.toReply with
  | .snapshot snapshot =>
      andThen (runActs s (h.beforeKey s trace reading.node snapshot)) (fun s =>
        heldRead h s reading (match h.snapshotCaret snapshot with
          | some (readAtMs,caret) => .caret readAtMs caret
          | none => .unanswered))
  | reply => heldRead h s reading reply

/-- Runs what an ended query continues, then resumes the held keys when it was the watch they wait
for. -/
def endedWith (later : SrState P → Later P → Logged P) (s : SrState P) (trace : TraceId)
    (id : QueryId) (continues : Then P) (ending : Ending P) : Logged P :=
  let resume := s.held.awaitingWatch=some id
  let s := if resume then {s with held := {s.held with awaitingWatch := none}} else s
  andThen (match continues with
      | .heldRead reading => heldReadContinued h s trace reading ending
      | .later continuation => later s continuation)
    fun s => if resume then nextHeld h s true else (s,{})

def answerFromMemory (s : SrState P) (trace : TraceId) (id : QueryId) (reply : Reply P) :
    Logged P :=
  match s.queries.lookup id with
  | none => (s,{})
  | some query =>
      endedWith h
        (fun s continuation => runActs s (h.continued s trace continuation (.reply reply)))
        {s with queries := s.queries.remove id} trace id query.continues (.reply reply)

def runTurn (s : SrState P) : Turn P → Logged P
  | .act act => runAct s act
  | .answer trace id reply => answerFromMemory h s trace id reply

def runTurns (s : SrState P) : List (Turn P) → Logged P
  | [] => (s,{})
  | turn::turns => andThen (runTurn h s turn) fun s => runTurns s turns

def ended (s : SrState P) (trace : TraceId) (id : QueryId) (continues : Then P)
    (ending : Ending P) : Logged P :=
  endedWith h (fun s continuation => match continuation with
      | .terminalModel ask => runTurns h s (h.terminalModel s trace ask ending)
      | .nothing => (s,{})
      | continuation => runActs s (h.continued s trace continuation ending))
    s trace id continues ending

def answered (s : SrState P) (trace : TraceId) (id : QueryId) (outpost : OutpostId)
    (outcome : Outcome P) : Logged P :=
  match s.queries.lookup id with
  | none => (s,{})
  | some query =>
      if query.outpost≠outpost ∨ query.asked=.memory then (s,{})
      else ended h {s with queries := s.queries.remove id} trace id query.continues
        (.outcome outcome)

def endGone (trace : TraceId) : List QueryId → SrState P → Logged P
  | [],s => (s,{})
  | id::ids,s =>
      andThen (match s.queries.lookup id with
        | none => (s,{})
        | some query => ended h {s with queries := s.queries.remove id}
            (query.trace.getD trace) id query.continues (.outcome .gone))
      (endGone trace ids)

def outpostGone (s : SrState P) (trace : TraceId) (outpost : OutpostId) : Logged P :=
  endGone h trace ((s.queries.entries.filter fun (_,query) =>
    query.outpost=outpost ∧ query.asked≠.memory).map (·.1)) s

def reduceInput (s : SrState P) : Input P → Logged P
  | .answered trace id outpost outcome => answered h s trace id outpost outcome
  | .outpostEnded trace outpost =>
      andThen (runActs s (h.outpostEnded s outpost)) fun s => outpostGone h s trace outpost
  | .command input =>
      if s.heldBusy ∨ s.held.awaitingWatch.isSome then queueCommand h s input
      else
        let (s,log) := runActs s (h.command s input)
        (s,log++⟨[],[.command input]⟩)
  | .key input =>
      if s.heldBusy then
        ({s with held := {s.held with waiting := s.held.waiting++[.later input]}},{})
      else
        let (s,log) := keyInput h s input
        (s,log++⟨[],[.later input]⟩)
  | .heldKey key => heldKey h s key
  | .heldKeyDue trace => heldKeyDue h s trace
  | .exiting input => runActs {s with exiting := true} (h.exiting s input)
  | .other input => runActs s (h.event s input)

def Input.trace (h : Handlers P) : Input P → Option TraceId
  | .answered trace _ _ _ | .outpostEnded trace _ => some trace
  | .command input => some input.trace
  | .key input => some input.trace
  | .heldKey held => some held.trace
  | .heldKeyDue _ => none
  | .exiting input | .other input => h.traceOf input

def Input.requestTrace (h : Handlers P) : Input P → Option TraceId
  | .answered trace _ _ _ | .heldKeyDue trace => some trace
  | .outpostEnded _ _ => none
  | .command input => if input.isScript then none else some input.trace
  | .key input => some input.trace
  | .heldKey held => some held.trace
  | .exiting input | .other input => h.askedUnder input

def Effect.review : Effect P → Option (QueryId × NodeId × P.Review)
  | .request id node (.review op) => some (id,node,op)
  | .forKey _ effect => effect.review
  | _ => none

def Effect.key : Effect P → Option TraceId
  | .forKey trace _ => some trace
  | _ => none

/-- Takes out the requests Core answers from a terminal's memory. -/
def intercept (trace : Option TraceId) : List (Effect P) → SrState P → Logged P
  | [],s => (s,{})
  | effect::effects,s =>
      andThen (match effect.review.filter (fun (_,node,op) => h.answers s.view node op) with
        | none => emitting s [effect]
        | some (id,node,op) =>
            let trace := effect.key.or trace
            let s := {s with queries := s.queries.answerFromMemoryLater id trace}
            let (s,log) := runActs s (h.queue s node trace id op)
            (s,effect.key.elim log log.forKey))
      (intercept trace effects)

def Effect.setTrace (first : QueryId) : Effect P → Option TraceId → Queries (Then P) →
    Queries (Then P)
  | .forKey key effect,_,q => effect.setTrace first (some key) q
  | .request id _ _,trace,q =>
      if first ≤ id then q.alter id (fun query => {query with trace := trace}) else q
  | _,_,q => q

def setTraces (first : QueryId) (effects : List (Effect P)) (trace : Option TraceId)
    (q : Queries (Then P)) : Queries (Then P) :=
  effects.foldl (fun q effect => effect.setTrace first trace q) q

/-- Stamps what an effect says with the number of the key that caused it. -/
def Effect.stamp (stamp : Option TraceId → P.Effect → P.Effect) :
    Option TraceId → Effect P → Effect P
  | _,.forKey key effect => .forKey key (effect.stamp stamp (some key))
  | trace,.other effect => .other (stamp trace effect)
  | _,effect => effect

def reduce (s : SrState P) (input : Input P) : Logged P :=
  if s.exiting then (s,{})
  else
    let before := s.view
    let first := s.queries.next
    let (s,log) := reduceInput h {s with view := h.record input s.view} input
    let s := {s with view := h.settle before input s.view}
    let (s,sent) := intercept h (input.requestTrace h) log.effects s
    let (s,cut) := runActs s (h.cut s sent.effects)
    let effects := sent.effects++cut.effects
    let s := {s with queries := setTraces first effects (input.trace h) s.queries}
    (s,⟨effects.map (Effect.stamp (h.stamp s.view input) (input.trace h)),log.handled⟩)

end Verbatim.Core
