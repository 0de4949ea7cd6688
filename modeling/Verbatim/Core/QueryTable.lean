import Verbatim.Core.Queries

namespace Verbatim.Core.QueryTable

/-- What the answer to a query continues: nothing, or one of Core's rules. -/
inductive Then (R : Type*) where
  | nothing
  | rule (rule : R)
  deriving DecidableEq

variable {R : Type*}

/-- Whether a rule is one `which` picks: a query turned to nothing never is. -/
def Then.picked (which : R → Bool) : Then R → Bool
  | .nothing => false
  | .rule r => which r

/-- What a query asks of its node; of a text request, whether it is a caret key's watch. -/
inductive Asking where
  | navigate (node : NodeId)
  | text (node : NodeId) (awaitsCaret : Bool)
  | activate (node : NodeId)
  deriving DecidableEq

/-- The effects that name a query, and those under a key. -/
inductive Effect where
  | fetch (query : QueryId) (node : NodeId)
  | text (query : QueryId) (node : NodeId)
  | activate (query : QueryId) (node : NodeId)
  | withdraw (outpost : OutpostId) (query : QueryId)
  | forKey (key : TraceId) (inner : Effect)
  | other
  deriving DecidableEq

section Table

variable (q : Queries (Then R)) (id : QueryId)

def asks : Asking → NodeId × Asked × Effect
  | .navigate node => (node,.read,.fetch id node)
  | .text node awaitsCaret => (node,if awaitsCaret then .watch else .read,.text id node)
  | .activate node => (node,.read,.activate id node)

def withdraw : Option (Queries (Then R) × Then R × Effect) :=
  (q.lookup id).map fun query => (q.remove id,query.continues,.withdraw query.outpost id)

def outstanding : Nat := (q.entries.filter fun entry => entry.2.asked=.read).length

def setTrace (first : QueryId) (trace : Option TraceId) :
    Effect → Queries (Then R) → Queries (Then R)
  | .forKey key inner,q => setTrace first (some key) inner q
  | .fetch id _,q | .text id _,q | .activate id _,q =>
      if first ≤ id then q.alter id (fun query => {query with trace := trace}) else q
  | .withdraw _ _,q | .other,q => q

def setTraces (first : QueryId) (effects : List Effect) (input : Option TraceId) :
    Queries (Then R) :=
  if q.next=first then q
  else effects.foldl (fun q effect => setTrace first input effect q) q

def askedOf (outpost : OutpostId) : List QueryId :=
  (q.entries.filter fun entry => entry.2.outpost=outpost ∧ entry.2.asked≠.memory).map Prod.fst

end Table

inductive Cause where
  | answer
  | memory
  | gone (outpost : OutpostId)
  | withdrawal
  | forgotten
  deriving DecidableEq

/-- What is done to the table, for an account of a run. -/
inductive Event (R : Type*) where
  | asked (query : QueryId) (outpost : OutpostId) (asked : Asked)
  /-- Its request was taken out of the effects. -/
  | taken (query : QueryId)
  | ended (query : QueryId) (cause : Cause)
  /-- Its continuation was run, or given back to its owner. -/
  | ran (query : QueryId) (rule : R)
  deriving DecidableEq

/-- The table's operations. The ones a continuation makes come after the one that runs it. -/
inductive Op (R : Type*) where
  | ask (asking : Asking) (continues : Then R)
  | askMemory (node : NodeId) (continues : Then R)
  | answerFromMemoryLater (query : QueryId) (trace : Option TraceId)
  | replace (query : QueryId) (continues : Then R)
  | findMut (which : R → Bool) (f : Then R → Then R)
  | forget (which : R → Bool)
  | withdraw (query : QueryId)
  | forgetMemory (queries : List QueryId)
  | setTraces (first : QueryId) (effects : List Effect) (input : Option TraceId)
  | answered (query : QueryId) (outpost : OutpostId)
  | answerFromMemory (query : QueryId)
  /-- `outpost_gone` begins: the queries it ends are those open now. -/
  | outpostGone (outpost : OutpostId)
  /-- The next turn of the last `outpost_gone` begun, or its return. -/
  | nextGone

/-- The table, the `outpost_gone` loops running with the queries each has still to end, the
innermost first, and what was done so far. -/
structure State (R : Type*) where
  queries : Queries (Then R) := {}
  loops : List (OutpostId × List QueryId) := []
  log : List (Event R) := []

namespace State

def runs (id : QueryId) : Then R → List (Event R)
  | .nothing => []
  | .rule r => [.ran id r]

variable (c : State R)

def finish (id : QueryId) (cause : Cause) : State R :=
  match c.queries.lookup id with
  | none => c
  | some query =>
      {c with
        queries := c.queries.remove id
        log := c.log++.ended id cause::runs id query.continues}

/-- The outpost's answer: dropped unless the query is open, of that outpost and not Core's own. -/
def answered (id : QueryId) (outpost : OutpostId) : State R :=
  match c.queries.lookup id with
  | none => c
  | some query =>
      if query.outpost≠outpost ∨ query.asked=.memory then c else c.finish id .answer

def forgotten (before after : Queries (Then R)) : List (Event R) :=
  (before.numbers.filter (·∉after.numbers)).map fun id => .ended id .forgotten

def ask (node : NodeId) (asked : Asked) (continues : Then R) : State R :=
  {c with
    queries := c.queries.ask node asked continues
    log := c.log++[.asked c.queries.next node.outpost asked]}

def step : Op R → State R
  | .ask asking continues =>
      let (node,asked,_) := asks c.queries.next asking
      c.ask node asked continues
  | .askMemory node continues => c.ask node .memory continues
  | .answerFromMemoryLater id trace =>
      {c with
        queries := c.queries.answerFromMemoryLater id trace
        log := c.log++if id∈c.queries.numbers then [.taken id] else []}
  | .replace id continues => {c with queries := c.queries.replace id continues}
  | .findMut which f => {c with queries := c.queries.findMut (Then.picked which) f}
  | .forget which =>
      {c with
        queries := c.queries.forget (Then.picked which) .nothing
        log := c.log++forgotten c.queries (c.queries.forget (Then.picked which) .nothing)}
  | .withdraw id =>
      match withdraw c.queries id with
      | none => c
      | some (queries,continues,_) =>
          {c with queries := queries, log := c.log++.ended id .withdrawal::runs id continues}
  | .forgetMemory ids =>
      {c with
        queries := c.queries.forgetMemory ids
        log := c.log++forgotten c.queries (c.queries.forgetMemory ids)}
  | .setTraces first effects input =>
      {c with queries := setTraces c.queries first effects input}
  | .answered id outpost => c.answered id outpost
  | .answerFromMemory id => c.finish id .memory
  | .outpostGone outpost =>
      {c with loops := (outpost,askedOf c.queries outpost)::c.loops}
  | .nextGone =>
      match c.loops with
      | [] => c
      | (_,[])::loops => {c with loops := loops}
      | (outpost,id::ids)::loops =>
          {c with loops := (outpost,ids)::loops}.finish id (.gone outpost)

def run (ops : List (Op R)) : State R := ops.foldl step c

end State

end Verbatim.Core.QueryTable
