import Verbatim.Outpost.Entry

namespace Verbatim.Outpost

open Framework

abbrev NodeId := Nat

/-- The cross-process calls one piece of work made, by kind. -/
structure CallCounts where
  uia : Nat := 0
  msaa : Nat := 0
  windowMessages : Nat := 0
  connections : Nat := 0
  deriving DecidableEq

def addCalls (a b : Nat) : Nat := min (a+b) (2^32-1)

def CallCounts.add (a b : CallCounts) : CallCounts :=
  ⟨addCalls a.uia b.uia,addCalls a.msaa b.msaa,addCalls a.windowMessages b.windowMessages,
    addCalls a.connections b.connections⟩

/-- The times and calls of a request that its watch's answer fills in. -/
structure EventTiming where
  dequeuedAtUs : Nat := 0
  awaitedAtUs : Nat := 0
  publishedAtUs : Nat := 0
  calls : CallCounts := {}
  awaitedCalls : CallCounts := {}
  deriving DecidableEq

/-- What the caret key's watch is opened with, as far as the reducer reads it. -/
structure CaretWatch where
  pressedAtMs : Nat
  deriving DecidableEq

/-- A text query's reply: the end of a watch without evidence, or another, by number. -/
inductive TextReply where
  | watchEnded
  | said (reply : Nat)
  deriving DecidableEq

def handlingDeadlineUs : Nat := 11000000

/-- The longest a caret key's watch stays open without evidence. -/
def caretWatchBound : Nat := handlingDeadlineUs

def pollInterval : Nat := 5000

/-- How long after the key was passed on the console poll's last read is made. -/
def pollBound : Nat := 50000

/-- What a caret key's watch answers and looks for, and what its checks have cost so far. -/
structure OpenWatch where
  requestId : RequestId
  trace : TraceId
  nodeId : NodeId
  watch : CaretWatch
  timing : EventTiming
  calls : CallCounts
  deriving DecidableEq

/-- What a watch being checked goes back to when the check finds nothing. -/
inductive Resume where
  | bound (bound : Nat)
  | poll (next last : Nat)
  | read (last : Nat)
  deriving DecidableEq

/-- The caret key's watch. The source's `until` is `last` here: when the poll's last read is
due. -/
inductive Watch where
  | none
  | waiting (opened : OpenWatch) (bound : Nat)
  | polling (opened : OpenWatch) (next last : Nat)
  | checking (opened : OpenWatch) (resume : Resume)
  deriving DecidableEq

inductive Checked where
  | answered (reply : TextReply) (calls : CallCounts) (awaitedAtUs : Nat)
  | watching (calls : CallCounts)
  deriving DecidableEq

inductive Answer where
  | ended (opened : OpenWatch) (why : String)
  | evidence (opened : OpenWatch) (reply : TextReply) (calls : CallCounts) (awaitedAtUs : Nat)
  | abandoned (opened : OpenWatch)
  deriving DecidableEq

inductive Watch.Reached where
  | nothing
  | ended (answer : Answer)
  | read
  deriving DecidableEq

/-- The clock a transition reads: the reducer's, or none for a program's copy. -/
abbrev Clock := Option Nat

namespace Watch

def openWatch : Watch → Option OpenWatch
  | .none => Option.none
  | .waiting opened _ | .polling opened _ _ | .checking opened _ => some opened

def kept : Watch → Option OpenWatch
  | .waiting opened _ | .polling opened _ _ => some opened
  | .none | .checking _ _ => Option.none

def isNone : Watch → Bool
  | .none => true
  | _ => false

def pollUntil (pressedAtMs now : Nat) : Nat :=
  let pressedUs := min (pressedAtMs*1000) u64Max
  satAdd (if pressedUs=0 then now else pressedUs) pollBound

/-- A watch opened by `clock`, polling when its node is the focused console host's text area. -/
def opening (opened : OpenWatch) (console : Bool) (clock : Clock) : Watch :=
  if console then
    match clock with
    | Option.none => .polling opened 0 0
    | some now =>
        let last := pollUntil opened.watch.pressedAtMs now
        .polling opened (min (satAdd now pollInterval) last) last
  else .waiting opened (clock.elim 0 fun now => satAdd now caretWatchBound)

variable (watch : Watch)

def opened (new : OpenWatch) (console : Bool) (clock : Clock) : Watch × Bool :=
  if watch.isNone then (opening new console clock,true) else (watch,false)

def take (node : NodeId) : Watch × Option OpenWatch :=
  match watch with
  | .waiting opened bound =>
      if opened.nodeId=node then (.checking opened (.bound bound),some opened)
      else (watch,Option.none)
  | .polling opened next last =>
      if opened.nodeId=node then (.checking opened (.poll next last),some opened)
      else (watch,Option.none)
  | .none | .checking _ _ => (watch,Option.none)

/-- What a check that found nothing leaves of a watch to go back as `resume` says, by `clock`. -/
def resumed (opened : OpenWatch) (resume : Resume) (clock : Clock) : Watch × Option Answer :=
  match resume with
  | .bound bound => (.waiting opened bound,Option.none)
  | .poll next last => (.polling opened next last,Option.none)
  | .read last =>
      match clock with
      | some now =>
          if last≤now then (.none,some (.ended opened "its poll's bound passed"))
          else (.polling opened (min (satAdd now pollInterval) last) last,Option.none)
      | Option.none => (.polling opened 0 last,Option.none)

/-- The held watch's check found `found`: `none` when no watch is held, otherwise the answer it
gives, if any. -/
def checked (found : Checked) (clock : Clock) : Watch × Option (Option Answer) :=
  match watch with
  | .checking opened resume =>
      match found with
      | .answered reply calls awaitedAtUs =>
          (.none,some (some (.evidence opened reply calls awaitedAtUs)))
      | .watching calls =>
          let (watch,answer) := resumed {opened with calls := opened.calls.add calls} resume clock
          (watch,some answer)
  | _ => (watch,Option.none)

def finish (why : String) : Watch × Option Answer :=
  (.none,watch.openWatch.map fun opened => .ended opened why)

/-- Ends a waiting or polling watch for `why`; a held one is left to the program holding it. -/
def endKept (why : String) : Watch × Option Answer :=
  if watch.kept.isSome then watch.finish why else (watch,Option.none)

def reach (now : Nat) : Watch × Reached :=
  match watch with
  | .waiting opened bound =>
      if bound≤now then (.none,.ended (.ended opened "its bound passed")) else (watch,.nothing)
  | .polling opened next last =>
      if next≤now then (.checking opened (.read last),.read) else (watch,.nothing)
  | .none | .checking _ _ => (watch,.nothing)

def abandoned : Watch × Option Answer :=
  match watch with
  | .checking opened _ => (.none,some (.abandoned opened))
  | _ => (watch,Option.none)

def programEnded : Watch × Option Answer :=
  match watch with
  | .checking _ _ => watch.finish "its check failed"
  | _ => (watch,Option.none)

end Watch

end Verbatim.Outpost
