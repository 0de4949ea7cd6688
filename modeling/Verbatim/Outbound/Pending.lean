import Verbatim.Outbound.Messages

namespace Verbatim.Outbound

/-- A node or an anchor a message names. -/
inductive Carried where
  | node (number : Nat)
  | anchor (number : Nat)
  deriving DecidableEq

/-- When a node was reported: the number of the last message written that may have reported it, and
how many that may still wait. -/
structure Report where
  position : Nat := 0
  waiting : Nat := 0

/-- One entry of the ordinary queue: a message with what it names, or a flush marker. -/
inductive Waiting (M : Type) where
  | message (message : M) (touched : List Carried)
  | flushed (done : Nat)
  deriving DecidableEq

def Waiting.touched {M : Type} : Waiting M → List Carried
  | .message _ touched => touched
  | .flushed _ => []

inductive Outgoing (U M : Type) where
  | urgent (message : U)
  | ordinary (waiting : Waiting M)
  deriving DecidableEq

/-- The waiting messages, and the numbering of those that carry nodes. -/
structure Pending (U M : Type) where
  urgent : List U := []
  ordinary : List (Waiting M) := []
  position : Nat := 0
  reported : Carried → Option Report := fun _ => none

namespace Pending

variable {U M K : Type} [Merge M K] [DecidableEq K]

open Merge

def countWaiting (reported : Carried → Option Report) (carried : Carried) :
    Carried → Option Report :=
  Function.update reported carried
    (some {(reported carried).getD {} with waiting := ((reported carried).getD {}).waiting+1})

def sinceFlush : List (Waiting M) → Nat
  | [] => 0
  | .message _ _::waiting => if sinceFlush waiting=0 then 0 else sinceFlush waiting+1
  | .flushed _::waiting => sinceFlush waiting+1

def messageAt : Waiting M × Nat → Option (Nat × M)
  | (.message message _,place) => some (place,message)
  | (.flushed _,_) => none

def messagesFrom (start : Nat) (queue : List (Waiting M)) : List (Nat × M) :=
  (queue.zipIdx.drop start).filterMap messageAt

def queued (queue : List (Waiting M)) (message : M) (touched : List Carried) : List (Waiting M) :=
  match mergeInto (messagesFrom (sinceFlush queue) queue) message with
  | none => queue++[.message message touched]
  | some place =>
      match queue[place]? with
      | some (.message older olderTouched) =>
          queue.eraseIdx place++[.message (merged older message) (touched++olderTouched)]
      | some (.flushed _) => queue.eraseIdx place++[.message message touched]
      | none => queue++[.message message touched]

variable (pending : Pending U M)

def pushMessage (message : M) (touched : List Carried) : Pending U M :=
  {pending with
    reported := touched.foldl countWaiting pending.reported
    ordinary := queued pending.ordinary message touched}

def push : Outgoing U M → Pending U M
  | .urgent message => {pending with urgent := pending.urgent++[message]}
  | .ordinary (.message message touched) => pending.pushMessage message touched
  | .ordinary (.flushed done) => {pending with ordinary := pending.ordinary++[.flushed done]}

def pop : Option (Outgoing U M × Pending U M) :=
  match pending.urgent,pending.ordinary with
  | message::urgent,_ => some (.urgent message,{pending with urgent := urgent})
  | [],waiting::ordinary => some (.ordinary waiting,{pending with ordinary := ordinary})
  | [],[] => none

/-- What of a report a message written at `position` that names `carried` changes. -/
def countWritten (position : Nat) (reported : Carried → Option Report) (carried : Carried) :
    Carried → Option Report :=
  Function.update reported carried
    ((reported carried).map fun report => ⟨position,report.waiting-1⟩)

def number (carries : Bool) (touched : List Carried) : Pending U M :=
  let position := if carries then pending.position+1 else pending.position
  {pending with
    position := position
    reported := touched.foldl (countWritten position) pending.reported}

def forget (gone : Carried → Bool) : Pending U M :=
  {pending with
    reported := fun carried => if gone carried then none else pending.reported carried}

def isEmpty : Bool := pending.urgent.isEmpty && pending.ordinary.isEmpty

end Pending

end Verbatim.Outbound
