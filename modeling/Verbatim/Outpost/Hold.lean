import Verbatim.Outpost.Entry
import Mathlib.Data.List.Perm.Basic

namespace Verbatim.Outpost

/-- The hold's state: the hook's copies are held from its install to the end of the listener's
forwarding. -/
inductive Hold where
  | unhooked
  | holding (held : List Entry) (newestForwarded : Option UInt32)
  | over
  deriving DecidableEq

def forwarded : DeliveredFact → Bool
  | .msaaFocus _ _ _ | .foreground _ | .menuPopup _ _ _ | .alert _ _ _ | .shown _ _ _ => true
  | _ => false

/-- When the event of `entry` was raised, if it is a copy of a kind the listener forwards. -/
def forwardedTime (entry : Entry) : Option UInt32 :=
  match entry.item with
  | .fact fact (some stamp) => if forwarded fact then some stamp.time else none
  | _ => none

namespace Hold

def hooked : Hold → Hold
  | .unhooked => .holding [] none
  | hold => hold

def withoutListener : Hold → Hold × List Entry
  | .holding held _ => (.over,held)
  | _ => (.over,[])

variable (hold : Hold)

def hookedCopy (entry : Entry) : Hold × Option Entry :=
  match hold with
  | .holding held newest => (.holding (held++[entry]) newest,none)
  | hold => (hold,some entry)

def listenerCopy (entry : Entry) : Hold :=
  match hold,forwardedTime entry with
  | .holding held newest,some time =>
      if newest.all (fun newest => tickIsAfter time newest) then .holding held (some time)
      else hold
  | hold,_ => hold

def releases (through : Option UInt32) (entry : Entry) : Bool :=
  through.all fun through => (forwardedTime entry).all fun time => tickIsAfter time through

/-- Releases the hold, dropping the held copies of the forwarded kinds raised at or before
`through`, when given. -/
def release (through : Option UInt32) : Hold × Option (List Entry) :=
  match hold with
  | .holding held _ => (.over,some (held.filter (releases through)))
  | _ => (.over,none)

def forwardingEnded (through : UInt32) : Hold × Option (List Entry) :=
  hold.release (some through)

def readsEnded : Hold × Option (List Entry) :=
  match hold with
  | .holding _ newest => hold.release newest
  | hold => (hold,none)

end Hold

inductive HoldInput where
  | entry (entry : Entry) (source : Source)
  | hooked
  | withoutListener
  | forwardingEnded (through : UInt32)
  deriving DecidableEq

def Hold.entry (hold : Hold) (entry : Entry) : Source → Hold × List Entry
  | .hook => ((hold.hookedCopy entry).1,(hold.hookedCopy entry).2.toList)
  | .listener => (hold.listenerCopy entry,[entry])
  | .other =>
      match entry.item with
      | .fact .uiaFocusReadsEnded _ =>
          (hold.readsEnded.1,entry::hold.readsEnded.2.getD [])
      | _ => (hold,[entry])

/-- Takes one input: the hold after it, and what is pushed into the intake, in order. -/
def Hold.input (hold : Hold) : HoldInput → Hold × List Entry
  | .entry entry source => hold.entry entry source
  | .hooked => (hold.hooked,[])
  | .withoutListener => hold.withoutListener
  | .forwardingEnded through =>
      ((hold.forwardingEnded through).1,(hold.forwardingEnded through).2.getD [])

def Hold.pushed (hold : Hold) : List HoldInput → List Entry
  | [] => []
  | input::inputs => (hold.input input).2++(hold.input input).1.pushed inputs

end Verbatim.Outpost
