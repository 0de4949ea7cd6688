import Verbatim.ReaderRules.InFlight
import Mathlib.Data.List.Basic

namespace Verbatim.Outpost

open ReaderRules

def tickIsAfter (a b : UInt32) : Bool := a≠b ∧ a-b<0x80000000

/-- The thread that raised an MSAA event and when. -/
structure WinEventStamp where
  thread : Nat
  time : UInt32
  deriving DecidableEq

namespace WinEventStamp

def raisedAfter (stamp : WinEventStamp) (tick : UInt32) : Bool := tickIsAfter stamp.time tick

def raisedBefore (stamp : WinEventStamp) (tick : UInt32) : Bool := tickIsAfter tick stamp.time

end WinEventStamp

inductive NotificationKind where
  | itemAdded
  | itemRemoved
  | actionCompleted
  | actionAborted
  | other
  deriving DecidableEq

inductive NotificationProcessing where
  | importantAll
  | importantMostRecent
  | all
  | mostRecent
  | currentThenMostRecent
  deriving DecidableEq

structure Notification where
  kind : NotificationKind
  processing : NotificationProcessing
  activityId : Option String
  deriving DecidableEq

/-- The listener's read of a UIA focus: its window, its runtime id and its ancestors'. -/
structure UiaFocusRead where
  hwnd : Int
  runtimeId : List Int
  ancestors : List (List Int)
  deriving DecidableEq

/-- A fact the listener, or the outpost's own hook, delivers. -/
inductive DeliveredFact where
  | uiaFocusMarker (marker : Nat)
  | uiaFocusRead (marker : Nat) (read : UiaFocusRead) (focus : Bool)
  | uiaFocusDropped (marker : Nat) (focus noWindow : Bool)
  | uiaFocusReadsEnded
  | msaaFocus (hwnd idObject idChild : Int)
  | foreground (hwnd : Int)
  | menuPopup (hwnd idObject idChild : Int)
  | uiaMarked (marker : Nat) (fact : DeliveredFact)
  | uiaSelection (hwnd focusWindow : Int) (runtimeId : List Int)
  | uiaNotification (hwnd : Int) (runtimeId : List Int) (notification : Notification)
  | alert (hwnd idObject idChild : Int)
  | shown (hwnd idObject idChild : Int)
  deriving DecidableEq

inductive WinKind where
  | focus
  | foreground
  | valueChange
  | stateChange
  | nameChange
  | descriptionChange
  | selection
  | menuPopupStart
  | menuEnd
  | switchEnd
  | destroy
  | alert
  | caret
  | textSelectionChange
  | shown
  | consoleUpdate
  | shellForeground
  | consoleCaret
  deriving DecidableEq

namespace Property

def name : Int := 30005
def helpText : Int := 30013
def value : Int := 30045
def rangeValue : Int := 30047
def controllerFor : Int := 30104

end Property

def isStateProperty (id : Int) : Bool :=
  id∉[Property.name,Property.value,Property.rangeValue,Property.helpText,Property.controllerFor]

inductive UiaKind where
  | property (id : Int)
  | selection
  | notification (notification : Notification)
  | textSelection
  | textChanged
  | activeTextPosition (range : Option Nat)
  deriving DecidableEq

/-- A UIA event: `element` is the key its element is parked under. -/
structure UiaEvent where
  kind : UiaKind
  runtimeId : List Int
  hwnd : Int
  element : Option Nat
  deriving DecidableEq

def UiaEvent.parked (event : UiaEvent) : List Nat :=
  event.element.toList++match event.kind with
    | .activeTextPosition range => range.toList
    | _ => []

inductive Requester where
  | reducer
  | shell
  deriving DecidableEq

structure RequestId where
  asker : Requester
  number : Nat
  deriving DecidableEq

/-- A query of Core's, as far as the reducer tells queries apart: a caret key's carries when the
key was pressed, a shell item query when it is to be answered. -/
inductive Query where
  | focusNow
  | awaitCaret (pressedAtMs : Nat)
  | terminalHold
  | terminalRead
  | terminalCancel
  | text
  | dumpTree
  | shellItems (answerByUs : Nat)
  | shellItemPosition (answerByUs : Nat)
  | other
  deriving DecidableEq

inductive Asker where
  | round (round : Nat)
  | settle (id : Nat)
  deriving DecidableEq

inductive Item where
  | msaa (kind : WinKind) (hwnd idObject idChild : Int) (raiser : Nat)
  | uia (event : UiaEvent)
  | fact (fact : DeliveredFact) (stamp : Option WinEventStamp)
  | query (requestId : RequestId) (query : Query)
  | nodesHeld (nodes anchors : List Nat) (acknowledged : Nat)
  | notedCaret (nodeId : Nat)
  | barrier (asker : Asker) (behindNoted : Bool)
  | gapBound (bound : Nat)
  | gapRead (window : Int)
  deriving DecidableEq

def Item.parked : Item → List Nat
  | .uia event => event.parked
  | _ => []

abbrev TraceId := Nat

/-- The outpost's test of an entry against the system's foreground. -/
inductive Front where
  | untested
  | accepted (accepted : Bool)
  | foreground (inFrontAtUs : Option Nat) (uia : Bool)
  deriving DecidableEq

structure Entry where
  item : Item
  trace : TraceId
  observedAtUs : Nat
  front : Front
  deriving DecidableEq

def Entry.own (item : Item) (trace : TraceId) (observedAtUs : Nat) : Entry :=
  ⟨item,trace,observedAtUs,.untested⟩

inductive Source where
  | hook
  | listener
  | other
  deriving DecidableEq

def since (base tick : UInt32) : Nat := (tick-base).toNat

/-- Ticks less than half the clock's range from one another compare as they came. -/
theorem tickIsAfter_iff {base a b : UInt32} (ha : since base a<2^31) (hb : since base b<2^31) :
    tickIsAfter a b=true ↔ since base b<since base a := by
  have hab : (a-b).toNat=(2^32-b.toNat+a.toNat)%2^32 := UInt32.toNat_sub a b
  have hlt : a-b<0x80000000 ↔ (a-b).toNat<2^31 := UInt32.lt_iff_toNat_lt
  have hne : a≠b ↔ a.toNat≠b.toNat := not_congr UInt32.toNat_inj.symm
  have hda := UInt32.toNat_sub a base
  have hdb := UInt32.toNat_sub b base
  have hla := a.toNat_lt
  have hlb := b.toNat_lt
  simp only [since,hda,hdb] at ha hb ⊢
  simp only [tickIsAfter,decide_eq_true_eq,hlt,hne,hab]
  omega

theorem tickIsAfter_asymm {a b : UInt32} (h : tickIsAfter a b=true) : tickIsAfter b a=false := by
  have hab : (a-b).toNat=(2^32-b.toNat+a.toNat)%2^32 := UInt32.toNat_sub a b
  have hba : (b-a).toNat=(2^32-a.toNat+b.toNat)%2^32 := UInt32.toNat_sub b a
  have hlt : a-b<0x80000000 ↔ (a-b).toNat<2^31 := UInt32.lt_iff_toNat_lt
  have hlt' : b-a<0x80000000 ↔ (b-a).toNat<2^31 := UInt32.lt_iff_toNat_lt
  have hne : a≠b ↔ a.toNat≠b.toNat := not_congr UInt32.toNat_inj.symm
  have hla := a.toNat_lt
  have hlb := b.toNat_lt
  simp only [tickIsAfter,decide_eq_true_eq,hlt,hne,hab] at h
  simp only [tickIsAfter,decide_eq_false_iff_not,hlt',hba]
  omega

end Verbatim.Outpost
