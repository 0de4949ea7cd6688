import Verbatim.Input.Keys
import Mathlib.Algebra.Order.Ring.Int

namespace Verbatim.Input

structure KeyEvent where
  vk : Nat
  extended : Bool
  pressed : Bool
  deriving DecidableEq

abbrev KeyCode := Nat × Bool

def KeyEvent.key (event : KeyEvent) : KeyCode := (event.vk,event.extended)

/-- Which keys act as the Verbatim modifier, and the settings of speech interruption.
The multi-press timeout is in nanoseconds. -/
structure DecisionConfig where
  capsLock : Bool := true
  insert : Bool := true
  numpadInsert : Bool := true
  shareModifier : Bool := false
  multiPressTimeout : Nat := 500000000
  interruptForCharacters : Bool := true
  interruptForEnter : Bool := true

structure RaisedGesture where
  gesture : GestureId
  repeats : Nat
  deriving DecidableEq

inductive KeySpeechEffect where
  | cancel
  | togglePause
  deriving DecidableEq

inductive KeySource where
  | user
  | own
  deriving DecidableEq

/-- What the view of the window in front lets the machine do with a key. -/
inductive HoldPermit where
  | none
  | defer
  | holdAndDefer
  deriving DecidableEq

structure KeyInput where
  event : KeyEvent
  now : Nat
  numLock : Bool
  source : KeySource
  permit : HoldPermit
  mayMask : Bool
  deriving DecidableEq

/-- What the hook does with a transition; a place in line is 32 bits wide. -/
inductive Verdict where
  | pass
  | swallow
  | hold (place : Nat)
  | defer (place : Nat)
  deriving DecidableEq

inductive PressReport where
  | nothing
  | translated
  | translatedOrPassed
  deriving DecidableEq

structure Decision where
  verdict : Verdict
  emitted : Option RaisedGesture := none
  speech : Option KeySpeechEffect := none
  sharedModifier : Bool := false
  observed : Option RaisedGesture := none
  typing : PressReport := .nothing
  toggle : Option ToggleKey := none
  mask : Option (Nat × Nat) := none
  deriving DecidableEq

namespace Decision

def pass : Decision := {verdict := .pass}

def passObserved (gesture : GestureId) : Decision := {pass with observed := some ⟨gesture,0⟩}

def passSharedModifier : Decision := {pass with sharedModifier := true}

def swallow : Decision := {pass with verdict := .swallow}

def swallowEmit (emitted : RaisedGesture) : Decision :=
  {pass with verdict := .swallow, emitted := some emitted}

end Decision

def vkCapital : Nat := 0x14
def vkInsert : Nat := 0x2D
def vkReturn : Nat := 0x0D
def vkSpace : Nat := 0x20
def vkNumlock : Nat := 0x90
def vkScroll : Nat := 0x91
def vkShift : Nat := 0x10
def vkLshift : Nat := 0xA0
def vkRshift : Nat := 0xA1
def vkVolumeMute : Nat := 0xAD
def vkVolumeUp : Nat := 0xAF

def vkUnknown : Nat := 0xFF

def vkMask : Nat := vkUnknown

structure KeyDown where
  reached : Bool := false
  swallowedGesture : Bool := false

/-- A transition held back or deferred: none for a held key, sent with its release. -/
structure Waiting where
  place : Nat
  transition : Option (Nat × Bool)

inductive KeyRole where
  | modifier
  | named (name : String)
  | unnamed
  deriving DecidableEq

/-- How long before `now` the time `before` was, in nanoseconds, both given in microseconds. -/
def since (before now : Nat) : Nat := (now-before)*1000

/-- Where a lone press of a Verbatim-modifier key stands. -/
inductive LoneModifier where
  | idle
  | heldAlone (key : KeyCode)
  | tapPending (key : KeyCode) (released : Nat)
  | passingThrough

namespace LoneModifier

def handsPressToOs (lone : LoneModifier) (key : KeyCode) (now timeout : Nat) : Bool :=
  match lone with
  | .passingThrough => true
  | .tapPending tapped released => tapped=key ∧ since released now<timeout
  | .idle | .heldAlone _ => false

def afterPress (key : KeyCode) (handsToOs : Bool) (role : KeyRole) : LoneModifier :=
  if handsToOs then .passingThrough
  else if role=.modifier then .heldAlone key
  else .idle

def afterRelease (lone : LoneModifier) (key : KeyCode) (now : Nat) : LoneModifier :=
  match lone with
  | .passingThrough => .idle
  | .heldAlone candidate => if candidate=key then .tapPending key now else lone
  | .tapPending candidate _ => if candidate=key then .tapPending key now else lone
  | .idle => .idle

end LoneModifier

def genericModifierName (vk : Nat) : Option String :=
  if vk∈[0x11,0xA2,0xA3] then some "control"
  else if vk∈[0x10,0xA0,0xA1] then some "shift"
  else if vk∈[0x12,0xA4,0xA5] then some "alt"
  else if vk∈[0x5B,0x5C] then some "leftwindows"
  else none

def isNormalModifier (vk : Nat) : Bool := (genericModifierName vk).isSome

def isNumpadOperator (vk : Nat) : Bool := vk∈[0x6A,0x6B,0x6D,0x6F]

/-- Whether a key passed without typing text may edit the text or move the caret. -/
def mayEdit (vk : Nat) : Bool :=
  !isNormalModifier vk && (ToggleKey.fromVk vk).isNone &&
    !(vk∈[0x13,0x2C,0x5F] ∨ (0xA6≤vk ∧ vk≤0xB7))

/-- Completes a decision with what the transition reports. -/
def report (event : KeyEvent) (source : KeySource) (decision : Decision) : Decision :=
  let decision :=
    if source=.own then {decision with speech := none, observed := none} else decision
  let reaches : Bool := match decision.verdict with
    | .pass | .defer _ => true
    | _ => false
  let typing :=
    if event.pressed ∧ reaches ∧ !decision.sharedModifier ∧ source=.user then
      if decision.observed.isNone ∧ mayEdit event.vk then .translatedOrPassed else .translated
    else .nothing
  {decision with
    typing := typing
    toggle := if event.pressed ∧ decision.verdict=.pass ∧ !decision.sharedModifier then
        ToggleKey.fromVk event.vk
      else none}

/-- The keyboard decision state machine. Keys down are looked up by key only. -/
structure DecisionMachine where
  config : DecisionConfig
  map : GestureMap
  heldModifiers : List KeyCode
  keysDown : KeyCode → Option KeyDown
  loneModifier : LoneModifier
  lastGesture : Option (GestureId × Nat)
  repeatCount : Nat
  line : List Waiting
  lastPlace : Nat

namespace DecisionMachine

def new (config : DecisionConfig) (map : GestureMap) : DecisionMachine :=
  ⟨config,map,[],fun _ => none,.idle,none,0,[],0⟩

variable (m : DecisionMachine)

def isVerbatimModifier (vk : Nat) (extended : Bool) : Bool :=
  (m.config.capsLock && vk == vkCapital) || (m.config.insert && vk == vkInsert && extended) ||
    (m.config.numpadInsert && vk == vkInsert && !extended)

/-- The modifiers down in the application could act if released alone. -/
def modifiersMayActAlone : Bool :=
  let reached (vks : List Nat) := m.heldModifiers.any (fun key =>
    decide (key.1∈vks) && (m.keysDown key).any (·.reached))
  reached [0x12,0xA4,0xA5,0x5B,0x5C] || (reached [0x11,0xA2,0xA3] && reached [0x10,0xA0,0xA1])

def dropThrough (place : Nat) : List Waiting → List Waiting
  | [] => []
  | front::rest => if front.place=place then rest else dropThrough place rest

/-- Notes that the key at `place` was passed on, and with it every key ahead of it. -/
def passedOn (place : Nat) : DecisionMachine :=
  if m.line.any (·.place=place) then {m with line := dropThrough place m.line} else m

def hasOutstanding : Bool := !m.line.isEmpty

def nextPlace (place : Nat) : Nat := if place+1<2^32 then place+1 else 1

def queue (transition : Option (Nat × Bool)) : DecisionMachine × Nat :=
  let place := nextPlace m.lastPlace
  ({m with lastPlace := place, line := m.line++[⟨place,transition⟩]},place)

variable (key : KeyCode)

def setKey (change : KeyDown → KeyDown) : DecisionMachine :=
  {m with keysDown := Function.update m.keysDown key (some (change ((m.keysDown key).getD {})))}

variable (event : KeyEvent)

/-- The place in line of a transition the rules passed, or that it passes now. -/
def placePassed (source : KeySource) (permit : HoldPermit) : DecisionMachine × Verdict :=
  if source=.user ∧ (ToggleKey.fromVk event.vk).isNone ∧ permit≠.none ∧ m.line≠[] then
    let (m,place) := m.queue (some (event.vk,event.pressed))
    (m,.defer place)
  else (m,.pass)

/-- The verdict on a transition the rules passed or swallowed, recorded on its key. -/
def place (source : KeySource) (permit : HoldPermit)
    (decision : Decision) : DecisionMachine × Verdict :=
  if event.pressed then
    let held : Bool := source=.user ∧ permit=.holdAndDefer ∧
      decision.observed.any (fun observed => m.map.holds observed.gesture)
    if decision.verdict=.swallow then (m.setKey event.key id,.swallow)
    else
      let m := m.setKey event.key (fun down => {down with reached := !held})
      if held then
        let (m,place) := m.queue none
        (m,.hold place)
      else m.placePassed event source permit
  else
    let down := m.keysDown event.key
    let m := {m with keysDown := Function.update m.keysDown event.key none}
    if down.any (fun down => !down.reached) then (m,.swallow)
    else m.placePassed event source permit

def isTypedCharacter : Bool :=
  let vk := event.vk
  if m.isVerbatimModifier vk event.extended then false
  else
    let modifiersAllow := m.heldModifiers.all fun key => key.1∈[vkShift,vkLshift,vkRshift]
    let characterKey : Bool := vk=vkSpace ∨ (0x30≤vk ∧ vk≤0x39) ∨
      (0x41≤vk ∧ vk≤0x5A) ∨ (0xBA≤vk ∧ vk≤0xC0) ∨ (0xDB≤vk ∧ vk≤0xDF) ∨ vk=0xE2
    let lockKey : Bool := vk∈[vkCapital,vkNumlock,vkScroll]
    lockKey || (characterKey && modifiersAllow)

/-- What a key-down does to speech, read before the press is recorded as held. -/
def speechEffect : Option KeySpeechEffect :=
  let isShift : Bool := event.vk∈[vkShift,vkLshift,vkRshift]
  if (event.extended ∧ vkVolumeMute≤event.vk ∧ event.vk≤vkVolumeUp) ∨ event.vk=vkUnknown then none
  else if !m.config.interruptForCharacters ∧ (isShift ∨ m.isTypedCharacter event) then none
  else if !m.config.interruptForEnter ∧ event.vk=vkReturn then none
  else if isShift then
    if event.key∈m.heldModifiers then none else some .togglePause
  else some .cancel

def roleOf (handsToOs : Bool) : KeyRole :=
  if !handsToOs ∧ m.isVerbatimModifier key.1 key.2 then .modifier
  else match nameFromVk key.1 key.2 with
    | some name => .named name
    | none => .unnamed

/-- The repeat count of this emission; a genuine press advances the streak. -/
def countPress (gesture : GestureId) (key : KeyCode) (now : Nat) : DecisionMachine × Nat :=
  if (m.keysDown key).any (·.swallowedGesture) then (m,m.repeatCount)
  else
    let count := match m.lastGesture with
      | some (last,before) =>
          if last=gesture ∧ since before now < m.config.multiPressTimeout then
            min (m.repeatCount+1) 255
          else 0
      | none => 0
    ({m with repeatCount := count, lastGesture := some (gesture,now)},count)

/-- The gesture of the key going down with the modifiers held, by their generic names. -/
def buildGesture (currentKey : KeyCode) (mainName : String) : Option GestureId :=
  let parts := m.heldModifiers.filterMap (fun key =>
    if key=currentKey then none
    else if m.isVerbatimModifier key.1 key.2 then some verbatimModifierName
    else genericModifierName key.1)
  (GestureId.parse ("kb:" ++ "+".intercalate (parts++[mainName]))).toOption

/-- A press the rules name `mainName`: it is swallowed for a bound gesture, or passed. -/
def pressNamed (now : Nat) (handsToOs : Bool)
    (role : KeyRole) (mainName : String) : DecisionMachine × Decision :=
  let m := if role=.modifier ∨ isNormalModifier key.1 then
      {m with heldModifiers := m.heldModifiers.insert key}
    else m
  let gesture := m.buildGesture key mainName
  match gesture.filter m.map.contains with
  | some gesture =>
      let (m,count) := m.countPress gesture key now
      (m.setKey key fun down => {down with swallowedGesture := true},.swallowEmit ⟨gesture,count⟩)
  | none =>
      let m := if role≠.modifier ∧ !isNormalModifier key.1 then {m with lastGesture := none}
        else m
      if role=.modifier then
        if m.config.shareModifier then (m,.passSharedModifier)
        else (m.setKey key fun down => {down with swallowedGesture := true},.swallow)
      else if handsToOs ∧ m.config.shareModifier then (m,.passSharedModifier)
      else match gesture.filter m.map.observes with
        | some gesture => (m,.passObserved gesture)
        | none => (m,.pass)

def onPress (now : Nat) (numLock : Bool) : DecisionMachine × Decision :=
  let key := event.key
  let handsToOs := m.loneModifier.handsPressToOs key now m.config.multiPressTimeout
  let role := m.roleOf key handsToOs
  let m := {m with loneModifier := .afterPress key handsToOs role}
  match role with
  | .modifier => m.pressNamed key now handsToOs role verbatimModifierName
  | .named name =>
      if numLock ∧ isNumpadOperator event.vk then ({m with lastGesture := none},.pass)
      else m.pressNamed key now handsToOs role name
  | .unnamed => ({m with lastGesture := none},.pass)

def onRelease (now : Nat) : DecisionMachine × Decision :=
  ({m with
      loneModifier := m.loneModifier.afterRelease event.key now
      heldModifiers := m.heldModifiers.erase event.key},.pass)

/-- What the rules decide of a transition, before it takes its place. -/
def rules (input : KeyInput) : DecisionMachine × Decision :=
  if input.event.pressed then
    let (m',decision) := m.onPress input.event input.now input.numLock
    (m',{decision with speech := m.speechEffect input.event})
  else m.onRelease input.event input.now

def onKey (input : KeyInput) : DecisionMachine × Decision :=
  let (m,decision) := m.rules input
  let (m,verdict) := m.place input.event input.source input.permit decision
  let decision := report input.event input.source {decision with verdict := verdict}
  if decision.emitted.isSome ∧ input.source=.user ∧ input.mayMask ∧ m.modifiersMayActAlone then
    let (m,press) := m.queue (some (vkMask,true))
    let (m,release) := m.queue (some (vkMask,false))
    (m,{decision with mask := some (press,release)})
  else (m,decision)

end DecisionMachine

end Verbatim.Input
