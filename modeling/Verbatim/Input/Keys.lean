import Mathlib.Data.List.Sort

namespace Verbatim.Input

def verbatimModifierName : String := "verbatim"

/-- Named keys: virtual-key code, and the extended flag where a twin differs only in it. -/
def namedKeys : List (String × Nat × Option Bool) :=
  [("break",0x03,none),("backspace",0x08,none),("tab",0x09,none),
    ("enter",0x0D,some false),("numpadenter",0x0D,some true),
    ("shift",0x10,none),("control",0x11,none),("alt",0x12,none),("pause",0x13,none),
    ("capslock",0x14,none),("escape",0x1B,none),("space",0x20,none),
    ("pageup",0x21,some true),("numpad9",0x21,some false),
    ("pagedown",0x22,some true),("numpad3",0x22,some false),
    ("end",0x23,some true),("numpad1",0x23,some false),
    ("home",0x24,some true),("numpad7",0x24,some false),
    ("leftarrow",0x25,some true),("numpad4",0x25,some false),
    ("uparrow",0x26,some true),("numpad8",0x26,some false),
    ("rightarrow",0x27,some true),("numpad6",0x27,some false),
    ("downarrow",0x28,some true),("numpad2",0x28,some false),
    ("numpad5",0x0C,none),("printscreen",0x2C,none),
    ("insert",0x2D,some true),("numpadinsert",0x2D,some false),("numpad0",0x2D,some false),
    ("delete",0x2E,some true),("numpaddelete",0x2E,some false),
    ("leftwindows",0x5B,none),("rightwindows",0x5C,none),("applications",0x5D,none),
    ("numpadmultiply",0x6A,none),("numpadplus",0x6B,none),("numpadminus",0x6D,none),
    ("numpaddivide",0x6F,none),("period",0xBE,none),
    ("f1",0x70,none),("f2",0x71,none),("f3",0x72,none),("f4",0x73,none),
    ("f5",0x74,none),("f6",0x75,none),("f7",0x76,none),("f8",0x77,none),
    ("f9",0x78,none),("f10",0x79,none),("f11",0x7A,none),("f12",0x7B,none),
    ("numlock",0x90,none),("scrolllock",0x91,none),
    ("leftshift",0xA0,none),("rightshift",0xA1,none),
    ("leftcontrol",0xA2,none),("rightcontrol",0xA3,none),
    ("leftalt",0xA4,none),("rightalt",0xA5,none),("plus",0xBB,none)]

def letters : List String :=
  ["a","b","c","d","e","f","g","h","i","j","k","l","m","n","o","p","q","r","s","t","u","v","w",
    "x","y","z"]

def digits : List String := ["0","1","2","3","4","5","6","7","8","9"]

/-- The name a virtual key takes in a run of names that starts at `first`. -/
def offsetInto (names : List String) (vk first : Nat) : Option String :=
  if first≤vk then names[vk-first]? else none

def nameFromVk (vk : Nat) (extended : Bool) : Option String :=
  match namedKeys.find? (fun (_,keyVk,keyExtended) =>
      keyVk=vk ∧ keyExtended.getD extended=extended) with
  | some (name,_,_) => some name
  | none =>
      if 0x41≤vk ∧ vk≤0x5A then offsetInto letters vk 0x41
      else if 0x30≤vk ∧ vk≤0x39 then offsetInto digits vk 0x30
      else none

inductive ToggleKey where
  | capsLock
  | numLock
  | scrollLock
  deriving DecidableEq

def ToggleKey.fromVk : Nat → Option ToggleKey
  | 0x14 => some .capsLock
  | 0x90 => some .numLock
  | 0x91 => some .scrollLock
  | _ => none

/-- A normalized gesture identifier `source:part+part`, held as its pieces. -/
structure GestureId where
  source : String
  parts : List String
  deriving DecidableEq

inductive GestureParseError where
  | missingSource (raw : String)
  | emptyPart (raw : String)
  deriving DecidableEq

/-- Parses an identifier: the parts are lowercased and sorted (identifiers are ASCII). -/
def GestureId.parse (raw : String) : Except GestureParseError GestureId :=
  let source := raw.toList.takeWhile (· ≠ ':')
  match raw.toList.dropWhile (· ≠ ':') with
  | [] => .error (.missingSource raw)
  | _::keys =>
      if source=[] then .error (.missingSource raw)
      else
        let parts := (keys.splitOn '+').map (fun part => (String.ofList part).toLower)
        if parts.any (· = "") then .error (.emptyPart raw)
        else .ok ⟨(String.ofList source).toLower,parts.insertionSort (·≤·)⟩

/-- The bound gestures, those observed on their way, and those of them held back. -/
structure GestureMap where
  bound : List GestureId
  observed : List GestureId
  held : List GestureId
  deriving DecidableEq

namespace GestureMap

def new (gestures : List GestureId) : GestureMap := ⟨gestures,[],[]⟩

variable (map : GestureMap)

def withObserved (gestures : List GestureId) : GestureMap :=
  {map with observed := map.observed++gestures}

def withHeld (gestures : List GestureId) : GestureMap :=
  {map with observed := map.observed++gestures, held := map.held++gestures}

variable (gesture : GestureId)

def holds : Bool := gesture∈map.held

def contains : Bool := gesture∈map.bound

def observes : Bool := gesture∈map.observed

def SparesLockKeys : Prop :=
  ∀ gesture∈map.held, ∀ name∈["capslock","numlock","scrolllock"], name∉gesture.parts

instance (map : GestureMap) : Decidable map.SparesLockKeys :=
  inferInstanceAs (Decidable (∀ gesture∈map.held, _))

end GestureMap

def caretMoves : List String :=
  ["leftarrow","rightarrow","control+leftarrow","control+rightarrow","uparrow","downarrow",
    "control+uparrow","control+downarrow","home","end","pageup","pagedown","control+home",
    "control+end"]

def caretEdits : List String :=
  ["backspace","shift+backspace","control+backspace","delete","shift+delete","numpaddelete",
    "shift+numpaddelete","control+delete","control+numpaddelete","alt+uparrow","alt+downarrow"]

def caretBindings : List GestureId :=
  (caretMoves.flatMap (fun keys => ["kb:" ++ keys,"kb:shift+" ++ keys]) ++
    caretEdits.map ("kb:" ++ ·)++["kb:control+a"]).filterMap
      fun identifier => (GestureId.parse identifier).toOption

/-- A map that holds the caret keys alone, as the application's does, spares the lock keys. -/
theorem caretBindings_spareLockKeys (bound observed : List GestureId) :
    (((GestureMap.new bound).withObserved observed).withHeld caretBindings).SparesLockKeys := by
  have hcaret : ∀ gesture∈caretBindings,
      ∀ name∈["capslock","numlock","scrolllock"], name∉gesture.parts := by decide +kernel
  intro gesture hmem
  exact hcaret gesture (by simpa [GestureMap.withHeld,GestureMap.withObserved,GestureMap.new]
    using hmem)

end Verbatim.Input
